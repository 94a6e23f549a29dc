import TaggedCache.Binary.Format
import Mathlib.Data.Nat.Log
import Mathlib.Tactic.Ring
import Mathlib.Tactic.SplitIfs

namespace TaggedCache.Binary

-- Rounding a quotient

theorem roundDiv_mul_left (k num den : Nat) (hk : 0 < k) :
    roundDiv (k * num) (k * den) = roundDiv num den := by
  have hlow : k * num / (k * den) = num / den := Nat.mul_div_mul_left num den hk
  have hrem : 2 * (k * num % (k * den)) = k * (2 * (num % den)) := by
    rw [Nat.mul_mod_mul_left, Nat.mul_left_comm]
  simp only [roundDiv, hlow, hrem, Nat.mul_lt_mul_left hk]

theorem roundDiv_mul_self (n den : Nat) (hden : 0 < den) : roundDiv (den * n) den = n := by
  simp [roundDiv, Nat.mul_div_cancel_left n hden, hden]

theorem div_le_roundDiv (num den : Nat) : num / den ≤ roundDiv num den := by
  simp only [roundDiv]
  split_ifs <;> omega

theorem roundDiv_le_div_succ (num den : Nat) : roundDiv num den ≤ num / den + 1 := by
  simp only [roundDiv]
  split_ifs <;> omega

theorem roundDiv_mono {num num' : Nat} (den : Nat) (h : num ≤ num') :
    roundDiv num den ≤ roundDiv num' den := by
  have hdiv : num / den ≤ num' / den := Nat.div_le_div_right h
  rcases Nat.lt_or_eq_of_le hdiv with hlt | heq
  · exact (roundDiv_le_div_succ num den).trans (hlt.trans_le (div_le_roundDiv num' den))
  · have hnum := Nat.div_add_mod num den
    have hnum' := Nat.div_add_mod num' den
    rw [heq] at hnum
    simp only [roundDiv, heq]
    split_ifs <;> omega

namespace Format

theorem fractions_pos (format : Format) : 0 < format.fractions :=
  Nat.pow_pos (by decide)

-- The fields of a magnitude give its value. An exponent field of zero stands for the smallest
-- exponent, without the leading one.
theorem units_of_lt (format : Format) (fraction : Nat) (h : fraction < format.fractions) :
    format.units fraction = fraction := by
  simp [units, Nat.div_eq_of_lt h, Nat.mod_eq_of_lt h]

theorem units_normal (format : Format) (exponent fraction : Nat) (h : fraction < format.fractions) :
    format.units ((exponent + 1) * format.fractions + fraction) =
      (format.fractions + fraction) * 2 ^ exponent := by
  have hpos := format.fractions_pos
  have hdiv : ((exponent + 1) * format.fractions + fraction) / format.fractions = exponent + 1 := by
    rw [Nat.mul_comm, Nat.mul_add_div hpos, Nat.div_eq_of_lt h, Nat.add_zero]
  have hmod : ((exponent + 1) * format.fractions + fraction) % format.fractions = fraction := by
    rw [Nat.mul_comm, Nat.mul_add_mod, Nat.mod_eq_of_lt h]
  simp [units, hdiv, hmod]

-- The leading bit of a normal significand
theorem log2_normal (format : Format) (exponent fraction : Nat) (h : fraction < format.fractions) :
    ((format.fractions + fraction) * 2 ^ exponent).log2 = format.fractionBits + exponent := by
  have hpos := format.fractions_pos
  have hpow : 0 < 2 ^ exponent := Nat.pow_pos (by decide)
  have hne : (format.fractions + fraction) * 2 ^ exponent ≠ 0 :=
    (Nat.mul_pos (by omega) hpow).ne'
  have hsplit : 2 ^ (format.fractionBits + exponent) = format.fractions * 2 ^ exponent :=
    Nat.pow_add ..
  rw [Nat.log2_eq_iff hne]
  constructor
  · rw [hsplit]
    exact Nat.mul_le_mul_right _ (Nat.le_add_right ..)
  · rw [Nat.pow_succ, hsplit, Nat.mul_right_comm]
    exact Nat.mul_lt_mul_of_pos_right (by omega) hpow

-- How many trailing places of a value are dropped before it is rounded
def drop (format : Format) (num den : Nat) : Nat :=
  (num * format.scale / den).log2 - format.fractionBits

theorem nearest_eq (format : Format) (num den : Nat) :
    format.nearest num den =
      min (format.drop num den * format.fractions +
        roundDiv (num * format.scale) (den * 2 ^ format.drop num den)) format.infinity := rfl

theorem nearest_mul_left (format : Format) (k num den : Nat) (hk : 0 < k) :
    format.nearest (k * num) (k * den) = format.nearest num den := by
  have hdrop : format.drop (k * num) (k * den) = format.drop num den := by
    simp only [drop, Nat.mul_assoc, Nat.mul_div_mul_left _ _ hk]
  simp only [nearest_eq, hdrop, Nat.mul_assoc, roundDiv_mul_left k _ _ hk]

-- The nearest magnitude depends on the quotient alone.
theorem nearest_congr (format : Format) {num den num' den' : Nat} (hden : 0 < den)
    (hden' : 0 < den') (h : num * den' = num' * den) :
    format.nearest num den = format.nearest num' den' := by
  rw [← nearest_mul_left format den' num den hden', ← nearest_mul_left format den num' den' hden,
    Nat.mul_comm den' num, h, Nat.mul_comm num' den, Nat.mul_comm den' den]

-- A value that a magnitude spells exactly is rounded to that magnitude.
theorem nearest_of_units (format : Format) {num den magnitude : Nat} (hden : 0 < den)
    (hfinite : magnitude < format.infinity)
    (h : num * format.scale = den * format.units magnitude) :
    format.nearest num den = magnitude := by
  have hpos := format.fractions_pos
  have hwhole : num * format.scale / den = format.units magnitude := by
    rw [h, Nat.mul_div_cancel_left _ hden]
  have hrest := Nat.mod_lt magnitude hpos
  have hsplit := Nat.div_add_mod magnitude format.fractions
  rw [nearest_eq, h]
  cases hexp : magnitude / format.fractions with
  | zero =>
      have hsmall : magnitude < format.fractions := by
        rw [hexp] at hsplit
        omega
      have hunits := format.units_of_lt magnitude hsmall
      have hdrop : format.drop num den = 0 := by
        rw [drop, hwhole, hunits]
        rcases Nat.eq_zero_or_pos magnitude with rfl | hm
        · simp
        · have : magnitude.log2 < format.fractionBits := (Nat.log2_lt (by omega)).mpr hsmall
          omega
      rw [hdrop, hunits, Nat.pow_zero, Nat.mul_one, roundDiv_mul_self _ _ hden]
      omega
  | succ exponent =>
      have hmagnitude : magnitude =
          (exponent + 1) * format.fractions + magnitude % format.fractions := by
        rw [hexp, Nat.mul_comm] at hsplit
        exact hsplit.symm
      have hunits : format.units magnitude =
          (format.fractions + magnitude % format.fractions) * 2 ^ exponent := by
        conv_lhs => rw [hmagnitude]
        exact format.units_normal exponent _ hrest
      have hdrop : format.drop num den = exponent := by
        rw [drop, hwhole, hunits, format.log2_normal exponent _ hrest]
        omega
      have hsum : exponent * format.fractions + (format.fractions + magnitude % format.fractions) =
          magnitude := by
        rw [Nat.succ_mul] at hmagnitude
        omega
      have hden2 : 0 < den * 2 ^ exponent := Nat.mul_pos hden (Nat.pow_pos (by decide))
      rw [hdrop, hunits, Nat.mul_comm _ (2 ^ exponent), ← Nat.mul_assoc,
        roundDiv_mul_self _ _ hden2, hsum]
      omega

theorem drop_mono (format : Format) {num num' : Nat} (den : Nat) (h : num ≤ num') :
    format.drop num den ≤ format.drop num' den := by
  have hwhole := Nat.div_le_div_right (c := den) (Nat.mul_le_mul_right format.scale h)
  have hlog : (num * format.scale / den).log2 ≤ (num' * format.scale / den).log2 := by
    simpa only [Nat.log2_eq_log_two] using Nat.log_mono_right hwhole
  exact Nat.sub_le_sub_right hlog _

-- What is left after dropping has at most one bit more than a fraction, the leading one.
theorem roundDiv_drop_le (format : Format) (num den : Nat) :
    roundDiv (num * format.scale) (den * 2 ^ format.drop num den) ≤ 2 * format.fractions := by
  have hwhole := Nat.lt_log2_self (n := num * format.scale / den)
  have hbits : (num * format.scale / den).log2 + 1 ≤
      format.drop num den + (format.fractionBits + 1) := by
    unfold drop
    omega
  have hlt := hwhole.trans_le (Nat.pow_le_pow_right (by decide : 0 < 2) hbits)
  rw [Nat.pow_add, Nat.pow_succ] at hlt
  have hquot : num * format.scale / (den * 2 ^ format.drop num den) < format.fractions * 2 := by
    rw [← Nat.div_div_eq_div_mul]
    rw [Nat.div_lt_iff_lt_mul (Nat.pow_pos (by decide)), Nat.mul_comm (_ * 2)]
    exact hlt
  have hround := roundDiv_le_div_succ (num * format.scale) (den * 2 ^ format.drop num den)
  omega

-- Where something is dropped, the leading one stays.
theorem fractions_le_roundDiv_drop (format : Format) (num den : Nat)
    (hdrop : 0 < format.drop num den) :
    format.fractions ≤ roundDiv (num * format.scale) (den * 2 ^ format.drop num den) := by
  have hlog : (num * format.scale / den).log2 = format.fractionBits + format.drop num den := by
    unfold drop at hdrop ⊢
    omega
  have hne : num * format.scale / den ≠ 0 := by
    intro hzero
    simp [drop, hzero] at hdrop
  have hle := Nat.log2_self_le hne
  rw [hlog, Nat.pow_add] at hle
  apply Nat.le_trans _ (div_le_roundDiv _ _)
  rw [← Nat.div_div_eq_div_mul]
  exact (Nat.le_div_iff_mul_le (Nat.pow_pos (by decide))).mpr hle

theorem nearest_mono (format : Format) {num num' : Nat} (den : Nat) (h : num ≤ num') :
    format.nearest num den ≤ format.nearest num' den := by
  have hdrop := format.drop_mono den h
  rw [nearest_eq, nearest_eq]
  apply min_le_min_right
  rcases Nat.lt_or_eq_of_le hdrop with hlt | heq
  · have hhigh := format.roundDiv_drop_le num den
    have hlow := format.fractions_le_roundDiv_drop num' den (by omega)
    have hstep : (format.drop num den + 1) * format.fractions ≤
        format.drop num' den * format.fractions := Nat.mul_le_mul_right _ hlt
    rw [Nat.succ_mul] at hstep
    omega
  · rw [heq]
    exact Nat.add_le_add_left (roundDiv_mono _ (Nat.mul_le_mul_right _ h)) _

end Format

end TaggedCache.Binary
