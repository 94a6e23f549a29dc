import TaggedCache.Binary.Shortest
import TaggedCache.Proofs.Binary.Rounding

namespace TaggedCache.Binary

theorem toDigits_mul_pow (digits places : Nat) (hdigits : 0 < digits) :
    Nat.toDigits 10 (digits * 10 ^ places) =
      Nat.toDigits 10 digits ++ List.replicate places '0' := by
  induction places with
  | zero => simp
  | succ places ih =>
      have hpos : 0 < digits * 10 ^ places := Nat.mul_pos hdigits (Nat.pow_pos (by decide))
      have happend := Nat.toDigits_append_toDigits (b := 10) (by decide) hpos
        (by decide : 0 < 10)
      rw [Nat.pow_succ, ← Nat.mul_assoc, Nat.mul_comm _ 10, ← Nat.add_zero (10 * _), ← happend, ih,
        Nat.toDigits_zero, List.append_assoc, List.replicate_succ']

namespace Format

-- A decimal of a reasonable size is rounded as the quotient it stands for.
theorem nearestDecimal_eq_nearest (format : Format) {digits : Nat} {exponent : Int}
    (hdigits : 0 < digits) (hhigh : exponent + (Nat.toDigits 10 digits).length ≤ 400)
    (hlow : -400 ≤ exponent + (Nat.toDigits 10 digits).length) :
    format.nearestDecimal digits exponent =
      format.nearest (digits * 10 ^ exponent.toNat) (10 ^ (-exponent).toNat) := by
  simp only [nearestDecimal, if_neg (show ¬digits = 0 by omega), if_neg (Int.not_lt.mpr hhigh),
    if_neg (Int.not_lt.mpr hlow)]
  split_ifs with hexponent
  · have hzero : (-exponent).toNat = 0 := by omega
    rw [hzero]
    rfl
  · have hzero : exponent.toNat = 0 := by omega
    rw [hzero, Nat.pow_zero, Nat.mul_one]
    rfl

-- Zeros at the end of the digits only shift the exponent.
theorem nearestDecimal_mul_pow (format : Format) (digits places : Nat) (exponent : Int) :
    format.nearestDecimal (digits * 10 ^ places) (exponent - places) =
      format.nearestDecimal digits exponent := by
  rcases Nat.eq_zero_or_pos digits with rfl | hdigits
  · simp [nearestDecimal]
  have hpos : 0 < digits * 10 ^ places := Nat.mul_pos hdigits (Nat.pow_pos (by decide))
  have hlength : exponent - places + ((Nat.toDigits 10 (digits * 10 ^ places)).length : Int) =
      exponent + (Nat.toDigits 10 digits).length := by
    rw [toDigits_mul_pow _ _ hdigits, List.length_append, List.length_replicate]
    omega
  by_cases hhigh : exponent + (Nat.toDigits 10 digits).length ≤ 400
  · by_cases hlow : -400 ≤ exponent + (Nat.toDigits 10 digits).length
    · rw [format.nearestDecimal_eq_nearest hpos (hlength.trans_le hhigh)
          (hlow.trans_eq hlength.symm),
        format.nearestDecimal_eq_nearest hdigits hhigh hlow]
      apply format.nearest_congr (Nat.pow_pos (by decide)) (Nat.pow_pos (by decide))
      have hsum : places + (exponent - places).toNat + (-exponent).toNat =
          exponent.toNat + (-(exponent - places)).toNat := by omega
      calc
        digits * 10 ^ places * 10 ^ (exponent - places).toNat * 10 ^ (-exponent).toNat =
            digits * 10 ^ (places + (exponent - places).toNat + (-exponent).toNat) := by ring
        _ = digits * 10 ^ (exponent.toNat + (-(exponent - places)).toNat) := by rw [hsum]
        _ = digits * 10 ^ exponent.toNat * 10 ^ (-(exponent - places)).toNat := by ring
    · simp only [nearestDecimal, hlength, if_neg (show ¬digits = 0 by omega),
        if_neg (show ¬digits * 10 ^ places = 0 by omega), if_neg (Int.not_lt.mpr hhigh),
        if_pos (Int.not_le.mp hlow)]
  · simp only [nearestDecimal, hlength, if_neg (show ¬digits = 0 by omega),
      if_neg (show ¬digits * 10 ^ places = 0 by omega), if_pos (Int.not_le.mp hhigh)]

-- The smallest positive number has this many binary places.
def places (format : Format) : Nat := 2 ^ (format.exponentBits - 1) - 2 + format.fractionBits

theorem scale_eq (format : Format) : format.scale = 2 ^ format.places := rfl

theorem units_pos (format : Format) {magnitude : Nat} (h : 0 < magnitude) :
    0 < format.units magnitude := by
  have hpos := format.fractions_pos
  have hsplit := Nat.div_add_mod magnitude format.fractions
  simp only [units]
  split_ifs with hexp
  · rw [hexp] at hsplit
    omega
  · exact Nat.mul_pos (by omega) (Nat.pow_pos (by decide))

theorem units_lt (format : Format) {magnitude : Nat} (h : magnitude < format.infinity) :
    format.units magnitude < 2 ^ (format.fractionBits + 2 ^ format.exponentBits) := by
  have hrest := Nat.mod_lt magnitude format.fractions_pos
  have hexp : magnitude / format.fractions < 2 ^ format.exponentBits - 1 :=
    (Nat.div_lt_iff_lt_mul format.fractions_pos).mpr h
  have hfractions : format.fractions = 2 ^ format.fractionBits := rfl
  simp only [units]
  split_ifs
  · rw [hfractions] at hrest ⊢
    exact hrest.trans_le (Nat.pow_le_pow_right (by decide) (Nat.le_add_right ..))
  · calc
      (format.fractions + magnitude % format.fractions) *
          2 ^ (magnitude / format.fractions - 1) <
          2 ^ (format.fractionBits + 1) * 2 ^ (magnitude / format.fractions - 1) := by
        apply Nat.mul_lt_mul_of_pos_right _ (Nat.pow_pos (by decide))
        rw [Nat.pow_succ, ← hfractions]
        omega
      _ = 2 ^ (format.fractionBits + 1 + (magnitude / format.fractions - 1)) :=
        (Nat.pow_add ..).symm
      _ ≤ 2 ^ (format.fractionBits + 2 ^ format.exponentBits) :=
        Nat.pow_le_pow_right (by decide) (by
          generalize magnitude / format.fractions = exponent at hexp
          omega)

-- A number written out in full has a reasonable size. Powers of two and five are compared
-- by way of two squared being less than five.
theorem length_exact {units places range : Nat} (spare : Nat) (hspare : 0 < spare)
    (hpos : 0 < units) (hunits : units < 2 ^ range) (hplaces : places ≤ 3 * spare)
    (hrange : range ≤ places + 3 * spare) :
    places ≤ (Nat.toDigits 10 (units * 5 ^ places)).length + spare ∧
      (Nat.toDigits 10 (units * 5 ^ places)).length ≤ places + spare := by
  have hten (n : Nat) : 10 ^ n = 2 ^ n * 5 ^ n := Nat.mul_pow 2 5 n
  have hfive {m n : Nat} (h : m ≤ 2 * n) : 2 ^ m ≤ 5 ^ n := calc
    2 ^ m ≤ 2 ^ (2 * n) := Nat.pow_le_pow_right (by decide) h
    _ = 4 ^ n := Nat.pow_mul 2 2 n
    _ ≤ 5 ^ n := Nat.pow_le_pow_left (by decide) n
  constructor
  · by_contra hshort
    obtain ⟨k, hk⟩ : ∃ k, places = spare + 1 + k := ⟨places - (spare + 1), by omega⟩
    have hlength := Nat.length_toDigits_pos (b := 10) (n := units * 5 ^ places)
    have hless := (Nat.length_toDigits_le_iff (b := 10) (k := k) (by decide) (by omega)).mp
      (show (Nat.toDigits 10 (units * 5 ^ places)).length ≤ k by omega)
    have hmore : 10 ^ k ≤ units * 5 ^ places := calc
      10 ^ k = 2 ^ k * 5 ^ k := hten k
      _ ≤ 5 ^ (places - k) * 5 ^ k := Nat.mul_le_mul_right _ (hfive (by omega))
      _ = 5 ^ places := by rw [← Nat.pow_add, Nat.sub_add_cancel (by omega)]
      _ ≤ units * 5 ^ places := Nat.le_mul_of_pos_left _ hpos
    omega
  · rw [Nat.length_toDigits_le_iff (by decide) (by omega)]
    calc
      units * 5 ^ places < 2 ^ range * 5 ^ places :=
        Nat.mul_lt_mul_of_pos_right hunits (Nat.pow_pos (by decide))
      _ ≤ 2 ^ (places + spare + 2 * spare) * 5 ^ places :=
        Nat.mul_le_mul_right _ (Nat.pow_le_pow_right (by decide) (by omega))
      _ = 2 ^ (places + spare) * 2 ^ (2 * spare) * 5 ^ places := by
        rw [Nat.pow_add _ (places + spare)]
      _ ≤ 2 ^ (places + spare) * 5 ^ spare * 5 ^ places :=
        Nat.mul_le_mul_right _ (Nat.mul_le_mul_left _ (hfive le_rfl))
      _ = 10 ^ (places + spare) := by
        rw [hten, Nat.mul_assoc, ← Nat.pow_add, Nat.add_comm spare places]

-- The double and the single format are both of this size.
structure Moderate (format : Format) : Prop where
  places_le : format.places ≤ 1200
  range_le : format.fractionBits + 2 ^ format.exponentBits ≤ format.places + 1200

theorem moderate_double : double.Moderate := ⟨by decide, by decide⟩

theorem nearestDecimal_exact {format : Format} (hformat : format.Moderate) {magnitude : Nat}
    (hpos : 0 < magnitude) (hfinite : magnitude < format.infinity) :
    format.nearestDecimal (format.exact (format.units magnitude)).digits
      (format.exact (format.units magnitude)).exponent = magnitude := by
  have hunits := format.units_pos hpos
  obtain ⟨hlong, hshort⟩ := length_exact 400 (by decide) hunits
    (format.units_lt hfinite) hformat.places_le hformat.range_le
  have hdigits : 0 < format.units magnitude * 5 ^ format.places :=
    Nat.mul_pos hunits (Nat.pow_pos (by decide))
  have hexact : format.exact (format.units magnitude) =
      ⟨format.units magnitude * 5 ^ format.places, -format.places⟩ := by
    simp only [exact, scale_eq, Nat.log2_two_pow]
    rfl
  simp only [hexact]
  rw [format.nearestDecimal_eq_nearest hdigits (by omega) (by omega)]
  apply format.nearest_of_units (Nat.pow_pos (by decide)) hfinite
  have hzero : (-(format.places : Int)).toNat = 0 := by omega
  have hplaces : (- -(format.places : Int)).toNat = format.places := by omega
  rw [hzero, hplaces, scale_eq, Nat.pow_zero, Nat.mul_one, Nat.mul_assoc, ← Nat.mul_pow,
    Nat.mul_comm]

-- Whatever decimal is chosen for a finite number, it reads back as that number.
theorem nearestDecimal_shortest {format : Format} (hformat : format.Moderate) {magnitude : Nat}
    (hpos : 0 < magnitude) (hfinite : magnitude < format.infinity) :
    format.nearestDecimal (format.shortest magnitude).digits (format.shortest magnitude).exponent =
      magnitude := by
  simp only [shortest]
  cases hfind : (format.candidates (format.units magnitude)).find? fun d =>
      format.nearestDecimal d.digits d.exponent == magnitude with
  | none => exact nearestDecimal_exact hformat hpos hfinite
  | some decimal => simpa using List.find?_some hfind

end Format

end TaggedCache.Binary
