import TaggedCache.Proofs.Binary.Decimals
import TaggedCache.Proofs.Order.Scalar
import Mathlib.Algebra.Order.Field.Rat
import Mathlib.Order.WithBotTop
import Mathlib.Tactic.NormNum

namespace TaggedCache

open Binary

-- A rational number or an infinity
abbrev ExtendedRat := WithBotTop ℚ

namespace Binary.Format

theorem scale_pos (format : Format) : 0 < format.scale := Nat.pow_pos (by decide)

-- A significand has 53 bits, so smaller whole numbers are spelt exactly.
theorem exists_units_eq_mul_scale {n : Nat} (h : n < 2 ^ 53) :
    ∃ magnitude < double.infinity, double.units magnitude = n * double.scale := by
  rcases Nat.eq_zero_or_pos n with rfl | hpos
  · refine ⟨0, by decide, ?_⟩
    rw [units_of_lt _ _ double.fractions_pos, Nat.zero_mul]
  have hlog : n.log2 < 53 := (Nat.log2_lt hpos.ne').mpr h
  obtain ⟨shift, hshift⟩ := Nat.exists_eq_add_of_le (Nat.le_of_lt_succ hlog)
  have hfractions : double.fractions = 2 ^ n.log2 * 2 ^ shift := by
    rw [← Nat.pow_add, ← hshift]
    rfl
  have hleast : double.fractions ≤ n * 2 ^ shift :=
    hfractions ▸ Nat.mul_le_mul_right _ (Nat.log2_self_le hpos.ne')
  have hmost : n * 2 ^ shift < 2 * double.fractions := by
    rw [hfractions, ← Nat.mul_assoc, Nat.mul_comm 2, ← Nat.pow_succ]
    exact Nat.mul_lt_mul_of_pos_right Nat.lt_log2_self (Nat.two_pow_pos shift)
  have hfraction : n * 2 ^ shift - double.fractions < double.fractions := by omega
  refine ⟨(n.log2 + 1022 + 1) * double.fractions + (n * 2 ^ shift - double.fractions), ?_, ?_⟩
  · calc
      _ < (n.log2 + 1022 + 1) * double.fractions + double.fractions :=
        Nat.add_lt_add_left hfraction _
      _ = (n.log2 + 1024) * double.fractions := (Nat.succ_mul _ _).symm
      _ ≤ double.infinity := Nat.mul_le_mul_right _ (show n.log2 + 1024 ≤ 2047 by omega)
  · have hplaces : double.places = shift + (n.log2 + 1022) := by
      rw [show double.places = 1074 by decide]
      omega
    rw [units_normal _ _ _ hfraction, Nat.add_sub_cancel' hleast, scale_eq, hplaces,
      Nat.pow_add 2 shift, Nat.mul_assoc]

end Binary.Format

namespace Binary.Binary64

-- The value of a finite number with its sign, as a multiple of the smallest positive number
def signedUnits (f : Binary64) : Int :=
  if f.negative then -Format.double.units f.magnitude else Format.double.units f.magnitude

-- The exact value of a number: rational or infinite. What is not a number has none.
def value? (f : Binary64) : Option ExtendedRat :=
  if f.isNaN then none
  else if f.isFinite then some ((f.signedUnits / Format.double.scale : ℚ) : ExtendedRat)
  else some (if f.negative then ⊥ else ⊤)

-- A double is the nearest one to a multiple of the smallest positive number. Zero has either sign.
structure IsNearest (units : Int) (f : Binary64) : Prop where
  magnitude_eq : f.magnitude = Format.double.nearest units.natAbs Format.double.scale
  nonpos : f.negative = true → units ≤ 0
  nonneg : f.negative = false → 0 ≤ units

theorem place_le_of_isNearest {u v : Int} {f g : Binary64} (hf : IsNearest u f)
    (hg : IsNearest v g) (h : u < v) : f.place ≤ g.place := by
  have hmono {m n : Nat} (h : m ≤ n) := Format.nearest_mono .double Format.double.scale h
  rw [place, place, hf.magnitude_eq, hg.magnitude_eq]
  cases hfsign : f.negative with
  | true =>
      cases hgsign : g.negative with
      | true =>
          have hv := hg.nonpos hgsign
          have hnear := hmono (show v.natAbs ≤ u.natAbs by omega)
          simp only [if_true]
          omega
      | false =>
          simp only [if_true, Bool.false_eq_true, if_false]
          omega
  | false =>
      cases hgsign : g.negative with
      | true =>
          have hu := hf.nonneg hfsign
          have hv := hg.nonpos hgsign
          omega
      | false =>
          have hu := hf.nonneg hfsign
          have hnear := hmono (show u.natAbs ≤ v.natAbs by omega)
          simp only [Bool.false_eq_true, if_false]
          omega

theorem isNearest_signedUnits {f : Binary64} (h : f.isFinite) : IsNearest f.signedUnits f where
  magnitude_eq := by
    have hunits : f.signedUnits.natAbs = Format.double.units f.magnitude := by
      rw [signedUnits]
      split <;> simp
    rw [hunits]
    exact (Format.nearest_of_units _ (Format.scale_pos _) (of_decide_eq_true h)
      (Nat.mul_comm _ _)).symm
  nonpos := by
    intro hsign
    simp [signedUnits, hsign]
  nonneg := by
    intro hsign
    simp [signedUnits, hsign]

theorem isNearest_ofInt (i : Int) : IsNearest (i * Format.double.scale) (ofInt i) where
  magnitude_eq := by
    rw [ofInt, magnitude_ofParts _ (nearest_lt _ _), Int.natAbs_mul, Int.natAbs_natCast,
      Nat.mul_comm, ← Format.nearest_mul_left .double Format.double.scale _ _ (Format.scale_pos _),
      Nat.mul_one]
  nonpos := by
    intro hsign
    rw [ofInt, negative_ofParts _ (nearest_lt _ _), decide_eq_true_eq] at hsign
    exact Int.mul_nonpos_of_nonpos_of_nonneg (Int.le_of_lt hsign) (Int.natCast_nonneg _)
  nonneg := by
    intro hsign
    rw [ofInt, negative_ofParts _ (nearest_lt _ _), decide_eq_false_iff_not, Int.not_lt] at hsign
    exact Int.mul_nonneg hsign (Int.natCast_nonneg _)

-- What a double may stand for: a value that it is nearest to, or an infinity
inductive StandsFor : Binary64 → ExtendedRat → Prop
  | finite {units : Int} {f : Binary64} (h : IsNearest units f) :
      StandsFor f ((units / Format.double.scale : ℚ) : ExtendedRat)
  | negInfinity {f : Binary64} (h : f.place = -1 - Format.double.infinity) : StandsFor f ⊥
  | infinity {f : Binary64} (h : f.place = Format.double.infinity) : StandsFor f ⊤

theorem place_bounds {x : ExtendedRat} {f : Binary64} (h : f.StandsFor x) :
    -1 - (Format.double.infinity : Int) ≤ f.place ∧ f.place ≤ Format.double.infinity := by
  cases h with
  | negInfinity h | infinity h => omega
  | @finite units _ h =>
      have hle : f.magnitude ≤ Format.double.infinity :=
        h.magnitude_eq ▸ Nat.min_le_right _ _
      rw [place]
      split <;> omega

-- Rounding may make different values the same, but it never turns their order round.
theorem place_le_of_standsFor {x y : ExtendedRat} {f g : Binary64} (hf : f.StandsFor x)
    (hg : g.StandsFor y) (h : x < y) : f.place ≤ g.place := by
  have hscale : (0 : ℚ) < Format.double.scale := Nat.cast_pos.mpr (Format.scale_pos _)
  cases hf with
  | infinity => exact absurd h not_top_lt
  | negInfinity hplace => exact hplace ▸ (place_bounds hg).1
  | finite hu =>
      cases hg with
      | negInfinity => exact absurd h not_lt_bot
      | infinity hplace => exact hplace ▸ (place_bounds (.finite hu)).2
      | finite hv =>
          rw [WithBotTop.coe_lt_coe, div_lt_div_iff_of_pos_right hscale, Int.cast_lt] at h
          exact place_le_of_isNearest hu hv h

theorem standsFor_of_value? {f : Binary64} {x : ExtendedRat} (h : f.value? = some x) :
    f.StandsFor x := by
  rw [value?] at h
  split at h
  · contradiction
  · rename_i hnumber
    split at h
    · rename_i hfinite
      cases h
      exact .finite (isNearest_signedUnits hfinite)
    · rename_i hinfinite
      have hmagnitude : f.magnitude = Format.double.infinity := by
        simp only [isNaN, isFinite, decide_eq_true_eq] at hnumber hinfinite
        omega
      cases hsign : f.negative with
      | true =>
          rw [hsign, if_pos rfl] at h
          cases h
          exact .negInfinity (by simp [place, hsign, hmagnitude])
      | false =>
          rw [hsign, if_neg (by simp)] at h
          cases h
          exact .infinity (by simp [place, hsign, hmagnitude])

theorem mul_scale_div (i : Int) :
    ((i * Format.double.scale : Int) / Format.double.scale : ℚ) = i := by
  have hscale : (Format.double.scale : ℚ) ≠ 0 := Nat.cast_ne_zero.mpr (Format.scale_pos _).ne'
  rw [Int.cast_mul, Int.cast_natCast, mul_div_cancel_right₀ _ hscale]

theorem standsFor_ofInt (i : Int) : (ofInt i).StandsFor ((i : ℚ) : ExtendedRat) :=
  mul_scale_div i ▸ .finite (isNearest_ofInt i)

theorem value?_of_signedUnits {f : Binary64} {i : Int} (hfinite : f.isFinite)
    (h : f.signedUnits = i * Format.double.scale) : f.value? = some ((i : ℚ) : ExtendedRat) := by
  have hnumber : f.isNaN = false := by
    simp only [isNaN, isFinite, decide_eq_true_eq, decide_eq_false_iff_not] at hfinite ⊢
    omega
  rw [value?, hnumber, if_neg (by simp), if_pos hfinite, h, mul_scale_div]

theorem value?_ofInt {i : Int} (h : i.natAbs < 2 ^ 53) :
    (ofInt i).value? = some ((i : ℚ) : ExtendedRat) := by
  obtain ⟨magnitude, hfinite, hunits⟩ := Format.exists_units_eq_mul_scale h
  have hnearest : Format.double.nearest i.natAbs 1 = magnitude :=
    Format.nearest_of_units _ Nat.one_pos hfinite (by rw [hunits, Nat.one_mul])
  have hmagnitude : (ofInt i).magnitude = magnitude := by
    rw [ofInt, magnitude_ofParts _ (nearest_lt _ _), hnearest]
  have hnegative : (ofInt i).negative = decide (i < 0) := negative_ofParts _ (nearest_lt _ _)
  have hsigned : (ofInt i).signedUnits = i * Format.double.scale := by
    rw [signedUnits, hmagnitude, hunits, hnegative, Int.natCast_mul]
    by_cases hi : i < 0
    · have hneg : (i.natAbs : Int) = -i := by omega
      rw [if_pos (decide_eq_true hi), hneg, Int.neg_mul, Int.neg_neg]
    · have hpos : (i.natAbs : Int) = i := by omega
      rw [if_neg (by simpa using hi), hpos]
  exact value?_of_signedUnits (by simpa [isFinite, hmagnitude] using hfinite) hsigned

end Binary.Binary64

namespace Scalar

-- The exact value of a number
def exactValue? : Scalar → Option ExtendedRat
  | int value => some ((value.toInt : ℚ) : ExtendedRat)
  | uint value => some ((value.toNat : ℚ) : ExtendedRat)
  | float value => value.value?
  | bool _ | string _ => none

-- The magnitude by which a number is compared stands for its exact value.
theorem exists_magnitude_of_exactValue {a : Scalar} {x : ExtendedRat} (h : a.exactValue? = some x) :
    ∃ f, a.magnitude? = some f ∧ f.place = a.sortPlace ∧ f.StandsFor x ∧ a.sortClass = 1 := by
  cases a with
  | bool | string => contradiction
  | int value =>
      cases h
      exact ⟨_, rfl, rfl, Binary64.standsFor_ofInt _, rfl⟩
  | uint value =>
      cases h
      exact ⟨_, rfl, rfl, Binary64.standsFor_ofInt value.toNat, rfl⟩
  | float value => exact ⟨value, rfl, rfl, Binary64.standsFor_of_value? h, rfl⟩

-- The whole number that a scalar is
def whole? : Scalar → Option Int
  | int value => some value.toInt
  | uint value => some value.toNat
  | bool _ | float _ | string _ => none

-- Numbers below 2^53 are known by their magnitudes, and so are all doubles.
theorem value?_magnitude {a : Scalar} {x : ExtendedRat} {f : Binary64}
    (h : a.exactValue? = some x) (hsmall : ∀ i, a.whole? = some i → i.natAbs < 2 ^ 53)
    (hf : a.magnitude? = some f) : f.value? = some x := by
  cases a with
  | bool | string => contradiction
  | int value =>
      cases hf
      exact (Binary64.value?_ofInt (hsmall _ rfl)).trans h
  | uint value =>
      cases hf
      exact (Binary64.value?_ofInt (hsmall _ rfl)).trans h
  | float value =>
      cases hf
      exact h

section

variable {a b : Scalar} {x y : ExtendedRat}

theorem compare_of_magnitude_eq (ha : a.exactValue? = some x) (hb : b.exactValue? = some y)
    (hrank : a.rank ≠ b.rank) (h : a.magnitude? = b.magnitude?) :
    a.compare b = Ord.compare a.rank b.rank := by
  obtain ⟨f, hf, hplaceA, -, hclassA⟩ := exists_magnitude_of_exactValue ha
  obtain ⟨g, hg, hplaceB, -, hclassB⟩ := exists_magnitude_of_exactValue hb
  obtain rfl : f = g := Option.some.inj (hf.symm.trans (h.trans hg))
  rw [compare_of_rank_ne hclassA hclassB hrank, ← hplaceA, ← hplaceB, compare_eq_iff_eq.mpr rfl,
    Ordering.eq_then]

theorem compare_of_magnitude_ne (ha : a.exactValue? = some x) (hb : b.exactValue? = some y)
    (hrank : a.rank ≠ b.rank) (h : a.magnitude? ≠ b.magnitude?) :
    (x < y → a.compare b = .lt) ∧ (y < x → a.compare b = .gt) := by
  obtain ⟨f, hf, hplaceA, hstandsA, hclassA⟩ := exists_magnitude_of_exactValue ha
  obtain ⟨g, hg, hplaceB, hstandsB, hclassB⟩ := exists_magnitude_of_exactValue hb
  have hne : f.place ≠ g.place := by
    intro hplace
    rw [hf, hg, Binary64.eq_of_place_eq hplace] at h
    exact h rfl
  rw [compare_of_rank_ne hclassA hclassB hrank, ← hplaceA, ← hplaceB]
  constructor
  · intro hlt
    have hle := Binary64.place_le_of_standsFor hstandsA hstandsB hlt
    rw [compare_lt_iff_lt.mpr (lt_of_le_of_ne hle hne), Ordering.lt_then]
  · intro hlt
    have hle := Binary64.place_le_of_standsFor hstandsB hstandsA hlt
    rw [compare_gt_iff_gt.mpr (lt_of_le_of_ne hle hne.symm), Ordering.gt_then]

-- Numbers of two representations compare by their exact values unless these have one nearest
-- double. The rank decides there, and it is on the side of the values if the lesser number is of
-- the earlier representation. Below 2^53 no two values have a nearest double in common.
theorem compare_by_magnitude_iff (ha : a.exactValue? = some x) (hb : b.exactValue? = some y)
    (hrank : a.rank ≠ b.rank) :
    ((x < y → a.compare b = .lt) ∧ (y < x → a.compare b = .gt) ↔
      (a.magnitude? = b.magnitude? → (x < y → a.rank < b.rank) ∧ (y < x → b.rank < a.rank))) ∧
    (a.magnitude? = b.magnitude? → a.compare b = Ord.compare a.rank b.rank) ∧
    ((∀ i, a.whole? = some i ∨ b.whole? = some i → i.natAbs < 2 ^ 53) →
      (x < y → a.compare b = .lt) ∧ (y < x → a.compare b = .gt)) := by
  have hsame := compare_of_magnitude_eq ha hb hrank
  have hother := compare_of_magnitude_ne ha hb hrank
  refine ⟨?_, hsame, fun hsmall => ?_⟩
  · by_cases h : a.magnitude? = b.magnitude?
    · rw [hsame h, compare_lt_iff_lt, compare_gt_iff_gt]
      exact ⟨fun hcompare _ => hcompare, fun hcompare => hcompare h⟩
    · exact ⟨fun _ heq => absurd heq h, fun _ => hother h⟩
  · by_cases h : a.magnitude? = b.magnitude?
    · obtain ⟨f, hf, -⟩ := exists_magnitude_of_exactValue ha
      have hx := value?_magnitude ha (fun i hi => hsmall i (.inl hi)) hf
      have hy := value?_magnitude hb (fun i hi => hsmall i (.inr hi)) (h.symm.trans hf)
      obtain rfl : x = y := Option.some.inj (hx.symm.trans hy)
      exact ⟨fun hlt => absurd hlt (lt_irrefl _), fun hlt => absurd hlt (lt_irrefl _)⟩
    · exact hother h

end

-- The number after 2^53 beside the double 2^53 to which it is rounded, the greatest signed integer
-- beside the double 2^63, and two numbers that have doubles of their own
theorem compare_by_magnitude_iff_rounded :
    (int 9007199254740993).compare (float ⟨0x4340000000000000⟩) = .lt ∧
      (int 9223372036854775807).compare (float ⟨0x43E0000000000000⟩) = .lt ∧
      (float ⟨0x4340000000000000⟩).compare (int 9007199254740991) = .gt := by
  have hlow : (float ⟨0x4340000000000000⟩).exactValue? =
      some ((9007199254740992 : ℚ) : ExtendedRat) :=
    Binary64.value?_of_signedUnits (i := 9007199254740992) (by decide) (by decide +kernel)
  have hhigh : (float ⟨0x43E0000000000000⟩).exactValue? =
      some ((9223372036854775808 : ℚ) : ExtendedRat) :=
    Binary64.value?_of_signedUnits (i := 9223372036854775808) (by decide) (by decide +kernel)
  have hbelow : (int 9007199254740991).exactValue? =
      some ((9007199254740991 : ℚ) : ExtendedRat) := rfl
  have hgreatest : (int 9223372036854775807).exactValue? =
      some ((9223372036854775807 : ℚ) : ExtendedRat) := rfl
  have hcoe {p q : ℚ} (h : p < q) : (p : ExtendedRat) < q := WithBotTop.coe_lt_coe.mpr h
  refine ⟨?_, ?_, ?_⟩
  · have hrank := (compare_by_magnitude_iff (a := int 9007199254740993) rfl hlow (by decide)).2.1
    exact hrank (by decide +kernel)
  · have hless := hcoe (show (9223372036854775807 : ℚ) < 9223372036854775808 by norm_num)
    have hiff := (compare_by_magnitude_iff hgreatest hhigh (by decide)).1
    exact (hiff.mpr fun _ => ⟨fun _ => by decide, fun hlt => absurd hlt hless.not_gt⟩).1 hless
  · have hsmall := (compare_by_magnitude_iff hlow hbelow (by decide)).2.2
    refine (hsmall fun i hi => ?_).2 (hcoe (by norm_num))
    obtain rfl : i = 9007199254740991 := (Option.some.inj (hi.resolve_left nofun)).symm
    decide

-- The greater number comes first where both are compared as one double.
theorem compare_against_magnitude :
    (int 9007199254740993).exactValue? = some ((9007199254740993 : ℚ) : ExtendedRat) ∧
      (float ⟨0x4340000000000000⟩).exactValue? = some ((9007199254740992 : ℚ) : ExtendedRat) ∧
      (int 9007199254740993).compare (float ⟨0x4340000000000000⟩) = .lt :=
  ⟨rfl, Binary64.value?_of_signedUnits (i := 9007199254740992) (by decide) (by decide +kernel),
    by decide +kernel⟩

end Scalar

end TaggedCache
