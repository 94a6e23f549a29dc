import TaggedCache.Proofs.Binary.Rounding
import TaggedCache.Scalar

namespace TaggedCache

open Binary

namespace Binary.Binary64

theorem bits_ofParts (negative : Bool) {magnitude : Nat} (h : magnitude < 0x8000000000000000) :
    (ofParts negative magnitude).bits.toNat =
      (if negative then 0x8000000000000000 else 0) + magnitude := by
  cases negative <;> simp [ofParts] <;> omega

theorem negative_ofParts (negative : Bool) {magnitude : Nat} (h : magnitude < 0x8000000000000000) :
    (ofParts negative magnitude).negative = negative := by
  cases negative <;> simp [Binary64.negative, bits_ofParts _ h, h]

theorem magnitude_ofParts (negative : Bool) {magnitude : Nat} (h : magnitude < 0x8000000000000000) :
    (ofParts negative magnitude).magnitude = magnitude := by
  cases negative <;> simp [Binary64.magnitude, bits_ofParts _ h, Nat.mod_eq_of_lt h]

theorem place_ofParts (negative : Bool) {magnitude : Nat} (h : magnitude < 0x8000000000000000) :
    (ofParts negative magnitude).place =
      if negative then -1 - (magnitude : Int) else magnitude := by
  rw [place, negative_ofParts _ h, magnitude_ofParts _ h]

theorem nearest_lt (num den : Nat) : Format.double.nearest num den < 0x8000000000000000 := by
  have hinfinity : Format.double.infinity < 0x8000000000000000 := by decide
  exact Nat.lt_of_le_of_lt (Nat.min_le_right _ _) hinfinity

-- Rounding keeps the order of integers.
theorem place_ofInt_mono {i j : Int} (h : i ≤ j) : (ofInt i).place ≤ (ofInt j).place := by
  rw [ofInt, ofInt, place_ofParts _ (nearest_lt _ _), place_ofParts _ (nearest_lt _ _)]
  by_cases hj : j < 0
  · have hmono := Format.nearest_mono .double 1 (show j.natAbs ≤ i.natAbs by omega)
    simp only [hj, show i < 0 by omega, decide_true, if_true]
    omega
  · by_cases hi : i < 0
    · simp only [hi, hj, decide_true, decide_false, if_true, Bool.false_eq_true, if_false]
      omega
    · have hmono := Format.nearest_mono .double 1 (show i.natAbs ≤ j.natAbs by omega)
      simp only [hi, hj, decide_false, Bool.false_eq_true, if_false]
      omega

theorem eq_of_place_eq {f g : Binary64} (h : f.place = g.place) : f = g := by
  have hf := f.bits.toNat_lt
  have hg := g.bits.toNat_lt
  have hbits : f.bits.toNat = g.bits.toNat := by
    simp only [place, negative, magnitude, decide_eq_true_eq] at h
    split at h <;> split at h <;> omega
  obtain ⟨bits⟩ := f
  obtain ⟨bits'⟩ := g
  exact congrArg _ (UInt64.toNat_inj.mp hbits)

end Binary.Binary64

theorem compare_then_of_mono {f : Int → Int} (hf : ∀ {i j}, i ≤ j → f i ≤ f j) (i j : Int) :
    (compare (f i) (f j)).then (compare i j) = compare i j := by
  rcases Int.lt_trichotomy i j with hlt | rfl | hgt
  · have hle := hf (Int.le_of_lt hlt)
    rw [compare_lt_iff_lt.mpr hlt]
    rcases Int.lt_or_eq_of_le hle with h | h
    · rw [compare_lt_iff_lt.mpr h]
      rfl
    · rw [compare_eq_iff_eq.mpr h]
      rfl
  · rw [compare_eq_iff_eq.mpr rfl]
    rfl
  · have hle := hf (Int.le_of_lt hgt)
    rw [compare_gt_iff_gt.mpr hgt]
    rcases Int.lt_or_eq_of_le hle with h | h
    · rw [compare_gt_iff_gt.mpr h]
      rfl
    · rw [compare_eq_iff_eq.mpr h.symm]
      rfl

theorem compare_natCast (m n : Nat) : compare (m : Int) (n : Int) = compare m n := by
  rcases Nat.lt_trichotomy m n with h | rfl | h
  · rw [compare_lt_iff_lt.mpr h, compare_lt_iff_lt.mpr (Int.ofNat_lt.mpr h)]
  · rw [compare_eq_iff_eq.mpr rfl, compare_eq_iff_eq.mpr rfl]
  · rw [compare_gt_iff_gt.mpr h, compare_gt_iff_gt.mpr (Int.ofNat_lt.mpr h)]

namespace Scalar

-- What scalars are ordered by, the first difference deciding: whether they are numbers, their
-- magnitudes as doubles, their representations, their exact values, their texts
def sortClass : Scalar → Nat
  | bool _ => 0
  | int _ | uint _ | float _ => 1
  | string _ => 2

def sortPlace : Scalar → Int
  | bool value => value.toNat
  | int value => (Binary64.ofInt value.toInt).place
  | uint value => (Binary64.ofInt value.toNat).place
  | float value => value.place
  | string _ => 0

def sortExact : Scalar → Int
  | int value => value.toInt
  | uint value => value.toNat
  | bool _ | float _ | string _ => 0

def sortText : Scalar → String
  | string value => value
  | _ => ""

def keyCompare : Scalar → Scalar → Ordering :=
  compareLex (compareOn sortClass) <| compareLex (compareOn sortPlace) <|
    compareLex (compareOn rank) <| compareLex (compareOn sortExact) (compareOn sortText)

-- Numbers of two representations
theorem compare_of_rank_ne {a b : Scalar} (ha : a.sortClass = 1) (hb : b.sortClass = 1)
    (hrank : a.rank ≠ b.rank) :
    a.compare b = (Ord.compare a.sortPlace b.sortPlace).then (Ord.compare a.rank b.rank) := by
  cases a <;> cases b <;>
    first
    | exact absurd rfl hrank
    | (simp [sortClass] at ha; done)
    | (simp [sortClass] at hb; done)
    | rfl

-- Scalars that are not both numbers
theorem compare_of_sortClass_ne {a b : Scalar} (h : a.sortClass ≠ b.sortClass) :
    a.compare b = Ord.compare a.sortClass b.sortClass := by
  cases a <;> cases b <;> first | exact absurd rfl h | rfl

theorem then_compare_of_ne {m n : Nat} (h : m ≠ n) (o : Ordering) :
    (Ord.compare m n).then o = Ord.compare m n := by
  cases hcompare : Ord.compare m n with
  | eq => exact absurd (compare_eq_iff_eq.mp hcompare) h
  | lt | gt => rfl

-- Scalars of one representation
theorem compare_of_rank_eq {a b : Scalar} (h : a.rank = b.rank) :
    a.compare b = (Ord.compare a.sortPlace b.sortPlace).then
      ((Ord.compare a.sortExact b.sortExact).then (Ord.compare a.sortText b.sortText)) := by
  cases a with
  | bool a =>
      cases b with
      | bool b => cases a <;> cases b <;> rfl
      | _ => simp [rank] at h
  | int a =>
      cases b with
      | int b =>
          have htext : Ord.compare (sortText (.int a)) (sortText (.int b)) = .eq := rfl
          rw [htext, Ordering.then_eq]
          exact (compare_then_of_mono Binary64.place_ofInt_mono a.toInt b.toInt).symm
      | _ => simp [rank] at h
  | uint a =>
      cases b with
      | uint b =>
          have htext : Ord.compare (sortText (.uint a)) (sortText (.uint b)) = .eq := rfl
          rw [htext, Ordering.then_eq]
          refine (compare_natCast a.toNat b.toNat).symm.trans ?_
          exact (compare_then_of_mono Binary64.place_ofInt_mono a.toNat b.toNat).symm
      | _ => simp [rank] at h
  | float a =>
      cases b with
      | float b =>
          have hrest : (Ord.compare (sortExact (.float a)) (sortExact (.float b))).then
              (Ord.compare (sortText (.float a)) (sortText (.float b))) = .eq := rfl
          rw [hrest, Ordering.then_eq]
          rfl
      | _ => simp [rank] at h
  | string a =>
      cases b with
      | string b => rfl
      | _ => simp [rank] at h

theorem compare_eq_keyCompare (a b : Scalar) : a.compare b = keyCompare a b := by
  simp only [keyCompare, compareLex, compareOn]
  by_cases hclass : a.sortClass = b.sortClass
  · rw [hclass, compare_eq_iff_eq.mpr (rfl : b.sortClass = b.sortClass), Ordering.eq_then]
    by_cases hrank : a.rank = b.rank
    · rw [compare_of_rank_eq hrank, hrank, compare_eq_iff_eq.mpr (rfl : b.rank = b.rank),
        Ordering.eq_then]
    · have hnumbers : a.sortClass = 1 ∧ b.sortClass = 1 := by
        cases a <;> cases b <;>
          first
          | exact absurd rfl hrank
          | exact ⟨rfl, rfl⟩
          | simp [sortClass] at hclass
      rw [compare_of_rank_ne hnumbers.1 hnumbers.2 hrank, then_compare_of_ne hrank]
  · rw [compare_of_sortClass_ne hclass, then_compare_of_ne hclass]

instance : Ord Scalar := ⟨Scalar.compare⟩

instance : Std.TransOrd Scalar := by
  unfold Std.TransOrd
  change Std.TransCmp Scalar.compare
  have hcompare : Scalar.compare = keyCompare := funext₂ compare_eq_keyCompare
  rw [hcompare]
  unfold keyCompare
  infer_instance

theorem eq_of_compare_eq {a b : Scalar} (h : a.compare b = .eq) : a = b := by
  rw [compare_eq_keyCompare] at h
  simp only [keyCompare, compareLex, compareOn, Ordering.then_eq_eq,
    Std.LawfulEqCmp.compare_eq_iff_eq] at h
  obtain ⟨-, hplace, hrank, hexact, htext⟩ := h
  cases a with
  | bool a =>
      cases b with
      | bool b => cases a <;> cases b <;> first | rfl | simp [sortPlace] at hplace
      | _ => simp [rank] at hrank
  | int a =>
      cases b with
      | int b => exact congrArg int (Int64.toInt_inj.mp hexact)
      | _ => simp [rank] at hrank
  | uint a =>
      cases b with
      | uint b => exact congrArg uint (UInt64.toNat_inj.mp (Int.ofNat_inj.mp hexact))
      | _ => simp [rank] at hrank
  | float a =>
      cases b with
      | float b => exact congrArg float (Binary64.eq_of_place_eq hplace)
      | _ => simp [rank] at hrank
  | string a =>
      cases b with
      | string b => exact congrArg string htext
      | _ => simp [rank] at hrank

end Scalar

end TaggedCache
