import TaggedCache.Proofs.Order.Scalar
import TaggedCache.Value.Order

namespace TaggedCache

theorem CollectionKind.eq_of_rank_eq {a b : CollectionKind} (h : a.rank = b.rank) : a = b := by
  cases a <;> cases b <;> first | rfl | exact absurd h (by decide)

theorem MapKind.eq_of_rank_eq {a b : MapKind} (h : a.rank = b.rank) : a = b := by
  cases a <;> cases b <;> first | rfl | exact absurd h (by decide)

namespace Arrangement

-- A property holds of an arrangement if it passes from its parts to the whole.
@[elab_as_elim, induction_eliminator]
theorem induct {motive : Arrangement → Prop} (null : motive .null)
    (scalar : ∀ value, motive (.scalar value))
    (object : ∀ typeName text, motive (.object typeName text))
    (collection : ∀ kind items, (∀ item ∈ items, motive item) → motive (.collection kind items))
    (map : ∀ kind entries, (∀ entry ∈ entries, motive entry.2) → motive (.map kind entries))
    (arrangement : Arrangement) : motive arrangement :=
  match arrangement with
  | .null => null
  | .scalar value => scalar value
  | .object typeName text => object typeName text
  | .collection kind items =>
      collection kind items fun item _ => induct null scalar object collection map item
  | .map kind entries =>
      map kind entries fun entry hentry =>
        have := List.sizeOf_lt_of_mem hentry
        induct null scalar object collection map entry.2
termination_by sizeOf arrangement
decreasing_by
  all_goals simp_wf
  · have := List.sizeOf_lt_of_mem ‹_ ∈ items›
    omega
  · obtain ⟨key, value⟩ := entry
    simp only [Prod.mk.sizeOf_spec] at this ⊢
    omega

-- A letter of the word that an arrangement spells. Words compare like the arrangements.
structure Letter where
  mark : Nat
  scalar : Scalar
  text : String

def Letter.ofMark (mark : Nat) : Letter := ⟨mark, .bool false, ""⟩

def Letter.compare : Letter → Letter → Ordering :=
  compareLex (compareOn Letter.mark) <|
    compareLex (compareOn Letter.scalar) (compareOn Letter.text)

instance : Std.TransCmp Letter.compare := by
  unfold Letter.compare
  infer_instance

mutual

def spell : Arrangement → List Letter
  | null => [.ofMark 0]
  | scalar value => [⟨1, value, ""⟩]
  | object typeName text => [⟨2, .bool false, typeName⟩, ⟨0, .bool false, text⟩]
  | collection kind items => .ofMark 3 :: .ofMark kind.rank :: spellItems items
  | map kind entries => .ofMark 4 :: .ofMark kind.rank :: spellEntries entries

-- The end is marked by less than what a member starts with.
def spellItems : List Arrangement → List Letter
  | [] => [.ofMark 0]
  | item :: rest => .ofMark 1 :: (item.spell ++ spellItems rest)

def spellEntries : List (String × Arrangement) → List Letter
  | [] => [.ofMark 0]
  | (key, value) :: rest => ⟨1, .bool false, key⟩ :: (value.spell ++ spellEntries rest)

end

def compareWords : List Letter → List Letter → Ordering := List.compareLex Letter.compare

theorem compareWords_cons (a b : Letter) (s t : List Letter) :
    compareWords (a :: s) (b :: t) = (a.compare b).then (compareWords s t) :=
  List.compareLex_cons_cons

theorem letter_compare_self (a : Letter) : a.compare a = .eq := Std.ReflCmp.compare_self

theorem ofMark_compare (m n : Nat) :
    (Letter.ofMark m).compare (Letter.ofMark n) = Ord.compare m n := by
  change (Ord.compare m n).then
    ((Ord.compare (Scalar.bool false) (Scalar.bool false)).then (Ord.compare "" "")) = _
  rw [show Ord.compare (Scalar.bool false) (Scalar.bool false) = .eq from rfl,
    show Ord.compare "" "" = .eq from rfl, Ordering.eq_then, Ordering.then_eq]

theorem letter_compare_of_lt {a b : Letter} (h : a.mark < b.mark) : a.compare b = .lt := by
  change (Ord.compare a.mark b.mark).then _ = _
  rw [Nat.compare_eq_lt.mpr h, Ordering.lt_then]

theorem letter_compare_of_gt {a b : Letter} (h : b.mark < a.mark) : a.compare b = .gt := by
  change (Ord.compare a.mark b.mark).then _ = _
  rw [Nat.compare_eq_gt.mpr h, Ordering.gt_then]

theorem scalar_letter_compare (a b : Scalar) :
    (Letter.mk 1 a "").compare (Letter.mk 1 b "") = a.compare b := by
  change (Ord.compare 1 1).then ((a.compare b).then (Ord.compare "" "")) = _
  rw [show Ord.compare 1 1 = .eq from rfl, show Ord.compare "" "" = .eq from rfl,
    Ordering.eq_then, Ordering.then_eq]

theorem text_letter_compare (mark : Nat) (a b : String) :
    (Letter.mk mark (.bool false) a).compare (Letter.mk mark (.bool false) b) =
      Ord.compare a b := by
  change (Ord.compare mark mark).then
    ((Ord.compare (Scalar.bool false) (.bool false)).then (Ord.compare a b)) = _
  rw [compare_eq_iff_eq.mpr (rfl : mark = mark),
    show Ord.compare (Scalar.bool false) (Scalar.bool false) = .eq from rfl,
    Ordering.eq_then, Ordering.eq_then]

-- What a member spells is compared in front of whatever follows it.
def SpellsFirst (a : Arrangement) : Prop :=
  ∀ b s t, compareWords (a.spell ++ s) (b.spell ++ t) = (a.compare b).then (compareWords s t)

theorem compareWords_spellItems {items : List Arrangement} (h : ∀ item ∈ items, item.SpellsFirst)
    (others : List Arrangement) (s t : List Letter) :
    compareWords (spellItems items ++ s) (spellItems others ++ t) =
      (compareItems items others).then (compareWords s t) := by
  induction items generalizing others with
  | nil =>
      cases others with
      | nil => simp [spellItems, compareItems, compareWords_cons, letter_compare_self]
      | cons other others =>
          simp [spellItems, compareItems, compareWords_cons, letter_compare_of_lt, Letter.ofMark]
  | cons item items ih =>
      have hitem := h item List.mem_cons_self
      have hitems := ih fun item hitem => h item (List.mem_cons_of_mem _ hitem)
      cases others with
      | nil =>
          simp [spellItems, compareItems, compareWords_cons, letter_compare_of_gt, Letter.ofMark]
      | cons other others =>
          simp only [spellItems, compareItems, List.cons_append, List.append_assoc,
            compareWords_cons, letter_compare_self, Ordering.eq_then]
          rw [hitem, hitems, Ordering.then_assoc]

theorem compareWords_spellEntries {entries : List (String × Arrangement)}
    (h : ∀ entry ∈ entries, entry.2.SpellsFirst) (others : List (String × Arrangement))
    (s t : List Letter) :
    compareWords (spellEntries entries ++ s) (spellEntries others ++ t) =
      (compareEntries entries others).then (compareWords s t) := by
  induction entries generalizing others with
  | nil =>
      cases others with
      | nil => simp [spellEntries, compareEntries, compareWords_cons, letter_compare_self]
      | cons other others =>
          simp [spellEntries, compareEntries, compareWords_cons, letter_compare_of_lt,
            Letter.ofMark]
  | cons entry entries ih =>
      have hentry := h entry List.mem_cons_self
      have hentries := ih fun entry hentry => h entry (List.mem_cons_of_mem _ hentry)
      cases others with
      | nil =>
          simp [spellEntries, compareEntries, compareWords_cons, letter_compare_of_gt,
            Letter.ofMark]
      | cons other others =>
          simp only [spellEntries, compareEntries, List.cons_append, List.append_assoc,
            compareWords_cons, text_letter_compare]
          rw [hentry, hentries, Ordering.then_assoc, Ordering.then_assoc]

theorem compare_of_rank_ne {a b : Arrangement} (h : a.rank ≠ b.rank) :
    a.compare b = Ord.compare a.rank b.rank := by
  cases a <;> cases b <;> first | rfl | exact absurd rfl h

theorem exists_spell_eq_cons (a : Arrangement) :
    ∃ first rest, a.spell = first :: rest ∧ first.mark = a.rank := by
  cases a <;> exact ⟨_, _, rfl, rfl⟩

-- Values of different kinds are told apart by the first letter.
theorem compareWords_of_rank_ne {a b : Arrangement} (h : a.rank ≠ b.rank) (s t : List Letter) :
    compareWords (a.spell ++ s) (b.spell ++ t) = (a.compare b).then (compareWords s t) := by
  obtain ⟨first, rest, ha, hfirst⟩ := exists_spell_eq_cons a
  obtain ⟨other, others, hb, hother⟩ := exists_spell_eq_cons b
  rw [ha, hb, List.cons_append, List.cons_append, compareWords_cons, compare_of_rank_ne h]
  rcases Nat.lt_or_gt_of_ne h with hlt | hgt
  · rw [letter_compare_of_lt (by omega), Nat.compare_eq_lt.mpr hlt, Ordering.lt_then,
      Ordering.lt_then]
  · rw [letter_compare_of_gt (by omega), Nat.compare_eq_gt.mpr hgt, Ordering.gt_then,
      Ordering.gt_then]

theorem spellsFirst_of_rank_eq {a : Arrangement}
    (h : ∀ b, a.rank = b.rank → ∀ s t,
      compareWords (a.spell ++ s) (b.spell ++ t) = (a.compare b).then (compareWords s t)) :
    a.SpellsFirst := by
  intro b s t
  by_cases hrank : a.rank = b.rank
  · exact h b hrank s t
  · exact compareWords_of_rank_ne hrank s t

theorem spellsFirst (a : Arrangement) : a.SpellsFirst := by
  induction a with
  | null =>
      refine spellsFirst_of_rank_eq fun b hrank s t => ?_
      cases b with
      | null => simp [spell, compare, compareWords_cons, letter_compare_self]
      | _ => simp [rank] at hrank
  | scalar a =>
      refine spellsFirst_of_rank_eq fun b hrank s t => ?_
      cases b with
      | scalar b => simp [spell, compare, compareWords_cons, scalar_letter_compare]
      | _ => simp [rank] at hrank
  | object typeName text =>
      refine spellsFirst_of_rank_eq fun b hrank s t => ?_
      cases b with
      | object otherName otherText =>
          simp [spell, compare, compareWords_cons, text_letter_compare, Ordering.then_assoc]
      | _ => simp [rank] at hrank
  | collection kind items ih =>
      refine spellsFirst_of_rank_eq fun b hrank s t => ?_
      cases b with
      | collection otherKind others =>
          simp only [spell, compare, List.cons_append, compareWords_cons, letter_compare_self,
            ofMark_compare, Ordering.eq_then]
          rw [compareWords_spellItems ih, Ordering.then_assoc]
      | _ => simp [rank] at hrank
  | map kind entries ih =>
      refine spellsFirst_of_rank_eq fun b hrank s t => ?_
      cases b with
      | map otherKind others =>
          simp only [spell, compare, List.cons_append, compareWords_cons, letter_compare_self,
            ofMark_compare, Ordering.eq_then]
          rw [compareWords_spellEntries ih, Ordering.then_assoc]
      | _ => simp [rank] at hrank

theorem compare_eq_compareWords (a b : Arrangement) :
    a.compare b = compareWords a.spell b.spell := by
  have h := spellsFirst a b [] []
  rw [List.append_nil, List.append_nil] at h
  exact Ordering.then_eq.symm.trans h.symm

instance : Std.TransCmp compareWords := by
  unfold compareWords
  infer_instance

theorem compare_swap (a b : Arrangement) : a.compare b = (b.compare a).swap := by
  rw [compare_eq_compareWords, compare_eq_compareWords]
  exact Std.OrientedCmp.eq_swap

theorem compare_isLE_trans {a b c : Arrangement} (hab : (a.compare b).isLE)
    (hbc : (b.compare c).isLE) : (a.compare c).isLE := by
  rw [compare_eq_compareWords] at hab hbc ⊢
  exact Std.TransCmp.isLE_trans hab hbc

instance : Std.TransCmp Arrangement.compare where
  eq_swap := fun {a b} => compare_swap a b
  isLE_trans := compare_isLE_trans

theorem eq_of_compareItems_eq {items : List Arrangement}
    (h : ∀ item ∈ items, ∀ other, item.compare other = .eq → item = other)
    {others : List Arrangement} (heq : compareItems items others = .eq) : items = others := by
  induction items generalizing others with
  | nil =>
      cases others with
      | nil => rfl
      | cons other others => simp [compareItems] at heq
  | cons item items ih =>
      cases others with
      | nil => simp [compareItems] at heq
      | cons other others =>
          simp only [compareItems, Ordering.then_eq_eq] at heq
          obtain ⟨hfirst, hrest⟩ := heq
          rw [h item List.mem_cons_self other hfirst,
            ih (fun item hitem => h item (List.mem_cons_of_mem _ hitem)) hrest]

theorem eq_of_compareEntries_eq {entries : List (String × Arrangement)}
    (h : ∀ entry ∈ entries, ∀ other, entry.2.compare other = .eq → entry.2 = other)
    {others : List (String × Arrangement)} (heq : compareEntries entries others = .eq) :
    entries = others := by
  induction entries generalizing others with
  | nil =>
      cases others with
      | nil => rfl
      | cons other others => simp [compareEntries] at heq
  | cons entry entries ih =>
      cases others with
      | nil => simp [compareEntries] at heq
      | cons other others =>
          simp only [compareEntries, Ordering.then_eq_eq] at heq
          obtain ⟨⟨hkey, hvalue⟩, hrest⟩ := heq
          rw [ih (fun entry hentry => h entry (List.mem_cons_of_mem _ hentry)) hrest]
          exact congrArg (· :: others)
            (Prod.ext (Std.LawfulEqOrd.eq_of_compare hkey) (h entry List.mem_cons_self _ hvalue))

theorem rank_eq_of_compare_eq {a b : Arrangement} (h : a.compare b = .eq) : a.rank = b.rank := by
  by_contra hrank
  rw [compare_of_rank_ne hrank, compare_eq_iff_eq] at h
  exact hrank h

-- Only equal arrangements compare equal.
theorem eq_of_compare_eq {a b : Arrangement} (h : a.compare b = .eq) : a = b := by
  have hrank := rank_eq_of_compare_eq h
  induction a generalizing b with
  | null =>
      cases b with
      | null => rfl
      | _ => simp [rank] at hrank
  | scalar a =>
      cases b with
      | scalar b => exact congrArg scalar (Scalar.eq_of_compare_eq h)
      | _ => simp [rank] at hrank
  | object typeName text =>
      cases b with
      | object otherName otherText =>
          simp only [compare, Ordering.then_eq_eq, Std.LawfulEqCmp.compare_eq_iff_eq] at h
          rw [h.1, h.2]
      | _ => simp [rank] at hrank
  | collection kind items ih =>
      cases b with
      | collection otherKind others =>
          simp only [compare, Ordering.then_eq_eq, compare_eq_iff_eq] at h
          have hitems := eq_of_compareItems_eq
            (fun item hitem _ heq => ih item hitem heq (rank_eq_of_compare_eq heq)) h.2
          rw [CollectionKind.eq_of_rank_eq h.1, hitems]
      | _ => simp [rank] at hrank
  | map kind entries ih =>
      cases b with
      | map otherKind others =>
          simp only [compare, Ordering.then_eq_eq, compare_eq_iff_eq] at h
          have hentries := eq_of_compareEntries_eq
            (fun entry hentry _ heq => ih entry hentry heq (rank_eq_of_compare_eq heq)) h.2
          rw [MapKind.eq_of_rank_eq h.1, hentries]
      | _ => simp [rank] at hrank

instance : Std.LawfulEqCmp Arrangement.compare where
  eq_of_compare := eq_of_compare_eq

theorem compare_eq_eq_iff {a b : Arrangement} : a.compare b = .eq ↔ a = b :=
  Std.LawfulEqCmp.compare_eq_iff_eq

end Arrangement

end TaggedCache
