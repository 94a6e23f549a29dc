import TaggedCache.Proofs.Order.Arrangement
import TaggedCache.Proofs.Switch
import TaggedCache.Proofs.Value.Refill

namespace TaggedCache

variable {M : ObjectModel}

namespace Value

theorem arrangements_eq (items : List (Value M)) : arrangements items = items.map arrangement := by
  induction items with
  | nil => rfl
  | cons item rest ih => rw [arrangements, ih, List.map_cons]

theorem arrangedEntries_eq (entries : List (String × Value M)) :
    arrangedEntries entries = entries.map fun entry => (entry.1, entry.2.arrangement) := by
  induction entries with
  | nil => rfl
  | cons entry rest ih => rw [arrangedEntries, ih, List.map_cons]

theorem keys_arrangedEntries (entries : List (String × Value M)) :
    Assoc.keys (arrangedEntries entries) = Assoc.keys entries := by
  simp [arrangedEntries_eq, Assoc.keys]

theorem arrangedEntries_perm {entries others : List (String × Value M)} (h : entries.Perm others) :
    (arrangedEntries entries).Perm (arrangedEntries others) := by
  rw [arrangedEntries_eq, arrangedEntries_eq]
  exact h.map _

-- Values compare equal when they have the same contents.
theorem compare_eq_eq_iff {a b : Value M} : compare a b = .eq ↔ a.arrangement = b.arrangement :=
  Arrangement.compare_eq_eq_iff

theorem equal_iff {a b : Value M} : a.equal b ↔ a.arrangement = b.arrangement := by
  rw [equal, Ordering.isEq_iff_eq_eq, compare_eq_eq_iff]

instance : Std.TransCmp (compare (M := M)) where
  eq_swap := by
    intro a b
    exact Arrangement.compare_swap a.arrangement b.arrangement
  isLE_trans := by
    intro a b c hab hbc
    exact Arrangement.compare_isLE_trans hab hbc

theorem arrangement_collection_congr {kind : CollectionKind} {items others : List (Value M)}
    (h : items.map arrangement = others.map arrangement) :
    (collection kind items).arrangement = (collection kind others).arrangement := by
  rw [arrangement, arrangement, arrangements_eq, arrangements_eq, h]

theorem exists_item_of_arrangement_eq {kind kind' : CollectionKind} {items others : List (Value M)}
    (h : (collection kind items).arrangement = (collection kind' others).arrangement) :
    ∀ item ∈ items, ∃ other ∈ others, item.arrangement = other.arrangement := by
  intro item hitem
  have hmem {kind : CollectionKind} {items : List (Value M)} {a : Arrangement} :
      a ∈ (if kind = .unorderedSet then (arrangements items).mergeSort fun a b => (a.compare b).isLE
        else arrangements items) ↔ ∃ item ∈ items, item.arrangement = a := by
    split <;> simp [arrangements_eq]
  rw [arrangement, arrangement, Arrangement.collection.injEq] at h
  obtain ⟨other, hother, heq⟩ := hmem.mp (h.2 ▸ hmem.mpr ⟨item, hitem, rfl⟩)
  exact ⟨other, hother, heq.symm⟩

theorem exists_entry_of_arrangement_eq {kind kind' : MapKind}
    {entries others : List (String × Value M)}
    (h : (map kind entries).arrangement = (map kind' others).arrangement) :
    ∀ entry ∈ entries, ∃ other ∈ others,
      entry.1 = other.1 ∧ entry.2.arrangement = other.2.arrangement := by
  intro entry hentry
  rw [arrangement, arrangement, Arrangement.map.injEq] at h
  have hmem : (entry.1, entry.2.arrangement) ∈
      Assoc.sorted Ord.compare (arrangedEntries entries) := by
    rw [Assoc.sorted, List.mem_mergeSort, arrangedEntries_eq]
    exact List.mem_map_of_mem hentry
  rw [h.2, Assoc.sorted, List.mem_mergeSort, arrangedEntries_eq] at hmem
  obtain ⟨other, hother, heq⟩ := List.mem_map.mp hmem
  exact ⟨other, hother, (congrArg Prod.fst heq).symm, (congrArg Prod.snd heq).symm⟩

-- The order of values is total, and values that compare equal compare alike with all others.
-- Scalars compare equal only if they are the same, floats bit by bit.
theorem compare_lawful (a b c : Value M) :
    compare a a = .eq ∧ compare b a = (compare a b).swap ∧
      ((compare a b).isLE → (compare b c).isLE → (compare a c).isLE) ∧
      (compare a b = .eq → compare a c = compare b c) ∧
      ∀ s t : Scalar, compare (scalar s : Value M) (scalar t) = .eq ↔ s = t := by
  refine ⟨Std.ReflCmp.compare_self, Std.OrientedCmp.eq_swap, Std.TransCmp.isLE_trans,
    Std.TransCmp.congr_left, fun s t => ?_⟩
  rw [compare_eq_eq_iff, arrangement, arrangement, Arrangement.scalar.injEq]

-- Integers beside a double that two of them are rounded to
theorem compare_lawful_rounded :
    (compare (scalar (.int 9007199254740992) : Value Switch)
        (scalar (.float ⟨0x4340000000000000⟩))).isLE ∧
      compare (scalar (.float ⟨0x4340000000000000⟩) : Value Switch)
        (scalar (.int 9007199254740993)) = .gt := by
  have hints : compare (scalar (.int 9007199254740992) : Value Switch)
      (scalar (.int 9007199254740993)) = .lt := by decide +kernel
  have hdouble : compare (scalar (.int 9007199254740993) : Value Switch)
      (scalar (.float ⟨0x4340000000000000⟩)) = .lt := by decide +kernel
  obtain ⟨-, -, htrans, -⟩ := compare_lawful (scalar (.int 9007199254740992) : Value Switch)
    (scalar (.int 9007199254740993)) (scalar (.float ⟨0x4340000000000000⟩))
  obtain ⟨-, hswap, -⟩ := compare_lawful (scalar (.int 9007199254740993) : Value Switch)
    (scalar (.float ⟨0x4340000000000000⟩)) null
  refine ⟨htrans (by rw [hints]; rfl) (by rw [hdouble]; rfl), ?_⟩
  rw [hswap, hdouble]
  rfl

end Value

namespace Collection

theorem subset_insert (c : Collection M) (value : Value M) : c.items ⊆ (c.insert value).items := by
  obtain ⟨kind, items⟩ := c
  cases kind with
  | list | linkedList => exact List.subset_append_left _ _
  | unorderedSet | orderedSet => exact Distinct.subset_insert value items
  | sortedSet => exact Distinct.subset_insertSorted value items

theorem exists_eq_mem_insert (c : Collection M) (value : Value M) :
    ∃ member ∈ (c.insert value).items, Value.compare value member = .eq := by
  obtain ⟨kind, items⟩ := c
  cases kind with
  | list | linkedList =>
      exact ⟨value, List.mem_append_right _ List.mem_cons_self, Std.ReflCmp.compare_self⟩
  | unorderedSet | orderedSet => exact Distinct.exists_eq_mem_insert value items
  | sortedSet => exact Distinct.exists_eq_mem_insertSorted value items

theorem subset_extend (c : Collection M) (values : List (Value M)) :
    c.items ⊆ (c.extend values).items := by
  induction values generalizing c with
  | nil => exact List.Subset.refl _
  | cons value rest ih => exact List.Subset.trans (c.subset_insert value) (ih (c.insert value))

theorem exists_eq_mem_extend (c : Collection M) {values : List (Value M)} {value : Value M}
    (h : value ∈ values) :
    ∃ member ∈ (c.extend values).items, Value.compare value member = .eq := by
  induction values generalizing c with
  | nil => contradiction
  | cons first rest ih =>
      rcases List.mem_cons.mp h with rfl | h
      · obtain ⟨member, hmember, heq⟩ := c.exists_eq_mem_insert value
        exact ⟨member, (c.insert value).subset_extend rest hmember, heq⟩
      · exact ih (c.insert first) h

-- Every value that goes into a collection is in it, or one that is equal.
theorem exists_eq_mem_ofList (kind : CollectionKind) {values : List (Value M)} {value : Value M}
    (h : value ∈ values) :
    ∃ member ∈ (ofList kind values).items, Value.compare value member = .eq :=
  exists_eq_mem_extend _ h

theorem proper_insert {c : Collection M} (h : c.Proper) (value : Value M) :
    (c.insert value).Proper := by
  obtain ⟨kind, items⟩ := c
  cases kind with
  | list | linkedList => trivial
  | unorderedSet | orderedSet => exact Distinct.pairwise_insert value h
  | sortedSet => exact Distinct.pairwise_insertSorted value h

theorem proper_extend {c : Collection M} (h : c.Proper) (values : List (Value M)) :
    (c.extend values).Proper := by
  induction values generalizing c with
  | nil => exact h
  | cons value rest ih => exact ih (proper_insert h value)

theorem proper_ofList (kind : CollectionKind) (values : List (Value M)) :
    (ofList kind values).Proper := by
  refine proper_extend ?_ values
  cases kind <;> first | trivial | exact List.Pairwise.nil

-- In a set of any kind no two members are equal.
theorem distinct_of_proper {c : Collection M} (h : c.kind.isSet = true) (hproper : c.Proper) :
    c.items.Pairwise fun a b => a.equal b = false := by
  obtain ⟨kind, items⟩ := c
  cases kind with
  | list | linkedList => contradiction
  | unorderedSet | orderedSet =>
      exact List.Pairwise.imp (fun hne => by simpa [Value.equal] using hne) hproper
  | sortedSet => exact List.Pairwise.imp (fun hlt => by simp [Value.equal, hlt]) hproper

theorem insert_of_proper {kind : CollectionKind} {items : List (Value M)} {value : Value M}
    (h : Proper ⟨kind, items ++ [value]⟩) :
    (Collection.mk kind items).insert value = ⟨kind, items ++ [value]⟩ := by
  cases kind with
  | list | linkedList => rfl
  | unorderedSet | orderedSet =>
      have hnew := (List.pairwise_append.mp h).2.2
      exact congrArg (Collection.mk _) (Distinct.insert_of_new fun member hmember =>
        hnew member hmember value List.mem_cons_self)
  | sortedSet =>
      have hlast := (List.pairwise_append.mp h).2.2
      exact congrArg (Collection.mk _) (Distinct.insertSorted_of_last fun member hmember =>
        hlast member hmember value List.mem_cons_self)

theorem proper_of_append {kind : CollectionKind} {items others : List (Value M)}
    (h : Proper ⟨kind, items ++ others⟩) : Proper ⟨kind, items⟩ := by
  cases kind with
  | list | linkedList => trivial
  | unorderedSet | orderedSet | sortedSet => exact (List.pairwise_append.mp h).1

theorem extend_of_proper {kind : CollectionKind} {before items : List (Value M)}
    (h : Proper ⟨kind, before ++ items⟩) :
    (Collection.mk kind before).extend items = ⟨kind, before ++ items⟩ := by
  induction items generalizing before with
  | nil => simp [extend]
  | cons item rest ih =>
      rw [List.append_cons] at h ⊢
      rw [extend, List.foldl_cons, ← extend, insert_of_proper (proper_of_append h), ih h]

-- A collection filled with its own members is the same collection.
theorem ofList_of_proper {kind : CollectionKind} {items : List (Value M)}
    (h : Proper ⟨kind, items⟩) : ofList kind items = ⟨kind, items⟩ :=
  extend_of_proper h

-- Members can be replaced by equal ones.
theorem proper_congr {kind : CollectionKind} {items others : List (Value M)}
    (heq : items.map Value.arrangement = others.map Value.arrangement)
    (h : Proper ⟨kind, items⟩) : Proper ⟨kind, others⟩ := by
  have hpairs (r : Arrangement → Arrangement → Prop)
      (hitems : (items.map Value.arrangement).Pairwise r) :
      others.Pairwise fun a b => r a.arrangement b.arrangement :=
    List.pairwise_map.mp (heq ▸ hitems)
  cases kind with
  | list | linkedList => trivial
  | unorderedSet | orderedSet =>
      exact hpairs (fun a b => a.compare b ≠ .eq) (List.pairwise_map.mpr h)
  | sortedSet => exact hpairs (fun a b => a.compare b = .lt) (List.pairwise_map.mpr h)

-- Equal values go to the same place, or are both left out.
theorem insert_congr {c d : Collection M} {value other : Value M} (hkind : c.kind = d.kind)
    (hitems : c.items.map Value.arrangement = d.items.map Value.arrangement)
    (h : value.arrangement = other.arrangement) :
    (c.insert value).items.map Value.arrangement =
      (d.insert other).items.map Value.arrangement := by
  have hcompare (a b : Value M) : a.arrangement.compare b.arrangement = Value.compare a b := rfl
  obtain ⟨kind, items⟩ := c
  obtain ⟨_, others⟩ := d
  subst hkind
  cases kind with
  | list | linkedList => simp only [insert, List.map_append, List.map_singleton, hitems, h]
  | unorderedSet | orderedSet => simp only [insert, Distinct.map_insert hcompare, hitems, h]
  | sortedSet => simp only [insert, Distinct.map_insertSorted hcompare, hitems, h]

theorem extend_congr {c d : Collection M} {values others : List (Value M)} (hkind : c.kind = d.kind)
    (hitems : c.items.map Value.arrangement = d.items.map Value.arrangement)
    (h : values.map Value.arrangement = others.map Value.arrangement) :
    (c.extend values).items.map Value.arrangement =
      (d.extend others).items.map Value.arrangement := by
  induction values generalizing c d others with
  | nil =>
      obtain rfl : others = [] := List.map_eq_nil_iff.mp h.symm
      exact hitems
  | cons value rest ih =>
      cases others with
      | nil => contradiction
      | cons other others =>
          obtain ⟨hvalue, hrest⟩ := List.cons.inj h
          exact ih (c := c.insert value) (d := d.insert other) hkind
            (insert_congr hkind hitems hvalue) hrest

-- What a collection is filled with can be replaced by equal values.
theorem arrangement_ofList_congr (kind : CollectionKind) {values others : List (Value M)}
    (h : values.map Value.arrangement = others.map Value.arrangement) :
    (ofList kind values).toValue.arrangement = (ofList kind others).toValue.arrangement := by
  rw [toValue, toValue, ofList_kind, ofList_kind]
  exact Value.arrangement_collection_congr (extend_congr rfl rfl h)

end Collection

namespace Keyed

theorem arrangement_ofList (kind : MapKind) {entries : List (String × Value M)}
    (hkeys : (Assoc.keys entries).Nodup) :
    (ofList kind entries).toValue.arrangement =
      .map kind (Assoc.sorted Ord.compare (Value.arrangedEntries entries)) := by
  have hperm := Value.arrangedEntries_perm (ofList_perm kind hkeys).symm
  rw [toValue, ofList_kind, Value.arrangement,
    Assoc.sorted_eq_of_perm hperm (Value.keys_arrangedEntries entries ▸ hkeys)]

-- A map that is filled with equal entries under the same names, in any order, is an equal map.
theorem arrangement_ofList_congr (kind : MapKind) {entries others : List (String × Value M)}
    (hkeys : (Assoc.keys entries).Nodup)
    (h : (Value.arrangedEntries entries).Perm (Value.arrangedEntries others)) :
    (ofList kind entries).toValue.arrangement = (ofList kind others).toValue.arrangement := by
  have hnames : (Assoc.keys entries).Perm (Assoc.keys others) := by
    rw [← Value.keys_arrangedEntries entries, ← Value.keys_arrangedEntries others]
    exact h.map Prod.fst
  rw [arrangement_ofList kind hkeys, arrangement_ofList kind (hnames.nodup_iff.mp hkeys),
    Assoc.sorted_eq_of_perm h (Value.keys_arrangedEntries entries ▸ hkeys)]

end Keyed

end TaggedCache
