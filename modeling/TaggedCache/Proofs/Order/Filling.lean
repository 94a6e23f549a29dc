import TaggedCache.Proofs.Order.Membership

namespace TaggedCache

variable {M : ObjectModel}

namespace Value

-- Neither comparison nor a hasher tells two values apart.
def Indistinct (a b : Value M) : Prop := compare a b = .eq ∧ a.hashWords = b.hashWords

theorem indistinct_iff {a b : Value M} : a.Indistinct b ↔ a.arrangement = b.arrangement := by
  rw [Indistinct, compare_eq_eq_iff, hashWords_eq_iff, equal_iff, and_self]

-- This is so in whatever order the hash containers in the two values yield their members.
theorem indistinct_of_reorders {a b x y : Value M} (h : a.Indistinct b) (ha : a.WellFormed)
    (hb : b.WellFormed) (hx : Reorders a x) (hy : Reorders b y) : x.Indistinct y := by
  have hsameA := (wellFormed_of_refills (refills_of_reorders hx) ha).2
  have hsameB := (wellFormed_of_refills (refills_of_reorders hy) hb).2
  exact indistinct_iff.mpr (hsameA.symm.trans ((indistinct_iff.mp h).trans hsameB))

theorem map_sort (values : List (Value M)) :
    (sort values).map arrangement =
      (values.map arrangement).mergeSort fun a b => (a.compare b).isLE :=
  List.map_mergeSort fun _ _ _ _ => rfl

end Value

namespace Collection

theorem wellFormed_ofList (kind : CollectionKind) {values : List (Value M)}
    (h : ∀ value ∈ values, value.WellFormed) : (ofList kind values).toValue.WellFormed :=
  Value.wellFormed_collection.mpr
    ⟨proper_ofList kind values, fun _ hitem => h _ (mem_of_mem_ofList hitem)⟩

theorem nodup_arrangements (kind : SetKind) (values : List (Value M)) :
    ((ofList kind values).items.map Value.arrangement).Nodup := by
  have hset : (ofList (M := M) kind values).kind.isSet = true :=
    (ofList_kind kind.toKind values).symm ▸ kind.isSet
  refine List.pairwise_map.mpr ((distinct_of_proper hset (proper_ofList _ values)).imp ?_)
  intro a b hdistinct heq
  rw [Value.equal_iff.mpr heq] at hdistinct
  contradiction

-- A set holds just what it was filled with, up to equal values.
theorem mem_arrangements_ofList {kind : CollectionKind} {values : List (Value M)}
    {a : Arrangement} :
    a ∈ (ofList kind values).items.map Value.arrangement ↔ a ∈ values.map Value.arrangement := by
  simp only [List.mem_map]
  constructor
  · rintro ⟨member, hmember, rfl⟩
    exact ⟨member, mem_of_mem_ofList hmember, rfl⟩
  · rintro ⟨value, hvalue, rfl⟩
    obtain ⟨member, hmember, heq⟩ := exists_eq_mem_ofList kind hvalue
    exact ⟨member, hmember, (Value.compare_eq_eq_iff.mp heq).symm⟩

theorem arrangements_perm_of_perm (kind : SetKind) {values others : List (Value M)}
    (h : values.Perm others) :
    ((ofList kind values).items.map Value.arrangement).Perm
      ((ofList kind others).items.map Value.arrangement) := by
  rw [List.perm_ext_iff_of_nodup (nodup_arrangements kind values) (nodup_arrangements kind others)]
  intro a
  rw [mem_arrangements_ofList, mem_arrangements_ofList]
  exact (h.map Value.arrangement).mem_iff

-- A collection compares as its members do in the order of comparison.
theorem arrangement_toValue (c : Collection M) :
    c.toValue.arrangement = .collection c.kind (c.comparisonOrder.map Value.arrangement) := by
  rw [toValue, Value.arrangement, Value.arrangements_eq, comparisonOrder]
  split
  · rw [Value.map_sort]
  · rfl

-- An unordered set is sorted when it is compared, and a sorted one is sorted from the start.
theorem comparisonOrder_ofList_of_perm {kind : SetKind} (hkind : kind ≠ .ordered)
    {values others : List (Value M)} (h : values.Perm others) :
    (ofList kind values).comparisonOrder.map Value.arrangement =
      (ofList kind others).comparisonOrder.map Value.arrangement := by
  have hperm := arrangements_perm_of_perm kind h
  rw [comparisonOrder, comparisonOrder, ofList_kind, ofList_kind]
  cases kind with
  | ordered => contradiction
  | unordered =>
      simp only [SetKind.toKind, if_true, Value.map_sort]
      exact Assoc.mergeSort_eq_of_perm hperm fun _ _ _ _ => Arrangement.eq_of_compare_eq
  | sorted =>
      have hascending (values : List (Value M)) :
          ((ofList .sortedSet values).items.map Value.arrangement).Pairwise
            fun a b => a.compare b = .lt := List.pairwise_map.mpr (ascending_ofList values)
      refine hperm.eq_of_pairwise (fun a b _ _ hab hba => ?_) (hascending values)
        (hascending others)
      exact absurd hba (Std.OrientedCmp.not_lt_of_lt hab)

theorem indistinct_of_perm {kind : SetKind} (hkind : kind ≠ .ordered)
    {values others : List (Value M)} (h : values.Perm others) :
    (ofList kind values).toValue.Indistinct (ofList kind others).toValue ∧
      ((∀ value ∈ values, value.WellFormed) →
        ∀ x y, Value.Reorders (ofList kind values).toValue x →
          Value.Reorders (ofList kind others).toValue y → x.Indistinct y) := by
  have hsets : (ofList kind values).toValue.Indistinct (ofList kind others).toValue := by
    rw [Value.indistinct_iff, arrangement_toValue, arrangement_toValue, ofList_kind, ofList_kind,
      comparisonOrder_ofList_of_perm hkind h]
  refine ⟨hsets, fun hvalues x y hx hy => ?_⟩
  have hothers : ∀ value ∈ others, value.WellFormed := fun value hvalue =>
    hvalues value (h.mem_iff.mpr hvalue)
  exact Value.indistinct_of_reorders hsets (wellFormed_ofList kind hvalues)
    (wellFormed_ofList kind hothers) hx hy

end Collection

namespace Keyed

theorem ofList_append_singleton (kind : MapKind) (entries : List (String × Value M))
    (entry : String × Value M) :
    ofList kind (entries ++ [entry]) = (ofList kind entries).put entry.1 entry.2 := by
  simp [ofList, extend]

theorem get?_put (m : Keyed M) (key other : String) (value : Value M) :
    (m.put key value).get? other = if key = other then some value else m.get? other := by
  obtain ⟨kind, entries⟩ := m
  cases kind with
  | sorted => exact Assoc.get?_putSorted key other value entries
  | unordered | insertionOrdered | concurrent => exact Assoc.get?_put key other value entries

-- A map of any kind gives the last value of a key.
theorem get?_ofList (kind : MapKind) (entries : List (String × Value M)) (key : String) :
    (ofList kind entries).get? key = Assoc.get? key entries.reverse := by
  induction entries using List.reverseRecOn with
  | nil => rfl
  | append_singleton entries entry ih =>
      rw [ofList_append_singleton, get?_put, ih, List.reverse_append]
      rfl

theorem proper_put {m : Keyed M} (h : m.Proper) (key : String) (value : Value M) :
    (m.put key value).Proper := by
  obtain ⟨kind, entries⟩ := m
  cases kind with
  | sorted =>
      have hascending : (Assoc.keys (Assoc.putSorted compare key value entries)).Pairwise
          fun a b => compare a b = .lt := by
        rw [Assoc.keys_putSorted]
        exact Distinct.pairwise_insertSorted key (h.2 rfl)
      have hnodup : (Assoc.keys (Assoc.putSorted compare key value entries)).Nodup :=
        hascending.imp fun hlt heq => by simp [heq] at hlt
      exact ⟨hnodup, fun _ => hascending⟩
  | unordered | insertionOrdered | concurrent => exact ⟨Assoc.nodup_keys_put key value h.1, nofun⟩

theorem proper_extend {m : Keyed M} (h : m.Proper) (entries : List (String × Value M)) :
    (m.extend entries).Proper := by
  induction entries generalizing m with
  | nil => exact h
  | cons entry rest ih => exact ih (proper_put h entry.1 entry.2)

theorem proper_ofList (kind : MapKind) (entries : List (String × Value M)) :
    (ofList kind entries).Proper :=
  proper_extend (m := empty kind) ⟨List.nodup_nil, fun _ => List.Pairwise.nil⟩ entries

theorem wellFormed_ofList (kind : MapKind) {entries : List (String × Value M)}
    (h : ∀ entry ∈ entries, entry.2.WellFormed) : (ofList kind entries).toValue.WellFormed :=
  Value.wellFormed_map.mpr
    ⟨proper_ofList kind entries, fun _ hentry => h _ (mem_of_mem_ofList hentry)⟩

theorem keys_put_insertionOrdered {m : Keyed M} (h : m.kind = .insertionOrdered) (key : String)
    (value : Value M) :
    (m.put key value).keys = if key ∈ m.keys then m.keys else m.keys ++ [key] := by
  obtain ⟨kind, entries⟩ := m
  subst h
  exact Assoc.keys_put key value entries

-- The keys of a map that keeps them as they came
theorem keys_ofList_insertionOrdered (entries : List (String × Value M)) :
    (ofList .insertionOrdered entries).keys = (entries.map (·.1)).eraseDups := by
  induction entries using List.reverseRecOn with
  | nil => rfl
  | append_singleton entries entry ih =>
      rw [ofList_append_singleton, List.map_append, List.map_singleton, eraseDups_append_singleton,
        ← ih, keys_put_insertionOrdered (ofList_kind _ entries)]
      exact if_congr (by simp) rfl rfl

section View

variable {β : Type} {view : Value M → β} {m n : Keyed M}

-- What is seen of a map under each key is all that is seen of its entries.
theorem view_entries_perm (hm : m.Proper) (hn : n.Proper)
    (h : ∀ key, (m.get? key).map view = (n.get? key).map view) :
    (m.entries.map fun entry => (entry.1, view entry.2)).Perm
      (n.entries.map fun entry => (entry.1, view entry.2)) := by
  have hnodup {m : Keyed M} (hm : m.Proper) :
      (m.entries.map fun entry => (entry.1, view entry.2)).Nodup :=
    List.Nodup.of_map Prod.fst (by simpa [keys, Function.comp_def] using hm.1)
  have hmem {m : Keyed M} (hm : m.Proper) (key : String) (seen : β) :
      (key, seen) ∈ (m.entries.map fun entry => (entry.1, view entry.2)) ↔
        (m.get? key).map view = some seen := by
    rw [List.mem_map, Option.map_eq_some_iff]
    constructor
    · rintro ⟨entry, hentry, heq⟩
      cases heq
      exact ⟨entry.2, (Assoc.get?_eq_some_iff_mem hm.1).mpr hentry, rfl⟩
    · rintro ⟨value, hvalue, rfl⟩
      exact ⟨(key, value), (Assoc.get?_eq_some_iff_mem hm.1).mp hvalue, rfl⟩
  rw [List.perm_ext_iff_of_nodup (hnodup hm) (hnodup hn)]
  rintro ⟨key, seen⟩
  rw [hmem hm, hmem hn, h key]

theorem view_sortedEntries (hm : m.Proper) (hn : n.Proper)
    (h : ∀ key, (m.get? key).map view = (n.get? key).map view) :
    (m.sortedEntries.map fun entry => (entry.1, view entry.2)) =
      n.sortedEntries.map fun entry => (entry.1, view entry.2) := by
  have hmap (m : Keyed M) : (m.sortedEntries.map fun entry => (entry.1, view entry.2)) =
      Assoc.sorted compare (m.entries.map fun entry => (entry.1, view entry.2)) :=
    List.map_mergeSort fun _ _ _ _ => rfl
  rw [hmap, hmap]
  refine Assoc.sorted_eq_of_perm (view_entries_perm hm hn h) ?_
  simpa [Assoc.keys, keys, Function.comp_def] using hm.1

end View

-- Maps of one kind are the same if equal values stand under each key.
theorem indistinct_of_get? {m n : Keyed M} (hkind : m.kind = n.kind) (hm : m.Proper)
    (hn : n.Proper)
    (h : ∀ key, (m.get? key).map Value.arrangement = (n.get? key).map Value.arrangement) :
    m.toValue.Indistinct n.toValue := by
  have hperm := view_entries_perm hm hn h
  rw [← Value.arrangedEntries_eq, ← Value.arrangedEntries_eq] at hperm
  rw [Value.indistinct_iff, toValue, toValue, Value.arrangement, Value.arrangement, hkind]
  exact congrArg _ (Assoc.sorted_eq_of_perm hperm (Value.keys_arrangedEntries _ ▸ hm.1))

theorem indistinct_of_last {entries changed : List (String × Value M)}
    (h : ∀ key, (Assoc.get? key entries.reverse).map Value.arrangement =
      (Assoc.get? key changed.reverse).map Value.arrangement) (kind : MapKind) :
    (ofList kind entries).toValue.Indistinct (ofList kind changed).toValue ∧
      ((∀ entry ∈ entries ++ changed, entry.2.WellFormed) →
        ∀ x y, Value.Reorders (ofList kind entries).toValue x →
          Value.Reorders (ofList kind changed).toValue y → x.Indistinct y) := by
  have hkind : (ofList kind entries).kind = (ofList kind changed).kind := by
    rw [ofList_kind, ofList_kind]
  have hmaps := indistinct_of_get? hkind (proper_ofList kind entries) (proper_ofList kind changed)
    fun key => by rw [get?_ofList, get?_ofList, h key]
  refine ⟨hmaps, fun hwellFormed x y hx hy => ?_⟩
  obtain ⟨hentries, hchanged⟩ := List.forall_mem_append.mp hwellFormed
  exact Value.indistinct_of_reorders hmaps (wellFormed_ofList kind hentries)
    (wellFormed_ofList kind hchanged) hx hy

end Keyed

namespace Value

theorem map_arrangement_eq {β : Type} {view : Value M → β}
    (hview : ∀ a b, view a = view b → a.equal b) {found other : Option (Value M)}
    (h : found.map view = other.map view) : found.map arrangement = other.map arrangement := by
  cases found with
  | none =>
      cases other with
      | none => rfl
      | some b => contradiction
  | some a =>
      cases other with
      | none => contradiction
      | some b => exact congrArg some (equal_iff.mp (hview a b (Option.some.inj h)))

-- The order in which containers were filled does not show. Unordered and sorted sets are the same
-- if the same values went in, and maps of any kind are if each key was given the same value last.
-- All kinds of map then have the same values under their keys and the same sorted entries. Values
-- are the same if they look so in a view: it may show all of them, or just enough to tell whether
-- they are equal.
theorem indistinct_of_filling {β : Type} {view : Value M → β}
    (hview : ∀ a b, view a = view b → a.equal b)
    {values others : List (Value M)} (hvalues : values.Perm others)
    {entries changed : List (String × Value M)}
    (hlast : ∀ key, (Assoc.get? key entries.reverse).map view =
      (Assoc.get? key changed.reverse).map view) (kind other : MapKind) :
    (∀ set : SetKind, set ≠ .ordered →
      Indistinct (Collection.ofList set values).toValue (Collection.ofList set others).toValue ∧
        ((∀ value ∈ values, value.WellFormed) →
          ∀ x y, Reorders (Collection.ofList set values).toValue x →
            Reorders (Collection.ofList set others).toValue y → x.Indistinct y)) ∧
    (Indistinct (Keyed.ofList kind entries).toValue (Keyed.ofList kind changed).toValue ∧
      ((∀ entry ∈ entries ++ changed, entry.2.WellFormed) →
        ∀ x y, Reorders (Keyed.ofList kind entries).toValue x →
          Reorders (Keyed.ofList kind changed).toValue y → x.Indistinct y)) ∧
    ((∀ key, ((Keyed.ofList kind entries).get? key).map view =
        ((Keyed.ofList other changed).get? key).map view) ∧
      ((Keyed.ofList kind entries).sortedEntries.map fun entry => (entry.1, view entry.2)) =
        ((Keyed.ofList other changed).sortedEntries.map fun entry => (entry.1, view entry.2)) ∧
      (Keyed.ofList kind entries).entries.length = (Keyed.ofList other changed).entries.length) ∧
    (Keyed.ofList .insertionOrdered entries).keys = (entries.map (·.1)).eraseDups ∧
      (Keyed.ofList .sorted entries).keys.Pairwise fun a b => Ord.compare a b = .lt := by
  have hget (key : String) : ((Keyed.ofList kind entries).get? key).map view =
      ((Keyed.ofList other changed).get? key).map view := by
    rw [Keyed.get?_ofList, Keyed.get?_ofList, hlast key]
  have hentries := Keyed.proper_ofList (M := M) kind entries
  have hchanged := Keyed.proper_ofList (M := M) other changed
  have hlength := (Keyed.view_entries_perm hentries hchanged hget).length_eq
  rw [List.length_map, List.length_map] at hlength
  exact ⟨fun _ hset => Collection.indistinct_of_perm hset hvalues,
    Keyed.indistinct_of_last (fun key => map_arrangement_eq hview (hlast key)) kind,
    ⟨hget, Keyed.view_sortedEntries hentries hchanged hget, hlength⟩,
    Keyed.keys_ofList_insertionOrdered entries,
    (Keyed.proper_ofList .sorted entries).2 (Keyed.ofList_kind _ _)⟩

-- Two sets that are equal though they list their members differently go into a third one, and a key
-- is set twice.
theorem indistinct_of_filling_swapped :
    let yes : Value Switch := .scalar (.bool true)
    let pair (a b : Value Switch) : Value Switch := .collection .unorderedSet [a, b]
    Indistinct
        (Collection.ofList .unorderedSet [pair .null yes, pair yes .null, yes]).toValue
        (Collection.ofList .unorderedSet [yes, pair yes .null, pair .null yes]).toValue ∧
      Indistinct (Keyed.ofList .concurrent [("b", .null), ("a", yes), ("b", yes)]).toValue
        (Keyed.ofList .concurrent [("b", .null), ("b", yes), ("a", yes)]).toValue := by
  intro yes pair
  have hvalues : [pair .null yes, pair yes .null, yes].Perm
      [yes, pair yes .null, pair .null yes] := (List.reverse_perm _).symm
  have hlast (key : String) :
      (Assoc.get? key [("b", .null), ("a", yes), ("b", yes)].reverse).map id =
        (Assoc.get? key [("b", .null), ("b", yes), ("a", yes)].reverse).map id := by
    by_cases hb : "b" = key
    · subst hb
      rfl
    · simp [Assoc.get?, hb]
  have hequal (a b : Value Switch) (h : id a = id b) : a.equal b :=
    equal_iff.mpr (congrArg arrangement h)
  have hfilled := indistinct_of_filling hequal hvalues hlast .concurrent .concurrent
  exact ⟨(hfilled.1 .unordered (by simp)).1, hfilled.2.1.1⟩

end Value

end TaggedCache
