import TaggedCache.Json.Printer
import TaggedCache.Proofs.Json.Shape
import TaggedCache.Proofs.Pointwise

namespace TaggedCache.Json.Tree

-- Two trees are the same up to the order of fields if they have the same canonical form.

theorem canonicalItems_eq (items : List Tree) : canonicalItems items = items.map canonical := by
  induction items with
  | nil => rfl
  | cons item rest ih => rw [canonicalItems, ih, List.map_cons]

theorem canonicalFields_eq (fields : List (String × Tree)) :
    canonicalFields fields = fields.map fun field => (field.1, field.2.canonical) := by
  induction fields with
  | nil => rfl
  | cons field rest ih => rw [canonicalFields, ih, List.map_cons]

theorem keys_canonicalFields (fields : List (String × Tree)) :
    Assoc.keys (canonicalFields fields) = Assoc.keys fields := by
  simp [canonicalFields_eq, Assoc.keys]

theorem IsLeaf.canonical_eq_iff {tree other : Tree} (h : tree.IsLeaf) :
    other.canonical = tree ↔ other = tree := by
  cases tree with
  | array | object => exact h.elim
  | null | bool | number | string => cases other <;> simp [canonical]

theorem canonical_array_eq_iff {items others : List Tree} :
    (Tree.array items).canonical = (Tree.array others).canonical ↔
      List.Forall₂ (fun item other => item.canonical = other.canonical) items others := by
  rw [canonical, canonical, array.injEq, canonicalItems_eq, canonicalItems_eq, map_eq_map_iff]

theorem canonicalFields_perm {fields others : List (String × Tree)}
    (h : (Tree.object fields).canonical = (Tree.object others).canonical) :
    (canonicalFields fields).Perm (canonicalFields others) := by
  rw [canonical, canonical, object.injEq, Assoc.sorted, Assoc.sorted] at h
  exact (List.mergeSort_perm _ _).symm.trans ((List.Perm.of_eq h).trans (List.mergeSort_perm _ _))

theorem canonical_object_eq_iff {fields others : List (String × Tree)}
    (hnames : (Assoc.keys fields).Nodup) :
    (Tree.object fields).canonical = (Tree.object others).canonical ↔
      (canonicalFields fields).Perm (canonicalFields others) := by
  refine ⟨canonicalFields_perm, fun h => ?_⟩
  rw [canonical, canonical, Assoc.sorted_eq_of_perm h (keys_canonicalFields fields ▸ hnames)]

theorem canonical_object_of_perm {fields others : List (String × Tree)} (h : fields.Perm others)
    (hnames : (Assoc.keys fields).Nodup) :
    (Tree.object fields).canonical = (Tree.object others).canonical := by
  rw [canonical_object_eq_iff hnames, canonicalFields_eq, canonicalFields_eq]
  exact h.map _

theorem canonical_object_congr {fields others : List (String × Tree)}
    (h : List.Forall₂ (fun field other => field.1 = other.1 ∧ field.2.canonical = other.2.canonical)
      fields others) : (Tree.object fields).canonical = (Tree.object others).canonical := by
  have hfields : canonicalFields fields = canonicalFields others := by
    rw [canonicalFields_eq, canonicalFields_eq, map_eq_map_iff]
    exact h.imp fun field other hsame => Prod.ext hsame.1 hsame.2
  rw [canonical, canonical, hfields]

-- What is the same as an array up to the order of fields is an array.
theorem exists_items_of_canonical_eq {items : List Tree} {tree : Tree}
    (h : (Tree.array items).canonical = tree.canonical) :
    ∃ others, tree = .array others ∧
      List.Forall₂ (fun item other => item.canonical = other.canonical) items others := by
  cases tree with
  | array others => exact ⟨others, rfl, canonical_array_eq_iff.mp h⟩
  | _ => simp [canonical] at h

-- What is the same as a pair with a text in front is such a pair.
theorem exists_pair_of_canonical_eq {name : String} {second tree : Tree}
    (h : (Tree.array [.string name, second]).canonical = tree.canonical) :
    ∃ other, tree = .array [.string name, other] ∧ second.canonical = other.canonical := by
  obtain ⟨others, rfl, hothers⟩ := exists_items_of_canonical_eq h
  obtain ⟨first, rest, hfirst, hrest, rfl⟩ := List.forall₂_cons_left_iff.mp hothers
  obtain ⟨other, _, hother, hnil, rfl⟩ := List.forall₂_cons_left_iff.mp hrest
  cases hnil
  have hname : (Tree.string name).IsLeaf := trivial
  rw [hname.canonical_eq_iff.mp hfirst.symm]
  exact ⟨other, rfl, hother⟩

-- What is the same as an object up to the order of fields is an object.
theorem exists_fields_of_canonical_eq {fields : List (String × Tree)} {tree : Tree}
    (h : (Tree.object fields).canonical = tree.canonical) :
    ∃ others arranged, tree = .object others ∧ arranged.Perm others ∧
      List.Forall₂ (fun field other => field.1 = other.1 ∧ field.2.canonical = other.2.canonical)
        fields arranged := by
  cases tree with
  | object others =>
      have hperm := canonicalFields_perm h
      rw [canonicalFields_eq, canonicalFields_eq] at hperm
      obtain ⟨arranged, hmap, harranged⟩ := exists_map_of_perm hperm
      exact ⟨others, arranged, rfl, harranged,
        (map_eq_map_iff.mp hmap).imp fun field other hsame => Prod.mk.inj hsame⟩
  | _ => simp [canonical] at h

theorem canonicalFields_erase (name : String) (fields : List (String × Tree)) :
    canonicalFields (Assoc.erase name fields) = Assoc.erase name (canonicalFields fields) := by
  rw [canonicalFields_eq, canonicalFields_eq, Assoc.erase, Assoc.erase, List.filter_map]
  rfl

-- Objects stay the same up to the order of fields when a field is left out of both.
theorem canonical_erase (name : String) {fields others : List (String × Tree)}
    (hnames : (Assoc.keys fields).Nodup)
    (h : (Tree.object fields).canonical = (Tree.object others).canonical) :
    (Tree.object (Assoc.erase name fields)).canonical =
      (Tree.object (Assoc.erase name others)).canonical := by
  rw [canonical_object_eq_iff (Assoc.nodup_keys_erase name hnames), canonicalFields_erase,
    canonicalFields_erase]
  exact (canonicalFields_perm h).filter _

-- A leaf is found under its name wherever its field stands.
theorem get?_leaf_of_canonical_eq {name : String} {leaf : Tree}
    {fields others : List (String × Tree)}
    (hfields : (Assoc.keys fields).Nodup) (hothers : (Assoc.keys others).Nodup)
    (hleaf : leaf.IsLeaf) (h : (Tree.object fields).canonical = (Tree.object others).canonical) :
    Assoc.get? name fields = some leaf ↔ Assoc.get? name others = some leaf := by
  have hmem (fields : List (String × Tree)) :
      (name, leaf) ∈ canonicalFields fields ↔ (name, leaf) ∈ fields := by
    simp [canonicalFields_eq, hleaf.canonical_eq_iff]
  rw [Assoc.get?_eq_some_iff_mem hfields, Assoc.get?_eq_some_iff_mem hothers, ← hmem fields,
    ← hmem others, (canonicalFields_perm h).mem_iff]

theorem distinct_canonical_iff {tree : Tree} : tree.canonical.Distinct ↔ tree.Distinct := by
  induction tree with
  | null | bool | number | string => exact Iff.rfl
  | array items ih =>
      rw [canonical, canonicalItems_eq, distinct_array, distinct_array, List.forall_mem_map]
      exact forall₂_congr ih
  | object fields ih =>
      have hperm := List.mergeSort_perm (canonicalFields fields) fun a b => (compare a.1 b.1).isLE
      rw [canonical, Assoc.sorted, distinct_object, distinct_object, Assoc.keys,
        (hperm.map Prod.fst).nodup_iff, ← Assoc.keys, keys_canonicalFields]
      simp only [hperm.mem_iff]
      rw [canonicalFields_eq, List.forall_mem_map]
      exact and_congr_right fun _ => forall₂_congr ih

theorem distinct_of_canonical_eq {a b : Tree} (h : a.canonical = b.canonical) (hb : b.Distinct) :
    a.Distinct :=
  distinct_canonical_iff.mp (h ▸ distinct_canonical_iff.mpr hb)

end TaggedCache.Json.Tree
