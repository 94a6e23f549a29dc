import TaggedCache.Proofs.Value.Plain

namespace TaggedCache

open Json

variable {M : ObjectModel}

theorem Object.toTree_eq_error_iff {object : Object M} {e : CodecError} :
    object.toTree = .error e ↔ ∃ text, M.write object.type object.payload = .error text ∧
      e = .encoding object.typeName (.refused text) := by
  rw [toTree]
  cases M.write object.type object.payload with
  | ok tree => simp [Except.mapError]
  | error text => simp [Except.mapError, eq_comm]

namespace Value

theorem exists_of_treesOfItems_eq_error {items : List (Value M)} {e : CodecError}
    (h : treesOfItems items = .error e) : ∃ item ∈ items, item.toTree = .error e := by
  induction items with
  | nil => contradiction
  | cons item rest ih =>
      rw [treesOfItems, bind_eq_error_iff] at h
      rcases h with h | ⟨tree, -, h⟩
      · exact ⟨item, List.mem_cons_self, h⟩
      · rcases bind_eq_error_iff.mp h with h | ⟨trees, -, h⟩
        · obtain ⟨other, hother, herror⟩ := ih h
          exact ⟨other, List.mem_cons_of_mem _ hother, herror⟩
        · contradiction

theorem exists_of_treesOfEntries_eq_error {entries : List (String × Value M)} {e : CodecError}
    (h : treesOfEntries entries = .error e) : ∃ entry ∈ entries, entry.2.toTree = .error e := by
  induction entries with
  | nil => contradiction
  | cons entry rest ih =>
      rw [treesOfEntries, bind_eq_error_iff] at h
      rcases h with h | ⟨tree, -, h⟩
      · exact ⟨entry, List.mem_cons_self, h⟩
      · rcases bind_eq_error_iff.mp h with h | ⟨trees, -, h⟩
        · obtain ⟨other, hother, herror⟩ := ih h
          exact ⟨other, List.mem_cons_of_mem _ hother, herror⟩
        · contradiction

-- Why a value has no tree: for the reason that a leaf inside it has none
theorem exists_leaf_of_toTree_eq_error {value : Value M} {e : CodecError}
    (h : value.toTree = .error e) :
    (∃ leaf, scalar leaf ∈ value.nodes ∧ leaf.toTree = .error e) ∨
      ∃ object ∈ value.objects, object.toTree = .error e := by
  simp only [mem_objects]
  induction value with
  | null => contradiction
  | scalar leaf => exact .inl ⟨leaf, List.mem_singleton_self _, h⟩
  | object object => exact .inr ⟨object, List.mem_singleton_self _, h⟩
  | collection kind items ih =>
      obtain ⟨item, hitem, herror⟩ := exists_of_treesOfItems_eq_error (map_eq_error_iff.mp h)
      rcases ih item hitem herror with ⟨leaf, hleaf, hrefused⟩ | ⟨inner, hinner, hrefused⟩
      · exact .inl ⟨leaf, mem_nodes_collection.mpr (.inr ⟨item, hitem, hleaf⟩), hrefused⟩
      · exact .inr ⟨inner, mem_nodes_collection.mpr (.inr ⟨item, hitem, hinner⟩), hrefused⟩
  | map kind entries ih =>
      obtain ⟨entry, hentry, herror⟩ := exists_of_treesOfEntries_eq_error (map_eq_error_iff.mp h)
      rcases ih entry hentry herror with ⟨leaf, hleaf, hrefused⟩ | ⟨inner, hinner, hrefused⟩
      · exact .inl ⟨leaf, mem_nodes_map.mpr (.inr ⟨entry, hentry, hleaf⟩), hrefused⟩
      · exact .inr ⟨inner, mem_nodes_map.mpr (.inr ⟨entry, hentry, hinner⟩), hrefused⟩

-- A tree of a value holds trees of all values inside it.
theorem exists_toTree_of_mem_nodes {value node : Value M} {tree : Tree}
    (h : value.toTree = .ok tree) (hnode : node ∈ value.nodes) :
    ∃ part, node.toTree = .ok part := by
  induction value generalizing tree with
  | null | scalar | object => exact ⟨tree, List.mem_singleton.mp hnode ▸ h⟩
  | collection kind items ih =>
      rcases mem_nodes_collection.mp hnode with rfl | ⟨item, hitem, hnode⟩
      · exact ⟨tree, h⟩
      · obtain ⟨trees, htrees, -⟩ := toTree_collection.mp h
        obtain ⟨part, -, hpart⟩ := exists_right_of_mem htrees hitem
        exact ih item hitem hpart hnode
  | map kind entries ih =>
      rcases mem_nodes_map.mp hnode with rfl | ⟨entry, hentry, hnode⟩
      · exact ⟨tree, h⟩
      · obtain ⟨fields, hfields, -⟩ := toTree_map.mp h
        obtain ⟨field, -, hfield⟩ := exists_right_of_mem hfields hentry
        exact ih entry hentry hfield.2 hnode

-- An object inside a value refuses to be written, and a text says why.
def Refuses (value : Value M) (object : Object M) (text : String) : Prop :=
  object ∈ value.objects ∧ M.write object.type object.payload = .error text

-- A leaf as it comes from a document: a scalar that has a tree, or an object that its type
-- has read from one
def FromTree : Value M → Prop
  | scalar leaf => ∃ tree, leaf.toTree = .ok tree
  | object value => ∃ tree, M.read value.type tree = .ok value.payload
  | _ => True

theorem exists_toTree_eq_error_of_refuses {value : Value M} {object : Object M} {text : String}
    (h : value.Refuses object text) : ∃ e, value.toTree = .error e := by
  obtain ⟨hobject, hrefused⟩ := h
  cases htree : value.toTree with
  | error e => exact ⟨e, rfl⟩
  | ok tree =>
      obtain ⟨part, hpart⟩ := exists_toTree_of_mem_nodes htree (mem_objects.mp hobject)
      have herror := Object.toTree_eq_error_iff.mpr ⟨text, hrefused, rfl⟩
      cases hpart.symm.trans herror

-- If a value from a document has no tree, then some object in it is to blame.
theorem exists_refuses_of_toTree_eq_error {value : Value M} {e : CodecError}
    (hleaves : value.Every FromTree) (h : value.toTree = .error e) :
    ∃ object text tree, value.Refuses object text ∧
      M.read object.type tree = .ok object.payload ∧
      e = .encoding object.typeName (.refused text) := by
  rcases exists_leaf_of_toTree_eq_error h with ⟨leaf, hleaf, herror⟩ | ⟨inner, hinner, herror⟩
  · obtain ⟨tree, htree⟩ := hleaves _ hleaf
    cases htree.symm.trans herror
  · obtain ⟨tree, hread⟩ := hleaves _ (mem_objects.mp hinner)
    obtain ⟨text, hwrite, he⟩ := Object.toTree_eq_error_iff.mp herror
    exact ⟨inner, text, tree, ⟨hinner, hwrite⟩, hread, he⟩

end Value

end TaggedCache
