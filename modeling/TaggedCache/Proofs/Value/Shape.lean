import TaggedCache.Proofs.Assoc
import TaggedCache.Value.Container

namespace TaggedCache

variable {M : ObjectModel}

namespace Value

-- A property holds of a value if it passes from the members of every container to the whole.
@[elab_as_elim, induction_eliminator]
theorem induct {motive : Value M → Prop} (null : motive .null)
    (scalar : ∀ value, motive (.scalar value)) (object : ∀ value, motive (.object value))
    (collection : ∀ kind items, (∀ item ∈ items, motive item) → motive (.collection kind items))
    (map : ∀ kind entries, (∀ entry ∈ entries, motive entry.2) → motive (.map kind entries))
    (value : Value M) : motive value :=
  match value with
  | .null => null
  | .scalar value => scalar value
  | .object value => object value
  | .collection kind items =>
      collection kind items fun item _ => induct null scalar object collection map item
  | .map kind entries =>
      map kind entries fun entry hentry =>
        have := List.sizeOf_lt_of_mem hentry
        induct null scalar object collection map entry.2
termination_by sizeOf value
decreasing_by
  all_goals simp_wf
  · have := List.sizeOf_lt_of_mem ‹_ ∈ items›
    omega
  · obtain ⟨key, value⟩ := entry
    simp only [Prod.mk.sizeOf_spec] at this ⊢
    omega

mutual

-- How many containers stand inside each other. What an object holds is not looked at.
def depth : Value M → Nat
  | .collection _ items => depthOfItems items + 1
  | .map _ entries => depthOfEntries entries + 1
  | _ => 0

def depthOfItems : List (Value M) → Nat
  | [] => 0
  | item :: rest => max item.depth (depthOfItems rest)

def depthOfEntries : List (String × Value M) → Nat
  | [] => 0
  | (_, value) :: rest => max value.depth (depthOfEntries rest)

end

theorem depthOfItems_le {items : List (Value M)} {limit : Nat} :
    depthOfItems items ≤ limit ↔ ∀ item ∈ items, item.depth ≤ limit := by
  induction items with
  | nil => simp [depthOfItems]
  | cons item rest ih => simp only [depthOfItems, Nat.max_le, ih, List.forall_mem_cons]

theorem depthOfEntries_le {entries : List (String × Value M)} {limit : Nat} :
    depthOfEntries entries ≤ limit ↔ ∀ entry ∈ entries, entry.2.depth ≤ limit := by
  induction entries with
  | nil => simp [depthOfEntries]
  | cons entry rest ih => simp only [depthOfEntries, Nat.max_le, ih, List.forall_mem_cons]

theorem depth_collection_le {kind : CollectionKind} {items : List (Value M)} {limit : Nat} :
    (collection kind items).depth ≤ limit + 1 ↔ ∀ item ∈ items, item.depth ≤ limit := by
  rw [depth, Nat.add_le_add_iff_right, depthOfItems_le]

theorem depth_map_le {kind : MapKind} {entries : List (String × Value M)} {limit : Nat} :
    (map kind entries).depth ≤ limit + 1 ↔ ∀ entry ∈ entries, entry.2.depth ≤ limit := by
  rw [depth, Nat.add_le_add_iff_right, depthOfEntries_le]

mutual

-- A value and all values inside it. What an object holds is not looked at.
def nodes : Value M → List (Value M)
  | .collection kind items => .collection kind items :: nodesOfItems items
  | .map kind entries => .map kind entries :: nodesOfEntries entries
  | leaf => [leaf]

def nodesOfItems : List (Value M) → List (Value M)
  | [] => []
  | item :: rest => item.nodes ++ nodesOfItems rest

def nodesOfEntries : List (String × Value M) → List (Value M)
  | [] => []
  | (_, value) :: rest => value.nodes ++ nodesOfEntries rest

end

theorem mem_nodesOfItems {node : Value M} {items : List (Value M)} :
    node ∈ nodesOfItems items ↔ ∃ item ∈ items, node ∈ item.nodes := by
  induction items with
  | nil => simp [nodesOfItems]
  | cons item rest ih => simp [nodesOfItems, ih]

theorem mem_nodesOfEntries {node : Value M} {entries : List (String × Value M)} :
    node ∈ nodesOfEntries entries ↔ ∃ entry ∈ entries, node ∈ entry.2.nodes := by
  induction entries with
  | nil => simp [nodesOfEntries]
  | cons entry rest ih => simp only [nodesOfEntries, List.mem_append, ih, List.exists_mem_cons_iff]

theorem mem_nodes_collection {node : Value M} {kind : CollectionKind} {items : List (Value M)} :
    node ∈ (collection kind items).nodes ↔
      node = collection kind items ∨ ∃ item ∈ items, node ∈ item.nodes := by
  simp [nodes, mem_nodesOfItems]

theorem mem_nodes_map {node : Value M} {kind : MapKind} {entries : List (String × Value M)} :
    node ∈ (map kind entries).nodes ↔
      node = map kind entries ∨ ∃ entry ∈ entries, node ∈ entry.2.nodes := by
  simp [nodes, mem_nodesOfEntries]

-- A property of every node of a value
def Every (p : Value M → Prop) (value : Value M) : Prop := ∀ node ∈ value.nodes, p node

theorem every_null {p : Value M → Prop} : null.Every p ↔ p null := by simp [Every, nodes]

theorem every_scalar {p : Value M → Prop} {value : Scalar} :
    (scalar value).Every p ↔ p (scalar value) := by simp [Every, nodes]

theorem every_object {p : Value M → Prop} {value : Object M} :
    (object value).Every p ↔ p (object value) := by simp [Every, nodes]

theorem every_collection {p : Value M → Prop} {kind : CollectionKind} {items : List (Value M)} :
    (collection kind items).Every p ↔ p (collection kind items) ∧ ∀ item ∈ items, item.Every p := by
  simp only [Every, mem_nodes_collection, forall_eq_or_imp]
  exact and_congr_right fun _ => ⟨fun h item hitem node hnode => h node ⟨item, hitem, hnode⟩,
    fun h node ⟨item, hitem, hnode⟩ => h item hitem node hnode⟩

theorem every_map {p : Value M → Prop} {kind : MapKind} {entries : List (String × Value M)} :
    (map kind entries).Every p ↔ p (map kind entries) ∧ ∀ entry ∈ entries, entry.2.Every p := by
  simp only [Every, mem_nodes_map, forall_eq_or_imp]
  exact and_congr_right fun _ => ⟨fun h entry hentry node hnode => h node ⟨entry, hentry, hnode⟩,
    fun h node ⟨entry, hentry, hnode⟩ => h entry hentry node hnode⟩

-- The objects inside a value
def objects (value : Value M) : List (Object M) := value.nodes.filterMap asObject?

theorem mem_objects {object : Object M} {value : Value M} :
    object ∈ value.objects ↔ .object object ∈ value.nodes := by
  rw [objects, List.mem_filterMap]
  constructor
  · rintro ⟨node, hnode, hobject⟩
    cases node <;> cases hobject
    exact hnode
  · exact fun h => ⟨_, h, rfl⟩

end Value

-- A set holds no two equal members, and a sorted set holds them in ascending order.
def Collection.Proper (c : Collection M) : Prop :=
  match c.kind with
  | .list | .linkedList => True
  | .unorderedSet | .orderedSet => c.items.Pairwise fun a b => Value.compare a b ≠ .eq
  | .sortedSet => c.items.Pairwise fun a b => Value.compare a b = .lt

-- A map holds no key twice, and a sorted map holds its keys in ascending order.
def Keyed.Proper (m : Keyed M) : Prop :=
  m.keys.Nodup ∧ (m.kind = .sorted → m.keys.Pairwise fun a b => compare a b = .lt)

-- A value whose containers are as they are built
def Value.WellFormed (value : Value M) : Prop :=
  value.Every fun
    | .collection kind items => Collection.Proper ⟨kind, items⟩
    | .map kind entries => Keyed.Proper ⟨kind, entries⟩
    | _ => True

namespace Value

@[simp] theorem wellFormed_null : (null : Value M).WellFormed := every_null.mpr trivial

@[simp] theorem wellFormed_scalar (value : Scalar) : (scalar value : Value M).WellFormed :=
  every_scalar.mpr trivial

@[simp] theorem wellFormed_object (value : Object M) : (object value).WellFormed :=
  every_object.mpr trivial

@[simp] theorem wellFormed_collection {kind : CollectionKind} {items : List (Value M)} :
    (collection kind items).WellFormed ↔
      Collection.Proper ⟨kind, items⟩ ∧ ∀ item ∈ items, item.WellFormed := every_collection

@[simp] theorem wellFormed_map {kind : MapKind} {entries : List (String × Value M)} :
    (map kind entries).WellFormed ↔
      Keyed.Proper ⟨kind, entries⟩ ∧ ∀ entry ∈ entries, entry.2.WellFormed := every_map

end Value

end TaggedCache
