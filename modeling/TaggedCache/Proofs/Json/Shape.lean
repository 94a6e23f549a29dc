import TaggedCache.Json.Tree
import TaggedCache.Proofs.Assoc

namespace TaggedCache.Json.Tree

-- A property holds of a tree if it passes from the parts of every array and object to the whole.
@[elab_as_elim, induction_eliminator]
theorem induct {motive : Tree → Prop} (null : motive .null) (bool : ∀ value, motive (.bool value))
    (number : ∀ value, motive (.number value)) (string : ∀ value, motive (.string value))
    (array : ∀ items, (∀ item ∈ items, motive item) → motive (.array items))
    (object : ∀ fields, (∀ field ∈ fields, motive field.2) → motive (.object fields))
    (tree : Tree) : motive tree :=
  match tree with
  | .null => null
  | .bool value => bool value
  | .number value => number value
  | .string value => string value
  | .array items => array items fun item _ => induct null bool number string array object item
  | .object fields => object fields fun field hfield =>
      have := List.sizeOf_lt_of_mem hfield
      induct null bool number string array object field.2
termination_by sizeOf tree
decreasing_by
  all_goals simp_wf
  · have := List.sizeOf_lt_of_mem ‹_ ∈ items›
    omega
  · obtain ⟨name, value⟩ := field
    simp only [Prod.mk.sizeOf_spec] at this ⊢
    omega

mutual

-- How many arrays and objects stand inside each other
def depth : Tree → Nat
  | .array items => depthOfItems items + 1
  | .object fields => depthOfFields fields + 1
  | _ => 0

def depthOfItems : List Tree → Nat
  | [] => 0
  | item :: rest => max item.depth (depthOfItems rest)

def depthOfFields : List (String × Tree) → Nat
  | [] => 0
  | (_, value) :: rest => max value.depth (depthOfFields rest)

end

theorem depthOfItems_le {items : List Tree} {limit : Nat} :
    depthOfItems items ≤ limit ↔ ∀ item ∈ items, item.depth ≤ limit := by
  induction items with
  | nil => simp [depthOfItems]
  | cons item rest ih => simp only [depthOfItems, Nat.max_le, ih, List.forall_mem_cons]

theorem depthOfFields_le {fields : List (String × Tree)} {limit : Nat} :
    depthOfFields fields ≤ limit ↔ ∀ field ∈ fields, field.2.depth ≤ limit := by
  induction fields with
  | nil => simp [depthOfFields]
  | cons field rest ih => simp only [depthOfFields, Nat.max_le, ih, List.forall_mem_cons]

theorem depth_array_le {items : List Tree} {limit : Nat} :
    (Tree.array items).depth ≤ limit + 1 ↔ ∀ item ∈ items, item.depth ≤ limit := by
  rw [depth, Nat.add_le_add_iff_right, depthOfItems_le]

theorem depth_pair (name : String) (second : Tree) :
    (Tree.array [.string name, second]).depth = second.depth + 1 := by
  simp [depth, depthOfItems]

theorem depth_object_le {fields : List (String × Tree)} {limit : Nat} :
    (Tree.object fields).depth ≤ limit + 1 ↔ ∀ field ∈ fields, field.2.depth ≤ limit := by
  rw [depth, Nat.add_le_add_iff_right, depthOfFields_le]

theorem depth_erase_le (name : String) (fields : List (String × Tree)) :
    (Tree.object (Assoc.erase name fields)).depth ≤ (Tree.object fields).depth :=
  depth_object_le.mpr fun field hfield =>
    depthOfFields_le.mp (Nat.le_refl _) field (Assoc.erase_subset name fields hfield)

theorem depth_array_replace_le {before after : List Tree} {tree other : Tree}
    (h : other.depth ≤ tree.depth) :
    (Tree.array (before ++ other :: after)).depth ≤
      (Tree.array (before ++ tree :: after)).depth := by
  have hlimit := depthOfItems_le.mp (Nat.le_refl (depthOfItems (before ++ tree :: after)))
  rw [List.forall_mem_append, List.forall_mem_cons] at hlimit
  exact depth_array_le.mpr (List.forall_mem_append.mpr
    ⟨hlimit.1, List.forall_mem_cons.mpr ⟨Nat.le_trans h hlimit.2.1, hlimit.2.2⟩⟩)

theorem depth_object_replace_le {before after : List (String × Tree)} {name : String}
    {tree other : Tree} (h : other.depth ≤ tree.depth) :
    (Tree.object (before ++ (name, other) :: after)).depth ≤
      (Tree.object (before ++ (name, tree) :: after)).depth := by
  have hlimit := depthOfFields_le.mp (Nat.le_refl (depthOfFields (before ++ (name, tree) :: after)))
  rw [List.forall_mem_append, List.forall_mem_cons] at hlimit
  exact depth_object_le.mpr (List.forall_mem_append.mpr
    ⟨hlimit.1, List.forall_mem_cons.mpr ⟨Nat.le_trans h hlimit.2.1, hlimit.2.2⟩⟩)

mutual

-- A tree and all trees inside it
def nodes : Tree → List Tree
  | .array items => .array items :: nodesOfItems items
  | .object fields => .object fields :: nodesOfFields fields
  | leaf => [leaf]

def nodesOfItems : List Tree → List Tree
  | [] => []
  | item :: rest => item.nodes ++ nodesOfItems rest

def nodesOfFields : List (String × Tree) → List Tree
  | [] => []
  | (_, value) :: rest => value.nodes ++ nodesOfFields rest

end

theorem mem_nodesOfItems {node : Tree} {items : List Tree} :
    node ∈ nodesOfItems items ↔ ∃ item ∈ items, node ∈ item.nodes := by
  induction items with
  | nil => simp [nodesOfItems]
  | cons item rest ih => simp [nodesOfItems, ih]

theorem mem_nodesOfFields {node : Tree} {fields : List (String × Tree)} :
    node ∈ nodesOfFields fields ↔ ∃ field ∈ fields, node ∈ field.2.nodes := by
  induction fields with
  | nil => simp [nodesOfFields]
  | cons field rest ih => simp only [nodesOfFields, List.mem_append, ih, List.exists_mem_cons_iff]

-- A property of every node of a tree
def Every (p : Tree → Prop) (tree : Tree) : Prop := ∀ node ∈ tree.nodes, p node

instance (p : Tree → Prop) [DecidablePred p] (tree : Tree) : Decidable (tree.Every p) :=
  inferInstanceAs (Decidable (∀ node ∈ tree.nodes, p node))

theorem every_array {p : Tree → Prop} {items : List Tree} :
    (Tree.array items).Every p ↔ p (.array items) ∧ ∀ item ∈ items, item.Every p := by
  simp only [Every, nodes, List.forall_mem_cons, mem_nodesOfItems]
  exact and_congr_right fun _ => ⟨fun h item hitem node hnode => h node ⟨item, hitem, hnode⟩,
    fun h node ⟨item, hitem, hnode⟩ => h item hitem node hnode⟩

theorem every_object {p : Tree → Prop} {fields : List (String × Tree)} :
    (Tree.object fields).Every p ↔ p (.object fields) ∧ ∀ field ∈ fields, field.2.Every p := by
  simp only [Every, nodes, List.forall_mem_cons, mem_nodesOfFields]
  exact and_congr_right fun _ => ⟨fun h field hfield node hnode => h node ⟨field, hfield, hnode⟩,
    fun h node ⟨field, hfield, hnode⟩ => h field hfield node hnode⟩

-- Nothing inside a tree is deeper than the tree.
theorem every_depth_le (tree : Tree) : tree.Every (·.depth ≤ tree.depth) := by
  induction tree with
  | null | bool | number | string => simp [Every, nodes]
  | array items ih =>
      refine every_array.mpr ⟨Nat.le_refl _, fun item hitem node hnode => ?_⟩
      have hle := depthOfItems_le.mp (Nat.le_refl _) item hitem
      exact Nat.le_succ_of_le (Nat.le_trans (ih item hitem node hnode) hle)
  | object fields ih =>
      refine every_object.mpr ⟨Nat.le_refl _, fun field hfield node hnode => ?_⟩
      have hle := depthOfFields_le.mp (Nat.le_refl _) field hfield
      exact Nat.le_succ_of_le (Nat.le_trans (ih field hfield node hnode) hle)

-- A tree without parts
def IsLeaf : Tree → Prop
  | .array _ | .object _ => False
  | _ => True

theorem IsLeaf.depth {tree : Tree} (h : tree.IsLeaf) : tree.depth = 0 := by
  cases tree <;> first | rfl | exact h.elim

theorem IsLeaf.every {p : Tree → Prop} {tree : Tree} (h : tree.IsLeaf) : tree.Every p ↔ p tree := by
  cases tree <;> first | exact h.elim | simp [Every, nodes]

-- No name occurs twice in an object.
def DistinctNames : Tree → Prop
  | .object fields => (Assoc.keys fields).Nodup
  | _ => True

-- A tree as a document can hold it
def Distinct (tree : Tree) : Prop := tree.Every DistinctNames

-- An object has no field of the given name.
def LacksField (name : String) : Tree → Prop
  | .object fields => name ∉ Assoc.keys fields
  | _ => True

instance : DecidablePred DistinctNames
  | .object fields => inferInstanceAs (Decidable (Assoc.keys fields).Nodup)
  | .null | .bool _ | .number _ | .string _ | .array _ => .isTrue trivial

instance (name : String) : DecidablePred (LacksField name)
  | .object fields => inferInstanceAs (Decidable (name ∉ Assoc.keys fields))
  | .null | .bool _ | .number _ | .string _ | .array _ => .isTrue trivial

instance (tree : Tree) : Decidable tree.Distinct :=
  inferInstanceAs (Decidable (tree.Every DistinctNames))

theorem IsLeaf.distinct {tree : Tree} (h : tree.IsLeaf) : tree.Distinct := by
  refine h.every.mpr ?_
  cases tree <;> trivial

theorem distinct_array {items : List Tree} :
    (Tree.array items).Distinct ↔ ∀ item ∈ items, item.Distinct := by
  simp [Distinct, every_array, DistinctNames]

theorem distinct_object {fields : List (String × Tree)} :
    (Tree.object fields).Distinct ↔
      (Assoc.keys fields).Nodup ∧ ∀ field ∈ fields, field.2.Distinct := by
  simp [Distinct, every_object, DistinctNames]

theorem distinct_erase (name : String) {fields : List (String × Tree)}
    (h : (Tree.object fields).Distinct) : (Tree.object (Assoc.erase name fields)).Distinct := by
  obtain ⟨hnames, hfields⟩ := distinct_object.mp h
  exact distinct_object.mpr ⟨Assoc.nodup_keys_erase name hnames,
    fun field hfield => hfields field (Assoc.erase_subset name fields hfield)⟩

end TaggedCache.Json.Tree
