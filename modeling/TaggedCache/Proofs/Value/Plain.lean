import TaggedCache.Proofs.Json.Shape
import TaggedCache.Proofs.Pointwise
import TaggedCache.Proofs.Value.Shape
import TaggedCache.Value.Tree

namespace TaggedCache

open Json

namespace Scalar

-- The scalar as which a document gives a scalar back
def normal : Scalar → Scalar
  | uint value => ofUInt64 value
  | other => other

theorem toTree_ofNumber (number : Number) : (ofNumber number).toTree = .ok (.number number) := by
  cases number with
  | double value finite => simp [ofNumber, toTree, Number.ofDouble?, finite]
  | whole value least greatest =>
      by_cases hsmall : value < 0x8000000000000000
      · have hback : (Int64.ofInt value).toInt = value := Int64.toInt_ofInt_of_le least hsmall
        simp [ofNumber, hsmall, toTree, Number.ofInt64, hback]
      · have hnat : value.toNat < UInt64.size := by
          simp only [UInt64.size]
          omega
        have hback : (UInt64.ofNat value.toNat).toNat = value.toNat :=
          UInt64.toNat_ofNat_of_lt' hnat
        have hint : (value.toNat : Int) = value := Int.toNat_of_nonneg (by omega)
        simp [ofNumber, hsmall, toTree, Number.ofUInt64, hback, hint]

theorem ofNumber_ne_string (number : Number) (text : String) : ofNumber number ≠ .string text := by
  rw [ofNumber.eq_def]
  split
  · split <;> exact nofun
  · exact nofun

end Scalar

namespace Value

variable {M : ObjectModel}

mutual

-- What a tree holds as a value, whatever names occur in it
def ofTree : Tree → Value M
  | .null => null
  | .bool value => scalar (.bool value)
  | .number value => scalar (Scalar.ofNumber value)
  | .string value => scalar (.string value)
  | .array items => collection .list (ofItems items)
  | .object fields => map .unordered (ofFields fields)

def ofItems : List Tree → List (Value M)
  | [] => []
  | item :: rest => ofTree item :: ofItems rest

def ofFields : List (String × Tree) → List (String × Value M)
  | [] => []
  | (name, value) :: rest => (name, ofTree value) :: ofFields rest

end

theorem ofItems_eq (items : List Tree) : ofItems (M := M) items = items.map ofTree := by
  induction items with
  | nil => rfl
  | cons item rest ih => rw [ofItems, ih, List.map_cons]

theorem ofFields_eq (fields : List (String × Tree)) :
    ofFields (M := M) fields = fields.map fun field => (field.1, ofTree field.2) := by
  induction fields with
  | nil => rfl
  | cons field rest ih => rw [ofFields, ih, List.map_cons]

theorem eq_string_of_ofTree {tree : Tree} {text : String}
    (h : (ofTree tree : Value M) = scalar (.string text)) : tree = .string text := by
  cases tree with
  | string value =>
      cases h
      rfl
  | number value =>
      rw [ofTree, scalar.injEq] at h
      exact absurd h (Scalar.ofNumber_ne_string value text)
  | null | bool | array | object => cases h

theorem depth_ofTree (tree : Tree) : (ofTree tree : Value M).depth = tree.depth := by
  induction tree with
  | null | bool | number | string => rfl
  | array items ih =>
      rw [ofTree, depth, Tree.depth, ofItems_eq]
      congr 1
      induction items with
      | nil => rfl
      | cons item rest ihRest =>
          rw [List.map_cons, depthOfItems, Tree.depthOfItems, ih item List.mem_cons_self,
            ihRest fun other hother => ih other (List.mem_cons_of_mem _ hother)]
  | object fields ih =>
      rw [ofTree, depth, Tree.depth, ofFields_eq]
      congr 1
      induction fields with
      | nil => rfl
      | cons field rest ihRest =>
          rw [List.map_cons, depthOfEntries, Tree.depthOfFields, ih field List.mem_cons_self,
            ihRest fun other hother => ih other (List.mem_cons_of_mem _ hother)]

theorem treesOfItems_eq_ok_iff {items : List (Value M)} {trees : List Tree} :
    treesOfItems items = .ok trees ↔
      List.Forall₂ (fun item tree => item.toTree = .ok tree) items trees := by
  induction items generalizing trees with
  | nil =>
      simp only [treesOfItems, List.forall₂_nil_left_iff]
      exact ⟨fun h => (Except.ok.inj h).symm, fun h => h ▸ rfl⟩
  | cons item rest ih =>
      simp only [treesOfItems, bind_eq_ok_iff, ih, List.forall₂_cons_left_iff]
      constructor
      · rintro ⟨first, hfirst, others, hothers, h⟩
        exact ⟨first, others, hfirst, hothers, (Except.ok.inj h).symm⟩
      · rintro ⟨first, others, hfirst, hothers, rfl⟩
        exact ⟨first, hfirst, others, hothers, rfl⟩

theorem treesOfEntries_eq_ok_iff {entries : List (String × Value M)}
    {fields : List (String × Tree)} :
    treesOfEntries entries = .ok fields ↔
      List.Forall₂ (fun entry field => entry.1 = field.1 ∧ entry.2.toTree = .ok field.2)
        entries fields := by
  induction entries generalizing fields with
  | nil =>
      simp only [treesOfEntries, List.forall₂_nil_left_iff]
      exact ⟨fun h => (Except.ok.inj h).symm, fun h => h ▸ rfl⟩
  | cons entry rest ih =>
      simp only [treesOfEntries, bind_eq_ok_iff, ih, List.forall₂_cons_left_iff]
      constructor
      · rintro ⟨first, hfirst, others, hothers, h⟩
        exact ⟨(entry.1, first), others, ⟨rfl, hfirst⟩, hothers, (Except.ok.inj h).symm⟩
      · rintro ⟨⟨name, first⟩, others, ⟨rfl, hfirst⟩, hothers, rfl⟩
        exact ⟨first, hfirst, others, hothers, rfl⟩

theorem toTree_collection {kind : CollectionKind} {items : List (Value M)} {tree : Tree} :
    (collection kind items).toTree = .ok tree ↔
      ∃ trees, List.Forall₂ (fun item tree => item.toTree = .ok tree) items trees ∧
        .array trees = tree := by
  simp only [toTree, map_eq_ok_iff, treesOfItems_eq_ok_iff]

theorem toTree_map {kind : MapKind} {entries : List (String × Value M)} {tree : Tree} :
    (map kind entries).toTree = .ok tree ↔
      ∃ fields, List.Forall₂ (fun entry field => entry.1 = field.1 ∧ entry.2.toTree = .ok field.2)
        entries fields ∧ .object fields = tree := by
  simp only [toTree, map_eq_ok_iff, treesOfEntries_eq_ok_iff]

theorem toTree_ofTree (tree : Tree) : (ofTree tree : Value M).toTree = .ok tree := by
  induction tree with
  | null => rfl
  | bool value => rfl
  | number value => exact Scalar.toTree_ofNumber value
  | string value => rfl
  | array items ih =>
      refine toTree_collection.mpr ⟨items, ?_, rfl⟩
      rw [ofItems_eq, List.forall₂_map_left_iff]
      exact List.forall₂_same.mpr ih
  | object fields ih =>
      refine toTree_map.mpr ⟨fields, ?_, rfl⟩
      rw [ofFields_eq, List.forall₂_map_left_iff]
      exact List.forall₂_same.mpr fun field hfield => ⟨rfl, ih field hfield⟩

mutual

-- What is left of a value once it was turned into a tree: its containers are lists and
-- unordered maps, and its objects are maps of their fields.
def plain : Value M → Value M
  | null => null
  | scalar value => scalar value.normal
  | object value =>
      match value.toTree with
      | .ok tree => ofTree tree
      | .error _ => null
  | collection _ items => collection .list (plainItems items)
  | map _ entries => map .unordered (plainEntries entries)

def plainItems : List (Value M) → List (Value M)
  | [] => []
  | item :: rest => item.plain :: plainItems rest

def plainEntries : List (String × Value M) → List (String × Value M)
  | [] => []
  | (key, value) :: rest => (key, value.plain) :: plainEntries rest

end

theorem plainItems_eq (items : List (Value M)) : plainItems items = items.map plain := by
  induction items with
  | nil => rfl
  | cons item rest ih => rw [plainItems, ih, List.map_cons]

theorem plainEntries_eq (entries : List (String × Value M)) :
    plainEntries entries = entries.map fun entry => (entry.1, entry.2.plain) := by
  induction entries with
  | nil => rfl
  | cons entry rest ih => rw [plainEntries, ih, List.map_cons]

end Value

theorem Scalar.isLeaf_of_toTree {value : Scalar} {tree : Tree} (h : value.toTree = .ok tree) :
    tree.IsLeaf := by
  cases value with
  | float value =>
      rw [toTree] at h
      split at h <;> cases h
      trivial
  | bool value | int value | uint value | string value =>
      cases h
      trivial

theorem Scalar.ofTree_of_toTree {M : ObjectModel} {value : Scalar} {tree : Tree}
    (h : value.toTree = .ok tree) : (Value.ofTree tree : Value M) = .scalar value.normal := by
  cases value with
  | bool value =>
      cases h
      rfl
  | int value =>
      cases h
      have hsmall : value.toInt < 0x8000000000000000 := value.toInt_lt
      simp [Value.ofTree, Number.ofInt64, ofNumber, hsmall, normal]
  | uint value =>
      cases h
      have hcast : (value.toNat : Int) < 0x8000000000000000 ↔ value.toNat < 0x8000000000000000 := by
        omega
      by_cases hsmall : value.toNat < 0x8000000000000000
      · simp [Value.ofTree, Number.ofUInt64, ofNumber, normal, ofUInt64, hcast, hsmall]
        rfl
      · simp [Value.ofTree, Number.ofUInt64, ofNumber, normal, ofUInt64, hcast, hsmall]
  | float value =>
      rw [toTree] at h
      split at h
      · cases h
        rename_i number hnumber
        rw [Number.ofDouble?] at hnumber
        split at hnumber
        · cases hnumber
          rfl
        · contradiction
      · contradiction
  | string value =>
      cases h
      rfl

namespace Value

variable {M : ObjectModel}

theorem ofTree_of_toTree {value : Value M} {tree : Tree} (h : value.toTree = .ok tree) :
    ofTree tree = value.plain := by
  induction value generalizing tree with
  | null =>
      cases h
      rfl
  | scalar value => exact Scalar.ofTree_of_toTree h
  | object value =>
      rw [toTree] at h
      simp only [plain, h]
  | collection kind items ih =>
      obtain ⟨trees, htrees, rfl⟩ := toTree_collection.mp h
      rw [ofTree, plain, ofItems_eq, plainItems_eq]
      congr 1
      exact (map_eq_map_of_forall₂ htrees fun item hitem tree _ h => (ih item hitem h).symm).symm
  | map kind entries ih =>
      obtain ⟨fields, hfields, rfl⟩ := toTree_map.mp h
      rw [ofTree, plain, ofFields_eq, plainEntries_eq]
      congr 1
      exact (map_eq_map_of_forall₂ hfields fun entry hentry field _ h => by
        rw [h.1, ih entry hentry h.2]).symm

theorem keys_of_forall₂ {entries : List (String × Value M)} {fields : List (String × Tree)}
    (h : List.Forall₂ (fun entry field => entry.1 = field.1 ∧ entry.2.toTree = .ok field.2)
      entries fields) : Assoc.keys fields = Assoc.keys entries :=
  (map_eq_map_of_forall₂ h fun _ _ _ _ hr => hr.1).symm

end Value

theorem Object.toTree_eq_ok_iff {M : ObjectModel} {object : Object M} {tree : Tree} :
    object.toTree = .ok tree ↔ M.write object.type object.payload = .ok tree := by
  rw [toTree]
  cases M.write object.type object.payload with
  | error text => exact ⟨nofun, nofun⟩
  | ok other => exact ⟨fun h => Except.ok.inj h ▸ rfl, fun h => Except.ok.inj h ▸ rfl⟩

-- The trees that objects are written as are trees as a document can hold them.
def ObjectModel.WritesDistinct (M : ObjectModel) : Prop :=
  ∀ type payload tree, M.write type payload = .ok tree → tree.Distinct

theorem Object.distinct_of_toTree {M : ObjectModel} (hwrites : M.WritesDistinct) {object : Object M}
    {tree : Tree} (h : object.toTree = .ok tree) : tree.Distinct :=
  hwrites _ _ _ (Object.toTree_eq_ok_iff.mp h)

theorem Value.distinct_of_toTree {M : ObjectModel} (hwrites : M.WritesDistinct) {value : Value M}
    {tree : Tree} (hvalue : value.WellFormed) (h : value.toTree = .ok tree) : tree.Distinct := by
  induction value generalizing tree with
  | null =>
      cases h
      exact Tree.IsLeaf.distinct trivial
  | scalar value => exact (Scalar.isLeaf_of_toTree h).distinct
  | object value => exact Object.distinct_of_toTree hwrites h
  | collection kind items ih =>
      obtain ⟨trees, htrees, rfl⟩ := toTree_collection.mp h
      rw [Tree.distinct_array]
      intro tree htree
      obtain ⟨item, hitem, hsource⟩ := exists_left_of_mem htrees htree
      exact ih item hitem ((wellFormed_collection.mp hvalue).2 item hitem) hsource
  | map kind entries ih =>
      obtain ⟨fields, hfields, rfl⟩ := toTree_map.mp h
      obtain ⟨hproper, hentries⟩ := wellFormed_map.mp hvalue
      rw [Tree.distinct_object, keys_of_forall₂ hfields]
      refine ⟨hproper.1, fun field hfield => ?_⟩
      obtain ⟨entry, hentry, -, hsource⟩ := exists_left_of_mem hfields hfield
      exact ih entry hentry (hentries entry hentry) hsource

namespace Value

variable {M : ObjectModel}

-- A map has no key of the given name, and an object no field at any depth.
def NodeLacks (name : String) : Value M → Prop
  | map _ entries => name ∉ Assoc.keys entries
  | object value => ∀ tree, value.toTree = .ok tree → tree.Every (Tree.LacksField name)
  | _ => True

def LacksName (name : String) (value : Value M) : Prop := value.Every (NodeLacks name)

@[simp] theorem lacksName_null (name : String) : (null : Value M).LacksName name :=
  every_null.mpr trivial

@[simp] theorem lacksName_scalar (name : String) (value : Scalar) :
    (scalar value : Value M).LacksName name := every_scalar.mpr trivial

theorem lacksName_object {name : String} {value : Object M} :
    (object value).LacksName name ↔
      ∀ tree, value.toTree = .ok tree → tree.Every (Tree.LacksField name) := every_object

@[simp] theorem lacksName_collection {name : String} {kind : CollectionKind}
    {items : List (Value M)} :
    (collection kind items).LacksName name ↔ ∀ item ∈ items, item.LacksName name := by
  simp [LacksName, every_collection, NodeLacks]

@[simp] theorem lacksName_map {name : String} {kind : MapKind} {entries : List (String × Value M)} :
    (map kind entries).LacksName name ↔
      name ∉ Assoc.keys entries ∧ ∀ entry ∈ entries, entry.2.LacksName name := every_map

theorem lacksField_of_toTree {name : String} {value : Value M} {tree : Tree}
    (hlacks : value.LacksName name) (h : value.toTree = .ok tree) :
    tree.Every (Tree.LacksField name) := by
  have hleaf (leaf : Tree) (hleaf : leaf.IsLeaf) : leaf.Every (Tree.LacksField name) := by
    refine hleaf.every.mpr ?_
    cases leaf <;> trivial
  induction value generalizing tree with
  | null =>
      cases h
      exact hleaf _ trivial
  | scalar value => exact hleaf _ (Scalar.isLeaf_of_toTree h)
  | object value => exact lacksName_object.mp hlacks tree h
  | collection kind items ih =>
      obtain ⟨trees, htrees, rfl⟩ := toTree_collection.mp h
      refine Tree.every_array.mpr ⟨trivial, fun tree htree => ?_⟩
      obtain ⟨item, hitem, hsource⟩ := exists_left_of_mem htrees htree
      exact ih item hitem (lacksName_collection.mp hlacks item hitem) hsource
  | map kind entries ih =>
      obtain ⟨fields, hfields, rfl⟩ := toTree_map.mp h
      obtain ⟨hkeys, hentries⟩ := lacksName_map.mp hlacks
      refine Tree.every_object.mpr ⟨?_, fun field hfield => ?_⟩
      · rwa [Tree.LacksField, keys_of_forall₂ hfields]
      · obtain ⟨entry, hentry, -, hsource⟩ := exists_left_of_mem hfields hfield
        exact ih entry hentry (hentries entry hentry) hsource

end Value

end TaggedCache
