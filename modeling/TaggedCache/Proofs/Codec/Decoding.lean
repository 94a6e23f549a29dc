import TaggedCache.Codec.Decode
import TaggedCache.Proofs.Value.Plain
import TaggedCache.Proofs.Value.Refill

namespace TaggedCache

open Json

variable {M : ObjectModel}

-- What stands for something made of fields
def TypeHandle.TakesFields : TypeHandle M → Prop
  | .object _ | .container (.map _) => True
  | .container (.collection _) => False

namespace Codec

theorem decodeItems_eq (codec : Codec M) (items : List Tree) :
    codec.decodeItems items = items.map (codec.decodeTree true) := by
  induction items with
  | nil => rfl
  | cons item rest ih => rw [decodeItems, ih, List.map_cons]

theorem decodeFields_eq (codec : Codec M) (fields : List (String × Tree)) :
    codec.decodeFields fields =
      fields.map fun field => (field.1, codec.decodeTree false field.2) := by
  induction fields with
  | nil => rfl
  | cons field rest ih => rw [decodeFields, ih, List.map_cons]

theorem keys_decodeFields (codec : Codec M) (fields : List (String × Tree)) :
    Assoc.keys (codec.decodeFields fields) = Assoc.keys fields := by
  simp [decodeFields_eq, Assoc.keys]

theorem erase_decodeFields (codec : Codec M) (key : String) (fields : List (String × Tree)) :
    Assoc.erase key (codec.decodeFields fields) = codec.decodeFields (Assoc.erase key fields) := by
  rw [decodeFields_eq, decodeFields_eq, Assoc.erase, Assoc.erase, List.filter_map]
  rfl

theorem typeTag?_eq_some_iff {codec : Codec M} {fields : List (String × Tree)} {name : String} :
    codec.typeTag? fields = some name ↔
      Assoc.get? codec.config.discriminator fields = some (.string name) := by
  unfold typeTag?
  split <;> simp_all

-- A heading stands in front of what it announces.
theorem heading?_eq_some {codec : Codec M} {isItem : Bool} {items : List Tree} {heading : Heading M}
    (h : codec.heading? isItem items = some heading) :
    ∃ name second, items = [.string name, second] ∧
      match heading with
      | .collection kind => codec.registry.resolve name = some (.container (.collection kind)) ∧
          ∃ inner, second = .array inner
      | .object type fields => codec.registry.resolve name = some (.object type) ∧
          isItem = true ∧ second = .object fields
      | .map kind => codec.registry.resolve name = some (.container (.map kind)) ∧
          isItem = true ∧ ∃ fields, second = .object fields := by
  unfold heading? at h
  split at h
  · rename_i name inner
    rcases hname : codec.registry.resolve name with _ | (type | (kind | kind)) <;>
      simp only [hname, reduceCtorEq, Option.some.injEq] at h
    subst h
    exact ⟨name, _, rfl, hname, inner, rfl⟩
  · rename_i name fields
    cases isItem <;>
      rcases hname : codec.registry.resolve name with _ | (type | (kind | kind)) <;>
      simp only [hname, reduceCtorEq, Option.some.injEq] at h
    · subst h
      exact ⟨name, _, rfl, hname, rfl, rfl⟩
    · subst h
      exact ⟨name, _, rfl, hname, rfl, fields, rfl⟩
  · contradiction

theorem heading?_wrapper_ne_none {codec : Codec M} {name : String} {kind : CollectionKind}
    (hname : codec.registry.resolve name = some (.container (.collection kind))) (isItem : Bool)
    (inner : List Tree) : codec.heading? isItem [.string name, .array inner] ≠ none := by
  simp [heading?, hname]

theorem heading?_pair_ne_none {codec : Codec M} {name : String} {handle : TypeHandle M}
    (hname : codec.registry.resolve name = some handle) (htakes : handle.TakesFields)
    (fields : List (String × Tree)) :
    codec.heading? true [.string name, .object fields] ≠ none := by
  rcases handle with type | (kind | kind)
  · simp [heading?, hname]
  · exact htakes.elim
  · simp [heading?, hname]

-- An array without a heading
theorem decodeTree_array {codec : Codec M} {isItem : Bool} {items : List Tree}
    (h : codec.heading? isItem items = none) :
    codec.decodeTree isItem (.array items) =
      .collection .list (items.map (codec.decodeTree true)) := by
  rw [decodeTree, h, Value.list_eq, decodeItems_eq]

-- An array under the name of a collection kind
theorem decodeTree_wrapper {codec : Codec M} {name : String} {kind : CollectionKind}
    (hname : codec.registry.resolve name = some (.container (.collection kind)))
    (isItem : Bool) (inner : List Tree) :
    codec.decodeTree isItem (.array [.string name, .array inner]) =
      (Collection.ofList kind (inner.map (codec.decodeTree true))).toValue := by
  rw [decodeTree]
  simp only [heading?, hname]
  rw [decodeSecondItems, decodeItemsOf, decodeItems_eq]

-- What fields become that stand under the name of something
def fieldsAs (codec : Codec M) (handle : Option (TypeHandle M)) (fields : List (String × Tree)) :
    Value M :=
  match handle with
  | some (.object type) => materialized type fields (codec.decodeFields fields)
  | some (.container (.map kind)) => (Keyed.ofList kind (codec.decodeFields fields)).toValue
  | _ => (Keyed.ofList .unordered (codec.decodeFields fields)).toValue

theorem fieldsAs_none (codec : Codec M) (fields : List (String × Tree)) :
    codec.fieldsAs none fields =
      (Keyed.ofList .unordered (codec.decodeFields fields)).toValue := rfl

-- Fields become an object or a map.
theorem fieldsAs_cases (codec : Codec M) (handle : Option (TypeHandle M))
    (fields : List (String × Tree)) :
    (∃ object, codec.fieldsAs handle fields = .object object) ∨
      ∃ kind, codec.fieldsAs handle fields =
        .map kind (Keyed.ofList kind (codec.decodeFields fields)).entries := by
  have hvalue (kind : MapKind) : (Keyed.ofList kind (codec.decodeFields fields)).toValue =
      .map kind (Keyed.ofList kind (codec.decodeFields fields)).entries := by
    rw [Keyed.toValue, Keyed.ofList_kind]
  unfold fieldsAs
  split
  · rw [materialized]
    split
    · exact .inl ⟨_, rfl⟩
    · exact .inr ⟨_, hvalue _⟩
  · exact .inr ⟨_, hvalue _⟩
  · exact .inr ⟨_, hvalue _⟩

theorem fieldsAs_eq_object_iff {codec : Codec M} {handle : Option (TypeHandle M)}
    {fields : List (String × Tree)} {object : Object M} :
    codec.fieldsAs handle fields = .object object ↔
      ∃ type, handle = some (.object type) ∧ M.materialize type (.object fields) = .ok object := by
  unfold fieldsAs
  split
  · rename_i type
    rw [materialized]
    cases hread : M.materialize type (.object fields) with
    | ok other => simp [hread]
    | error problem => simp [hread, Keyed.toValue]
  · simp [Keyed.toValue]
  · rename_i hobject hmap
    refine ⟨by simp [Keyed.toValue], ?_⟩
    rintro ⟨type, rfl, -⟩
    exact absurd rfl (hobject type)

-- Fields in a pair
theorem decodeTree_pair {codec : Codec M} {name : String} {handle : TypeHandle M}
    (hname : codec.registry.resolve name = some handle) (htakes : handle.TakesFields)
    (fields : List (String × Tree)) :
    codec.decodeTree true (.array [.string name, .object fields]) =
      codec.fieldsAs (some handle) fields := by
  rw [decodeTree]
  rcases handle with type | (kind | kind)
  · simp only [heading?, hname]
    rw [decodeSecondFields, decodeFieldsOf, fieldsAs]
  · exact htakes.elim
  · simp only [heading?, hname]
    rw [decodeSecondFields, decodeFieldsOf, fieldsAs]

-- Fields of an object
theorem decodeTree_object (codec : Codec M) (isItem : Bool) (fields : List (String × Tree)) :
    codec.decodeTree isItem (.object fields) =
      codec.fieldsAs ((codec.typeTag? fields).bind codec.registry.resolve)
        (Assoc.erase codec.config.discriminator fields) := by
  rw [decodeTree, decodeObject, erase_decodeFields]
  rfl

theorem decodeTree_leaf (codec : Codec M) (isItem : Bool) {tree : Tree} (h : tree.IsLeaf) :
    codec.decodeTree isItem tree = Value.ofTree tree := by
  cases tree <;> first | rfl | exact h.elim

-- A property follows the shape of decoding: a tree is a leaf, an array of items, a wrapper
-- around items, or fields in a pair or of an object.
theorem decodeTree_induct (codec : Codec M) {motive : Bool → Tree → Prop}
    (leaf : ∀ isItem tree, tree.IsLeaf → motive isItem tree)
    (list : ∀ isItem items, codec.heading? isItem items = none →
      (∀ item ∈ items, motive true item) → motive isItem (.array items))
    (wrapper : ∀ isItem name kind inner,
      codec.registry.resolve name = some (.container (.collection kind)) →
      (∀ item ∈ inner, motive true item) → motive isItem (.array [.string name, .array inner]))
    (pair : ∀ name handle fields, codec.registry.resolve name = some handle → handle.TakesFields →
      (∀ field ∈ fields, motive false field.2) →
      motive true (.array [.string name, .object fields]))
    (object : ∀ isItem fields, (∀ field ∈ fields, motive false field.2) →
      motive isItem (.object fields))
    (isItem : Bool) (tree : Tree) : motive isItem tree := by
  -- a pair is taken apart two levels at once, so the induction carries the parts along
  suffices h : (∀ isItem, motive isItem tree) ∧
      (∀ items, tree = .array items → ∀ item ∈ items, motive true item) ∧
      (∀ fields, tree = .object fields → ∀ field ∈ fields, motive false field.2) from h.1 isItem
  induction tree with
  | null | bool | number | string =>
      exact ⟨fun isItem => leaf isItem _ trivial, by simp, by simp⟩
  | object fields ih =>
      have hfields : ∀ field ∈ fields, motive false field.2 := fun field hfield =>
        (ih field hfield).1 false
      refine ⟨fun isItem => object isItem fields hfields, by simp, ?_⟩
      rintro _ ⟨⟩
      exact hfields
  | array items ih =>
      have hitems : ∀ item ∈ items, motive true item := fun item hitem => (ih item hitem).1 true
      refine ⟨fun isItem => ?_, by rintro _ ⟨⟩; exact hitems, by simp⟩
      cases hheading : codec.heading? isItem items with
      | none => exact list isItem items hheading hitems
      | some heading =>
          obtain ⟨name, second, rfl, hname⟩ := heading?_eq_some hheading
          have hsecond := (ih second (by simp)).2
          cases heading with
          | collection kind =>
              obtain ⟨hname, inner, rfl⟩ := hname
              exact wrapper isItem name kind inner hname (hsecond.1 inner rfl)
          | object type fields =>
              obtain ⟨hname, rfl, rfl⟩ := hname
              exact pair name _ fields hname trivial (hsecond.2 fields rfl)
          | map kind =>
              obtain ⟨hname, rfl, fields, rfl⟩ := hname
              exact pair name _ fields hname trivial (hsecond.2 fields rfl)

-- What is true of all leaves and of whatever holds them is true of all that is decoded.
theorem every_decodeTree (codec : Codec M) {p : Value M → Prop}
    (hleaf : ∀ tree : Tree, tree.IsLeaf → p (Value.ofTree tree))
    (hobject : ∀ type tree object, M.materialize type tree = .ok object → p (.object object))
    (hcollection : ∀ kind items, p (.collection kind items))
    (hmap : ∀ kind entries, p (.map kind entries)) (isItem : Bool) (tree : Tree) :
    (codec.decodeTree isItem tree).Every p := by
  have hfieldsAs {handle : Option (TypeHandle M)} {fields : List (String × Tree)}
      (hfields : ∀ field ∈ fields, (codec.decodeTree false field.2).Every p) :
      (codec.fieldsAs handle fields).Every p := by
    rcases codec.fieldsAs_cases handle fields with ⟨object, h⟩ | ⟨kind, h⟩
    · obtain ⟨type, -, hread⟩ := fieldsAs_eq_object_iff.mp h
      exact h ▸ Value.every_object.mpr (hobject type _ object hread)
    · rw [h, Value.every_map]
      refine ⟨hmap _ _, fun entry hentry => ?_⟩
      have hmem := Keyed.mem_of_mem_ofList hentry
      rw [decodeFields_eq] at hmem
      obtain ⟨field, hfield, rfl⟩ := List.mem_map.mp hmem
      exact hfields field hfield
  induction isItem, tree using codec.decodeTree_induct with
  | leaf isItem tree h =>
      rw [codec.decodeTree_leaf isItem h]
      have hp := hleaf tree h
      cases tree with
      | null => exact Value.every_null.mpr hp
      | bool | number | string => exact Value.every_scalar.mpr hp
      | array | object => exact h.elim
  | list isItem items hheading ih =>
      rw [decodeTree_array hheading, Value.every_collection, List.forall_mem_map]
      exact ⟨hcollection _ _, ih⟩
  | wrapper isItem name kind inner hname ih =>
      rw [decodeTree_wrapper hname, Collection.toValue, Value.every_collection]
      refine ⟨hcollection _ _, fun member hmember => ?_⟩
      obtain ⟨item, hitem, rfl⟩ := List.mem_map.mp (Collection.mem_of_mem_ofList hmember)
      exact ih item hitem
  | pair name handle fields hname htakes ih =>
      rw [decodeTree_pair hname htakes]
      exact hfieldsAs ih
  | object isItem fields ih =>
      rw [decodeTree_object]
      exact hfieldsAs fun field hfield => ih field (Assoc.erase_subset _ fields hfield)

end Codec

end TaggedCache
