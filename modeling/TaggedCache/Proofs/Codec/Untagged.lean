import TaggedCache.Proofs.Codec.Decoding

namespace TaggedCache

open Json

-- The string that stands first in an array of two
def Json.Tree.leadingName? : Tree → Option String
  | .array [.string name, _] => some name
  | _ => none

namespace Codec

variable {M : ObjectModel}

-- The string that stands first in an array of two is not the name of anything.
def Headless (codec : Codec M) (tree : Tree) : Prop :=
  ∀ name ∈ tree.leadingName?, codec.registry.resolve name = none

instance (codec : Codec M) : DecidablePred codec.Headless := fun tree =>
  inferInstanceAs (Decidable (∀ name ∈ tree.leadingName?, codec.registry.resolve name = none))

-- No node of a tree says what type it is of.
structure Untagged (codec : Codec M) (tree : Tree) : Prop where
  distinct : tree.Distinct
  lacksField : tree.Every (Tree.LacksField codec.config.discriminator)
  headless : tree.Every codec.Headless

theorem headless_of_isLeaf (codec : Codec M) {tree : Tree} (h : tree.IsLeaf) :
    codec.Headless tree := by
  have hnone : tree.leadingName? = none := by cases tree <;> first | rfl | exact h.elim
  rw [Headless, hnone]
  exact nofun

theorem headless_object (codec : Codec M) (fields : List (String × Tree)) :
    codec.Headless (.object fields) := nofun

theorem heading?_of_headless {codec : Codec M} {items : List Tree}
    (h : codec.Headless (.array items)) (isItem : Bool) : codec.heading? isItem items = none := by
  unfold heading?
  split
  · rw [h _ rfl]
  · cases isItem <;> rw [h _ rfl]
  · rfl

namespace Untagged

variable {codec : Codec M}

theorem of_isLeaf {tree : Tree} (h : tree.IsLeaf) : codec.Untagged tree := by
  refine ⟨h.distinct, h.every.mpr ?_, h.every.mpr (codec.headless_of_isLeaf h)⟩
  cases tree <;> trivial

theorem array_iff {items : List Tree} :
    codec.Untagged (.array items) ↔
      codec.Headless (.array items) ∧ ∀ item ∈ items, codec.Untagged item := by
  constructor
  · rintro ⟨hdistinct, hlacks, hheadless⟩
    rw [Tree.distinct_array] at hdistinct
    rw [Tree.every_array] at hlacks hheadless
    exact ⟨hheadless.1, fun item hitem =>
      ⟨hdistinct item hitem, hlacks.2 item hitem, hheadless.2 item hitem⟩⟩
  · rintro ⟨hpair, hitems⟩
    exact ⟨Tree.distinct_array.mpr fun item hitem => (hitems item hitem).distinct,
      Tree.every_array.mpr ⟨trivial, fun item hitem => (hitems item hitem).lacksField⟩,
      Tree.every_array.mpr ⟨hpair, fun item hitem => (hitems item hitem).headless⟩⟩

theorem object_iff {fields : List (String × Tree)} :
    codec.Untagged (.object fields) ↔
      (Assoc.keys fields).Nodup ∧ codec.config.discriminator ∉ Assoc.keys fields ∧
        ∀ field ∈ fields, codec.Untagged field.2 := by
  constructor
  · rintro ⟨hdistinct, hlacks, hheadless⟩
    rw [Tree.distinct_object] at hdistinct
    rw [Tree.every_object] at hlacks hheadless
    exact ⟨hdistinct.1, hlacks.1, fun field hfield =>
      ⟨hdistinct.2 field hfield, hlacks.2 field hfield, hheadless.2 field hfield⟩⟩
  · rintro ⟨hnames, hlacks, hfields⟩
    exact ⟨Tree.distinct_object.mpr ⟨hnames, fun field hfield => (hfields field hfield).distinct⟩,
      Tree.every_object.mpr ⟨hlacks, fun field hfield => (hfields field hfield).lacksField⟩,
      Tree.every_object.mpr ⟨codec.headless_object fields, fun field hfield =>
        (hfields field hfield).headless⟩⟩

end Untagged

-- What the fields of an object with a type name come back as
def restoredFields (codec : Codec M) (name : String) (fields : List (String × Tree)) : Value M :=
  match codec.registry.resolve name with
  | some (.object type) =>
      match M.materialize type (.object fields) with
      | .ok object => .object object
      | .error _ => .map .unordered (Value.ofFields fields)
  | some (.container (.map kind)) => (Keyed.ofList kind (Value.ofFields fields)).toValue
  | _ => .map .unordered (Value.ofFields fields)

theorem keys_ofFields (fields : List (String × Tree)) :
    Assoc.keys (Value.ofFields (M := M) fields) = Assoc.keys fields := by
  simp [Value.ofFields_eq, Assoc.keys]

theorem toValue_unordered {entries : List (String × Value M)} (h : (Assoc.keys entries).Nodup) :
    (Keyed.ofList .unordered entries).toValue = .map .unordered entries := by
  rw [Keyed.ofList_of_proper (Keyed.proper_unordered.mpr h)]
  rfl

theorem wellFormed_ofTree {tree : Tree} :
    (Value.ofTree tree : Value M).WellFormed ↔ tree.Distinct := by
  induction tree with
  | null => exact iff_of_true Value.wellFormed_null (Tree.IsLeaf.distinct trivial)
  | bool | number | string =>
      exact iff_of_true (Value.wellFormed_scalar _) (Tree.IsLeaf.distinct trivial)
  | array items ih =>
      rw [Value.ofTree, Value.wellFormed_collection, Tree.distinct_array, Value.ofItems_eq,
        List.forall_mem_map]
      exact (and_iff_right trivial).trans (forall₂_congr ih)
  | object fields ih =>
      rw [Value.ofTree, Value.wellFormed_map, Keyed.proper_unordered, keys_ofFields,
        Tree.distinct_object, Value.ofFields_eq, List.forall_mem_map]
      exact and_congr_right fun _ => forall₂_congr ih

theorem typeTag?_of_notMem {codec : Codec M} {fields : List (String × Tree)}
    (h : codec.config.discriminator ∉ Assoc.keys fields) : codec.typeTag? fields = none := by
  rw [typeTag?, Assoc.get?_eq_none_iff.mpr h]

-- A tree without tags is taken for what it is.
theorem decodeTree_untagged {codec : Codec M} {tree : Tree} (h : codec.Untagged tree)
    (isItem : Bool) : codec.decodeTree isItem tree = Value.ofTree tree := by
  induction tree generalizing isItem with
  | null | bool | number | string => exact codec.decodeTree_leaf isItem trivial
  | array items ih =>
      obtain ⟨hpair, hitems⟩ := Untagged.array_iff.mp h
      rw [decodeTree_array (heading?_of_headless hpair isItem), Value.ofTree, Value.ofItems_eq]
      congr 1
      exact List.map_congr_left fun item hitem => ih item hitem (hitems item hitem) true
  | object fields ih =>
      obtain ⟨hnames, hlacks, hfields⟩ := Untagged.object_iff.mp h
      have hdecoded : codec.decodeFields fields = Value.ofFields fields := by
        rw [decodeFields_eq, Value.ofFields_eq]
        exact List.map_congr_left fun field hfield => by rw [ih field hfield (hfields field hfield)]
      rw [decodeTree_object, typeTag?_of_notMem hlacks, Assoc.erase_of_notMem hlacks,
        Option.bind_none, fieldsAs_none, hdecoded, Value.ofTree]
      exact toValue_unordered (keys_ofFields (M := M) fields ▸ hnames)

theorem decodeFields_untagged {codec : Codec M} {fields : List (String × Tree)}
    (h : ∀ field ∈ fields, codec.Untagged field.2) :
    codec.decodeFields fields = Value.ofFields fields := by
  rw [decodeFields_eq, Value.ofFields_eq]
  exact List.map_congr_left fun field hfield => by rw [decodeTree_untagged (h field hfield)]

-- Fields that are taken for what they are come back as their name says.
theorem fieldsAs_eq_restoredFields {codec : Codec M} {fields : List (String × Tree)}
    (name : String) (hnames : (Assoc.keys fields).Nodup)
    (hfields : codec.decodeFields fields = Value.ofFields fields) :
    codec.fieldsAs (codec.registry.resolve name) fields = codec.restoredFields name fields := by
  have hunordered := toValue_unordered (keys_ofFields (M := M) fields ▸ hnames)
  rw [fieldsAs.eq_def, restoredFields, hfields]
  rcases codec.registry.resolve name with _ | (type | (kind | kind))
  · exact hunordered
  · cases hobject : M.materialize type (.object fields) with
    | ok object => simp only [materialized, hobject]
    | error problem => simpa only [materialized, hobject] using hunordered
  · exact hunordered
  · rfl

theorem fieldsAs_untagged {codec : Codec M} {fields : List (String × Tree)} {name : String}
    (h : codec.Untagged (.object fields)) :
    codec.fieldsAs (codec.registry.resolve name) fields = codec.restoredFields name fields := by
  obtain ⟨hnames, -, hfields⟩ := Untagged.object_iff.mp h
  exact fieldsAs_eq_restoredFields name hnames (decodeFields_untagged hfields)

-- A tagged tree starts with its type name.
theorem tagged_eq {codec : Codec M} {fields : List (String × Tree)} (name : String)
    (hlacks : codec.config.discriminator ∉ Assoc.keys fields) :
    codec.tagged name fields = .object ((codec.config.discriminator, .string name) :: fields) := by
  rw [tagged, Assoc.erase_of_notMem hlacks]

-- What a tag says of fields is taken for the name of all of them but the one in its place.
theorem decodeTree_tagged_erase (codec : Codec M) (isItem : Bool) (name : String)
    (fields : List (String × Tree)) :
    codec.decodeTree isItem (codec.tagged name fields) =
      codec.fieldsAs (codec.registry.resolve name)
        (Assoc.erase codec.config.discriminator fields) := by
  have htag (rest : List (String × Tree)) :
      codec.typeTag? ((codec.config.discriminator, .string name) :: rest) = some name := by
    simp [typeTag?, Assoc.get?]
  have herase : Assoc.erase codec.config.discriminator
      ((codec.config.discriminator, .string name) ::
        Assoc.erase codec.config.discriminator fields) =
      Assoc.erase codec.config.discriminator fields := by
    rw [Assoc.erase, List.filter_cons_of_neg (by simp), ← Assoc.erase,
      Assoc.erase_of_notMem (Assoc.notMem_keys_erase _ fields)]
  rw [tagged, decodeTree_object, htag, herase, Option.bind_some]

theorem decodeTree_tagged (codec : Codec M) {fields : List (String × Tree)}
    (hlacks : codec.config.discriminator ∉ Assoc.keys fields) (isItem : Bool) (name : String) :
    codec.decodeTree isItem (codec.tagged name fields) =
      codec.fieldsAs (codec.registry.resolve name) fields := by
  rw [decodeTree_tagged_erase, Assoc.erase_of_notMem hlacks]

end Codec

end TaggedCache
