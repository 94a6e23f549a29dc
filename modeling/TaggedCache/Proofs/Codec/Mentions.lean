import TaggedCache.Proofs.Codec.Decoding
import TaggedCache.Proofs.Codec.Reading
import TaggedCache.Proofs.Registry
import TaggedCache.Proofs.Switch

namespace TaggedCache

open Json

variable {M : ObjectModel}

-- The string of a node that stands where the name of a type can stand: first in an array of two,
-- or in the field that holds type names
def Json.Tree.typeName? (discriminator : String) : Tree → Option String
  | .array [.string name, _] => some name
  | .object fields =>
      match Assoc.get? discriminator fields with
      | some (.string name) => some name
      | _ => none
  | _ => none

-- All such strings of a tree
def Json.Tree.mentions (discriminator : String) (tree : Tree) : List String :=
  tree.nodes.filterMap (typeName? discriminator)

namespace Codec

-- All such strings of a document
def mentions (discriminator : String) (document : ByteArray) : List String :=
  match tree? document with
  | some tree => tree.mentions discriminator
  | none => []

section Agreement

variable {config : CodecConfig} {r s : Registry M}

-- What can be the name of a type in a node means the same to two registries.
def AgreeOn (discriminator : String) (r s : Registry M) (node : Tree) : Prop :=
  ∀ name ∈ node.typeName? discriminator, r.resolve name = s.resolve name

theorem heading?_congr {items : List Tree} (h : AgreeOn config.discriminator r s (.array items))
    (isItem : Bool) : heading? ⟨r, config⟩ isItem items = heading? ⟨s, config⟩ isItem items := by
  unfold heading?
  split
  · rw [h _ rfl]
  · cases isItem <;> rw [h _ rfl]
  · rfl

theorem typeHandle_congr {fields : List (String × Tree)}
    (h : AgreeOn config.discriminator r s (.object fields)) :
    (typeTag? ⟨r, config⟩ fields).bind r.resolve =
      (typeTag? ⟨s, config⟩ fields).bind s.resolve := by
  have htag (registry : Registry M) : typeTag? ⟨registry, config⟩ fields =
      (Tree.object fields).typeName? config.discriminator := rfl
  rw [htag, htag]
  exact Option.bind_congr h

theorem fieldsAs_congr {fields : List (String × Tree)}
    (h : ∀ field ∈ fields, decodeTree ⟨r, config⟩ false field.2 =
      decodeTree ⟨s, config⟩ false field.2) (handle : Option (TypeHandle M)) :
    fieldsAs ⟨r, config⟩ handle fields = fieldsAs ⟨s, config⟩ handle fields := by
  have hfields : decodeFields ⟨r, config⟩ fields = decodeFields ⟨s, config⟩ fields := by
    rw [decodeFields_eq, decodeFields_eq]
    exact List.map_congr_left fun field hfield => by rw [h field hfield]
  simp only [fieldsAs, hfields]

-- A tree has the same value for registries that agree at all of its nodes.
theorem decodeTree_congr {tree : Tree} (isItem : Bool)
    (h : tree.Every (AgreeOn config.discriminator r s)) :
    decodeTree ⟨r, config⟩ isItem tree = decodeTree ⟨s, config⟩ isItem tree := by
  induction isItem, tree using decodeTree_induct ⟨r, config⟩ with
  | leaf isItem tree hleaf => rw [decodeTree_leaf _ _ hleaf, decodeTree_leaf _ _ hleaf]
  | list isItem items hheading ih =>
      obtain ⟨hnode, hitems⟩ := Tree.every_array.mp h
      rw [decodeTree_array hheading, decodeTree_array (heading?_congr hnode isItem ▸ hheading),
        List.map_congr_left fun item hitem => ih item hitem (hitems item hitem)]
  | wrapper isItem name kind inner hname ih =>
      obtain ⟨hnode, hitems⟩ := Tree.every_array.mp h
      have hinner := (Tree.every_array.mp (hitems (.array inner) (by simp))).2
      have hother : s.resolve name = some (.container (.collection kind)) :=
        (hnode name rfl).symm.trans hname
      rw [decodeTree_wrapper hname, decodeTree_wrapper hother,
        List.map_congr_left fun item hitem => ih item hitem (hinner item hitem)]
  | pair name handle fields hname htakes ih =>
      obtain ⟨hnode, hitems⟩ := Tree.every_array.mp h
      have hfields := (Tree.every_object.mp (hitems (.object fields) (by simp))).2
      have hother : s.resolve name = some handle := (hnode name rfl).symm.trans hname
      rw [decodeTree_pair hname htakes, decodeTree_pair hother htakes,
        fieldsAs_congr fun field hfield => ih field hfield (hfields field hfield)]
  | object isItem fields ih =>
      obtain ⟨hnode, hfields⟩ := Tree.every_object.mp h
      have hsub := Assoc.erase_subset config.discriminator fields
      rw [decodeTree_object, decodeTree_object, typeHandle_congr hnode,
        fieldsAs_congr fun field hfield => ih field (hsub hfield) (hfields field (hsub hfield))]

theorem decode_congr {document : ByteArray}
    (h : ∀ name ∈ mentions config.discriminator document, r.resolve name = s.resolve name) :
    decode ⟨r, config⟩ document = decode ⟨s, config⟩ document := by
  cases hfirst : document.toList.find? (!isBlankByte ·) with
  | none => rw [decode, decode, hfirst]
  | some first =>
      cases htree : String.fromUTF8? document >>= Tree.ofString? with
      | none => rw [decode, decode, hfirst, htree]
      | some tree =>
          have hread : tree? document = some tree := by rw [tree?, hfirst, Option.bind_some, htree]
          have hagree : tree.Every (AgreeOn config.discriminator r s) := by
            intro node hnode name hname
            rw [mentions, hread] at h
            exact h name (List.mem_filterMap.mpr ⟨node, hnode, hname⟩)
          rw [decode, decode, hfirst, htree]
          exact congrArg Except.ok (decodeTree_congr false hagree)

end Agreement

-- What a document is decoded to depends only on what the strings it mentions stand for. So it
-- stays the same when names are registered that it does not mention.
theorem decode_eq_of_mentions (config : CodecConfig) (document : ByteArray) :
    (∀ r s : Registry M,
      (∀ name ∈ mentions config.discriminator document, r.resolve name = s.resolve name) →
        decode ⟨r, config⟩ document = decode ⟨s, config⟩ document) ∧
      (∀ (r : Registry M) (registration : Registration M),
        (∀ name ∈ mentions config.discriminator document, ¬r.Touches registration name) →
          decode ⟨r.apply registration, config⟩ document = decode ⟨r, config⟩ document) ∧
      ∀ (r : Registry M) (plan : List (Registration M)),
        (∀ name ∈ mentions config.discriminator document, ¬r.TouchedBy plan name) →
          decode ⟨plan.foldl Registry.apply r, config⟩ document = decode ⟨r, config⟩ document := by
  refine ⟨fun r s h => decode_congr h, fun r registration h => ?_, fun r plan h => ?_⟩
  · exact decode_congr fun name hname => Registry.resolve_apply (h name hname)
  · exact decode_congr fun name hname => Registry.resolve_foldl_apply (h name hname)

-- A wrapper around an object of a type that nobody knows, and registrations of other names
theorem decode_eq_of_mentions_lamp :
    let document : Tree := .array [.string "java.util.TreeSet",
      .array [.object [("@class", .string "demo.Lamp"), ("on", .bool true)]]]
    let bytes := document.text.toUTF8
    decode ⟨Switch.registry, .default⟩ bytes = decode ⟨(.empty : Registry Switch), .default⟩ bytes ∧
      decode ⟨Switch.registry.apply (.alias () "demo.Toggle"), .default⟩ bytes =
        decode ⟨Switch.registry, .default⟩ bytes ∧
      decode ⟨[.alias () "demo.Toggle", .container "demo.Row<T>" (.collection .list)].foldl
        Registry.apply .empty, .default⟩ bytes =
          decode ⟨(.empty : Registry Switch), .default⟩ bytes := by
  intro document bytes
  have hmentions : mentions "@class" bytes = ["java.util.TreeSet", "demo.Lamp"] := by
    rw [mentions, tree?_text (by decide) (by decide)]
    decide
  obtain ⟨hsame, hstep, hrun⟩ := decode_eq_of_mentions (M := Switch) .default bytes
  rw [show CodecConfig.default.discriminator = "@class" from rfl, hmentions] at hsame hstep hrun
  refine ⟨hsame _ _ ?_, hstep _ _ ?_, hrun _ _ ?_⟩
  · decide +kernel
  · decide +kernel
  · decide +kernel

end Codec

end TaggedCache
