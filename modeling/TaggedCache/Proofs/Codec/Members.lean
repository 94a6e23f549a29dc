import TaggedCache.Proofs.Codec.Leak
import TaggedCache.Proofs.Codec.Nesting

namespace TaggedCache

open Json

variable {M : ObjectModel}

namespace Value

-- A map with the given keys, in any order
def HasKeys (keys : List String) : Value M → Prop
  | map _ entries => (Assoc.keys entries).Perm keys
  | _ => False

end Value

namespace Codec

-- Fields that do not make up an object stay as they are named.
theorem hasKeys_fieldsAs_iff {codec : Codec M} {handle : Option (TypeHandle M)}
    {fields : List (String × Tree)} {keys : List String} (hnames : (Assoc.keys fields).Nodup) :
    (codec.fieldsAs handle fields).HasKeys keys ↔
      ¬TypeHandle.Fits handle fields ∧ (Assoc.keys fields).Perm keys := by
  rcases codec.fieldsAs_of_fits handle fields with ⟨hfits, object, hobject⟩ | ⟨hmisfits, kind, hmap⟩
  · rw [hobject]
    exact iff_of_false id fun h => h.1 hfits
  · have hperm := (Keyed.ofList_perm kind (codec.keys_decodeFields fields ▸ hnames)).map Prod.fst
    rw [← Assoc.keys, ← Assoc.keys, keys_decodeFields] at hperm
    rw [hmap, Value.HasKeys, and_iff_right hmisfits]
    exact hperm.congr_left keys

-- What was written of anything but null is read as its tree is decoded.
theorem exists_document_of_encode {codec : Codec M} {value : Value M} {bytes : ByteArray}
    (hwrites : M.WritesDistinct) (hvalue : value.WellFormed) (hnull : value ≠ .null)
    (h : codec.encode value = .ok bytes) (hdepth : codec.documentNesting value ≤ maxDepth) :
    ∃ tree, codec.document value = .ok (some tree) ∧
      codec.decode bytes = .ok (codec.decodeTree false tree) := by
  obtain ⟨tree, hdocument, rfl⟩ := (encode_eq_ok_iff.mp h).resolve_left fun h => hnull h.1
  rw [← depth_document hdocument] at hdepth
  exact ⟨tree, hdocument, codec.decode_text (distinct_document hwrites hvalue hdocument) hdepth⟩

-- Nothing is announced in an array that holds an object.
theorem heading?_eq_none_of_object {codec : Codec M} {items : List Tree}
    {fields : List (String × Tree)} (h : .object fields ∈ items) :
    codec.heading? false items = none := by
  by_contra hsome
  obtain ⟨heading, hheading⟩ := Option.ne_none_iff_exists'.mp hsome
  obtain ⟨name, second, rfl, hname⟩ := heading?_eq_some hheading
  cases heading with
  | collection kind =>
      obtain ⟨-, inner, rfl⟩ := hname
      simp at h
  | object type fields => cases hname.2.1
  | map kind => cases hname.2.1

-- A list with a member that is written under a name comes back member by member.
theorem decode_named_member {codec : Codec M} {items : List (Value M)} {bytes : ByteArray}
    {i : Nat} {member : Value M} {name : String} (hwrites : M.WritesDistinct)
    (hvalue : (Value.collection .list items).WellFormed)
    (h : codec.encode (.collection .list items) = .ok bytes)
    (hdepth : codec.documentNesting (.collection .list items) ≤ maxDepth)
    (hmember : (items.filter (!·.isNull))[i]? = some member)
    (hname : codec.writtenName? member = some name) :
    ∃ backs fields, codec.decode bytes = .ok (.collection .list backs) ∧
      backs.length = (items.filter (!·.isNull)).length ∧ member.toTree = .ok (.object fields) ∧
      backs[i]? = some (codec.decodeTree true (codec.tagged name fields)) := by
  obtain ⟨_, hdocument, hdecode⟩ := exists_document_of_encode hwrites hvalue nofun h hdepth
  obtain ⟨trees, htrees, rfl⟩ :=
    collectionDocument_eq_ok_iff.mp (document_eq_ok_some_iff.mp hdocument)
  obtain ⟨tree, htree, hwritten⟩ := exists_getElem?_of_forall₂ htrees hmember
  obtain ⟨fields, hfields, rfl⟩ := memberDocument_of_named hname hwritten
  have hheading : codec.heading? false trees = none :=
    heading?_eq_none_of_object (List.mem_of_getElem? htree)
  refine ⟨trees.map (codec.decodeTree true), fields, ?_, ?_, hfields, ?_⟩
  · rw [hdecode]
    simp [decodeTree_array hheading]
  · rw [List.length_map, htrees.length_eq]
  · rw [List.getElem?_map, htree, Option.map_some]

-- What is read of a map that was written as it is
theorem hasKeys_decodeTree_map_iff {codec : Codec M} {kind : MapKind}
    {entries : List (String × Value M)} {fields : List (String × Tree)}
    (hwrites : M.WritesDistinct) (hvalue : (Value.map kind entries).WellFormed)
    (h : (Value.map kind entries).toTree = .ok (.object fields)) (isItem : Bool) :
    (codec.decodeTree isItem (.object fields)).HasKeys (Assoc.keys entries) ↔
      codec.config.discriminator ∉ Assoc.keys entries := by
  have hdistinct := Tree.distinct_erase codec.config.discriminator
    (Value.distinct_of_toTree hwrites hvalue h)
  obtain ⟨_, hfields, ⟨⟩⟩ := Value.toTree_map.mp h
  rw [decodeTree_object, hasKeys_fieldsAs_iff (Tree.distinct_object.mp hdistinct).1,
    ← Value.keys_of_forall₂ hfields, Assoc.keys_erase_perm_iff, and_iff_right_iff_imp]
  intro hlacks
  rw [typeTag?_of_notMem hlacks]
  rintro ⟨type, object, ⟨⟩, -⟩

-- What is read of a map that was written under the name of its kind
theorem hasKeys_decodeTree_member_iff {codec : Codec M} {kind : MapKind}
    {entries : List (String × Value M)} {fields : List (String × Tree)}
    (hwrites : M.WritesDistinct) (hvalue : (Value.map kind entries).WellFormed)
    (h : (Value.map kind entries).toTree = .ok (.object fields)) (isItem : Bool) :
    (codec.decodeTree isItem (codec.tagged kind.wireName fields)).HasKeys (Assoc.keys entries) ↔
      codec.config.discriminator ∉ Assoc.keys entries ∧
        ¬TypeHandle.Fits (codec.registry.resolve kind.wireName) fields := by
  have hdistinct := Tree.distinct_erase codec.config.discriminator
    (Value.distinct_of_toTree hwrites hvalue h)
  obtain ⟨_, hfields, ⟨⟩⟩ := Value.toTree_map.mp h
  rw [decodeTree_tagged_erase, hasKeys_fieldsAs_iff (Tree.distinct_object.mp hdistinct).1,
    ← Value.keys_of_forall₂ hfields, Assoc.keys_erase_perm_iff, and_comm]
  refine and_congr_right fun hlacks => ?_
  rw [Assoc.erase_of_notMem hlacks]

-- A map keeps its keys unless the discriminator is one of them or, among the members of a list,
-- the name of its kind stands for a type that its fields fit.
theorem hasKeys_decode_encode_iff (codec : Codec M) {kind : MapKind}
    {entries : List (String × Value M)} (hwrites : M.WritesDistinct)
    (hvalue : (Value.map kind entries).WellFormed) :
    (∀ bytes, codec.encode (.map kind entries) = .ok bytes →
      codec.documentNesting (.map kind entries) ≤ maxDepth →
      ∃ back, codec.decode bytes = .ok back ∧
        (back.HasKeys (Assoc.keys entries) ↔
          codec.config.discriminator ∉ Assoc.keys entries)) ∧
    ∀ (items : List (Value M)) (i : Nat) bytes, (Value.collection .list items).WellFormed →
      (items.filter (!·.isNull))[i]? = some (.map kind entries) →
      codec.encode (.collection .list items) = .ok bytes →
      codec.documentNesting (.collection .list items) ≤ maxDepth →
      ∃ backs back fields, codec.decode bytes = .ok (.collection .list backs) ∧
        backs.length = (items.filter (!·.isNull)).length ∧ backs[i]? = some back ∧
        (Value.map kind entries).toTree = .ok (.object fields) ∧
        (back.HasKeys (Assoc.keys entries) ↔
          codec.config.discriminator ∉ Assoc.keys entries ∧
            ¬TypeHandle.Fits (codec.registry.resolve kind.wireName) fields) := by
  constructor
  · intro bytes hbytes hdepth
    obtain ⟨tree, hdocument, hdecode⟩ :=
      exists_document_of_encode hwrites hvalue nofun hbytes hdepth
    have htree := document_eq_ok_some_iff.mp hdocument
    obtain ⟨fields, -, rfl⟩ := Value.toTree_map.mp htree
    exact ⟨_, hdecode, hasKeys_decodeTree_map_iff hwrites hvalue htree false⟩
  · intro items i bytes hlist hmember hbytes hdepth
    obtain ⟨backs, fields, hdecode, hlength, htree, hback⟩ :=
      decode_named_member hwrites hlist hbytes hdepth hmember rfl
    exact ⟨backs, _, fields, hdecode, hlength, hback, htree,
      hasKeys_decodeTree_member_iff hwrites hvalue htree true⟩

theorem hasKeys_decode_encode_iff_switches :
    (∃ bytes back, (Switch.codec false).encode
        (.map .concurrent [("on", .null), ("@class", .scalar (.string "x"))]) = .ok bytes ∧
      (Switch.codec false).decode bytes = .ok back ∧ ¬back.HasKeys ["on", "@class"]) ∧
    ∃ bytes backs back, (Switch.codec false).encode (.collection .list
        [.scalar (.string "x"), .null, .map .sorted [("on", .null)]]) = .ok bytes ∧
      (Switch.codec false).decode bytes = .ok (.collection .list backs) ∧
      backs[1]? = some back ∧ back.HasKeys ["on"] := by
  have hfirst : (Value.map .concurrent [("on", .null), ("@class", .scalar (.string "x"))] :
      Value Switch).WellFormed := by simp [Keyed.Proper, Keyed.keys]
  have hsecond : (Value.map .sorted [("on", .null)] : Value Switch).WellFormed := by
    simp [Keyed.Proper, Keyed.keys]
  constructor
  · have hbytes := encode_eq_ok_iff.mpr (.inr ⟨_, (show (Switch.codec false).document
      (.map .concurrent [("on", .null), ("@class", .scalar (.string "x"))]) = .ok (some _)
      from rfl), rfl⟩)
    obtain ⟨back, hback, hkeys⟩ := (hasKeys_decode_encode_iff (Switch.codec false)
      Switch.writesDistinct hfirst).1 _ hbytes (by decide)
    exact ⟨_, back, hbytes, hback, fun h => hkeys.mp h (by simp)⟩
  · have hbytes := encode_eq_ok_iff.mpr (.inr ⟨_, (show (Switch.codec false).document
      (.collection .list [.scalar (.string "x"), .null, .map .sorted [("on", .null)]]) =
        .ok (some _) from rfl), rfl⟩)
    obtain ⟨backs, back, fields, hbacks, -, hback, -, hkeys⟩ :=
      (hasKeys_decode_encode_iff (Switch.codec false) Switch.writesDistinct hsecond).2 _ 1 _
        (by simp [Collection.Proper, Keyed.Proper, Keyed.keys]) rfl hbytes (by decide)
    refine ⟨_, backs, back, hbytes, hbacks, hback, hkeys.mpr ⟨by simp, ?_⟩⟩
    rw [Switch.codec_registry]
    rintro ⟨type, object, hname, -⟩
    cases (Switch.resolve_wireName (.map .sorted)).symm.trans hname

-- Not every map stays a map: one whose own entries name a type can be taken for an object of it.
theorem decode_encode_not_hasKeys :
    ¬∀ (codec : Codec Switch) (kind : MapKind) (entries : List (String × Value Switch)) bytes,
      codec.config.validate = .ok codec.config → (Value.map kind entries).WellFormed →
      codec.encode (.map kind entries) = .ok bytes →
      codec.documentNesting (.map kind entries) ≤ maxDepth →
      ∃ back, codec.decode bytes = .ok back ∧ back.HasKeys (Assoc.keys entries) := by
  intro h
  let entries : List (String × Value Switch) :=
    [("@class", .scalar (.string "demo.Switch")), ("on", .scalar (.bool true))]
  let tree : Tree := .object [("@class", .string "demo.Switch"), ("on", .bool true)]
  have hbytes : (Switch.codec false).encode (.map .unordered entries) = .ok tree.text.toUTF8 :=
    encode_eq_ok_iff.mpr (.inr ⟨tree, rfl, rfl⟩)
  obtain ⟨back, hback, hkeys⟩ := h (Switch.codec false) .unordered entries _ rfl
    (by simp [entries, Keyed.Proper, Keyed.keys]) hbytes (by decide)
  have hobject : (Switch.codec false).decode tree.text.toUTF8 = .ok (.object ⟨(), true⟩) :=
    ((Switch.codec false).decode_text (by decide) (by decide)).trans rfl
  cases hobject.symm.trans hback
  exact hkeys

-- What is read of an object that was written under a name of its type
theorem decodeTree_object_iff {codec : Codec M} {object back : Object M} (isItem : Bool)
    (hresolve : codec.registry.resolve (codec.registry.nameOf object) = some (.object object.type))
    (fields : List (String × Tree)) :
    codec.decodeTree isItem (codec.tagged (codec.registry.nameOf object) fields) = .object back ↔
      M.materialize object.type
        (.object (Assoc.erase codec.config.discriminator fields)) = .ok back := by
  rw [decodeTree_tagged_erase, hresolve, fieldsAs_eq_object_iff]
  simp

theorem filter_objects (objects : List (Object M)) :
    (objects.map Value.object).filter (!·.isNull) = objects.map Value.object :=
  List.filter_eq_self.mpr (List.forall_mem_map.mpr fun _ _ => rfl)

theorem exists_encode_objects (codec : Codec M) (kind : CollectionKind) {objects : List (Object M)}
    (h : ∀ object ∈ objects, ∃ fields, object.toTree = .ok (.object fields)) :
    ∃ bytes, codec.encode (.collection kind (objects.map .object)) = .ok bytes := by
  have hdocument : ∀ object ∈ objects,
      ∃ tree, codec.memberDocument (.object object) = .ok tree := by
    intro object hobject
    obtain ⟨fields, htree⟩ := h object hobject
    exact ⟨_, objectDocument_eq_ok_iff.mpr ⟨fields, htree, rfl⟩⟩
  obtain ⟨trees, htrees⟩ := exists_forall₂ hdocument
  refine ⟨_, encode_eq_ok_iff.mpr (.inr ⟨_, document_eq_ok_some_iff.mpr
    (collectionDocument_eq_ok_iff.mpr ⟨trees, ?_, rfl⟩), rfl⟩)⟩
  rw [filter_objects]
  exact List.forall₂_map_left_iff.mpr htrees

-- An object comes back as what its type reads from its tree without the discriminator.
theorem decode_encode_object_iff (codec : Codec M) (object : Object M)
    {fields : List (String × Tree)} (hwrites : M.WritesDistinct)
    (htree : object.toTree = .ok (.object fields))
    (hresolve : codec.registry.resolve (codec.registry.nameOf object) =
      some (.object object.type)) :
    (codec.documentNesting (.object object) ≤ maxDepth →
      ∃ value, (codec.encode (.object object) >>= codec.decode) = .ok value ∧
        ∀ back, value = .object back ↔ M.materialize object.type
          (.object (Assoc.erase codec.config.discriminator fields)) = .ok back) ∧
    ∀ (objects : List (Object M)) (i : Nat), objects[i]? = some object →
      (∀ other ∈ objects, ∃ fields, other.toTree = .ok (.object fields)) →
      codec.documentNesting (.collection .list (objects.map .object)) ≤ maxDepth →
      ∃ backs value, (codec.encode (.collection .list (objects.map .object)) >>= codec.decode) =
          .ok (.collection .list backs) ∧ backs.length = objects.length ∧
        backs[i]? = some value ∧
        ∀ back, value = .object back ↔ M.materialize object.type
          (.object (Assoc.erase codec.config.discriminator fields)) = .ok back := by
  constructor
  · intro hdepth
    have hdocument : codec.document (.object object) =
        .ok (some (codec.tagged (codec.registry.nameOf object) fields)) :=
      document_eq_ok_some_iff.mpr (objectDocument_eq_ok_iff.mpr ⟨fields, htree, rfl⟩)
    have hdistinct := distinct_document hwrites (Value.wellFormed_object object) hdocument
    rw [← depth_document hdocument] at hdepth
    exact ⟨_, encode_bind_decode hdocument hdistinct hdepth, fun back =>
      decodeTree_object_iff false hresolve fields⟩
  · intro objects i hmember hobjects hdepth
    obtain ⟨bytes, hbytes⟩ := codec.exists_encode_objects .list hobjects
    have hvalue : (Value.collection .list (objects.map Value.object)).WellFormed := by
      simp [Collection.Proper]
    have hmember : ((objects.map Value.object).filter (!·.isNull))[i]? = some (.object object) := by
      rw [filter_objects, List.getElem?_map, hmember, Option.map_some]
    obtain ⟨backs, _, hdecode, hlength, hsame, hback⟩ :=
      decode_named_member hwrites hvalue hbytes hdepth hmember rfl
    cases htree.symm.trans hsame
    rw [filter_objects, List.length_map] at hlength
    refine ⟨backs, _, ?_, hlength, hback, fun back => decodeTree_object_iff true hresolve fields⟩
    rw [hbytes]
    exact hdecode

theorem decode_encode_object_iff_switches :
    ((Switch.codec false).encode (.object ⟨(), true⟩) >>= (Switch.codec false).decode) =
        .ok (.object ⟨(), true⟩) ∧
      ∃ backs, ((Switch.codec true).encode (.collection .list
          [.object ⟨(), false⟩, .object ⟨(), true⟩]) >>= (Switch.codec true).decode) =
        .ok (.collection .list backs) ∧ backs[1]? = some (.object ⟨(), true⟩) := by
  have hobjects : ∀ object ∈ [(⟨(), false⟩ : Object Switch), ⟨(), true⟩],
      ∃ fields, object.toTree = .ok (.object fields) := fun _ _ => ⟨_, rfl⟩
  have hread : Switch.materialize () (.object (Assoc.erase "@class" [("on", .bool true)])) =
      .ok ⟨(), true⟩ := by
    rw [Assoc.erase_of_notMem (by decide)]
    rfl
  constructor
  · obtain ⟨value, hvalue, hback⟩ := (decode_encode_object_iff (Switch.codec false)
      ⟨(), true⟩ Switch.writesDistinct rfl (by decide)).1 (by decide)
    rw [hvalue, (hback ⟨(), true⟩).mpr hread]
  · obtain ⟨backs, value, hbacks, -, hvalue, hback⟩ := (decode_encode_object_iff (Switch.codec true)
      ⟨(), true⟩ Switch.writesDistinct rfl (by decide)).2 _ 1 rfl hobjects (by decide)
    rw [(hback ⟨(), true⟩).mpr hread] at hvalue
    exact ⟨backs, hbacks, hvalue⟩

-- A switch has no other field than the one that a discriminator of its name takes the place of.
theorem decode_encode_ne_switch {codec : Codec Switch}
    (hregistry : codec.registry = Switch.registry)
    (hdiscriminator : codec.config.discriminator = "on") (object back : Object Switch) :
    (codec.encode (.object object) >>= codec.decode) ≠ .ok (.object back) := by
  have hresolve : codec.registry.resolve (codec.registry.nameOf object) = some (.object ()) := by
    obtain ⟨⟨⟩, on⟩ := object
    rw [hregistry]
    cases on <;> decide
  have hdocument : codec.document (.object object) = .ok
      (some (codec.tagged (codec.registry.nameOf object) [("on", .bool object.payload)])) := rfl
  have hdepth := (codec.depth_tagged_le (codec.registry.nameOf object)
    [("on", .bool object.payload)]).trans (show 1 ≤ maxDepth by decide)
  rw [encode_bind_decode hdocument
    (distinct_document Switch.writesDistinct (Value.wellFormed_object _) hdocument) hdepth]
  intro hback
  have hread := (decodeTree_object_iff false hresolve _).mp (Except.ok.inj hback)
  have hfields : Assoc.erase "on" [("on", Tree.bool object.payload)] = [] := rfl
  rw [hdiscriminator, hfields] at hread
  cases hread

-- Not every object that its type can read survives: a field can be where the tag has to be.
theorem decode_encode_object_lost :
    ¬∀ (codec : Codec Switch) (object : Object Switch) (fields : List (String × Tree)),
      codec.config.validate = .ok codec.config →
      codec.registry.resolve (codec.registry.nameOf object) = some (.object object.type) →
      object.toTree = .ok (.object fields) → (Tree.object fields).depth ≤ maxDepth →
      Switch.materialize object.type (.object fields) = .ok object →
      ∃ back, (codec.encode (.object object) >>= codec.decode) = .ok (.object back) ∧
        back.type = object.type ∧ (Value.object back).equal (.object object) := by
  intro h
  obtain ⟨back, hback, -⟩ := h ⟨Switch.registry, ⟨"on", false⟩⟩ ⟨(), true⟩ [("on", .bool true)]
    rfl (by decide) rfl (by decide) rfl
  exact decode_encode_ne_switch rfl rfl _ _ hback

end Codec

end TaggedCache
