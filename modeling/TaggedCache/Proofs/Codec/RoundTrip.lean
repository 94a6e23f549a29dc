import TaggedCache.Proofs.Codec.Reading
import TaggedCache.Proofs.Codec.Untagged
import TaggedCache.Proofs.Switch

namespace TaggedCache

open Json

variable {M : ObjectModel}

namespace Codec

-- An object as it comes back where its type name is written: as the type that the name
-- stands for reads it, or as a map of its fields
def restoredObject (codec : Codec M) (object : Object M) : Value M :=
  match object.toTree with
  | .ok (.object fields) => codec.restoredFields (codec.registry.nameOf object) fields
  | _ => .null

-- A member of the outermost collection as it comes back
def restoredMember (codec : Codec M) : Value M → Value M
  | .object object => codec.restoredObject object
  | .map kind entries => .map kind (Value.plainEntries entries)
  | member => member.plain

-- What a document that was written without wrappers gives back of a value
def restored (codec : Codec M) : Value M → Value M
  | .collection _ items =>
      .collection .list ((items.filter (!·.isNull)).map codec.restoredMember)
  | .object object => codec.restoredObject object
  | value => value.plain

theorem objectDocument_eq_ok_iff {codec : Codec M} {object : Object M} {tree : Tree} :
    codec.objectDocument object = .ok tree ↔ ∃ fields, object.toTree = .ok (.object fields) ∧
      codec.tagged (codec.registry.nameOf object) fields = tree := by
  rw [objectDocument, bind_eq_ok_iff]
  constructor
  · rintro ⟨source, hsource, htag⟩
    cases source with
    | object fields => exact ⟨fields, hsource, Except.ok.inj htag⟩
    | _ => contradiction
  · rintro ⟨fields, hsource, rfl⟩
    exact ⟨_, hsource, rfl⟩

theorem memberDocument_map {codec : Codec M} {kind : MapKind} {entries : List (String × Value M)}
    {tree : Tree} :
    codec.memberDocument (.map kind entries) = .ok tree ↔
      ∃ fields, (Value.map kind entries).toTree = .ok (.object fields) ∧
        codec.tagged kind.wireName fields = tree := by
  rw [memberDocument, bind_eq_ok_iff]
  constructor
  · rintro ⟨source, hsource, htag⟩
    obtain ⟨fields, -, rfl⟩ := Value.toTree_map.mp hsource
    exact ⟨fields, hsource, Except.ok.inj htag⟩
  · rintro ⟨fields, hsource, rfl⟩
    exact ⟨_, hsource, rfl⟩

-- The name that a member of the outermost collection is written under
def writtenName? (codec : Codec M) : Value M → Option String
  | .object object => some (codec.registry.nameOf object)
  | .map kind _ => some kind.wireName
  | _ => none

theorem memberDocument_of_named {codec : Codec M} {member : Value M} {name : String} {tree : Tree}
    (hname : codec.writtenName? member = some name) (h : codec.memberDocument member = .ok tree) :
    ∃ fields, member.toTree = .ok (.object fields) ∧ codec.tagged name fields = tree := by
  cases member with
  | object object =>
      cases hname
      exact objectDocument_eq_ok_iff.mp h
  | map kind entries =>
      cases hname
      exact memberDocument_map.mp h
  | null | scalar | collection => contradiction

theorem memberDocument_of_unnamed {codec : Codec M} {member : Value M}
    (hname : codec.writtenName? member = none) : codec.memberDocument member = member.toTree := by
  cases member with
  | null | scalar | collection => rfl
  | object | map => contradiction

theorem untagged_of_toTree {codec : Codec M} {value : Value M} {tree : Tree}
    (hwrites : M.WritesDistinct) (hvalue : value.WellFormed)
    (hlacks : value.LacksName codec.config.discriminator) (h : value.toTree = .ok tree)
    (hheadless : tree.Every codec.Headless) : codec.Untagged tree :=
  ⟨Value.distinct_of_toTree hwrites hvalue h, Value.lacksField_of_toTree hlacks h, hheadless⟩

-- A tagged tree is as good a document as the tree it was made from.
theorem distinct_tagged_erase {codec : Codec M} {fields : List (String × Tree)} (name : String)
    (h : (Tree.object (Assoc.erase codec.config.discriminator fields)).Distinct) :
    (codec.tagged name fields).Distinct := by
  obtain ⟨hnames, hfields⟩ := Tree.distinct_object.mp h
  rw [tagged, Tree.distinct_object, Assoc.keys_cons, List.nodup_cons, List.forall_mem_cons]
  exact ⟨⟨Assoc.notMem_keys_erase _ fields, hnames⟩, Tree.IsLeaf.distinct trivial, hfields⟩

theorem distinct_tagged {codec : Codec M} {fields : List (String × Tree)} (name : String)
    (hlacks : codec.config.discriminator ∉ Assoc.keys fields) (h : (Tree.object fields).Distinct) :
    (codec.tagged name fields).Distinct :=
  distinct_tagged_erase name (by rwa [Assoc.erase_of_notMem hlacks])

theorem distinct_wrapper (name : String) {trees : List Tree} (h : (Tree.array trees).Distinct) :
    (Tree.array [.string name, .array trees]).Distinct := by
  have hleaf : (Tree.string name).Distinct := Tree.IsLeaf.distinct trivial
  rw [Tree.distinct_array, List.forall_mem_cons, List.forall_mem_singleton]
  exact ⟨hleaf, h⟩

theorem depth_tagged_erase (codec : Codec M) (name : String) (fields : List (String × Tree)) :
    (codec.tagged name fields).depth =
      (Tree.object (Assoc.erase codec.config.discriminator fields)).depth := by
  simp [tagged, Tree.depth, Tree.depthOfFields]

theorem depth_tagged_le (codec : Codec M) (name : String) (fields : List (String × Tree)) :
    (codec.tagged name fields).depth ≤ (Tree.object fields).depth :=
  (codec.depth_tagged_erase name fields).trans_le (Tree.depth_erase_le _ fields)

theorem headless_of_tagged {codec : Codec M} {name : String} {fields : List (String × Tree)}
    (hlacks : codec.config.discriminator ∉ Assoc.keys fields)
    (h : (codec.tagged name fields).Every codec.Headless) :
    (Tree.object fields).Every codec.Headless := by
  rw [tagged_eq name hlacks, Tree.every_object, List.forall_mem_cons] at h
  exact Tree.every_object.mpr ⟨codec.headless_object fields, h.2.2⟩

-- The tagged fields of a value, read back
theorem untagged_fields {codec : Codec M} {value : Value M} {name : String}
    {fields : List (String × Tree)} (hwrites : M.WritesDistinct) (hvalue : value.WellFormed)
    (hlacks : value.LacksName codec.config.discriminator)
    (h : value.toTree = .ok (.object fields))
    (hheadless : (codec.tagged name fields).Every codec.Headless) :
    codec.Untagged (.object fields) := by
  have hfields := Value.lacksField_of_toTree hlacks h
  exact untagged_of_toTree hwrites hvalue hlacks h
    (headless_of_tagged (Tree.every_object.mp hfields).1 hheadless)

theorem ofFields_of_toTree {kind : MapKind} {entries : List (String × Value M)}
    {fields : List (String × Tree)} (h : (Value.map kind entries).toTree = .ok (.object fields)) :
    Value.ofFields fields = Value.plainEntries entries := by
  have hplain := Value.ofTree_of_toTree h
  rw [Value.ofTree, Value.plain] at hplain
  injection hplain

theorem proper_plainEntries {kind : MapKind} {entries : List (String × Value M)}
    (h : Keyed.Proper ⟨kind, entries⟩) : Keyed.Proper ⟨kind, Value.plainEntries entries⟩ := by
  have hkeys : (Keyed.mk kind (Value.plainEntries entries)).keys =
      (Keyed.mk kind entries).keys := by simp [Keyed.keys, Value.plainEntries_eq]
  rwa [Keyed.Proper, hkeys]

theorem restoredFields_map {codec : Codec M} {kind : MapKind} {entries : List (String × Value M)}
    {fields : List (String × Tree)}
    (hkind : codec.registry.resolve kind.wireName = some (.container (.map kind)))
    (hproper : Keyed.Proper ⟨kind, entries⟩)
    (h : (Value.map kind entries).toTree = .ok (.object fields)) :
    codec.restoredFields kind.wireName fields = .map kind (Value.plainEntries entries) := by
  simp only [restoredFields, hkind]
  rw [ofFields_of_toTree h, Keyed.ofList_of_proper (proper_plainEntries hproper)]
  rfl

-- A member of the outermost collection, read back
theorem decodeTree_member {codec : Codec M} {member : Value M} {tree : Tree}
    (hwrites : M.WritesDistinct)
    (hmaps : ∀ kind : MapKind, codec.registry.resolve kind.wireName = some (.container (.map kind)))
    (hmember : member.WellFormed) (hlacks : member.LacksName codec.config.discriminator)
    (h : codec.memberDocument member = .ok tree) (hheadless : tree.Every codec.Headless)
    (isItem : Bool) :
    tree.Distinct ∧ codec.decodeTree isItem tree = codec.restoredMember member := by
  cases member with
  | object object =>
      obtain ⟨fields, htree, rfl⟩ := objectDocument_eq_ok_iff.mp h
      have huntagged := untagged_fields hwrites hmember hlacks htree hheadless
      have hlacks := (Untagged.object_iff.mp huntagged).2.1
      refine ⟨distinct_tagged _ hlacks huntagged.distinct, ?_⟩
      rw [codec.decodeTree_tagged hlacks, fieldsAs_untagged huntagged, restoredMember,
        restoredObject, htree]
  | map kind entries =>
      obtain ⟨fields, htree, rfl⟩ := memberDocument_map.mp h
      have huntagged := untagged_fields hwrites hmember hlacks htree hheadless
      have hlacks := (Untagged.object_iff.mp huntagged).2.1
      refine ⟨distinct_tagged _ hlacks huntagged.distinct, ?_⟩
      rw [codec.decodeTree_tagged hlacks, fieldsAs_untagged huntagged, restoredMember]
      exact restoredFields_map (hmaps kind) (Value.wellFormed_map.mp hmember).1 htree
  | null | scalar | collection =>
      have huntagged := untagged_of_toTree hwrites hmember hlacks h hheadless
      exact ⟨huntagged.distinct,
        (decodeTree_untagged huntagged isItem).trans (Value.ofTree_of_toTree h)⟩

theorem decodeTree_members {codec : Codec M} {kind : CollectionKind} {items : List (Value M)}
    {trees : List Tree} (hwrites : M.WritesDistinct)
    (hmaps : ∀ kind : MapKind, codec.registry.resolve kind.wireName = some (.container (.map kind)))
    (hvalue : (Value.collection kind items).WellFormed)
    (hlacks : (Value.collection kind items).LacksName codec.config.discriminator)
    (h : List.Forall₂ (fun item tree => codec.memberDocument item = .ok tree)
      (items.filter (!·.isNull)) trees)
    (hheadless : ∀ tree ∈ trees, tree.Every codec.Headless) :
    (Tree.array trees).Distinct ∧
      trees.map (codec.decodeTree true) = (items.filter (!·.isNull)).map codec.restoredMember := by
  have hmember {item : Value M} {tree : Tree} (hitem : item ∈ items.filter (!·.isNull))
      (htree : codec.memberDocument item = .ok tree) (hmem : tree ∈ trees) :=
    decodeTree_member hwrites hmaps
      ((Value.wellFormed_collection.mp hvalue).2 item (List.mem_of_mem_filter hitem))
      (Value.lacksName_collection.mp hlacks item (List.mem_of_mem_filter hitem)) htree
      (hheadless tree hmem) true
  constructor
  · refine Tree.distinct_array.mpr fun tree htree => ?_
    obtain ⟨item, hitem, hsource⟩ := exists_left_of_mem h htree
    exact (hmember hitem hsource htree).1
  · exact (map_eq_map_of_forall₂ h fun item hitem tree hmem htree =>
      (hmember hitem htree hmem).2.symm).symm

theorem collectionDocument_eq_ok_iff {codec : Codec M} {kind : CollectionKind}
    {items : List (Value M)} {tree : Tree} :
    codec.collectionDocument kind items = .ok tree ↔
      ∃ trees, List.Forall₂ (fun item tree => codec.memberDocument item = .ok tree)
          (items.filter (!·.isNull)) trees ∧
        (if codec.config.wrapCollections && kind ≠ .list then
          .array [.string kind.wireName, .array trees] else .array trees) = tree := by
  simp only [collectionDocument, bind_eq_ok_iff, mapM_eq_ok_iff]
  refine exists_congr fun trees => and_congr_right fun _ => ?_
  split
  · exact ⟨fun h => Except.ok.inj h, fun h => h ▸ rfl⟩
  · exact ⟨fun h => Except.ok.inj h, fun h => h ▸ rfl⟩

theorem document_eq_ok_some_iff {codec : Codec M} {value : Value M} {tree : Tree} :
    codec.document value = .ok (some tree) ↔
      match value with
      | .null => False
      | .collection kind items => codec.collectionDocument kind items = .ok tree
      | .object object => codec.objectDocument object = .ok tree
      | value => value.toTree = .ok tree := by
  have hmap (x : Except CodecError Tree) : some <$> x = .ok (some tree) ↔ x = .ok tree := by
    cases x with
    | error e => exact ⟨nofun, nofun⟩
    | ok a => exact ⟨fun h => by cases h; rfl, fun h => by cases h; rfl⟩
  cases value with
  | null => exact ⟨nofun, nofun⟩
  | scalar | object | collection | map => exact hmap _

theorem eq_null_of_document {codec : Codec M} {value : Value M}
    (h : codec.document value = .ok none) : value = .null := by
  have hmap (x : Except CodecError Tree) : some <$> x ≠ .ok none := by
    cases x <;> exact nofun
  cases value with
  | null => rfl
  | scalar | object | collection | map => exact absurd h (hmap _)

theorem encode_eq_ok_iff {codec : Codec M} {value : Value M} {bytes : ByteArray} :
    codec.encode value = .ok bytes ↔
      (value = .null ∧ bytes = "".toUTF8) ∨
        ∃ tree, codec.document value = .ok (some tree) ∧ bytes = tree.text.toUTF8 := by
  rw [encode, encodeText, map_eq_ok_iff]
  simp only [map_eq_ok_iff]
  constructor
  · rintro ⟨_, ⟨_ | tree, hdocument, rfl⟩, rfl⟩
    · exact .inl ⟨eq_null_of_document hdocument, rfl⟩
    · exact .inr ⟨tree, hdocument, rfl⟩
  · rintro (⟨rfl, rfl⟩ | ⟨tree, hdocument, rfl⟩)
    · exact ⟨"", ⟨none, rfl, rfl⟩, rfl⟩
    · exact ⟨tree.text, ⟨some tree, hdocument, rfl⟩, rfl⟩

theorem distinct_memberDocument {codec : Codec M} {member : Value M} {tree : Tree}
    (hwrites : M.WritesDistinct) (hmember : member.WellFormed)
    (h : codec.memberDocument member = .ok tree) : tree.Distinct := by
  cases hname : codec.writtenName? member with
  | none =>
      rw [memberDocument_of_unnamed hname] at h
      exact Value.distinct_of_toTree hwrites hmember h
  | some name =>
      obtain ⟨fields, htree, rfl⟩ := memberDocument_of_named hname h
      have hfields := Value.distinct_of_toTree hwrites hmember htree
      exact distinct_tagged_erase name (Tree.distinct_erase _ hfields)

-- No name occurs twice in an object of a document.
theorem distinct_document {codec : Codec M} {value : Value M} {tree : Tree}
    (hwrites : M.WritesDistinct) (hvalue : value.WellFormed)
    (h : codec.document value = .ok (some tree)) : tree.Distinct := by
  have hdocument := document_eq_ok_some_iff.mp h
  cases value with
  | null => exact hdocument.elim
  | scalar | map => exact Value.distinct_of_toTree hwrites hvalue hdocument
  | object object =>
      have hmember : codec.memberDocument (.object object) = .ok tree := hdocument
      exact distinct_memberDocument hwrites hvalue hmember
  | collection kind items =>
      obtain ⟨trees, htrees, rfl⟩ := collectionDocument_eq_ok_iff.mp hdocument
      have hmembers : (Tree.array trees).Distinct := by
        refine Tree.distinct_array.mpr fun tree htree => ?_
        obtain ⟨item, hitem, hsource⟩ := exists_left_of_mem htrees htree
        exact distinct_memberDocument hwrites
          ((Value.wellFormed_collection.mp hvalue).2 item (List.mem_of_mem_filter hitem)) hsource
      split
      · exact distinct_wrapper _ hmembers
      · exact hmembers

-- A document is read back as its tree is decoded.
theorem encode_bind_decode {codec : Codec M} {value : Value M} {tree : Tree}
    (h : codec.document value = .ok (some tree)) (hdistinct : tree.Distinct)
    (hdepth : tree.depth ≤ maxDepth) :
    (codec.encode value >>= codec.decode) = .ok (codec.decodeTree false tree) := by
  rw [encode, encodeText, h]
  exact codec.decode_text hdistinct hdepth

theorem encode_null_bind_decode (codec : Codec M) :
    (codec.encode .null >>= codec.decode) = .ok .null := codec.decode_empty

theorem decodeTree_document {codec : Codec M} {value : Value M} {tree : Tree}
    (hwrites : M.WritesDistinct) (hvalue : value.WellFormed)
    (hwrap : codec.config.wrapCollections = false)
    (hmaps : ∀ kind : MapKind, codec.registry.resolve kind.wireName = some (.container (.map kind)))
    (hlacks : value.LacksName codec.config.discriminator)
    (h : codec.document value = .ok (some tree)) (hheadless : tree.Every codec.Headless) :
    tree.Distinct ∧ codec.decodeTree false tree = codec.restored value := by
  have hdocument := document_eq_ok_some_iff.mp h
  cases value with
  | null => exact hdocument.elim
  | object object => exact decodeTree_member hwrites hmaps hvalue hlacks hdocument hheadless false
  | scalar | map =>
      have huntagged := untagged_of_toTree hwrites hvalue hlacks hdocument hheadless
      exact ⟨huntagged.distinct,
        (decodeTree_untagged huntagged false).trans (Value.ofTree_of_toTree hdocument)⟩
  | collection kind items =>
      obtain ⟨trees, htrees, rfl⟩ := collectionDocument_eq_ok_iff.mp hdocument
      simp only [hwrap, Bool.false_and, Bool.false_eq_true, if_false] at hheadless ⊢
      obtain ⟨hpair, hparts⟩ := Tree.every_array.mp hheadless
      obtain ⟨hdistinct, hdecoded⟩ := decodeTree_members hwrites hmaps hvalue hlacks htrees hparts
      refine ⟨hdistinct, ?_⟩
      rw [decodeTree_array (heading?_of_headless hpair false), hdecoded, restored]

-- Without wrappers, a value comes back exactly as `restored` says.
theorem decode_encode_restored (codec : Codec M) (value : Value M) {document : Option Tree}
    (hwrites : M.WritesDistinct) (hvalue : value.WellFormed)
    (hwrap : codec.config.wrapCollections = false)
    (hmaps : ∀ kind : MapKind, codec.registry.resolve kind.wireName = some (.container (.map kind)))
    (hlacks : value.LacksName codec.config.discriminator)
    (hdocument : codec.document value = .ok document)
    (hdepth : ∀ tree ∈ document, tree.depth ≤ maxDepth)
    (hheadless : ∀ tree ∈ document, tree.Every codec.Headless) :
    (codec.encode value >>= codec.decode) = .ok (codec.restored value) := by
  cases document with
  | some tree =>
      obtain ⟨hdistinct, hdecode⟩ :=
        decodeTree_document hwrites hvalue hwrap hmaps hlacks hdocument (hheadless tree rfl)
      rw [encode_bind_decode hdocument hdistinct (hdepth tree rfl), hdecode]
  | none =>
      rw [eq_null_of_document hdocument]
      exact codec.encode_null_bind_decode

theorem decode_encode_restored_switches :
    ((Switch.codec false).encode (.collection .linkedList
      [.object ⟨(), true⟩, .null, .map .insertionOrdered [("b", .scalar (.uint 7)), ("a", .null)],
        .collection .sortedSet [.scalar (.string "x")]]) >>= (Switch.codec false).decode) =
      .ok (.collection .list
        [.object ⟨(), true⟩, .map .insertionOrdered [("b", .scalar (.int 7)), ("a", .null)],
          .collection .list [.scalar (.string "x")]]) := by
  let document : Tree := .array
    [.object [("@class", .string "demo.Switch"), ("on", .bool true)],
      .object [("@class", .string "indexmap::IndexMap"), ("b", .number (.ofUInt64 7)),
        ("a", .null)],
      .array [.string "x"]]
  refine (decode_encode_restored (Switch.codec false) _ Switch.writesDistinct ?_ rfl
    (fun kind => Switch.resolve_wireName (.map kind)) ?_
    (show (Switch.codec false).document _ = .ok (some document) from rfl) ?_ ?_).trans rfl
  · simp [Collection.Proper, Keyed.Proper, Keyed.keys]
  · simp [Switch.lacksName]
  · rintro tree ⟨⟩
    decide
  · rintro tree ⟨⟩
    decide +kernel

end Codec

end TaggedCache
