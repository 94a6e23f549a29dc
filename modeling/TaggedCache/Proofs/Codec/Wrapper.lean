import TaggedCache.Proofs.Codec.Ambiguity
import TaggedCache.Proofs.Codec.Nesting
import TaggedCache.Proofs.Order.Value
import Mathlib.Data.List.MinMax

namespace TaggedCache

open Json

variable {M : ObjectModel}

namespace Codec

-- A member of a collection is written, and what is read from its tree is equal to it.
def ComesBack (codec : Codec M) (limit : Nat) (member : Value M) : Prop :=
  member.isNull = false ∧ ∃ tree, codec.memberDocument member = .ok tree ∧ tree.Distinct ∧
    tree.depth ≤ limit ∧ ∀ isItem, (codec.decodeTree isItem tree).arrangement = member.arrangement

section

variable {codec : Codec M} {limit : Nat}

theorem comesBack_object {object again : Object M} {fields : List (String × Tree)}
    (hname : codec.registry.resolve (codec.registry.nameOf object) = some (.object object.type))
    (htree : object.toTree = .ok (.object fields)) (hdistinct : (Tree.object fields).Distinct)
    (hlacks : codec.config.discriminator ∉ Assoc.keys fields)
    (hdepth : (codec.tagged (codec.registry.nameOf object) fields).depth ≤ limit)
    (hread : M.materialize object.type (.object fields) = .ok again)
    (hequal : (Value.object again).arrangement = (Value.object object).arrangement) :
    codec.ComesBack limit (.object object) := by
  refine ⟨rfl, _, objectDocument_eq_ok_iff.mpr ⟨fields, htree, rfl⟩,
    distinct_tagged _ hlacks hdistinct, hdepth, fun isItem => ?_⟩
  rw [codec.decodeTree_tagged hlacks, hname, fieldsAs, materialized, hread]
  exact hequal

theorem comesBack_map {kind : MapKind} {fields : List (String × Tree)}
    (hkind : codec.registry.resolve kind.wireName = some (.container (.map kind)))
    (hproper : Keyed.Proper (M := M) ⟨kind, Value.ofFields fields⟩)
    (huntagged : codec.Untagged (.object fields))
    (hdepth : (codec.tagged kind.wireName fields).depth ≤ limit) :
    codec.ComesBack limit (.map kind (Value.ofFields fields)) := by
  obtain ⟨-, hlacks, -⟩ := Untagged.object_iff.mp huntagged
  have htree : (Value.map kind (Value.ofFields fields) : Value M).toTree = .ok (.object fields) :=
    Value.toTree_ofTree (M := M) (.object fields)
  refine ⟨rfl, _, memberDocument_map.mpr ⟨fields, htree, rfl⟩,
    distinct_tagged _ hlacks huntagged.distinct, hdepth, fun isItem => ?_⟩
  rw [codec.decodeTree_tagged hlacks, fieldsAs_untagged huntagged, restoredFields]
  simp only [hkind]
  rw [Keyed.ofList_of_proper hproper, Keyed.toValue]

-- Nothing is tagged but objects and maps.
theorem comesBack_untagged {tree : Tree} (hnull : tree ≠ .null)
    (hobject : ∀ fields, tree ≠ .object fields) (huntagged : codec.Untagged tree)
    (hdepth : tree.depth ≤ limit) : codec.ComesBack limit (Value.ofTree tree) := by
  have hplain : codec.memberTree tree = tree := by
    cases tree <;> first | rfl | exact absurd rfl (hobject _)
  have hdocument := codec.memberDocument_ofTree tree
  rw [hplain] at hdocument
  refine ⟨?_, tree, hdocument, huntagged.distinct, hdepth, fun isItem => ?_⟩
  · cases tree <;> first | rfl | contradiction
  · rw [decodeTree_untagged huntagged]

theorem filter_of_comesBack {items : List (Value M)}
    (h : ∀ item ∈ items, codec.ComesBack limit item) : items.filter (!·.isNull) = items :=
  List.filter_eq_self.mpr fun item hitem => by simp [(h item hitem).1]

-- The trees of members that come back, and what is read from them
theorem exists_trees_of_comesBack {items : List (Value M)}
    (h : ∀ item ∈ items, codec.ComesBack limit item) :
    ∃ trees, List.Forall₂ (fun item tree => codec.memberDocument item = .ok tree) items trees ∧
      (∀ tree ∈ trees, tree.Distinct ∧ tree.depth ≤ limit) ∧
      (trees.map (codec.decodeTree true)).map Value.arrangement = items.map Value.arrangement := by
  obtain ⟨trees, htrees⟩ := exists_forall₂ fun item hitem => (h item hitem).2
  refine ⟨trees, htrees.imp fun _ _ hr => hr.1, fun tree htree => ?_, ?_⟩
  · obtain ⟨item, -, hr⟩ := exists_left_of_mem htrees htree
    exact ⟨hr.2.1, hr.2.2.1⟩
  · rw [List.map_map]
    exact (map_eq_map_of_forall₂ htrees fun _ _ _ _ hr => (hr.2.2.2 true).symm).symm

-- A wrapped collection of members that come back is filled with them again.
theorem decode_encode_wrapper {kind : CollectionKind} {items : List (Value M)}
    (hname : codec.registry.resolve kind.wireName = some (.container (.collection kind)))
    (hkind : kind ≠ .list) (hwrap : codec.config.wrapCollections = true)
    (hproper : Collection.Proper ⟨kind, items⟩)
    (h : ∀ item ∈ items, codec.ComesBack (maxDepth - 2) item) :
    ∃ backs, (codec.encode (.collection kind items) >>= codec.decode) =
        .ok (.collection kind backs) ∧
      backs.map Value.arrangement = items.map Value.arrangement := by
  obtain ⟨trees, htrees, hparts, harranged⟩ := exists_trees_of_comesBack h
  have hdocument : codec.document (.collection kind items) =
      .ok (some (.array [.string kind.wireName, .array trees])) :=
    document_eq_ok_some_iff.mpr (collectionDocument_eq_ok_iff.mpr
      ⟨trees, (filter_of_comesBack h).symm ▸ htrees, by simp [hwrap, hkind]⟩)
  have hdistinct : (Tree.array [.string kind.wireName, .array trees]).Distinct :=
    distinct_wrapper _ (Tree.distinct_array.mpr fun tree htree => (hparts tree htree).1)
  have hdepth : (Tree.array [.string kind.wireName, .array trees]).depth ≤ maxDepth := by
    rw [Tree.depth_pair]
    exact Nat.succ_le_succ (Tree.depth_array_le.mpr fun tree htree => (hparts tree htree).2)
  have hback := Collection.proper_congr harranged.symm hproper
  refine ⟨trees.map (codec.decodeTree true), ?_, harranged⟩
  rw [encode_bind_decode hdocument hdistinct hdepth, decodeTree_wrapper hname,
    Collection.ofList_of_proper hback, Collection.toValue]

end

-- Leaves that come back as they are, maps of such leaves, and objects that their own type reads
-- back from what it has written
def Keepable (codec : Codec M) : Value M → Prop
  | .scalar value => (Value.scalar value : Value M).DataNode
  | .object object =>
      codec.registry.resolve (codec.registry.nameOf object) = some (.object object.type) ∧
        ∃ fields again, object.toTree = .ok (.object fields) ∧
          codec.config.discriminator ∉ Assoc.keys fields ∧
          M.materialize object.type (.object fields) = .ok again ∧
          (Value.object again).equal (.object object)
  | .map _ entries => codec.config.discriminator ∉ Assoc.keys entries ∧
      ∀ entry ∈ entries, ∃ value, entry.2 = .scalar value ∧ entry.2.DataNode
  | _ => False

-- The fields of a map of leaves
theorem exists_fields_of_leaves {codec : Codec M} {kind : MapKind}
    {entries : List (String × Value M)} (hproper : Keyed.Proper ⟨kind, entries⟩)
    (h : codec.Keepable (.map kind entries)) :
    ∃ fields, Value.ofFields fields = entries ∧ codec.Untagged (.object fields) := by
  obtain ⟨hlacks, hleaves⟩ := h
  have hdata : (Value.map .unordered entries).IsData := by
    refine Value.isData_map.mpr ⟨rfl, fun entry hentry => ?_⟩
    obtain ⟨value, hvalue, hnode⟩ := hleaves entry hentry
    rw [hvalue] at hnode ⊢
    exact Value.every_scalar.mpr hnode
  obtain ⟨tree, -, hback⟩ := Value.exists_ofTree_of_isData hdata
  cases tree with
  | object fields =>
      obtain ⟨-, rfl⟩ := Value.map.inj hback
      rw [keys_ofFields] at hlacks
      have hnames : (Assoc.keys fields).Nodup := keys_ofFields (M := M) fields ▸ hproper.1
      refine ⟨fields, rfl, Untagged.object_iff.mpr ⟨hnames, hlacks, fun field hfield => ?_⟩⟩
      obtain ⟨value, hvalue, -⟩ := hleaves (field.1, Value.ofTree field.2) (by
        rw [Value.ofFields_eq]
        exact List.mem_map_of_mem hfield)
      refine Untagged.of_isLeaf ?_
      obtain ⟨name, tree⟩ := field
      cases tree <;> trivial
  | null | bool | number | string | array => cases hback

theorem comesBack_of_keepable {codec : Codec M} {limit : Nat} {member : Value M}
    (hwrites : M.WritesDistinct)
    (hmaps : ∀ kind : MapKind, codec.registry.resolve kind.wireName = some (.container (.map kind)))
    (hmember : member.WellFormed) (h : codec.Keepable member)
    (hdepth : codec.memberNesting member ≤ limit) : codec.ComesBack limit member := by
  cases member with
  | null | collection => exact h.elim
  | scalar value =>
      obtain ⟨tree, htree, hnormal⟩ :=
        Value.exists_toTree_of_scalar (M := M) (Value.every_scalar.mpr h)
      have hleaf := Scalar.isLeaf_of_toTree htree
      have hback : (Value.ofTree tree : Value M) = .scalar value :=
        hnormal ▸ Scalar.ofTree_of_toTree htree
      rw [← hback]
      refine comesBack_untagged ?_ ?_ (Untagged.of_isLeaf hleaf) (hleaf.depth ▸ Nat.zero_le _)
      · rintro rfl
        cases hback
      · rintro fields rfl
        exact hleaf
  | object object =>
      obtain ⟨hname, fields, again, htree, hlacks, hread, hequal⟩ := h
      have hdocument : codec.memberDocument (.object object) = .ok _ :=
        objectDocument_eq_ok_iff.mpr ⟨fields, htree, rfl⟩
      exact comesBack_object hname htree (Value.distinct_of_toTree hwrites hmember htree) hlacks
        ((depth_memberDocument hdocument).trans_le hdepth) hread (Value.equal_iff.mp hequal)
  | map kind entries =>
      have hproper := (Value.wellFormed_map.mp hmember).1
      obtain ⟨fields, rfl, huntagged⟩ := exists_fields_of_leaves hproper h
      have hdocument : codec.memberDocument (.map kind (Value.ofFields fields)) = .ok _ :=
        memberDocument_map.mpr ⟨fields, Value.toTree_ofTree (M := M) (.object fields), rfl⟩
      exact comesBack_map (hmaps kind) hproper huntagged
        ((depth_memberDocument hdocument).trans_le hdepth)

-- Members are two levels below the document of a wrapped collection.
theorem memberNesting_le_of_wrapped {codec : Codec M} {kind : CollectionKind}
    {items : List (Value M)} {item : Value M} {limit : Nat} (hkind : kind ≠ .list)
    (hwrap : codec.config.wrapCollections = true) (hitem : item ∈ items)
    (hnull : item.isNull = false)
    (h : codec.documentNesting (.collection kind items) ≤ limit) :
    codec.memberNesting item ≤ limit - 2 := by
  have hkept : item ∈ items.filter (!·.isNull) := List.mem_filter.mpr ⟨hitem, by simp [hnull]⟩
  have hle : codec.memberNesting item ≤
      ((items.filter (!·.isNull)).map codec.memberNesting).foldr max 0 :=
    List.le_max_of_le' 0 (List.mem_map_of_mem hkept) (Nat.le_refl _)
  simp only [documentNesting, hwrap, Bool.true_and, ne_eq, hkind, not_false_eq_true,
    decide_true, if_true] at h
  omega

-- A wrapper keeps the kind of a collection, and the collection comes back as an equal one.
theorem decode_encode_wrapped (codec : Codec M) {kind : CollectionKind} {items : List (Value M)}
    (hwrites : M.WritesDistinct)
    (hregistry : ∀ kind : ContainerKind,
      codec.registry.resolve kind.wireName = some (.container kind))
    (hwrap : codec.config.wrapCollections = true) (hkind : kind ≠ .list)
    (hvalue : (Value.collection kind items).WellFormed)
    (hmembers : ∀ item ∈ items, codec.Keepable item)
    (hdepth : codec.documentNesting (.collection kind items) ≤ maxDepth) :
    ∃ backs, (codec.encode (.collection kind items) >>= codec.decode) =
        .ok (.collection kind backs) ∧
      (Value.collection kind backs).equal (.collection kind items) := by
  obtain ⟨hproper, hitems⟩ := Value.wellFormed_collection.mp hvalue
  have hback : ∀ item ∈ items, codec.ComesBack (maxDepth - 2) item := by
    intro item hitem
    have hkeep := hmembers item hitem
    have hnull : item.isNull = false := by
      cases item <;> first | rfl | exact hkeep.elim
    exact comesBack_of_keepable hwrites (fun kind => hregistry (.map kind)) (hitems item hitem)
      hkeep (memberNesting_le_of_wrapped hkind hwrap hitem hnull hdepth)
  obtain ⟨backs, hdecode, harranged⟩ :=
    decode_encode_wrapper (hregistry (.collection kind)) hkind hwrap hproper hback
  exact ⟨backs, hdecode, Value.equal_iff.mpr (Value.arrangement_collection_congr harranged)⟩

theorem decode_encode_wrapped_switches :
    (∃ backs, ((Switch.codec true).encode (.collection .linkedList []) >>=
        (Switch.codec true).decode) = .ok (.collection .linkedList backs) ∧
      (Value.collection .linkedList backs).equal (.collection .linkedList [])) ∧
      ∃ backs, ((Switch.codec true).encode (.collection .sortedSet
        [.scalar (.string "java.util.HashSet"), .object ⟨(), true⟩,
          .map .concurrent [("b", .scalar (.int 1)), ("a", .scalar (.bool false))]]) >>=
            (Switch.codec true).decode) = .ok (.collection .sortedSet backs) ∧
        (Value.collection .sortedSet backs).equal (.collection .sortedSet
          [.scalar (.string "java.util.HashSet"), .object ⟨(), true⟩,
            .map .concurrent [("b", .scalar (.int 1)), ("a", .scalar (.bool false))]]) := by
  constructor
  · exact decode_encode_wrapped (Switch.codec true) Switch.writesDistinct Switch.resolve_wireName
      rfl (by decide) (by simp [Collection.Proper]) (by simp) (by decide)
  · have hname : Switch.registry.resolve (Switch.registry.nameOf ⟨(), true⟩) =
        some (.object ()) := by decide +kernel
    refine decode_encode_wrapped (Switch.codec true) Switch.writesDistinct Switch.resolve_wireName
      rfl (by decide) (Value.wellFormed_collection.mpr ⟨?_, ?_⟩) ?_ (by decide)
    · show List.Pairwise (fun a b => Value.compare a b = .lt) _
      decide +kernel
    · simp [Keyed.Proper, Keyed.keys]
    · simp only [List.forall_mem_cons, List.not_mem_nil, false_imp_iff, implies_true, and_true]
      refine ⟨trivial, ⟨hname, [("on", .bool true)], ⟨(), true⟩, rfl, by decide, rfl, ?_⟩,
        by decide, ?_⟩
      · exact Value.equal_iff.mpr rfl
      · simp [Value.DataNode]

end Codec

end TaggedCache
