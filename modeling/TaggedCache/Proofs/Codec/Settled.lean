import TaggedCache.Proofs.Codec.Wrapper
import TaggedCache.Proofs.Order.Reorder
import TaggedCache.Proofs.Registry

namespace TaggedCache

open Json

variable {M : ObjectModel}

theorem Json.Tree.leadingName?_eq_some {tree : Tree} {name : String} :
    tree.leadingName? = some name ↔ ∃ second, tree = .array [.string name, second] := by
  constructor
  · intro h
    unfold Tree.leadingName? at h
    split at h
    · cases h
      exact ⟨_, rfl⟩
    · contradiction
  · rintro ⟨second, rfl⟩
    rfl

theorem Json.Tree.leadingName?_replace {before after : List Tree} {tree other : Tree}
    {name : String} (hother : other ≠ .string name)
    (h : (Tree.array (before ++ other :: after)).leadingName? = some name) :
    (Tree.array (before ++ tree :: after)).leadingName? = some name := by
  obtain ⟨second, heq⟩ := leadingName?_eq_some.mp h
  rw [array.injEq] at heq
  rcases before with _ | ⟨first, _ | ⟨third, rest⟩⟩
  · exact absurd (List.cons.inj heq).1 hother
  · obtain ⟨rfl, hrest⟩ := List.cons.inj heq
    obtain ⟨-, rfl⟩ := List.cons.inj hrest
    exact leadingName?_eq_some.mpr ⟨tree, rfl⟩
  · simp at heq

namespace Codec

-- An object that comes back as an equal one from a document of limited depth
def SettledObject (codec : Codec M) (limit : Nat) (object : Object M) : Prop :=
  codec.registry.resolve (codec.registry.nameOf object) = some (.object object.type) ∧
    ∃ fields again, object.toTree = .ok (.object fields) ∧ codec.Untagged (.object fields) ∧
      (Tree.object fields).depth ≤ limit ∧ M.materialize object.type (.object fields) = .ok again ∧
      (Value.object again).arrangement = (Value.object object).arrangement

-- What the trees of a document become that hold no tags but their own
def SettledMember (codec : Codec M) (limit : Nat) : Value M → Prop
  | .null => False
  | .object object => codec.SettledObject limit object
  | .map kind entries => Keyed.Proper ⟨kind, entries⟩ ∧ ∃ fields, Value.ofFields fields = entries ∧
      codec.Untagged (.object fields) ∧ (Tree.object fields).depth ≤ limit
  | member => ∃ tree, Value.ofTree tree = member ∧ codec.Untagged tree ∧ tree.depth ≤ limit

theorem depth_tagged {codec : Codec M} {fields : List (String × Tree)} (name : String)
    (hlacks : codec.config.discriminator ∉ Assoc.keys fields) :
    (codec.tagged name fields).depth = (Tree.object fields).depth := by
  rw [depth_tagged_erase, Assoc.erase_of_notMem hlacks]

theorem settledMember_fields {codec : Codec M} {limit : Nat} {fields : List (String × Tree)}
    (huntagged : codec.Untagged (.object fields)) (hdepth : (Tree.object fields).depth ≤ limit) :
    codec.SettledMember limit (.map .unordered (Value.ofFields fields)) := by
  have hnames := (Untagged.object_iff.mp huntagged).1
  exact ⟨Keyed.proper_unordered.mpr (keys_ofFields (M := M) fields ▸ hnames), fields, rfl,
    huntagged, hdepth⟩

-- A settled member comes back as an equal one.
theorem comesBack_of_settled {codec : Codec M} {limit : Nat} {member : Value M}
    (hregistry : codec.registry.Consistent) (h : codec.SettledMember limit member) :
    codec.ComesBack limit member := by
  cases member with
  | null => exact h.elim
  | object object =>
      obtain ⟨hname, fields, again, htree, huntagged, hdepth, hread, hequal⟩ := h
      obtain ⟨-, hlacks, -⟩ := Untagged.object_iff.mp huntagged
      exact comesBack_object hname htree huntagged.distinct hlacks
        ((codec.depth_tagged_le _ fields).trans hdepth) hread hequal
  | map kind entries =>
      obtain ⟨hproper, fields, rfl, huntagged, hdepth⟩ := h
      exact comesBack_map (hregistry.wireName (.map kind)) hproper huntagged
        ((codec.depth_tagged_le _ fields).trans hdepth)
  | scalar | collection =>
      obtain ⟨tree, hback, huntagged, hdepth⟩ := h
      rw [← hback]
      refine comesBack_untagged ?_ ?_ huntagged hdepth
      · rintro rfl
        cases hback
      · rintro fields rfl
        cases hback

-- A value that comes back as an equal one
def Settled (codec : Codec M) : Value M → Prop
  | .object object => codec.SettledObject maxDepth object
  | .collection .list items =>
      ¬codec.Announces false items ∧ ∀ item ∈ items, codec.SettledMember (maxDepth - 1) item
  | .collection kind items =>
      codec.config.wrapCollections = true ∧ Collection.Proper ⟨kind, items⟩ ∧
      ∀ item ∈ items, codec.SettledMember (maxDepth - 2) item
  | value => ∃ tree, Value.ofTree tree = value ∧ codec.Untagged tree ∧ tree.depth ≤ maxDepth

theorem memberDocument_eq_string {codec : Codec M} {member : Value M} {name : String}
    (h : codec.memberDocument member = .ok (.string name)) : member = .scalar (.string name) := by
  cases member with
  | null => cases h
  | object object =>
      obtain ⟨fields, -, htree⟩ := objectDocument_eq_ok_iff.mp h
      cases htree
  | map kind entries =>
      obtain ⟨fields, -, htree⟩ := memberDocument_map.mp h
      cases htree
  | collection kind items =>
      have hplain : (Value.collection kind items).toTree = .ok (.string name) := h
      obtain ⟨trees, -, htree⟩ := Value.toTree_collection.mp hplain
      cases htree
  | scalar value =>
      cases value with
      | string value =>
          cases h
          rfl
      | float value =>
          have htree : (Scalar.float value).toTree = .ok (.string name) := h
          cases Scalar.ofTree_of_toTree (M := M) htree
      | bool | int | uint => cases h

theorem memberDocument_eq_array {codec : Codec M} {member : Value M} {inner : List Tree}
    (h : codec.memberDocument member = .ok (.array inner)) :
    ∃ kind items, member = .collection kind items := by
  cases member with
  | null => cases h
  | object object =>
      obtain ⟨fields, -, htree⟩ := objectDocument_eq_ok_iff.mp h
      cases htree
  | map kind entries =>
      obtain ⟨fields, -, htree⟩ := memberDocument_map.mp h
      cases htree
  | collection kind items => exact ⟨kind, items, rfl⟩
  | scalar value => exact (Scalar.isLeaf_of_toTree h).elim

-- The document of a list has a heading only if the list announces its second member.
theorem heading?_of_not_announces {codec : Codec M} {items : List (Value M)} {trees : List Tree}
    (htrees : List.Forall₂ (fun item tree => codec.memberDocument item = .ok tree) items trees)
    (h : ¬codec.Announces false items) : codec.heading? false trees = none := by
  by_contra hsome
  obtain ⟨heading, hheading⟩ := Option.ne_none_iff_exists'.mp hsome
  obtain ⟨name, second, rfl, hname⟩ := heading?_eq_some hheading
  cases heading with
  | collection kind =>
      obtain ⟨hname, inner, rfl⟩ := hname
      obtain ⟨first, others, hfirst, hothers, rfl⟩ := List.forall₂_cons_right_iff.mp htrees
      obtain ⟨second, others, hsecond, hnil, rfl⟩ := List.forall₂_cons_right_iff.mp hothers
      cases List.forall₂_nil_right_iff.mp hnil
      obtain ⟨innerKind, items, rfl⟩ := memberDocument_eq_array hsecond
      rw [memberDocument_eq_string hfirst] at h
      exact h ⟨kind, hname⟩
  | object type fields => cases hname.2.1
  | map kind => cases hname.2.1

theorem decode_encode_settled_list {codec : Codec M} {items : List (Value M)}
    (hregistry : codec.registry.Consistent) (hnot : ¬codec.Announces false items)
    (h : ∀ item ∈ items, codec.SettledMember (maxDepth - 1) item) :
    ∃ back, (codec.encode (.collection .list items) >>= codec.decode) = .ok back ∧
      back.arrangement = (Value.collection .list items).arrangement := by
  have hback := fun item hitem => comesBack_of_settled hregistry (h item hitem)
  obtain ⟨trees, htrees, hparts, harranged⟩ := exists_trees_of_comesBack hback
  have hdocument : codec.document (.collection .list items) = .ok (some (.array trees)) :=
    document_eq_ok_some_iff.mpr (collectionDocument_eq_ok_iff.mpr
      ⟨trees, (filter_of_comesBack hback).symm ▸ htrees, by simp⟩)
  have hdistinct : (Tree.array trees).Distinct :=
    Tree.distinct_array.mpr fun tree htree => (hparts tree htree).1
  have hdepth : (Tree.array trees).depth ≤ maxDepth :=
    Tree.depth_array_le.mpr fun tree htree => (hparts tree htree).2
  refine ⟨_, encode_bind_decode hdocument hdistinct hdepth, ?_⟩
  rw [decodeTree_array (heading?_of_not_announces htrees hnot)]
  exact Value.arrangement_collection_congr harranged

theorem decode_encode_settled_wrapper {codec : Codec M} {kind : CollectionKind}
    {items : List (Value M)} (hregistry : codec.registry.Consistent) (hkind : kind ≠ .list)
    (hwrap : codec.config.wrapCollections = true) (hproper : Collection.Proper ⟨kind, items⟩)
    (h : ∀ item ∈ items, codec.SettledMember (maxDepth - 2) item) :
    ∃ back, (codec.encode (.collection kind items) >>= codec.decode) = .ok back ∧
      back.arrangement = (Value.collection kind items).arrangement := by
  obtain ⟨backs, hdecode, harranged⟩ :=
    decode_encode_wrapper (hregistry.wireName (.collection kind)) hkind hwrap hproper
      fun item hitem => comesBack_of_settled hregistry (h item hitem)
  exact ⟨_, hdecode, Value.arrangement_collection_congr harranged⟩

-- What is settled comes back as an equal value.
theorem exists_decode_encode_of_settled {codec : Codec M} {value : Value M}
    (hregistry : codec.registry.Consistent) (h : codec.Settled value) :
    ∃ back, (codec.encode value >>= codec.decode) = .ok back ∧
      back.arrangement = value.arrangement := by
  have hplain (hdata : ∃ tree, Value.ofTree tree = value ∧ codec.Untagged tree ∧
      tree.depth ≤ maxDepth) (hdocument : codec.document value = some <$> value.toTree) :
      ∃ back, (codec.encode value >>= codec.decode) = .ok back ∧
        back.arrangement = value.arrangement := by
    obtain ⟨tree, rfl, huntagged, hdepth⟩ := hdata
    rw [Value.toTree_ofTree] at hdocument
    refine ⟨_, encode_bind_decode hdocument huntagged.distinct hdepth, ?_⟩
    rw [decodeTree_untagged huntagged]
  cases value with
  | null => exact ⟨.null, codec.encode_null_bind_decode, rfl⟩
  | scalar value => exact hplain h rfl
  | map kind entries => exact hplain h rfl
  | object object =>
      have hmember : codec.SettledMember maxDepth (.object object) := h
      obtain ⟨-, tree, hdocument, hdistinct, hdepth, hdecode⟩ :=
        comesBack_of_settled hregistry hmember
      exact ⟨_, encode_bind_decode (document_eq_ok_some_iff.mpr hdocument) hdistinct hdepth,
        hdecode false⟩
  | collection kind items =>
      cases kind with
      | list => exact decode_encode_settled_list hregistry h.1 h.2
      | linkedList | unorderedSet | orderedSet | sortedSet =>
          exact decode_encode_settled_wrapper hregistry nofun h.1 h.2.1 h.2.2

theorem Untagged.replace_item {codec : Codec M} {before after : List Tree} {tree other : Tree}
    (h : codec.Untagged (.array (before ++ tree :: after))) (hother : codec.Untagged other)
    (hname : ∀ name, other ≠ .string name) :
    codec.Untagged (.array (before ++ other :: after)) := by
  obtain ⟨hpair, hparts⟩ := Untagged.array_iff.mp h
  refine Untagged.array_iff.mpr ⟨fun name hleads => ?_, forall_mem_replace hparts hother⟩
  exact hpair name (Tree.leadingName?_replace (hname name) hleads)

theorem Untagged.replace_field {codec : Codec M} {before after : List (String × Tree)}
    {name : String} {tree other : Tree}
    (h : codec.Untagged (.object (before ++ (name, tree) :: after)))
    (hother : codec.Untagged other) :
    codec.Untagged (.object (before ++ (name, other) :: after)) := by
  obtain ⟨hnames, hlacks, hparts⟩ := Untagged.object_iff.mp h
  have hkeys : Assoc.keys (before ++ (name, other) :: after) =
      Assoc.keys (before ++ (name, tree) :: after) := by simp [Assoc.keys]
  exact Untagged.object_iff.mpr
    ⟨hkeys ▸ hnames, hkeys ▸ hlacks, forall_mem_replace hparts hother⟩

-- A tree can be reordered like the value that it holds.
theorem exists_ofTree_of_reorder {codec : Codec M} {value other : Value M}
    (h : Value.Reorder value other) {tree : Tree} (htree : Value.ofTree tree = value)
    (huntagged : codec.Untagged tree) :
    ∃ tree', Value.ofTree tree' = other ∧ codec.Untagged tree' ∧ tree'.depth ≤ tree.depth := by
  induction h generalizing tree with
  | members hperm => cases tree <;> cases htree
  | @entries kind entries others hkind hperm =>
      cases tree with
      | object fields =>
          rw [Value.ofTree, Value.map.injEq, Value.ofFields_eq] at htree
          obtain ⟨rfl, rfl⟩ := htree
          obtain ⟨fields', hothers, hfields⟩ := exists_map_of_perm hperm.symm
          obtain ⟨hnames, hlacks, hparts⟩ := Untagged.object_iff.mp huntagged
          have hkeys := hfields.map Prod.fst
          refine ⟨.object fields', by rw [Value.ofTree, Value.ofFields_eq, hothers], ?_, ?_⟩
          · exact Untagged.object_iff.mpr ⟨hkeys.nodup_iff.mpr hnames,
              fun hmem => hlacks (hkeys.mem_iff.mp hmem),
              fun field hfield => hparts field (hfields.mem_iff.mp hfield)⟩
          · exact Tree.depth_object_le.mpr fun field hfield =>
              Tree.depthOfFields_le.mp (Nat.le_refl _) field (hfields.mem_iff.mp hfield)
      | _ => cases htree
  | @member kind before after item other h ih =>
      cases tree with
      | array trees =>
          rw [Value.ofTree, Value.collection.injEq, Value.ofItems_eq] at htree
          obtain ⟨rfl, hitems⟩ := htree
          obtain ⟨treesBefore, rest, rfl, rfl, hrest⟩ := List.map_eq_append_iff.mp hitems
          obtain ⟨tree, treesAfter, rfl, hitem, rfl⟩ := List.map_eq_cons_iff.mp hrest
          obtain ⟨tree', hother, huntagged', hdepth⟩ :=
            ih hitem ((Untagged.array_iff.mp huntagged).2 tree (by simp))
          have hname (name : String) : tree' ≠ .string name := by
            rintro rfl
            rw [← hother] at h
            cases h
          refine ⟨.array (treesBefore ++ tree' :: treesAfter), ?_,
            huntagged.replace_item huntagged' hname, Tree.depth_array_replace_le hdepth⟩
          simp [Value.ofTree, Value.ofItems_eq, hother]
      | _ => cases htree
  | @entry kind before after key value other h ih =>
      cases tree with
      | object fields =>
          rw [Value.ofTree, Value.map.injEq, Value.ofFields_eq] at htree
          obtain ⟨rfl, hentries⟩ := htree
          obtain ⟨fieldsBefore, rest, rfl, rfl, hrest⟩ := List.map_eq_append_iff.mp hentries
          obtain ⟨⟨name, tree⟩, fieldsAfter, rfl, hfield, rfl⟩ := List.map_eq_cons_iff.mp hrest
          obtain ⟨rfl, hvalue⟩ := Prod.mk.inj hfield
          obtain ⟨tree', hother, huntagged', hdepth⟩ :=
            ih hvalue ((Untagged.object_iff.mp huntagged).2.2 (name, tree) (by simp))
          refine ⟨.object (fieldsBefore ++ (name, tree') :: fieldsAfter), ?_,
            huntagged.replace_field huntagged', Tree.depth_object_replace_le hdepth⟩
          simp [Value.ofTree, Value.ofFields_eq, hother]
      | _ => cases htree

theorem wellFormed_of_settledMember {codec : Codec M} {limit : Nat} {member : Value M}
    (h : codec.SettledMember limit member) : member.WellFormed := by
  cases member with
  | null => exact h.elim
  | object object => exact Value.wellFormed_object object
  | map kind entries =>
      obtain ⟨hproper, fields, rfl, huntagged, -⟩ := h
      have hfields := (wellFormed_ofTree (M := M)).mpr huntagged.distinct
      rw [Value.ofTree, Value.wellFormed_map] at hfields
      exact Value.wellFormed_map.mpr ⟨hproper, hfields.2⟩
  | scalar | collection =>
      obtain ⟨tree, hback, huntagged, -⟩ := h
      exact hback ▸ wellFormed_ofTree.mpr huntagged.distinct

theorem wellFormed_of_settled {codec : Codec M} {value : Value M} (h : codec.Settled value) :
    value.WellFormed := by
  cases value with
  | object object => exact Value.wellFormed_object object
  | null | scalar | map =>
      obtain ⟨tree, hback, huntagged, -⟩ := h
      exact hback ▸ wellFormed_ofTree.mpr huntagged.distinct
  | collection kind items =>
      refine Value.wellFormed_collection.mpr ?_
      cases kind with
      | list => exact ⟨trivial, fun item hitem => wellFormed_of_settledMember (h.2 item hitem)⟩
      | linkedList | unorderedSet | orderedSet | sortedSet =>
          exact ⟨h.2.1, fun item hitem => wellFormed_of_settledMember (h.2.2 item hitem)⟩

theorem reorder_map {kind : MapKind} {entries : List (String × Value M)} {other : Value M}
    (h : Value.Reorder (.map kind entries) other) :
    ∃ others, other = .map kind others ∧
      Value.Reorder (.map .unordered entries) (.map .unordered others) := by
  cases h with
  | entries hkind hperm => exact ⟨_, rfl, .entries rfl hperm⟩
  | entry h => exact ⟨_, rfl, .entry h⟩

theorem reorder_collection {kind : CollectionKind} {items : List (Value M)} {other : Value M}
    (h : Value.Reorder (.collection kind items) other) :
    ∃ others, other = .collection kind others := by
  cases h with
  | members hperm => exact ⟨_, rfl⟩
  | member h => exact ⟨_, rfl⟩

theorem settledMember_of_reorder {codec : Codec M} {limit : Nat} {member other : Value M}
    (h : Value.Reorder member other) (hmember : codec.SettledMember limit member) :
    codec.SettledMember limit other := by
  cases member with
  | null | scalar | object => cases h
  | map kind entries =>
      have hother := (Value.wellFormed_of_reorder h (wellFormed_of_settledMember hmember)).1
      obtain ⟨-, fields, rfl, huntagged, hdepth⟩ := hmember
      obtain ⟨others, rfl, hplain⟩ := reorder_map h
      have hfields : (Value.ofTree (.object fields) : Value M) =
          .map .unordered (Value.ofFields fields) := rfl
      obtain ⟨tree, hback, huntagged, hle⟩ := exists_ofTree_of_reorder hplain hfields huntagged
      cases tree with
      | object fields =>
          rw [Value.ofTree, Value.map.injEq] at hback
          exact ⟨(Value.wellFormed_map.mp hother).1, fields, hback.2, huntagged, hle.trans hdepth⟩
      | _ => cases hback
  | collection kind items =>
      obtain ⟨tree, hback, huntagged, hdepth⟩ := hmember
      obtain ⟨tree, hother, huntagged, hle⟩ := exists_ofTree_of_reorder h hback huntagged
      obtain ⟨others, rfl⟩ := reorder_collection h
      exact ⟨tree, hother, huntagged, hle.trans hdepth⟩

theorem exists_of_announces {codec : Codec M} {items : List (Value M)}
    (h : codec.Announces false items) :
    ∃ name kind inner, items = [.scalar (.string name), .collection kind inner] ∧
      ∃ kind, codec.registry.resolve name = some (.container (.collection kind)) := by
  unfold Announces at h
  split at h
  · exact ⟨_, _, _, rfl, h⟩
  · cases h.1
  · exact h.elim

theorem announces_of_reorder {codec : Codec M} {before after : List (Value M)}
    {item other : Value M} (h : Value.Reorder item other)
    (hannounces : codec.Announces false (before ++ other :: after)) :
    codec.Announces false (before ++ item :: after) := by
  obtain ⟨name, kind, inner, hitems, hname⟩ := exists_of_announces hannounces
  rcases before with _ | ⟨first, _ | ⟨second, rest⟩⟩
  · obtain ⟨rfl, -⟩ := List.cons.inj hitems
    cases h
  · obtain ⟨rfl, hrest⟩ := List.cons.inj hitems
    obtain ⟨rfl, rfl⟩ := List.cons.inj hrest
    cases h with
    | members hperm => exact hname
    | member h => exact hname
  · simp at hitems

-- Settled values stay settled in any order.
theorem settled_of_reorder {codec : Codec M} {value other : Value M}
    (h : Value.Reorder value other) (hvalue : codec.Settled value) : codec.Settled other := by
  cases value with
  | null | scalar | object => cases h
  | map kind entries =>
      obtain ⟨tree, hback, huntagged, hdepth⟩ := hvalue
      obtain ⟨tree, hother, huntagged, hle⟩ := exists_ofTree_of_reorder h hback huntagged
      obtain ⟨others, rfl, -⟩ := reorder_map h
      exact ⟨tree, hother, huntagged, hle.trans hdepth⟩
  | collection kind items =>
      have hother := (Value.wellFormed_of_reorder h (wellFormed_of_settled hvalue)).1
      cases h with
      | members hperm =>
          exact ⟨hvalue.1, (Value.wellFormed_collection.mp hother).1,
            fun item hitem => hvalue.2.2 item (hperm.mem_iff.mpr hitem)⟩
      | @member _ before after item other h =>
          have hmembers {limit : Nat}
              (hitems : ∀ part ∈ before ++ item :: after, codec.SettledMember limit part) :
              ∀ part ∈ before ++ other :: after, codec.SettledMember limit part :=
            forall_mem_replace hitems (settledMember_of_reorder h (hitems item (by simp)))
          cases kind with
          | list =>
              exact ⟨fun hannounces => hvalue.1 (announces_of_reorder h hannounces),
                hmembers hvalue.2⟩
          | linkedList | unorderedSet | orderedSet | sortedSet =>
              exact ⟨hvalue.1, (Value.wellFormed_collection.mp hother).1, hmembers hvalue.2.2⟩

theorem settled_of_reorders {codec : Codec M} {value other : Value M}
    (h : Value.Reorders value other) (hvalue : codec.Settled value) :
    codec.Settled other ∧ value.arrangement = other.arrangement := by
  induction h with
  | refl => exact ⟨hvalue, rfl⟩
  | tail _ hlast ih =>
      obtain ⟨hsettled, heq⟩ := ih
      have hlastEq := (Value.wellFormed_of_reorder hlast (wellFormed_of_settled hsettled)).2
      exact ⟨settled_of_reorder hlast hsettled, heq.trans hlastEq⟩

end Codec

end TaggedCache
