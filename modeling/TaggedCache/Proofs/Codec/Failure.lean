import TaggedCache.Proofs.Codec.Tagging
import TaggedCache.Proofs.Value.Refusal

namespace TaggedCache

open Json

variable {M : ObjectModel}

theorem Scalar.toTree_eq_error_iff {leaf : Scalar} {e : CodecError} :
    leaf.toTree = .error e ↔ ∃ f, leaf = .float f ∧ f.isFinite = false ∧
      e = .encoding "f64" (.nonFinite f) := by
  cases leaf with
  | bool | int | uint | string => exact ⟨nofun, nofun⟩
  | float value =>
      by_cases hfinite : value.isFinite = true
      · simp [toTree, Number.ofDouble?, hfinite]
      · have hinfinite : value.isFinite = false := by simpa using hfinite
        simp [toTree, Number.ofDouble?, hinfinite, eq_comm (a := e)]

namespace Value

-- The values that carry a type name in a document if they are objects: the value itself,
-- or the members of a collection
def outermost : Value M → List (Value M)
  | .collection _ items => items
  | value => [value]

-- A leaf anywhere inside a value has no tree, and this is the error that says so.
inductive Unwritable (value : Value M) : CodecError → Prop
  | nonFinite {f : Binary.Binary64} (inside : scalar (.float f) ∈ value.nodes)
      (h : f.isFinite = false) : Unwritable value (.encoding "f64" (.nonFinite f))
  | refused {object : Object M} {text : String} (h : value.Refuses object text) :
      Unwritable value (.encoding object.typeName (.refused text))

-- A part of a value keeps it from having a document: a leaf that has no tree, or an outermost
-- object whose tree has no room for a type name.
inductive Flawed (value : Value M) : CodecError → Prop
  | unwritable {e : CodecError} (h : value.Unwritable e) : Flawed value e
  | untaggable {object : Object M} {tree : Tree} (outermost : .object object ∈ value.outermost)
      (writes : object.toTree = .ok tree) (bare : ∀ fields, tree ≠ .object fields) :
      Flawed value (.encoding object.typeName .untaggable)

theorem Unwritable.of_mem {value part : Value M} {e : CodecError} (h : part.Unwritable e)
    (hnodes : part.nodes ⊆ value.nodes) : value.Unwritable e := by
  cases h with
  | nonFinite inside hfinite => exact .nonFinite (hnodes inside) hfinite
  | refused h => exact .refused ⟨mem_objects.mpr (hnodes (mem_objects.mp h.1)), h.2⟩

theorem nodes_subset_of_mem {kind : CollectionKind} {items : List (Value M)} {item : Value M}
    (h : item ∈ items) : item.nodes ⊆ (collection kind items).nodes :=
  fun _ hnode => mem_nodes_collection.mpr (.inr ⟨item, h, hnode⟩)

theorem unwritable_of_toTree_eq_error {value : Value M} {e : CodecError}
    (h : value.toTree = .error e) : value.Unwritable e := by
  rcases exists_leaf_of_toTree_eq_error h with ⟨leaf, hleaf, herror⟩ | ⟨object, hobject, herror⟩
  · obtain ⟨f, rfl, hfinite, rfl⟩ := Scalar.toTree_eq_error_iff.mp herror
    exact .nonFinite hleaf hfinite
  · obtain ⟨text, hwrite, rfl⟩ := Object.toTree_eq_error_iff.mp herror
    exact .refused ⟨hobject, hwrite⟩

theorem toTree_ne_ok_of_unwritable {value : Value M} {e : CodecError} (h : value.Unwritable e)
    (tree : Tree) : value.toTree ≠ .ok tree := by
  intro htree
  cases h with
  | nonFinite inside hfinite =>
      obtain ⟨part, hpart⟩ := exists_toTree_of_mem_nodes htree inside
      cases hpart.symm.trans (Scalar.toTree_eq_error_iff.mpr ⟨_, rfl, hfinite, rfl⟩)
  | refused h =>
      obtain ⟨e, herror⟩ := exists_toTree_eq_error_of_refuses h
      cases htree.symm.trans herror

end Value

namespace Codec

variable {codec : Codec M}

-- An object has no document if it has no tree, or one that is no object.
theorem objectDocument_eq_error_iff {object : Object M} {e : CodecError} :
    codec.objectDocument object = .error e ↔ object.toTree = .error e ∨
      ∃ tree, object.toTree = .ok tree ∧ (∀ fields, tree ≠ .object fields) ∧
        e = .encoding object.typeName .untaggable := by
  rw [objectDocument, bind_eq_error_iff]
  refine or_congr_right (exists_congr fun tree => and_congr_right fun _ => ?_)
  cases tree with
  | object fields =>
      constructor
      · intro h
        contradiction
      · intro h
        exact absurd rfl (h.1 fields)
  | null | bool | number | string | array =>
      constructor
      · intro h
        cases h
        exact ⟨by simp, rfl⟩
      · rintro ⟨-, rfl⟩
        rfl

theorem memberDocument_eq_error_iff {member : Value M} {e : CodecError} :
    codec.memberDocument member = .error e ↔ member.toTree = .error e ∨
      ∃ object tree, member = .object object ∧ object.toTree = .ok tree ∧
        (∀ fields, tree ≠ .object fields) ∧ e = .encoding object.typeName .untaggable := by
  cases member with
  | object object =>
      refine objectDocument_eq_error_iff.trans (or_congr_right ?_)
      constructor
      · rintro ⟨tree, h⟩
        exact ⟨object, tree, rfl, h⟩
      · rintro ⟨_, tree, ⟨⟩, h⟩
        exact ⟨tree, h⟩
  | map kind entries =>
      rw [memberDocument, bind_eq_error_iff]
      refine or_congr_right (iff_of_false ?_ (by simp))
      rintro ⟨tree, htree, htag⟩
      obtain ⟨fields, -, rfl⟩ := Value.toTree_map.mp htree
      contradiction
  | null | scalar | collection =>
      exact (or_iff_left (by simp)).symm

theorem exists_of_collectionDocument_eq_error {kind : CollectionKind} {items : List (Value M)}
    {e : CodecError} (h : codec.collectionDocument kind items = .error e) :
    ∃ item ∈ items, codec.memberDocument item = .error e := by
  rw [collectionDocument, bind_eq_error_iff] at h
  rcases h with h | ⟨trees, -, h⟩
  · obtain ⟨item, hitem, herror⟩ := exists_of_mapM_eq_error h
    exact ⟨item, List.mem_of_mem_filter hitem, herror⟩
  · split at h <;> contradiction

theorem flawed_of_document_eq_error {value : Value M} {e : CodecError}
    (h : codec.document value = .error e) : value.Flawed e := by
  cases value with
  | null => contradiction
  | scalar | map =>
      exact .unwritable (Value.unwritable_of_toTree_eq_error (map_eq_error_iff.mp h))
  | object object =>
      rcases objectDocument_eq_error_iff.mp (map_eq_error_iff.mp h) with
        h | ⟨tree, htree, hbare, rfl⟩
      · have htree : (Value.object object).toTree = .error e := h
        exact .unwritable (Value.unwritable_of_toTree_eq_error htree)
      · exact .untaggable List.mem_cons_self htree hbare
  | collection kind items =>
      obtain ⟨item, hitem, herror⟩ := exists_of_collectionDocument_eq_error (map_eq_error_iff.mp h)
      rcases memberDocument_eq_error_iff.mp herror with h | ⟨object, tree, rfl, htree, hbare, rfl⟩
      · exact .unwritable ((Value.unwritable_of_toTree_eq_error h).of_mem
          (Value.nodes_subset_of_mem hitem))
      · exact .untaggable hitem htree hbare

-- An object that is outermost in a document has a document of its own.
theorem exists_objectDocument_of_document {value : Value M} {object : Object M} {tree : Tree}
    (h : codec.document value = .ok (some tree)) (houtermost : .object object ∈ value.outermost) :
    ∃ part, codec.objectDocument object = .ok part := by
  have hdocument := document_eq_ok_some_iff.mp h
  cases value with
  | null => exact hdocument.elim
  | scalar | map => nomatch List.mem_singleton.mp houtermost
  | object other =>
      cases List.mem_singleton.mp houtermost
      exact ⟨tree, hdocument⟩
  | collection kind items =>
      obtain ⟨trees, htrees, -⟩ := collectionDocument_eq_ok_iff.mp hdocument
      have hkept : Value.object object ∈ items.filter (!·.isNull) :=
        List.mem_filter.mpr ⟨houtermost, rfl⟩
      obtain ⟨part, -, hpart⟩ := exists_right_of_mem htrees hkept
      exact ⟨part, hpart⟩

theorem document_ne_ok_of_flawed {value : Value M} {e : CodecError} (h : value.Flawed e)
    (tree : Option Tree) : codec.document value ≠ .ok tree := by
  intro hdocument
  cases tree with
  | none =>
      cases eq_null_of_document hdocument
      cases h with
      | unwritable h => exact Value.toTree_ne_ok_of_unwritable h .null rfl
      | untaggable houtermost => nomatch List.mem_singleton.mp houtermost
  | some tree =>
      cases h with
      | unwritable h =>
          obtain ⟨plain, hplain, -⟩ := document_iff_tags.mp hdocument
          exact Value.toTree_ne_ok_of_unwritable h plain hplain
      | untaggable houtermost hplain hbare =>
          obtain ⟨part, hpart⟩ := exists_objectDocument_of_document hdocument houtermost
          cases hpart.symm.trans (objectDocument_eq_error_iff.mpr (.inr ⟨_, hplain, hbare, rfl⟩))

theorem encode_eq_error_iff {value : Value M} {e : CodecError} :
    codec.encode value = .error e ↔ codec.document value = .error e := by
  rw [encode, encodeText, map_eq_error_iff, map_eq_error_iff]

-- No document of a tree is empty.
theorem size_eq_zero_iff_of_encode {value : Value M} {bytes : ByteArray}
    (h : codec.encode value = .ok bytes) : bytes.size = 0 ↔ value = .null := by
  rcases encode_eq_ok_iff.mp h with ⟨rfl, rfl⟩ | ⟨tree, hdocument, rfl⟩
  · exact iff_of_true rfl rfl
  · refine iff_of_false (fun hsize => ?_) fun hnull => ?_
    · obtain ⟨first, hfirst⟩ := exists_first_byte tree
      rw [ByteArray.size_eq_zero_iff.mp hsize, ByteArray.toList, toList_loop] at hfirst
      cases hfirst
    · subst hnull
      cases hdocument

-- A value has no document exactly if some part of it is in the way. The error names the type
-- of that part, and only null has an empty document.
theorem encode_eq_error_iff_flawed (codec : Codec M) (value : Value M) :
    ((∃ e, codec.encode value = .error e) ↔ ∃ e, value.Flawed e) ∧
      match codec.encode value with
      | .error e => value.Flawed e ∧ ∃ name problem, e = .encoding name problem
      | .ok bytes => bytes.size = 0 ↔ value = .null := by
  constructor
  · constructor
    · rintro ⟨e, herror⟩
      exact ⟨e, flawed_of_document_eq_error (encode_eq_error_iff.mp herror)⟩
    · rintro ⟨e, hflawed⟩
      cases hdocument : codec.document value with
      | error e => exact ⟨e, encode_eq_error_iff.mpr hdocument⟩
      | ok tree => exact absurd hdocument (document_ne_ok_of_flawed hflawed tree)
  · cases hencode : codec.encode value with
    | error e =>
        have hflawed := flawed_of_document_eq_error (encode_eq_error_iff.mp hencode)
        refine ⟨hflawed, ?_⟩
        cases hflawed with
        | unwritable h => cases h <;> exact ⟨_, _, rfl⟩
        | untaggable => exact ⟨_, _, rfl⟩
    | ok bytes => exact size_eq_zero_iff_of_encode hencode

end Codec

end TaggedCache
