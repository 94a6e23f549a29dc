import TaggedCache.Proofs.Codec.RoundTrip

namespace TaggedCache

open Json

variable {M : ObjectModel}

theorem Json.Tree.depthOfItems_eq (items : List Tree) :
    depthOfItems items = (items.map depth).foldr max 0 := by
  induction items with
  | nil => rfl
  | cons item rest ih => rw [depthOfItems, ih, List.map_cons, List.foldr_cons]

theorem Json.Tree.depthOfFields_eq (fields : List (String × Tree)) :
    depthOfFields fields = (fields.map fun field => field.2.depth).foldr max 0 := by
  induction fields with
  | nil => rfl
  | cons field rest ih => rw [depthOfFields, ih, List.map_cons, List.foldr_cons]

namespace Value

mutual

-- How many arrays and objects stand inside each other in the tree of a value
def nesting : Value M → Nat
  | .object value =>
      match value.toTree with
      | .ok tree => tree.depth
      | .error _ => 0
  | .collection _ items => nestingOfItems items + 1
  | .map _ entries => nestingOfEntries entries + 1
  | _ => 0

def nestingOfItems : List (Value M) → Nat
  | [] => 0
  | item :: rest => max item.nesting (nestingOfItems rest)

def nestingOfEntries : List (String × Value M) → Nat
  | [] => 0
  | (_, value) :: rest => max value.nesting (nestingOfEntries rest)

end

theorem nestingOfItems_eq (items : List (Value M)) :
    nestingOfItems items = (items.map nesting).foldr max 0 := by
  induction items with
  | nil => rfl
  | cons item rest ih => rw [nestingOfItems, ih, List.map_cons, List.foldr_cons]

theorem nestingOfEntries_eq (entries : List (String × Value M)) :
    nestingOfEntries entries = (entries.map fun entry => entry.2.nesting).foldr max 0 := by
  induction entries with
  | nil => rfl
  | cons entry rest ih => rw [nestingOfEntries, ih, List.map_cons, List.foldr_cons]

theorem depth_of_toTree {value : Value M} {tree : Tree} (h : value.toTree = .ok tree) :
    tree.depth = value.nesting := by
  induction value generalizing tree with
  | null =>
      cases h
      rfl
  | scalar value => exact (Scalar.isLeaf_of_toTree h).depth
  | object value =>
      rw [toTree] at h
      rw [nesting, h]
  | collection kind items ih =>
      obtain ⟨trees, htrees, rfl⟩ := toTree_collection.mp h
      rw [Tree.depth, nesting, Tree.depthOfItems_eq, nestingOfItems_eq]
      rw [map_eq_map_of_forall₂ htrees fun item hitem _ _ hr => (ih item hitem hr).symm]
  | map kind entries ih =>
      obtain ⟨fields, hfields, rfl⟩ := toTree_map.mp h
      rw [Tree.depth, nesting, Tree.depthOfFields_eq, nestingOfEntries_eq]
      rw [map_eq_map_of_forall₂ hfields fun entry hentry _ _ hr => (ih entry hentry hr.2).symm]

-- Without an entry, a map's tree is without a field.
theorem toTree_erase {kind : MapKind} {entries : List (String × Value M)}
    {fields : List (String × Tree)} (name : String)
    (h : (map kind entries).toTree = .ok (.object fields)) :
    (map kind (Assoc.erase name entries)).toTree = .ok (.object (Assoc.erase name fields)) := by
  obtain ⟨_, hfields, ⟨⟩⟩ := toTree_map.mp h
  refine toTree_map.mpr ⟨_, ?_, rfl⟩
  exact List.rel_filter (fun entry field hr => by simp [hr.1]) hfields

end Value

namespace Codec

-- How deep the tree is nested that is written of a member of the outermost collection.
-- A tag takes the place of what is under its name.
def memberNesting (codec : Codec M) : Value M → Nat
  | .object object =>
      match object.toTree with
      | .ok (.object fields) => (Tree.object (Assoc.erase codec.config.discriminator fields)).depth
      | _ => 0
  | .map kind entries => (Value.map kind (Assoc.erase codec.config.discriminator entries)).nesting
  | member => member.nesting

-- How deep the document of a value is nested. A wrapper adds a level.
def documentNesting (codec : Codec M) : Value M → Nat
  | .collection kind items =>
      ((items.filter (!·.isNull)).map codec.memberNesting).foldr max 0 +
        if codec.config.wrapCollections && kind ≠ .list then 2 else 1
  | .object object => codec.memberNesting (.object object)
  | value => value.nesting

theorem depth_memberDocument {codec : Codec M} {member : Value M} {tree : Tree}
    (h : codec.memberDocument member = .ok tree) : tree.depth = codec.memberNesting member := by
  cases member with
  | object object =>
      obtain ⟨fields, htree, rfl⟩ := objectDocument_eq_ok_iff.mp h
      rw [depth_tagged_erase, memberNesting, htree]
  | map kind entries =>
      obtain ⟨fields, htree, rfl⟩ := memberDocument_map.mp h
      rw [depth_tagged_erase]
      exact Value.depth_of_toTree (Value.toTree_erase _ htree)
  | null | scalar | collection => exact Value.depth_of_toTree h

theorem depth_document {codec : Codec M} {value : Value M} {tree : Tree}
    (h : codec.document value = .ok (some tree)) : tree.depth = codec.documentNesting value := by
  have hdocument := document_eq_ok_some_iff.mp h
  cases value with
  | null => exact hdocument.elim
  | scalar | map => exact Value.depth_of_toTree hdocument
  | object object =>
      have hmember : codec.memberDocument (.object object) = .ok tree := hdocument
      exact depth_memberDocument hmember
  | collection kind items =>
      obtain ⟨trees, htrees, rfl⟩ := collectionDocument_eq_ok_iff.mp hdocument
      have hdepths : Tree.depthOfItems trees =
          ((items.filter (!·.isNull)).map codec.memberNesting).foldr max 0 := by
        rw [Tree.depthOfItems_eq, map_eq_map_of_forall₂ htrees fun _ _ _ _ hr =>
          (depth_memberDocument hr).symm]
      rw [documentNesting, ← hdepths]
      split
      · rw [Tree.depth_pair, Tree.depth]
      · rw [Tree.depth]

end Codec

-- An empty list inside so many lists
def Value.nestedList : Nat → Value M
  | 0 => .collection .list []
  | levels + 1 => .collection .list [nestedList levels]

namespace Value

theorem wellFormed_nestedList (levels : Nat) : (nestedList levels : Value M).WellFormed := by
  induction levels with
  | zero => simp [nestedList, Collection.Proper]
  | succ levels ih => simp [nestedList, Collection.Proper, ih]

theorem nesting_nestedList (levels : Nat) : (nestedList levels : Value M).nesting = levels + 1 := by
  induction levels with
  | zero => rfl
  | succ levels ih => simp [nestedList, nesting, nestingOfItems, ih]

theorem exists_toTree_nestedList (levels : Nat) :
    ∃ tree, (nestedList levels : Value M).toTree = .ok tree := by
  induction levels with
  | zero => exact ⟨.array [], rfl⟩
  | succ levels ih =>
      obtain ⟨tree, htree⟩ := ih
      exact ⟨.array [tree], toTree_collection.mpr ⟨[tree], .cons htree .nil, rfl⟩⟩

end Value

namespace Codec

-- A collection that holds nothing but lists inside each other is written.
theorem exists_encode_nestedList (codec : Codec M) (kind : CollectionKind) (levels : Nat) :
    ∃ bytes, codec.encode (.collection kind [Value.nestedList levels]) = .ok bytes := by
  obtain ⟨tree, htree⟩ := Value.exists_toTree_nestedList (M := M) levels
  have hmember : codec.memberDocument (Value.nestedList levels) = .ok tree := by
    cases levels <;> exact htree
  have hnull : (Value.nestedList levels : Value M).isNull = false := by cases levels <;> rfl
  refine ⟨_, encode_eq_ok_iff.mpr (.inr ⟨_, document_eq_ok_some_iff.mpr
    (collectionDocument_eq_ok_iff.mpr ⟨[tree], ?_, rfl⟩), rfl⟩)⟩
  rw [List.filter_cons_of_pos (by simpa using hnull), List.filter_nil]
  exact .cons hmember .nil

theorem documentNesting_nestedList (codec : Codec M) (kind : CollectionKind) (levels : Nat) :
    codec.documentNesting (.collection kind [Value.nestedList levels]) =
      levels + 1 + if codec.config.wrapCollections && kind ≠ .list then 2 else 1 := by
  have hmember : codec.memberNesting (Value.nestedList levels) = levels + 1 := by
    cases levels <;> exact Value.nesting_nestedList _
  have hnull : (Value.nestedList levels : Value M).isNull = false := by cases levels <;> rfl
  rw [documentNesting, List.filter_cons_of_pos (by simpa using hnull), List.filter_nil,
    List.map_singleton, List.foldr_cons, List.foldr_nil, hmember, Nat.max_zero]

theorem wellFormed_around_nestedList (kind : CollectionKind) (levels : Nat) :
    (Value.collection kind [Value.nestedList levels] : Value M).WellFormed := by
  refine Value.wellFormed_collection.mpr ⟨?_, by simpa using Value.wellFormed_nestedList levels⟩
  cases kind <;> simp [Collection.Proper]

-- What was written can be read exactly if it is not nested deeper than documents may be.
theorem decode_encode_iff_nesting_le (codec : Codec M) {value : Value M} {bytes : ByteArray}
    (hwrites : M.WritesDistinct) (hvalue : value.WellFormed)
    (h : codec.encode value = .ok bytes) :
    ((∃ back, codec.decode bytes = .ok back) ↔ codec.documentNesting value ≤ maxDepth) ∧
      ((∃ text, codec.decode bytes = .error (.malformed text)) ↔
        maxDepth < codec.documentNesting value) := by
  rcases encode_eq_ok_iff.mp h with ⟨rfl, rfl⟩ | ⟨tree, hdocument, rfl⟩
  · have hnull : codec.documentNesting .null = 0 := rfl
    rw [codec.decode_empty, hnull]
    simp
  · have hdistinct := distinct_document hwrites hvalue hdocument
    rw [← depth_document hdocument]
    by_cases hdepth : tree.depth ≤ maxDepth
    · rw [codec.decode_text hdistinct hdepth]
      simp [hdepth]
    · have hdeep := Nat.lt_of_not_le hdepth
      obtain ⟨text, herror⟩ := codec.decode_text_of_deep hdistinct hdeep
      rw [herror]
      simp [hdeep]

-- The wrapper makes the difference between what can be read and what cannot.
theorem decode_encode_iff_nesting_le_wrapped :
    (∃ bytes, (Switch.codec false).encode (.collection .linkedList [Value.nestedList 125]) =
        .ok bytes ∧ ∃ back, (Switch.codec false).decode bytes = .ok back) ∧
      ∃ bytes, (Switch.codec true).encode (.collection .linkedList [Value.nestedList 125]) =
        .ok bytes ∧ ∃ text, (Switch.codec true).decode bytes = .error (.malformed text) := by
  have hvalue : (Value.collection .linkedList [Value.nestedList 125] : Value Switch).WellFormed :=
    wellFormed_around_nestedList _ _
  obtain ⟨bytes, hbytes⟩ := (Switch.codec false).exists_encode_nestedList .linkedList 125
  obtain ⟨wrapped, hwrapped⟩ := (Switch.codec true).exists_encode_nestedList .linkedList 125
  refine ⟨⟨bytes, hbytes, ?_⟩, ⟨wrapped, hwrapped, ?_⟩⟩
  · refine (decode_encode_iff_nesting_le _ Switch.writesDistinct hvalue hbytes).1.mpr ?_
    rw [documentNesting_nestedList]
    decide
  · refine (decode_encode_iff_nesting_le _ Switch.writesDistinct hvalue hwrapped).2.mpr ?_
    rw [documentNesting_nestedList]
    decide

-- Not everything that is written can be read: nothing keeps lists from being nested too deep.
theorem decode_encode_too_deep :
    ¬∀ (codec : Codec Switch) (value : Value Switch) (bytes : ByteArray),
      codec.config.validate = .ok codec.config → value.WellFormed →
      codec.encode value = .ok bytes → ∃ back, codec.decode bytes = .ok back := by
  intro h
  have hvalue : (Value.collection .list [Value.nestedList 126] : Value Switch).WellFormed :=
    wellFormed_around_nestedList _ _
  obtain ⟨bytes, hbytes⟩ := (Switch.codec false).exists_encode_nestedList .list 126
  obtain ⟨back, hback⟩ := h (Switch.codec false) _ bytes rfl hvalue hbytes
  obtain ⟨tree, hdocument, rfl⟩ := (encode_eq_ok_iff.mp hbytes).resolve_left nofun
  have hdepth := (Switch.codec false).depth_le_of_decode_text
    (distinct_document Switch.writesDistinct hvalue hdocument) hback
  rw [depth_document hdocument, documentNesting_nestedList] at hdepth
  exact absurd hdepth (by decide)

end Codec

end TaggedCache
