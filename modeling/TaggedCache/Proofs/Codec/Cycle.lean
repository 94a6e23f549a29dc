import TaggedCache.Proofs.Codec.Settled

namespace TaggedCache

open Json

variable {M : ObjectModel}

namespace Codec

-- The same codec without wrappers
def unwrapped (codec : Codec M) : Codec M :=
  { codec with config := { codec.config with wrapCollections := false } }

-- An object that was read from some fields writes itself as fields that are nested no deeper,
-- have no tags among them and are read as an equal object.
structure Rewrites (codec : Codec M) (object : Object M) (source fields : List (String × Tree)) :
    Prop where
  read : M.materialize object.type (.object source) = .ok object
  toTree : object.toTree = .ok (.object fields)
  depth_le : (Tree.object fields).depth ≤ (Tree.object source).depth
  lacksField : (Tree.object fields).Every (Tree.LacksField codec.config.discriminator)
  headless : (Tree.object fields).Every codec.Headless
  readsBack : ∃ again, M.materialize object.type (.object fields) = .ok again ∧
    (Value.object again).equal (.object object)

-- A value as it is built, whose own names are no discriminators and no names of map kinds
structure Clear (codec : Codec M) (value : Value M) : Prop where
  wellFormed : value.WellFormed
  lacksName : value.LacksName codec.config.discriminator
  names : ∀ object ∈ value.objects, ∀ kind,
    codec.registry.resolve (codec.registry.nameOf object) ≠ some (.container (.map kind))

theorem type_of_materialize {type : M.Ty} {tree : Tree} {object : Object M}
    (h : M.materialize type tree = .ok object) : object.type = type := by
  rw [ObjectModel.materialize] at h
  split at h
  · cases h
    rfl
  · contradiction

-- Fields become an object of the type that their name stands for, or a map.
theorem restoredFields_cases {codec : Codec M} {name : String} (fields : List (String × Tree))
    (hname : ∀ kind, codec.registry.resolve name ≠ some (.container (.map kind))) :
    (∃ object, codec.restoredFields name fields = .object object ∧
        codec.registry.resolve name = some (.object object.type)) ∨
      codec.restoredFields name fields = .map .unordered (Value.ofFields fields) := by
  unfold restoredFields
  split
  · rename_i type hresolve
    split
    · rename_i object hread
      exact .inl ⟨object, rfl, type_of_materialize hread ▸ hresolve⟩
    · exact .inr rfl
  · rename_i kind hresolve
    exact absurd hresolve (hname kind)
  · exact .inr rfl

-- Whatever a member comes back as, it is settled if it is no object.
theorem settledMember_restored {codec : Codec M} {member : Value M} {tree : Tree} {limit : Nat}
    (hwrites : M.WritesDistinct) (hmember : codec.Clear member) (hnull : member.isNull = false)
    (h : codec.memberDocument member = .ok tree)
    (hheadless : tree.Every codec.Headless) (hdepth : tree.depth ≤ limit)
    (hobject : ∀ name object, codec.restoredMember member = .object object →
      codec.registry.resolve name = some (.object object.type) → codec.SettledObject limit object) :
    codec.SettledMember limit (codec.restoredMember member) := by
  obtain ⟨hmember, hlacks, hnames⟩ := hmember
  cases member with
  | null => contradiction
  | object object =>
      obtain ⟨fields, htree, rfl⟩ := objectDocument_eq_ok_iff.mp h
      have huntagged := untagged_fields hwrites hmember hlacks htree hheadless
      rw [depth_tagged _ (Untagged.object_iff.mp huntagged).2.1] at hdepth
      have hmem : object ∈ (Value.object object).objects := List.mem_cons_self
      simp only [restoredMember, restoredObject, htree] at hobject ⊢
      rcases restoredFields_cases fields (hnames object hmem) with ⟨back, hback, hname⟩ | hback
      · rw [hback]
        exact hobject _ back hback hname
      · rw [hback]
        exact settledMember_fields huntagged hdepth
  | map kind entries =>
      obtain ⟨fields, htree, rfl⟩ := memberDocument_map.mp h
      have huntagged := untagged_fields hwrites hmember hlacks htree hheadless
      rw [depth_tagged _ (Untagged.object_iff.mp huntagged).2.1] at hdepth
      exact ⟨proper_plainEntries (Value.wellFormed_map.mp hmember).1, fields,
        ofFields_of_toTree htree, huntagged, hdepth⟩
  | scalar | collection =>
      have huntagged := untagged_of_toTree hwrites hmember hlacks h hheadless
      exact ⟨tree, Value.ofTree_of_toTree h, huntagged, hdepth⟩

theorem Clear.member {codec : Codec M} {kind : CollectionKind} {items : List (Value M)}
    (h : codec.Clear (.collection kind items)) {item : Value M} (hitem : item ∈ items) :
    codec.Clear item := by
  refine ⟨(Value.wellFormed_collection.mp h.wellFormed).2 item hitem,
    Value.lacksName_collection.mp h.lacksName item hitem, fun object hobject => ?_⟩
  refine h.names object (Value.mem_objects.mpr
    (Value.mem_nodes_collection.mpr (.inr ⟨item, hitem, ?_⟩)))
  exact Value.mem_objects.mp hobject

theorem settledObject_of_rewrites {codec : Codec M} {object : Object M}
    {source fields : List (String × Tree)} {name : String} {limit : Nat}
    (hregistry : codec.registry.Consistent) (hwrites : M.WritesDistinct)
    (h : codec.Rewrites object source fields)
    (hname : codec.registry.resolve name = some (.object object.type))
    (hdepth : (Tree.object source).depth ≤ limit) : codec.SettledObject limit object := by
  obtain ⟨again, hagain, hequal⟩ := h.readsBack
  exact ⟨hregistry.nameOf name object hname, fields, again, h.toTree,
    ⟨Object.distinct_of_toTree hwrites h.toTree, h.lacksField, h.headless⟩,
    h.depth_le.trans hdepth, hagain, Value.equal_iff.mp hequal⟩

@[simp] theorem unwrapped_memberDocument (codec : Codec M) (member : Value M) :
    codec.unwrapped.memberDocument member = codec.memberDocument member := by
  cases member <;> rfl

-- What a document was read as is what its tree is decoded to.
theorem decodeTree_of_decode {codec : Codec M} {value back : Value M} {tree : Tree}
    (h : codec.document value = .ok (some tree)) (hdistinct : tree.Distinct)
    (hback : (codec.encode value >>= codec.decode) = .ok back) :
    tree.depth ≤ maxDepth ∧ codec.decodeTree false tree = back := by
  have hencode : codec.encode value = .ok tree.text.toUTF8 := by rw [encode, encodeText, h]; rfl
  have hdecode : codec.decode tree.text.toUTF8 = .ok back := by rwa [hencode] at hback
  have hdepth := codec.depth_le_of_decode_text hdistinct hdecode
  rw [codec.decode_text hdistinct hdepth] at hdecode
  exact ⟨hdepth, Except.ok.inj hdecode⟩

-- What was written of the members of a collection, and what they come back as
theorem settled_members {codec : Codec M} {kind : CollectionKind} {items : List (Value M)}
    {trees : List Tree} {limit : Nat} (hregistry : codec.registry.Consistent)
    (hwrites : M.WritesDistinct) (hclear : codec.Clear (.collection kind items))
    (htrees : List.Forall₂ (fun item tree => codec.memberDocument item = .ok tree)
      (items.filter (!·.isNull)) trees)
    (hheadless : ∀ tree ∈ trees, tree.Every codec.Headless)
    (hdepth : ∀ tree ∈ trees, tree.depth ≤ limit) {member : Value M}
    (hmember : member ∈ (items.filter (!·.isNull)).map codec.restoredMember)
    (hobjects : ∀ object, member = .object object → ∃ source fields,
      .object source ∈ (Tree.array trees).nodes ∧
        codec.Rewrites object (Assoc.erase codec.config.discriminator source) fields) :
    codec.SettledMember limit member := by
  obtain ⟨item, hitem, rfl⟩ := List.mem_map.mp hmember
  obtain ⟨tree, htree, hwritten⟩ := exists_right_of_mem htrees hitem
  obtain ⟨hmem, hnull⟩ := List.mem_filter.mp hitem
  refine settledMember_restored hwrites (hclear.member hmem) (by simpa using hnull) hwritten
    (hheadless tree htree) (hdepth tree htree) fun name object hobject hname => ?_
  obtain ⟨source, fields, hnode, hrewrites⟩ := hobjects object hobject
  refine settledObject_of_rewrites hregistry hwrites hrewrites hname ?_
  obtain ⟨part, hpart, hinside⟩ : ∃ part ∈ trees, .object source ∈ part.nodes := by
    simpa [Tree.nodes, Tree.mem_nodesOfItems] using hnode
  exact (Tree.depth_erase_le _ source).trans
    ((part.every_depth_le _ hinside).trans (hdepth part hpart))

-- A string that a member comes back as was written as such.
theorem tree_of_restored_string {codec : Codec M} {member : Value M} {tree : Tree} {name : String}
    (h : codec.memberDocument member = .ok tree)
    (hrestored : codec.restoredMember member = .scalar (.string name)) : tree = .string name := by
  cases member with
  | null | map | collection => cases hrestored
  | object object =>
      obtain ⟨fields, htree, -⟩ := objectDocument_eq_ok_iff.mp h
      simp only [restoredMember, restoredObject, htree, restoredFields] at hrestored
      split at hrestored
      · split at hrestored <;> cases hrestored
      · cases hrestored
      · cases hrestored
  | scalar value =>
      have htree : value.toTree = .ok tree := h
      have hback := Scalar.ofTree_of_toTree (M := M) htree
      exact Value.eq_string_of_ofTree (hback.trans hrestored)

theorem not_announces_restored {codec : Codec M} {items : List (Value M)} {trees : List Tree}
    (htrees : List.Forall₂ (fun item tree => codec.memberDocument item = .ok tree) items trees)
    (hheadless : codec.Headless (.array trees)) :
    ¬codec.Announces false (items.map codec.restoredMember) := by
  intro hannounces
  unfold Announces at hannounces
  split at hannounces
  · rename_i name kind inner hrestored
    obtain ⟨collectionKind, hname⟩ := hannounces
    obtain ⟨first, others, rfl, hfirst, hothers⟩ := List.map_eq_cons_iff.mp hrestored
    obtain ⟨second, others, rfl, -, hnil⟩ := List.map_eq_cons_iff.mp hothers
    cases List.map_eq_nil_iff.mp hnil
    obtain ⟨tree, rest, hwritten, hrest, rfl⟩ := List.forall₂_cons_left_iff.mp htrees
    obtain ⟨secondTree, rest, -, hend, rfl⟩ := List.forall₂_cons_left_iff.mp hrest
    cases List.forall₂_nil_left_iff.mp hend
    cases tree_of_restored_string hwritten hfirst
    rw [hheadless name rfl] at hname
    contradiction
  · cases hannounces.1
  · exact hannounces

theorem settled_wrapper {codec : Codec M} {kind : CollectionKind} {items : List (Value M)}
    (hkind : kind ≠ .list) (hwrap : codec.config.wrapCollections = true)
    (hproper : Collection.Proper ⟨kind, items⟩)
    (h : ∀ item ∈ items, codec.SettledMember (maxDepth - 2) item) :
    codec.Settled (.collection kind items) := by
  cases kind with
  | list => exact absurd rfl hkind
  | linkedList | unorderedSet | orderedSet | sortedSet => exact ⟨hwrap, hproper, h⟩

-- A value that is written as its plain tree
theorem decode_plain {codec : Codec M} {value y : Value M} {tree : Tree}
    (hwrites : M.WritesDistinct) (hclear : codec.Clear value)
    (hdocument : codec.document value = .ok (some tree)) (htree : value.toTree = .ok tree)
    (hheadless : tree.Every codec.Headless) (hy : (codec.encode value >>= codec.decode) = .ok y) :
    value.plain = y ∧ ∃ tree, Value.ofTree tree = value.plain ∧ codec.Untagged tree ∧
      tree.depth ≤ maxDepth := by
  have huntagged := untagged_of_toTree hwrites hclear.wellFormed hclear.lacksName htree hheadless
  obtain ⟨hdepth, hback⟩ := decodeTree_of_decode hdocument huntagged.distinct hy
  have hplain := Value.ofTree_of_toTree htree
  rw [decodeTree_untagged huntagged, hplain] at hback
  exact ⟨hback, tree, hplain, huntagged, hdepth⟩

theorem settled_of_decode_object {codec : Codec M} {object : Object M} {y : Value M}
    {fields : List (String × Tree)} (hregistry : codec.registry.Consistent)
    (hwrites : M.WritesDistinct) (hclear : codec.Clear (.object object))
    (hwritten : object.toTree = .ok (.object fields))
    (hheadless : (codec.tagged (codec.registry.nameOf object) fields).Every codec.Headless)
    (hy : (codec.encode (.object object) >>= codec.decode) = .ok y)
    (hobjects : ∀ object' ∈ y.objects, ∃ source fields',
      .object source ∈ (codec.tagged (codec.registry.nameOf object) fields).nodes ∧
        codec.Rewrites object' (Assoc.erase codec.config.discriminator source) fields') :
    codec.Settled y := by
  have huntagged :=
    untagged_fields hwrites hclear.wellFormed hclear.lacksName hwritten hheadless
  have hlacks := (Untagged.object_iff.mp huntagged).2.1
  obtain ⟨hdepth, rfl⟩ := decodeTree_of_decode
    (document_eq_ok_some_iff.mpr (objectDocument_eq_ok_iff.mpr ⟨fields, hwritten, rfl⟩))
    (distinct_tagged _ hlacks huntagged.distinct) hy
  rw [codec.decodeTree_tagged hlacks, fieldsAs_untagged huntagged] at hobjects ⊢
  have hmem : object ∈ (Value.object object).objects := List.mem_cons_self
  rcases restoredFields_cases fields (hclear.names object hmem) with ⟨back, hback, hname⟩ | hback
  · rw [hback] at hobjects ⊢
    obtain ⟨source, again, hnode, hrewrites⟩ := hobjects back List.mem_cons_self
    refine settledObject_of_rewrites hregistry hwrites hrewrites hname ?_
    exact (Tree.depth_erase_le _ source).trans ((Tree.every_depth_le _ _ hnode).trans hdepth)
  · rw [hback]
    rw [depth_tagged _ hlacks] at hdepth
    exact ⟨.object fields, rfl, huntagged, hdepth⟩

theorem settled_of_decode_collection {codec : Codec M} {kind : CollectionKind}
    {items : List (Value M)} {y : Value M} {tree : Tree}
    (hregistry : codec.registry.Consistent) (hwrites : M.WritesDistinct)
    (hclear : codec.Clear (.collection kind items))
    (hdocument : codec.unwrapped.collectionDocument kind items = .ok tree)
    (hheadless : tree.Every codec.Headless)
    (hy : (codec.encode (.collection kind items) >>= codec.decode) = .ok y)
    (hobjects : ∀ object ∈ y.objects, ∃ source fields, .object source ∈ tree.nodes ∧
      codec.Rewrites object (Assoc.erase codec.config.discriminator source) fields) :
    codec.Settled y := by
  obtain ⟨trees, htrees, rfl⟩ := collectionDocument_eq_ok_iff.mp hdocument
  simp only [unwrapped_memberDocument] at htrees
  obtain ⟨hpair, hparts⟩ := Tree.every_array.mp hheadless
  obtain ⟨hdistinct, hdecoded⟩ := decodeTree_members hwrites
    (fun kind => hregistry.wireName (.map kind)) hclear.wellFormed hclear.lacksName htrees hparts
  have hsettled {limit : Nat} (hdepth : ∀ tree ∈ trees, tree.depth ≤ limit) {member : Value M}
      (hrestored : member ∈ trees.map (codec.decodeTree true)) (hinside : member.nodes ⊆ y.nodes) :
      codec.SettledMember limit member := by
    refine settled_members hregistry hwrites hclear htrees hparts hdepth (hdecoded ▸ hrestored) ?_
    rintro object rfl
    exact hobjects object (Value.mem_objects.mpr (hinside List.mem_cons_self))
  by_cases hwrap : codec.config.wrapCollections = true ∧ kind ≠ .list
  · have hfull : codec.document (.collection kind items) =
        .ok (some (.array [.string kind.wireName, .array trees])) :=
      document_eq_ok_some_iff.mpr (collectionDocument_eq_ok_iff.mpr
        ⟨trees, htrees, by simp [hwrap.1, hwrap.2]⟩)
    have hname : codec.registry.resolve kind.wireName = some (.container (.collection kind)) :=
      hregistry.wireName (.collection kind)
    obtain ⟨hdepth, hback⟩ := decodeTree_of_decode hfull (distinct_wrapper _ hdistinct) hy
    rw [Tree.depth_pair] at hdepth
    rw [decodeTree_wrapper hname, Collection.toValue] at hback
    subst hback
    refine settled_wrapper (by rw [Collection.ofList_kind]; exact hwrap.2) hwrap.1
      (Collection.proper_ofList _ _) fun member hmember => hsettled ?_
        (Collection.mem_of_mem_ofList hmember) ?_
    · exact Tree.depth_array_le.mp (Nat.le_of_succ_le_succ hdepth)
    · exact fun node hnode => Value.mem_nodes_collection.mpr (.inr ⟨member, hmember, hnode⟩)
  · have hfull : codec.document (.collection kind items) = .ok (some (.array trees)) :=
      document_eq_ok_some_iff.mpr (collectionDocument_eq_ok_iff.mpr
        ⟨trees, htrees, if_neg (by simpa using hwrap)⟩)
    obtain ⟨hdepth, hback⟩ := decodeTree_of_decode hfull hdistinct hy
    rw [decodeTree_array (heading?_of_headless hpair false)] at hback
    subst hback
    refine ⟨hdecoded ▸ not_announces_restored htrees hpair, fun member hmember => ?_⟩
    refine hsettled (Tree.depth_array_le.mp hdepth) hmember fun node hnode => ?_
    exact Value.mem_nodes_collection.mpr (.inr ⟨member, hmember, hnode⟩)

-- What comes back from a document is settled.
theorem settled_of_decode {codec : Codec M} {x y : Value M} {document : Option Tree}
    (hregistry : codec.registry.Consistent) (hwrites : M.WritesDistinct) (hclear : codec.Clear x)
    (hdocument : codec.unwrapped.document x = .ok document)
    (hheadless : ∀ tree ∈ document, tree.Every codec.Headless)
    (hy : (codec.encode x >>= codec.decode) = .ok y)
    (hobjects : ∀ object ∈ y.objects, ∃ tree ∈ document, ∃ source fields,
      .object source ∈ tree.nodes ∧
        codec.Rewrites object (Assoc.erase codec.config.discriminator source) fields) :
    codec.Settled y := by
  cases document with
  | none =>
      cases eq_null_of_document hdocument
      rw [encode_null_bind_decode] at hy
      cases hy
      exact ⟨.null, rfl, .of_isLeaf trivial, Nat.zero_le _⟩
  | some tree =>
      have htree := document_eq_ok_some_iff.mp hdocument
      have hheadless := hheadless tree rfl
      have hobjects : ∀ object ∈ y.objects, ∃ source fields, .object source ∈ tree.nodes ∧
          codec.Rewrites object (Assoc.erase codec.config.discriminator source) fields := by
        intro object hobject
        obtain ⟨_, ⟨⟩, hsource⟩ := hobjects object hobject
        exact hsource
      cases x with
      | null => exact htree.elim
      | collection kind items =>
          exact settled_of_decode_collection hregistry hwrites hclear htree hheadless hy hobjects
      | object object =>
          obtain ⟨fields, hwritten, rfl⟩ := objectDocument_eq_ok_iff.mp htree
          exact settled_of_decode_object hregistry hwrites hclear hwritten hheadless hy hobjects
      | scalar value =>
          obtain ⟨rfl, hplain⟩ := decode_plain hwrites hclear hdocument htree hheadless hy
          exact hplain
      | map kind entries =>
          obtain ⟨rfl, hplain⟩ := decode_plain hwrites hclear hdocument htree hheadless hy
          exact hplain

-- After one cycle a value has settled: from then on it comes back as an equal one, whatever the
-- order in which its hash containers yield their members.
theorem decode_encode_again (codec : Codec M) {x y other : Value M} {document : Option Tree}
    (hregistry : codec.registry.Consistent) (hwrites : M.WritesDistinct) (hclear : codec.Clear x)
    (hdocument : codec.unwrapped.document x = .ok document)
    (hheadless : ∀ tree ∈ document, tree.Every codec.Headless)
    (hy : (codec.encode x >>= codec.decode) = .ok y)
    (hobjects : ∀ object ∈ y.objects, ∃ tree ∈ document, ∃ source fields,
      .object source ∈ tree.nodes ∧
        codec.Rewrites object (Assoc.erase codec.config.discriminator source) fields)
    (horder : y.Reorders other) :
    ∃ z, (codec.encode other >>= codec.decode) = .ok z ∧ z.equal y := by
  have hsettled := settled_of_decode hregistry hwrites hclear hdocument hheadless hy hobjects
  obtain ⟨hother, heq⟩ := settled_of_reorders horder hsettled
  obtain ⟨z, hz, harranged⟩ := exists_decode_encode_of_settled hregistry hother
  exact ⟨z, hz, Value.equal_iff.mpr (harranged.trans heq.symm)⟩

theorem decode_encode_again_switches :
    ∃ z, ((Switch.codec true).encode (.collection .linkedList
        [.object ⟨(), true⟩, .map .concurrent [("b", .null), ("a", .scalar (.bool true))]]) >>=
          (Switch.codec true).decode) = .ok z ∧
      z.equal (.collection .linkedList
        [.object ⟨(), true⟩, .map .concurrent [("a", .scalar (.bool true)), ("b", .null)]]) := by
  let x : Value Switch := .collection .linkedList
    [.object ⟨(), true⟩, .null, .map .concurrent [("a", .scalar (.bool true)), ("b", .null)]]
  let y : Value Switch := .collection .linkedList
    [.object ⟨(), true⟩, .map .concurrent [("a", .scalar (.bool true)), ("b", .null)]]
  let object : Tree := (Switch.codec true).tagged "demo.Switch" [("on", .bool true)]
  let map : Tree := (Switch.codec true).tagged MapKind.concurrent.wireName
    [("a", .bool true), ("b", .null)]
  let document : Tree := .array [object, map]
  have hname : Switch.registry.resolve "demo.Switch" = some (.object ()) := by decide +kernel
  have hregistry : Switch.registry.Consistent := by
    refine Registry.consistent_ofPlan Switch.resolve_wireName fun type name hcanonical => ?_
    cases hcanonical
    exact hname
  have hclear : (Switch.codec true).Clear x := by
    refine ⟨?_, ?_, fun object _ kind hmap => ?_⟩
    · simp [x, Collection.Proper, Keyed.Proper, Keyed.keys]
    · simp [x, Switch.lacksName]
    · cases hname.symm.trans hmap
  have hwrapped : (Switch.codec true).document x =
      .ok (some (.array [.string CollectionKind.linkedList.wireName, document])) := rfl
  have hobject : (Switch.codec true).decodeTree true object = .object ⟨(), true⟩ := by
    rw [decodeTree_tagged _ (by decide), Switch.codec_registry, hname]
    rfl
  have hmap : (Switch.codec true).decodeTree true map =
      .map .concurrent [("a", .scalar (.bool true)), ("b", .null)] := by
    have hkind : Switch.registry.resolve MapKind.concurrent.wireName =
        some (.container (.map .concurrent)) := Switch.resolve_wireName (.map .concurrent)
    rw [decodeTree_tagged _ (by decide), Switch.codec_registry, hkind]
    rfl
  have hy : ((Switch.codec true).encode x >>= (Switch.codec true).decode) = .ok y := by
    rw [encode_bind_decode hwrapped (by decide) (by decide),
      decodeTree_wrapper (Switch.resolve_wireName (.collection .linkedList)), List.map_cons,
      List.map_singleton, hobject, hmap]
    rfl
  have hrewrites : (Switch.codec true).Rewrites ⟨(), true⟩ [("on", .bool true)]
      [("on", .bool true)] :=
    ⟨rfl, rfl, Nat.le_refl _, by decide, by decide, ⟨(), true⟩, rfl, Value.equal_iff.mpr rfl⟩
  refine decode_encode_again (Switch.codec true) hregistry Switch.writesDistinct hclear
    (show (Switch.codec true).unwrapped.document x = .ok (some document) from rfl) ?_ hy
    (fun object hobject => ?_) ?_
  · rintro tree ⟨⟩
    decide +kernel
  · have honly : object = ⟨(), true⟩ := List.mem_singleton.mp hobject
    subst honly
    exact ⟨document, rfl, _, _, List.mem_cons_of_mem _ List.mem_cons_self, hrewrites⟩
  · have hentries : (Value.map .concurrent [("a", .scalar (.bool true)), ("b", .null)] :
        Value Switch).Reorder (.map .concurrent [("b", .null), ("a", .scalar (.bool true))]) :=
      .entries rfl (List.Perm.swap _ _ _)
    exact .single (@Value.Reorder.member Switch .linkedList [.object ⟨(), true⟩] [] _ _ hentries)

end Codec

end TaggedCache
