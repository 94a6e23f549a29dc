import TaggedCache.Proofs.Codec.RoundTrip

namespace TaggedCache

open Json

variable {M : ObjectModel}

namespace Codec

theorem depth_fieldsAs_le {codec : Codec M} {handle : Option (TypeHandle M)}
    {fields : List (String × Tree)}
    (h : ∀ field ∈ fields, (codec.decodeTree false field.2).depth ≤ field.2.depth) :
    (codec.fieldsAs handle fields).depth ≤ (Tree.object fields).depth := by
  rcases codec.fieldsAs_cases handle fields with ⟨object, hobject⟩ | ⟨kind, hmap⟩
  · rw [hobject]
    exact Nat.zero_le _
  · rw [hmap, Tree.depth, Value.depth_map_le]
    intro entry hentry
    have hmem := Keyed.mem_of_mem_ofList hentry
    rw [decodeFields_eq] at hmem
    obtain ⟨field, hfield, rfl⟩ := List.mem_map.mp hmem
    exact (h field hfield).trans (Tree.depthOfFields_le.mp (Nat.le_refl _) field hfield)

-- Decoding nests nothing deeper.
theorem depth_decodeTree_le (codec : Codec M) (isItem : Bool) (tree : Tree) :
    (codec.decodeTree isItem tree).depth ≤ tree.depth := by
  induction isItem, tree using codec.decodeTree_induct with
  | leaf isItem tree hleaf =>
      rw [codec.decodeTree_leaf isItem hleaf]
      cases tree <;> first | exact Nat.zero_le _ | exact hleaf.elim
  | list isItem items hheading ih =>
      rw [decodeTree_array hheading, Tree.depth, Value.depth_collection_le, List.forall_mem_map]
      exact fun item hitem =>
        (ih item hitem).trans (Tree.depthOfItems_le.mp (Nat.le_refl _) item hitem)
  | wrapper isItem name kind inner hname ih =>
      rw [decodeTree_wrapper hname, Tree.depth_pair, Tree.depth, Collection.toValue]
      refine Nat.le_succ_of_le (Value.depth_collection_le.mpr fun member hmember => ?_)
      obtain ⟨item, hitem, rfl⟩ := List.mem_map.mp (Collection.mem_of_mem_ofList hmember)
      exact (ih item hitem).trans (Tree.depthOfItems_le.mp (Nat.le_refl _) item hitem)
  | pair name handle fields hname htakes ih =>
      rw [decodeTree_pair hname htakes, Tree.depth_pair]
      exact Nat.le_succ_of_le (depth_fieldsAs_le ih)
  | object isItem fields ih =>
      rw [decodeTree_object]
      refine Nat.le_trans (depth_fieldsAs_le fun field hfield => ?_) (Tree.depth_erase_le _ fields)
      exact ih field (Assoc.erase_subset _ fields hfield)

end Codec

namespace Value

-- Leaves that come back as they are, lists and unordered maps
def DataNode : Value M → Prop
  | null => True
  | scalar (.uint value) => 0x8000000000000000 ≤ value.toNat
  | scalar (.float value) => value.isFinite = true
  | scalar _ => True
  | object _ => False
  | collection kind _ => kind = .list
  | map kind _ => kind = .unordered

-- A value without types of its own
def IsData (value : Value M) : Prop := value.Every DataNode

instance : DecidablePred (DataNode (M := M))
  | null | scalar (.bool _) | scalar (.int _) | scalar (.string _) => .isTrue trivial
  | object _ => .isFalse id
  | scalar (.uint value) => inferInstanceAs (Decidable (0x8000000000000000 ≤ value.toNat))
  | scalar (.float value) => inferInstanceAs (Decidable (value.isFinite = true))
  | collection kind _ => inferInstanceAs (Decidable (kind = .list))
  | map kind _ => inferInstanceAs (Decidable (kind = .unordered))

instance (value : Value M) : Decidable value.IsData :=
  inferInstanceAs (Decidable (∀ node ∈ value.nodes, node.DataNode))

theorem isData_collection {kind : CollectionKind} {items : List (Value M)} :
    (collection kind items).IsData ↔ kind = .list ∧ ∀ item ∈ items, item.IsData :=
  every_collection

theorem isData_map {kind : MapKind} {entries : List (String × Value M)} :
    (map kind entries).IsData ↔ kind = .unordered ∧ ∀ entry ∈ entries, entry.2.IsData := every_map

theorem exists_toTree_of_scalar {value : Scalar} (h : (scalar value : Value M).IsData) :
    ∃ tree, value.toTree = .ok tree ∧ value.normal = value := by
  have hnode := every_scalar.mp h
  cases value with
  | uint value =>
      refine ⟨_, rfl, ?_⟩
      have hlarge : ¬value.toNat < 0x8000000000000000 := Nat.not_lt.mpr hnode
      rw [Scalar.normal, Scalar.ofUInt64, if_neg hlarge]
  | float value =>
      have hfinite : value.isFinite = true := hnode
      exact ⟨.number (.double value hfinite),
        by simp [Scalar.toTree, Json.Number.ofDouble?, hfinite], rfl⟩
  | bool value | int value | string value => exact ⟨_, rfl, rfl⟩

-- Data is what its tree holds.
theorem exists_ofTree_of_isData {value : Value M} (h : value.IsData) :
    ∃ tree, value.toTree = .ok tree ∧ ofTree tree = value := by
  induction value with
  | null => exact ⟨.null, rfl, rfl⟩
  | object value => exact (every_object.mp h).elim
  | scalar value =>
      obtain ⟨tree, htree, hnormal⟩ := exists_toTree_of_scalar h
      exact ⟨tree, htree, by rw [Scalar.ofTree_of_toTree htree, hnormal]⟩
  | collection kind items ih =>
      obtain ⟨rfl, hitems⟩ := isData_collection.mp h
      obtain ⟨trees, htrees⟩ := exists_forall₂ fun item hitem => ih item hitem (hitems item hitem)
      refine ⟨.array trees, toTree_collection.mpr ⟨trees, htrees.imp fun _ _ hr => hr.1, rfl⟩, ?_⟩
      rw [ofTree, ofItems_eq, eq_map_of_forall₂ htrees fun _ _ hr => hr.2]
  | map kind entries ih =>
      obtain ⟨rfl, hentries⟩ := isData_map.mp h
      have hexists : ∀ entry ∈ entries, ∃ field : String × Tree,
          (entry.1 = field.1 ∧ entry.2.toTree = .ok field.2) ∧ ofTree field.2 = entry.2 := by
        intro entry hentry
        obtain ⟨tree, htree, hback⟩ := ih entry hentry (hentries entry hentry)
        exact ⟨(entry.1, tree), ⟨rfl, htree⟩, hback⟩
      obtain ⟨fields, hfields⟩ := exists_forall₂ hexists
      refine ⟨.object fields, toTree_map.mpr ⟨fields, hfields.imp fun _ _ hr => hr.1, rfl⟩, ?_⟩
      rw [ofTree, ofFields_eq, eq_map_of_forall₂ hfields fun entry field hr =>
        Prod.ext hr.1.1.symm hr.2]

end Value

namespace Codec

-- A list starts with a string that names its second member: the name of a collection kind in
-- front of a collection or, in a list that is itself a member of one, the name of a type or
-- a map kind in front of a map.
def Announces (codec : Codec M) (isMember : Bool) : List (Value M) → Prop
  | [.scalar (.string name), .collection _ _] =>
      ∃ kind, codec.registry.resolve name = some (.container (.collection kind))
  | [.scalar (.string name), .map _ _] =>
      isMember = true ∧ ∃ handle, codec.registry.resolve name = some handle ∧ handle.TakesFields
  | _ => False

-- Somewhere in a value a list announces its second member.
inductive Ambiguous (codec : Codec M) : Bool → Value M → Prop
  | announced {isMember : Bool} {kind : CollectionKind} {items : List (Value M)} :
      codec.Announces isMember items → Ambiguous codec isMember (.collection kind items)
  | member {isMember : Bool} {kind : CollectionKind} {items : List (Value M)} {item : Value M} :
      item ∈ items → Ambiguous codec true item → Ambiguous codec isMember (.collection kind items)
  | entry {isMember : Bool} {kind : MapKind} {entries : List (String × Value M)}
      {entry : String × Value M} :
      entry ∈ entries → Ambiguous codec false entry.2 → Ambiguous codec isMember (.map kind entries)

theorem ambiguous_collection {codec : Codec M} {isMember : Bool} {kind : CollectionKind}
    {items : List (Value M)} :
    codec.Ambiguous isMember (.collection kind items) ↔
      codec.Announces isMember items ∨ ∃ item ∈ items, codec.Ambiguous true item := by
  constructor
  · rintro (h | ⟨hitem, h⟩)
    · exact .inl h
    · exact .inr ⟨_, hitem, h⟩
  · rintro (h | ⟨item, hitem, h⟩)
    · exact .announced h
    · exact .member hitem h

theorem ambiguous_map {codec : Codec M} {isMember : Bool} {kind : MapKind}
    {entries : List (String × Value M)} :
    codec.Ambiguous isMember (.map kind entries) ↔
      ∃ entry ∈ entries, codec.Ambiguous false entry.2 :=
  ⟨fun | .entry hentry h => ⟨_, hentry, h⟩, fun ⟨_, hentry, h⟩ => .entry hentry h⟩

theorem not_ambiguous_leaf {codec : Codec M} {isMember : Bool} {tree : Tree} (h : tree.IsLeaf) :
    ¬codec.Ambiguous isMember (Value.ofTree tree) := by
  intro hambiguous
  cases tree <;> first | exact h.elim | (rw [Value.ofTree] at hambiguous; cases hambiguous)

-- An array has a heading exactly if the list it holds announces its second member.
theorem announces_iff {codec : Codec M} {isMember : Bool} {items : List Tree} :
    codec.Announces isMember (items.map Value.ofTree) ↔ codec.heading? isMember items ≠ none := by
  rcases items with _ | ⟨first, _ | ⟨second, _ | ⟨third, rest⟩⟩⟩
  · simp [Announces, heading?]
  · simp [Announces, heading?]
  · cases first with
    | string name =>
        cases second with
        | array inner =>
            rcases hname : codec.registry.resolve name with _ | (type | (kind | kind)) <;>
              simp [Announces, heading?, Value.ofTree, hname]
        | object fields =>
            rcases hname : codec.registry.resolve name with _ | (type | (kind | kind)) <;>
              cases isMember <;>
              simp [Announces, heading?, Value.ofTree, hname, TypeHandle.TakesFields]
        | null | bool value | number value | string value =>
            simp [Announces, heading?, Value.ofTree]
    | number value =>
        cases hscalar : Scalar.ofNumber value with
        | string name => exact absurd hscalar (Scalar.ofNumber_ne_string value name)
        | bool | int | uint | float =>
            cases second <;> simp [Announces, heading?, Value.ofTree, hscalar]
    | null | bool value | array inner | object fields =>
        cases second <;> simp [Announces, heading?, Value.ofTree]
  · simp [Announces, heading?]

-- Fields under a name come back as something other than an unordered map.
def Mistakes (handle : Option (TypeHandle M)) (fields : List (String × Tree)) : Prop :=
  match handle with
  | some (.object type) => ∃ object, M.materialize type (.object fields) = .ok object
  | some (.container (.map kind)) => kind ≠ .unordered
  | _ => False

theorem ofList_unordered_eq_iff {codec : Codec M} {fields : List (String × Tree)}
    (hnames : (Assoc.keys fields).Nodup) :
    (Keyed.ofList .unordered (codec.decodeFields fields)).toValue =
        .map .unordered (Value.ofFields fields) ↔
      ∀ field ∈ fields, codec.decodeTree false field.2 = Value.ofTree field.2 := by
  rw [toValue_unordered (codec.keys_decodeFields fields ▸ hnames), decodeFields_eq,
    Value.ofFields_eq, Value.map.injEq, List.map_inj_left]
  simp

theorem fieldsAs_eq_iff {codec : Codec M} {handle : Option (TypeHandle M)}
    {fields : List (String × Tree)} (hnames : (Assoc.keys fields).Nodup) :
    codec.fieldsAs handle fields = .map .unordered (Value.ofFields fields) ↔
      ¬Mistakes handle fields ∧
        ∀ field ∈ fields, codec.decodeTree false field.2 = Value.ofTree field.2 := by
  unfold fieldsAs Mistakes
  split
  · rename_i type
    rw [materialized]
    split
    · rename_i object hobject
      simp [hobject]
    · rename_i e herror
      rw [ofList_unordered_eq_iff hnames]
      simp [herror]
  · rename_i kind
    by_cases hkind : kind = .unordered
    · subst hkind
      simp [ofList_unordered_eq_iff hnames]
    · have hne (entries : List (String × Value M)) :
          (Keyed.ofList kind entries).toValue ≠ .map .unordered (Value.ofFields fields) := by
        rw [Keyed.toValue, Keyed.ofList_kind]
        simp [hkind]
      simp [hkind, hne]
  · simp [ofList_unordered_eq_iff hnames]

-- What a heading announces is not the list it stands in. If it announces a list, that list
-- is nested less deeply.
theorem decodeTree_ne_of_heading {codec : Codec M} {isItem : Bool} {items : List Tree}
    (h : codec.heading? isItem items ≠ none) :
    codec.decodeTree isItem (.array items) ≠ Value.ofTree (.array items) := by
  intro heq
  obtain ⟨heading, hheading⟩ := Option.ne_none_iff_exists'.mp h
  obtain ⟨name, second, rfl, hname⟩ := heading?_eq_some hheading
  have hpair {handle : TypeHandle M} {fields : List (String × Tree)}
      (hhandle : codec.registry.resolve name = some handle) (htakes : handle.TakesFields) :
      codec.decodeTree true (.array [.string name, .object fields]) ≠
        Value.ofTree (.array [.string name, .object fields]) := by
    rw [decodeTree_pair hhandle htakes]
    rcases codec.fieldsAs_cases (some handle) fields with ⟨object, hobject⟩ | ⟨kind, hmap⟩
    · rw [hobject]
      exact nofun
    · rw [hmap]
      exact nofun
  cases heading with
  | object type fields =>
      obtain ⟨hhandle, rfl, rfl⟩ := hname
      exact hpair hhandle trivial heq
  | map kind =>
      obtain ⟨hhandle, rfl, fields, rfl⟩ := hname
      exact hpair hhandle trivial heq
  | collection kind =>
      obtain ⟨hhandle, inner, rfl⟩ := hname
      rw [decodeTree_wrapper hhandle, Collection.toValue, Value.ofTree,
        Collection.ofList_kind] at heq
      obtain ⟨rfl, hitems⟩ := Value.collection.inj heq
      have hinner : inner.map (codec.decodeTree true) =
          [Value.ofTree (.string name), Value.ofTree (.array inner)] := by
        simpa [Collection.ofList_list, Value.ofItems_eq] using hitems
      have hmem : (Value.ofTree (.array inner) : Value M) ∈ inner.map (codec.decodeTree true) := by
        rw [hinner]
        simp
      obtain ⟨tree, htree, hdecoded⟩ := List.mem_map.mp hmem
      have hle := codec.depth_decodeTree_le true tree
      rw [hdecoded, Value.depth_ofTree, Tree.depth] at hle
      have := Tree.depthOfItems_le.mp (Nat.le_refl _) tree htree
      omega

-- A tree without discriminators is read as what it holds exactly if nothing in it is ambiguous.
theorem decodeTree_eq_ofTree_iff {codec : Codec M} {tree : Tree} (hdistinct : tree.Distinct)
    (hlacks : tree.Every (Tree.LacksField codec.config.discriminator)) (isItem : Bool) :
    codec.decodeTree isItem tree = Value.ofTree tree ↔
      ¬codec.Ambiguous isItem (Value.ofTree tree) := by
  induction tree generalizing isItem with
  | null | bool | number | string =>
      exact iff_of_true (codec.decodeTree_leaf isItem trivial) (not_ambiguous_leaf trivial)
  | object fields ih =>
      obtain ⟨hnames, hdistinct⟩ := Tree.distinct_object.mp hdistinct
      obtain ⟨hlacks, hfields⟩ := Tree.every_object.mp hlacks
      rw [decodeTree_object, typeTag?_of_notMem hlacks, Assoc.erase_of_notMem hlacks,
        Option.bind_none, Value.ofTree, fieldsAs_eq_iff hnames, ambiguous_map, Value.ofFields_eq]
      simp only [Mistakes, not_false_eq_true, true_and, not_exists, not_and, List.forall_mem_map]
      exact forall₂_congr fun field hfield =>
        ih field hfield (hdistinct field hfield) (hfields field hfield) false
  | array items ih =>
      have hparts := Tree.distinct_array.mp hdistinct
      obtain ⟨-, hitems⟩ := Tree.every_array.mp hlacks
      rw [Value.ofTree, ambiguous_collection, Value.ofItems_eq, announces_iff]
      by_cases hheading : codec.heading? isItem items = none
      · rw [decodeTree_array hheading, Value.collection.injEq, List.map_inj_left]
        simp only [hheading, ne_eq, not_true_eq_false, false_or, true_and, not_exists, not_and,
          List.forall_mem_map]
        exact forall₂_congr fun item hitem =>
          ih item hitem (hparts item hitem) (hitems item hitem) true
      · have hne := decodeTree_ne_of_heading hheading
        rw [Value.ofTree, Value.ofItems_eq] at hne
        simp [hne, hheading]

-- The tree of a member of the outermost list, by the tree of the member alone
def memberTree (codec : Codec M) : Tree → Tree
  | .object fields => codec.tagged MapKind.unordered.wireName fields
  | tree => tree

theorem memberDocument_ofTree (codec : Codec M) (tree : Tree) :
    codec.memberDocument (Value.ofTree tree) = .ok (codec.memberTree tree) := by
  have hsame := Value.toTree_ofTree (M := M) tree
  cases tree with
  | object fields =>
      rw [Value.ofTree] at hsame ⊢
      exact memberDocument_map.mpr ⟨fields, hsame, rfl⟩
  | null | bool | number | string | array => exact hsame

theorem heading?_memberTree (codec : Codec M) (items : List Tree) :
    codec.heading? false (items.map codec.memberTree) = codec.heading? false items := by
  rcases items with _ | ⟨first, _ | ⟨second, _ | ⟨third, rest⟩⟩⟩
  · rfl
  · simp [heading?]
  · cases first <;> cases second <;> rfl
  · simp [heading?]

-- Nothing is tagged in front of an array.
theorem memberTree_of_heading {codec : Codec M} {items : List Tree}
    (h : codec.heading? false items ≠ none) : items.map codec.memberTree = items := by
  obtain ⟨heading, hheading⟩ := Option.ne_none_iff_exists'.mp h
  obtain ⟨name, second, rfl, hname⟩ := heading?_eq_some hheading
  cases heading with
  | collection kind =>
      obtain ⟨-, inner, rfl⟩ := hname
      rfl
  | object type fields => cases hname.2.1
  | map kind => cases hname.2.1

-- A map directly in the outermost list is mistaken for something else, because the name of
-- unordered maps stands for something else.
def MistakesMember (codec : Codec M) : Value M → Prop
  | .collection _ items => ∃ kind entries fields, .map kind entries ∈ items ∧
      (Value.map kind entries).toTree = .ok (.object fields) ∧
      Mistakes (codec.registry.resolve MapKind.unordered.wireName) fields
  | _ => False

theorem decodeTree_memberTree_iff {codec : Codec M} {tree : Tree} (hdistinct : tree.Distinct)
    (hlacks : tree.Every (Tree.LacksField codec.config.discriminator)) :
    codec.decodeTree true (codec.memberTree tree) = Value.ofTree tree ↔
      ¬codec.Ambiguous true (Value.ofTree tree) ∧ ∀ fields, tree = .object fields →
        ¬Mistakes (codec.registry.resolve MapKind.unordered.wireName) fields := by
  have hplain := decodeTree_eq_ofTree_iff hdistinct hlacks true
  cases tree with
  | object fields =>
      obtain ⟨hnames, -⟩ := Tree.distinct_object.mp hdistinct
      obtain ⟨hfields, -⟩ := Tree.every_object.mp hlacks
      rw [decodeTree_object, typeTag?_of_notMem hfields, Assoc.erase_of_notMem hfields,
        Option.bind_none, Value.ofTree, fieldsAs_eq_iff hnames] at hplain
      rw [memberTree, codec.decodeTree_tagged hfields, Value.ofTree, fieldsAs_eq_iff hnames,
        ← hplain]
      simp [Mistakes, and_comm]
  | null | bool | number | string | array => simpa [memberTree] using hplain

theorem distinct_memberTree {codec : Codec M} {tree : Tree} (hdistinct : tree.Distinct)
    (hlacks : tree.Every (Tree.LacksField codec.config.discriminator)) :
    (codec.memberTree tree).Distinct := by
  cases tree with
  | object fields => exact distinct_tagged _ (Tree.every_object.mp hlacks).1 hdistinct
  | null | bool | number | string | array => exact hdistinct

theorem depth_memberTree_le (codec : Codec M) (tree : Tree) :
    (codec.memberTree tree).depth ≤ tree.depth := by
  cases tree with
  | object fields => exact codec.depth_tagged_le _ fields
  | null | bool | number | string | array => exact Nat.le_refl _

-- The document of a list, from the trees of its members
theorem document_list (codec : Codec M) {items : List Tree}
    (hnull : Value.null ∉ items.map (Value.ofTree (M := M))) :
    codec.document (.collection .list (items.map Value.ofTree)) =
      .ok (some (.array (items.map codec.memberTree))) := by
  refine document_eq_ok_some_iff.mpr (collectionDocument_eq_ok_iff.mpr
    ⟨items.map codec.memberTree, ?_, by simp⟩)
  have hfilter :
      (items.map (Value.ofTree (M := M))).filter (!·.isNull) = items.map Value.ofTree := by
    refine List.filter_eq_self.mpr fun item hitem => ?_
    cases item with
    | null => exact absurd hitem hnull
    | _ => rfl
  rw [hfilter, List.forall₂_map_left_iff, List.forall₂_map_right_iff]
  exact List.forall₂_same.mpr fun tree _ => codec.memberDocument_ofTree tree

theorem mistakesMember_iff {codec : Codec M} {items : List Tree} :
    codec.MistakesMember (Value.ofTree (.array items)) ↔ ∃ fields, .object fields ∈ items ∧
      Mistakes (codec.registry.resolve MapKind.unordered.wireName) fields := by
  rw [Value.ofTree, Value.ofItems_eq]
  constructor
  · rintro ⟨kind, entries, fields, hmem, htree, hmistakes⟩
    obtain ⟨tree, hitem, hback⟩ := List.mem_map.mp hmem
    rw [← hback, Value.toTree_ofTree] at htree
    exact ⟨fields, Except.ok.inj htree ▸ hitem, hmistakes⟩
  · rintro ⟨fields, hitem, hmistakes⟩
    exact ⟨.unordered, Value.ofFields fields, fields, List.mem_map.mpr ⟨_, hitem, rfl⟩,
      Value.toTree_ofTree (.object fields), hmistakes⟩

theorem decode_list_iff {codec : Codec M} {items : List Tree}
    (hdistinct : (Tree.array items).Distinct)
    (hlacks : (Tree.array items).Every (Tree.LacksField codec.config.discriminator)) :
    codec.decodeTree false (.array (items.map codec.memberTree)) = Value.ofTree (.array items) ↔
      ¬codec.Ambiguous false (Value.ofTree (.array items)) ∧
        ¬codec.MistakesMember (Value.ofTree (.array items)) := by
  have hparts := Tree.distinct_array.mp hdistinct
  obtain ⟨-, hitems⟩ := Tree.every_array.mp hlacks
  by_cases hheading : codec.heading? false items = none
  · have hmembers : codec.decodeTree false (.array (items.map codec.memberTree)) =
        Value.ofTree (.array items) ↔ ∀ item ∈ items,
          codec.decodeTree true (codec.memberTree item) = Value.ofTree item := by
      rw [decodeTree_array (codec.heading?_memberTree items ▸ hheading), Value.ofTree,
        Value.ofItems_eq, List.map_map, Value.collection.injEq, List.map_inj_left]
      exact and_iff_right rfl
    have hambiguous : ¬codec.Ambiguous false (Value.ofTree (.array items)) ↔
        ∀ item ∈ items, ¬codec.Ambiguous true (Value.ofTree item) := by
      rw [Value.ofTree, ambiguous_collection, Value.ofItems_eq, announces_iff]
      simp [hheading]
    rw [hmembers, hambiguous, mistakesMember_iff]
    constructor
    · intro h
      have hiff (item : Tree) (hitem : item ∈ items) :=
        (decodeTree_memberTree_iff (hparts item hitem) (hitems item hitem)).mp (h item hitem)
      refine ⟨fun item hitem => (hiff item hitem).1, ?_⟩
      rintro ⟨fields, hfields, hmistakes⟩
      exact (hiff _ hfields).2 fields rfl hmistakes
    · rintro ⟨hplain, hmaps⟩ item hitem
      refine (decodeTree_memberTree_iff (hparts item hitem) (hitems item hitem)).mpr
        ⟨hplain item hitem, ?_⟩
      rintro fields rfl hmistakes
      exact hmaps ⟨fields, hitem, hmistakes⟩
  · have hne := decodeTree_ne_of_heading hheading
    rw [memberTree_of_heading hheading]
    refine iff_of_false hne fun h => h.1 ?_
    rw [Value.ofTree, Value.ofItems_eq]
    exact .announced (announces_iff.mpr hheading)

-- Data that a document has room for. Nulls directly in the outermost list are left out of it.
structure Storable (codec : Codec M) (value : Value M) : Prop where
  data : value.IsData
  wellFormed : value.WellFormed
  lacksName : value.LacksName codec.config.discriminator
  null_notMem : ∀ kind items, value = .collection kind items → Value.null ∉ items
  depth_le : value.depth ≤ maxDepth

-- Data comes back as it was exactly if nothing in it reads as the name of something else.
theorem decode_encode_data_iff (codec : Codec M) {value : Value M} (h : codec.Storable value) :
    (codec.encode value >>= codec.decode) = .ok value ↔
      ¬codec.Ambiguous false value ∧ ¬codec.MistakesMember value := by
  obtain ⟨hdata, hvalue, hlacks, hnull, hdepth⟩ := h
  obtain ⟨tree, htree, rfl⟩ := Value.exists_ofTree_of_isData hdata
  have hdistinct := wellFormed_ofTree.mp hvalue
  have hfields := Value.lacksField_of_toTree hlacks htree
  rw [Value.depth_ofTree] at hdepth
  have hinj (a b : Value M) : (.ok a : Except CodecError (Value M)) = .ok b ↔ a = b :=
    ⟨Except.ok.inj, congrArg _⟩
  cases tree with
  | null => exact iff_of_true codec.encode_null_bind_decode ⟨nofun, nofun⟩
  | bool | number | string | object =>
      rw [encode_bind_decode (document_eq_ok_some_iff.mpr htree) hdistinct hdepth, hinj,
        decodeTree_eq_ofTree_iff hdistinct hfields]
      exact (and_iff_left nofun).symm
  | array items =>
      have hnonnull : Value.null ∉ items.map (Value.ofTree (M := M)) :=
        hnull _ _ (by rw [Value.ofTree, Value.ofItems_eq])
      have hdocument := codec.document_list hnonnull
      rw [← Value.ofItems_eq, ← Value.ofTree] at hdocument
      rw [encode_bind_decode hdocument ?_ ?_, hinj, decode_list_iff hdistinct hfields]
      · refine Tree.distinct_array.mpr (List.forall_mem_map.mpr fun item hitem => ?_)
        exact distinct_memberTree (Tree.distinct_array.mp hdistinct item hitem)
          ((Tree.every_array.mp hfields).2 item hitem)
      · refine Tree.depth_array_le.mpr (List.forall_mem_map.mpr fun item hitem => ?_)
        exact Nat.le_trans (codec.depth_memberTree_le item)
          (Tree.depth_array_le.mp hdepth item hitem)

theorem decode_encode_data_unnamed :
    ((Switch.codec true).encode (.collection .list
      [.scalar (.string "a.b"), .collection .list [.scalar (.int 1), .null]]) >>=
        (Switch.codec true).decode) =
      .ok (.collection .list
        [.scalar (.string "a.b"), .collection .list [.scalar (.int 1), .null]]) := by
  have hname : Switch.registry.resolve "a.b" = none := by decide +kernel
  refine (decode_encode_data_iff (Switch.codec true) ⟨by decide, ?_, ?_, ?_, by decide⟩).mpr
    ⟨?_, ?_⟩
  · simp [Collection.Proper]
  · simp
  · rintro kind items ⟨⟩
    simp
  · have hleaf (isMember : Bool) (value : Scalar) :
        ¬(Switch.codec true).Ambiguous isMember (.scalar value) := by rintro ⟨⟩
    have hnull : ¬(Switch.codec true).Ambiguous true .null := by rintro ⟨⟩
    simp [ambiguous_collection, hleaf, hnull, Announces, hname]
  · simp [MistakesMember]

-- Not all data comes back as an equal value: the name of a collection kind in front of a list is
-- read as such. Where no list has such a name, maps are still mistaken if the name they are
-- written under was given to another kind.
theorem decode_encode_data_fails :
    (¬∀ (codec : Codec Switch) (value : Value Switch), codec.Storable value →
      ∃ decoded, (codec.encode value >>= codec.decode) = .ok decoded ∧ decoded.equal value) ∧
    ¬∀ (codec : Codec Switch) (value : Value Switch), codec.Storable value →
      ¬codec.Ambiguous false value →
      ∃ decoded, (codec.encode value >>= codec.decode) = .ok decoded ∧ decoded.equal value := by
  constructor
  · intro h
    have hname : Switch.registry.resolve "java.util.ArrayList" =
        some (.container (.collection .list)) := by decide +kernel
    obtain ⟨decoded, hdecoded, hequal⟩ := h (Switch.codec false)
      (.collection .list
        [.scalar (.string "java.util.ArrayList"), .collection .list [.scalar (.int 1)]])
      ⟨by decide, by simp [Collection.Proper], by simp, by rintro _ _ ⟨⟩; simp, by decide⟩
    have hdocument : (Switch.codec false).document
        (.collection .list
          [.scalar (.string "java.util.ArrayList"), .collection .list [.scalar (.int 1)]]) =
          .ok (some (.array [.string "java.util.ArrayList", .array [.number (.ofInt64 1)]])) := rfl
    rw [encode_bind_decode hdocument (by decide) (by decide), decodeTree_wrapper hname] at hdecoded
    cases hdecoded
    exact absurd hequal (by decide +kernel)
  · intro h
    let codec : Codec Switch :=
      ⟨Registry.ofPlan [.container "std::collections::HashMap" (.map .sorted)], ⟨"@class", false⟩⟩
    have hname : codec.registry.resolve MapKind.unordered.wireName =
        some (.container (.map .sorted)) := by decide +kernel
    have hunambiguous : ¬codec.Ambiguous false (.collection .list [.map .unordered []]) := by
      simp [ambiguous_collection, ambiguous_map, Announces]
    obtain ⟨decoded, hdecoded, hequal⟩ := h codec (.collection .list [.map .unordered []])
      ⟨by decide, by simp [Collection.Proper, Keyed.Proper, Keyed.keys], by simp,
        by rintro _ _ ⟨⟩; simp, by decide⟩ hunambiguous
    have hdocument : codec.document (.collection .list [.map .unordered []]) =
        .ok (some (.array [codec.tagged MapKind.unordered.wireName []])) := rfl
    rw [encode_bind_decode hdocument (by decide) (by decide), decodeTree_array rfl,
      List.map_singleton, codec.decodeTree_tagged List.not_mem_nil, hname] at hdecoded
    cases hdecoded
    exact absurd hequal (by decide +kernel)

end Codec

end TaggedCache
