import TaggedCache.Proofs.Codec.TypedRead

namespace TaggedCache

open Json

variable {M : ObjectModel}

namespace Codec

-- A type does not mind the order of fields: the same tree in another order is refused as well,
-- or it gives an equal object.
def MaterializesAlike (codec : Codec M) : Prop :=
  ∀ name type, codec.registry.resolve name = some (.object type) →
    ∀ a b : Tree, a.Distinct → b.Distinct → a.canonical = b.canonical →
      (∃ object other, M.materialize type a = .ok object ∧ M.materialize type b = .ok other ∧
        (Value.object object).equal (.object other)) ∨
      ∃ problem problem', M.materialize type a = .error problem ∧
        M.materialize type b = .error problem'

theorem materializesAlike_of_orderFree (codec : Codec M) (hread : ∀ type, OrderFree (M.read type)) :
    codec.MaterializesAlike := by
  intro name type _ a b ha hb hsame
  have hiff (payload : M.Payload type) :
      M.read type a = .ok payload ↔ M.read type b = .ok payload :=
    ⟨hread type a b payload ha hb hsame, hread type b a payload hb ha hsame.symm⟩
  simp only [ObjectModel.materialize]
  cases ha : M.read type a with
  | ok payload =>
      rw [(hiff payload).mp ha]
      exact .inl ⟨_, _, rfl, rfl, Value.equal_iff.mpr rfl⟩
  | error problem =>
      cases hb : M.read type b with
      | ok payload => exact absurd ((hiff payload).mpr hb) (by simp [ha])
      | error problem' => exact .inr ⟨_, _, rfl, rfl⟩

-- Whether an array has a heading does not depend on the order of fields in its items.
theorem heading?_eq_none_of_canonical_eq {codec : Codec M} {isItem : Bool}
    {items others : List Tree}
    (hsame : (Tree.array items).canonical = (Tree.array others).canonical)
    (h : codec.heading? isItem items = none) : codec.heading? isItem others = none := by
  cases hother : codec.heading? isItem others with
  | none => rfl
  | some heading =>
      obtain ⟨name, second, rfl, hsecond⟩ := heading?_eq_some hother
      obtain ⟨first, hitems, hcanonical⟩ := Tree.exists_pair_of_canonical_eq hsame.symm
      cases hitems
      cases heading with
      | collection kind =>
          obtain ⟨hname, inner, rfl⟩ := hsecond
          obtain ⟨inner', rfl, -⟩ := Tree.exists_items_of_canonical_eq hcanonical
          exact absurd h (heading?_wrapper_ne_none hname isItem inner')
      | object type fields =>
          obtain ⟨hname, rfl, rfl⟩ := hsecond
          obtain ⟨fields', -, rfl, -⟩ := Tree.exists_fields_of_canonical_eq hcanonical
          exact absurd h (heading?_pair_ne_none hname trivial fields')
      | map kind =>
          obtain ⟨hname, rfl, fields, rfl⟩ := hsecond
          obtain ⟨fields', -, rfl, -⟩ := Tree.exists_fields_of_canonical_eq hcanonical
          exact absurd h (heading?_pair_ne_none hname trivial fields')

theorem typeTag?_of_canonical_eq (codec : Codec M) {fields others : List (String × Tree)}
    (hfields : (Assoc.keys fields).Nodup) (hothers : (Assoc.keys others).Nodup)
    (hsame : (Tree.object fields).canonical = (Tree.object others).canonical) :
    codec.typeTag? fields = codec.typeTag? others := by
  refine Option.ext fun name => ?_
  have hname : (Tree.string name).IsLeaf := trivial
  rw [typeTag?_eq_some_iff, typeTag?_eq_some_iff,
    Tree.get?_leaf_of_canonical_eq hfields hothers hname hsame]

-- A tree is decoded to equal values in every order of its fields.
def DecodesAlike (codec : Codec M) (isItem : Bool) (tree : Tree) : Prop :=
  ∀ other : Tree, tree.Distinct → other.Distinct → tree.canonical = other.canonical →
    (codec.decodeTree isItem tree).arrangement = (codec.decodeTree isItem other).arrangement

theorem map_arrangement_decodeTree {codec : Codec M} {isItem : Bool} {items others : List Tree}
    (h : ∀ item ∈ items, codec.DecodesAlike isItem item) (hitems : (Tree.array items).Distinct)
    (hothers : (Tree.array others).Distinct)
    (hsame : (Tree.array items).canonical = (Tree.array others).canonical) :
    (items.map (codec.decodeTree isItem)).map Value.arrangement =
      (others.map (codec.decodeTree isItem)).map Value.arrangement := by
  rw [List.map_map, List.map_map]
  refine map_eq_map_of_forall₂ (Tree.canonical_array_eq_iff.mp hsame) ?_
  intro item hitem other hother hsame
  exact h item hitem other (Tree.distinct_array.mp hitems item hitem)
    (Tree.distinct_array.mp hothers other hother) hsame

theorem arrangedEntries_decodeFields_perm {codec : Codec M} {fields others : List (String × Tree)}
    (h : ∀ field ∈ fields, codec.DecodesAlike false field.2)
    (hfields : (Tree.object fields).Distinct) (hothers : (Tree.object others).Distinct)
    (hsame : (Tree.object fields).canonical = (Tree.object others).canonical) :
    (Value.arrangedEntries (codec.decodeFields fields)).Perm
      (Value.arrangedEntries (codec.decodeFields others)) := by
  have harranged (fields : List (String × Tree)) :
      Value.arrangedEntries (codec.decodeFields fields) =
        fields.map fun field => (field.1, (codec.decodeTree false field.2).arrangement) := by
    rw [Value.arrangedEntries_eq, decodeFields_eq, List.map_map]
    rfl
  obtain ⟨_, arranged, ⟨⟩, hperm, hpairs⟩ := Tree.exists_fields_of_canonical_eq hsame
  rw [harranged, harranged]
  refine List.Perm.trans (List.Perm.of_eq ?_) (hperm.map _)
  refine map_eq_map_of_forall₂ hpairs fun field hfield other hother hpair => ?_
  have hdistinct := (Tree.distinct_object.mp hothers).2 other (hperm.mem_iff.mp hother)
  exact Prod.ext hpair.1
    (h field hfield other.2 ((Tree.distinct_object.mp hfields).2 field hfield) hdistinct hpair.2)

theorem arrangement_fieldsAs {codec : Codec M} (hread : codec.MaterializesAlike)
    {handle : Option (TypeHandle M)} {fields others : List (String × Tree)}
    (hhandle : ∀ type, handle = some (.object type) →
      ∃ name, codec.registry.resolve name = some (.object type))
    (h : ∀ field ∈ fields, codec.DecodesAlike false field.2)
    (hfields : (Tree.object fields).Distinct) (hothers : (Tree.object others).Distinct)
    (hsame : (Tree.object fields).canonical = (Tree.object others).canonical) :
    (codec.fieldsAs handle fields).arrangement = (codec.fieldsAs handle others).arrangement := by
  have hmap (kind : MapKind) : (Keyed.ofList kind (codec.decodeFields fields)).toValue.arrangement =
      (Keyed.ofList kind (codec.decodeFields others)).toValue.arrangement := by
    refine Keyed.arrangement_ofList_congr kind ?_
      (arrangedEntries_decodeFields_perm h hfields hothers hsame)
    rw [keys_decodeFields]
    exact (Tree.distinct_object.mp hfields).1
  rcases handle with _ | (type | (kind | kind))
  · exact hmap .unordered
  · obtain ⟨name, hname⟩ := hhandle type rfl
    simp only [fieldsAs, materialized]
    rcases hread name type hname _ _ hfields hothers hsame with
      ⟨object, other, hobject, hother, heq⟩ | ⟨_, _, hobject, hother⟩
    · rw [hobject, hother]
      exact Value.equal_iff.mp heq
    · rw [hobject, hother]
      exact hmap .unordered
  · exact hmap .unordered
  · exact hmap kind

theorem decodesAlike {codec : Codec M} (hread : codec.MaterializesAlike) (isItem : Bool)
    (tree : Tree) : codec.DecodesAlike isItem tree := by
  induction isItem, tree using codec.decodeTree_induct with
  | leaf isItem tree hleaf =>
      intro other _ _ hsame
      have hcanonical : tree.canonical = tree := hleaf.canonical_eq_iff.mpr rfl
      rw [hleaf.canonical_eq_iff.mp (hsame.symm.trans hcanonical)]
  | list isItem items hheading ih =>
      intro other htree hother hsame
      obtain ⟨others, rfl, -⟩ := Tree.exists_items_of_canonical_eq hsame
      rw [decodeTree_array hheading,
        decodeTree_array (heading?_eq_none_of_canonical_eq hsame hheading)]
      exact Value.arrangement_collection_congr (map_arrangement_decodeTree ih htree hother hsame)
  | wrapper isItem name kind inner hname ih =>
      intro other htree hother hsame
      obtain ⟨second, rfl, hsecond⟩ := Tree.exists_pair_of_canonical_eq hsame
      obtain ⟨others, rfl, -⟩ := Tree.exists_items_of_canonical_eq hsecond
      rw [decodeTree_wrapper hname, decodeTree_wrapper hname]
      refine Collection.arrangement_ofList_congr kind (map_arrangement_decodeTree ih ?_ ?_ hsecond)
      · exact Tree.distinct_array.mp htree _ (by simp)
      · exact Tree.distinct_array.mp hother _ (by simp)
  | pair name handle fields hname htakes ih =>
      intro other htree hother hsame
      obtain ⟨second, rfl, hsecond⟩ := Tree.exists_pair_of_canonical_eq hsame
      obtain ⟨others, -, rfl, -⟩ := Tree.exists_fields_of_canonical_eq hsecond
      rw [decodeTree_pair hname htakes, decodeTree_pair hname htakes]
      refine arrangement_fieldsAs hread ?_ ih ?_ ?_ hsecond
      · rintro type ⟨⟩
        exact ⟨name, hname⟩
      · exact Tree.distinct_array.mp htree _ (by simp)
      · exact Tree.distinct_array.mp hother _ (by simp)
  | object isItem fields ih =>
      intro other htree hother hsame
      obtain ⟨others, -, rfl, -⟩ := Tree.exists_fields_of_canonical_eq hsame
      have hnames := (Tree.distinct_object.mp htree).1
      rw [decodeTree_object, decodeTree_object,
        codec.typeTag?_of_canonical_eq hnames (Tree.distinct_object.mp hother).1 hsame]
      refine arrangement_fieldsAs hread ?_ ?_ (Tree.distinct_erase _ htree)
        (Tree.distinct_erase _ hother) (Tree.canonical_erase _ hnames hsame)
      · intro type hhandle
        obtain ⟨name, -, hname⟩ := Option.bind_eq_some_iff.mp hhandle
        exact ⟨name, hname⟩
      · exact fun field hfield => ih field (Assoc.erase_subset _ fields hfield)

-- Trees that are the same up to the order of fields, the field with the type name included, are
-- decoded to equal values. No name occurs twice in an object.
theorem decodeTree_equal_of_canonical_eq (codec : Codec M) (hread : codec.MaterializesAlike)
    {a b : Tree} (ha : a.Distinct) (hsame : a.canonical = b.canonical) (isItem : Bool) :
    (codec.decodeTree isItem a).equal (codec.decodeTree isItem b) :=
  Value.equal_iff.mpr
    (decodesAlike hread isItem a b ha (Tree.distinct_of_canonical_eq hsame.symm ha) hsame)

-- A set with a switch, a switch in a pair and a map, which are all tagged
theorem decodeTree_equal_of_canonical_eq_switches :
    ((Switch.codec false).decodeTree false (.array [.string "java.util.HashSet", .array [
        .object [("@class", .string "demo.Switch"), ("on", .bool true)],
        .array [.string "demo.Switch", .object [("on", .bool false)]],
        .object [("a", .null), ("@class", .string "java.util.LinkedHashMap"),
          ("b", .null)]]])).equal
      ((Switch.codec false).decodeTree false (.array [.string "java.util.HashSet", .array [
        .object [("on", .bool true), ("@class", .string "demo.Switch")],
        .array [.string "demo.Switch", .object [("on", .bool false)]],
        .object [("b", .null), ("@class", .string "java.util.LinkedHashMap"),
          ("a", .null)]]])) := by
  refine decodeTree_equal_of_canonical_eq (Switch.codec false)
    (materializesAlike_of_orderFree _ fun _ => Switch.orderFree_read) (by decide) ?_ false
  refine Tree.canonical_array_eq_iff.mpr (.cons rfl (.cons ?_ .nil))
  refine Tree.canonical_array_eq_iff.mpr (.cons ?_ (.cons rfl (.cons ?_ .nil)))
  · exact Tree.canonical_object_of_perm (.swap _ _ _) (by decide)
  · exact Tree.canonical_object_of_perm (List.reverse_perm _).symm (by decide)

end Codec

end TaggedCache
