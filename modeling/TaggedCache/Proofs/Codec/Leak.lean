import TaggedCache.Proofs.Codec.Decoding
import TaggedCache.Proofs.Codec.Reading
import TaggedCache.Proofs.Order.Value
import TaggedCache.Proofs.Switch

namespace TaggedCache

open Json

variable {M : ObjectModel}

namespace Value

-- Some map inside a value has an entry of the given name.
def HoldsKey (name : String) (value : Value M) : Prop :=
  ∃ kind entries, map kind entries ∈ value.nodes ∧ name ∈ Assoc.keys entries

theorem not_holdsKey_leaf {name : String} {tree : Tree} (h : tree.IsLeaf) :
    ¬(ofTree tree : Value M).HoldsKey name := by
  rintro ⟨kind, entries, hnode, -⟩
  cases tree <;> first | exact h.elim | simp [ofTree, nodes] at hnode

theorem not_holdsKey_object {name : String} (value : Object M) :
    ¬(object value).HoldsKey name := by
  rintro ⟨kind, entries, hnode, -⟩
  simp [nodes] at hnode

theorem holdsKey_collection {name : String} {kind : CollectionKind} {items : List (Value M)} :
    (collection kind items).HoldsKey name ↔ ∃ item ∈ items, item.HoldsKey name := by
  simp only [HoldsKey, mem_nodes_collection, reduceCtorEq, false_or]
  constructor
  · rintro ⟨kind, entries, ⟨item, hitem, hnode⟩, hname⟩
    exact ⟨item, hitem, kind, entries, hnode, hname⟩
  · rintro ⟨item, hitem, kind, entries, hnode, hname⟩
    exact ⟨kind, entries, ⟨item, hitem, hnode⟩, hname⟩

theorem holdsKey_map {name : String} {kind : MapKind} {entries : List (String × Value M)} :
    (map kind entries).HoldsKey name ↔
      name ∈ Assoc.keys entries ∨ ∃ entry ∈ entries, entry.2.HoldsKey name := by
  simp only [HoldsKey, mem_nodes_map, map.injEq]
  constructor
  · rintro ⟨kind, inner, ⟨rfl, rfl⟩ | ⟨entry, hentry, hnode⟩, hname⟩
    · exact .inl hname
    · exact .inr ⟨entry, hentry, kind, inner, hnode, hname⟩
  · rintro (hname | ⟨entry, hentry, kind, inner, hnode, hname⟩)
    · exact ⟨kind, entries, .inl ⟨rfl, rfl⟩, hname⟩
    · exact ⟨kind, inner, .inr ⟨entry, hentry, hnode⟩, hname⟩

-- Equal values have entries of the same names.
theorem holdsKey_of_arrangement_eq {name : String} {a b : Value M}
    (heq : a.arrangement = b.arrangement) (h : a.HoldsKey name) : b.HoldsKey name := by
  induction a generalizing b with
  | null | scalar | object => simp [HoldsKey, nodes] at h
  | collection kind items ih =>
      cases b with
      | collection otherKind others =>
          obtain ⟨item, hitem, hholds⟩ := holdsKey_collection.mp h
          obtain ⟨other, hother, hsame⟩ := exists_item_of_arrangement_eq heq item hitem
          exact holdsKey_collection.mpr ⟨other, hother, ih item hitem hsame hholds⟩
      | _ => simp [arrangement] at heq
  | map kind entries ih =>
      cases b with
      | map otherKind others =>
          rcases holdsKey_map.mp h with hname | ⟨entry, hentry, hholds⟩
          · obtain ⟨entry, hentry, rfl⟩ := List.mem_map.mp hname
            obtain ⟨other, hother, hsame, -⟩ := exists_entry_of_arrangement_eq heq entry hentry
            exact holdsKey_map.mpr (.inl (hsame ▸ List.mem_map_of_mem hother))
          · obtain ⟨other, hother, -, hsame⟩ := exists_entry_of_arrangement_eq heq entry hentry
            exact holdsKey_map.mpr (.inr ⟨other, hother, ih entry hentry hsame hholds⟩)
      | _ => simp [arrangement] at heq

-- A member that a set leaves out is equal to one that it keeps.
theorem holdsKey_ofList {name : String} {kind : CollectionKind} {items : List (Value M)} :
    (Collection.ofList kind items).toValue.HoldsKey name ↔ ∃ item ∈ items, item.HoldsKey name := by
  rw [Collection.toValue, holdsKey_collection]
  constructor
  · rintro ⟨item, hitem, hholds⟩
    exact ⟨item, Collection.mem_of_mem_ofList hitem, hholds⟩
  · rintro ⟨item, hitem, hholds⟩
    obtain ⟨member, hmember, heq⟩ := Collection.exists_eq_mem_ofList kind hitem
    exact ⟨member, hmember, holdsKey_of_arrangement_eq (compare_eq_eq_iff.mp heq) hholds⟩

end Value

-- Fields make up an object of the type that their name stands for.
def TypeHandle.Fits (handle : Option (TypeHandle M)) (fields : List (String × Tree)) : Prop :=
  ∃ type object, handle = some (.object type) ∧ M.materialize type (.object fields) = .ok object

namespace Codec

-- A discriminator is left among the entries of a map that a tree is read as. This takes a pair:
-- there the fields stay as they are, while an object is read without its discriminator.
inductive Leaks (codec : Codec M) : Bool → Tree → Prop
  | pair {name : String} {handle : TypeHandle M} {fields : List (String × Tree)} :
      codec.registry.resolve name = some handle → handle.TakesFields →
      ¬TypeHandle.Fits (some handle) fields → codec.config.discriminator ∈ Assoc.keys fields →
      Leaks codec true (.array [.string name, .object fields])
  | pairField {name : String} {handle : TypeHandle M} {fields : List (String × Tree)}
      {field : String × Tree} :
      codec.registry.resolve name = some handle → handle.TakesFields →
      ¬TypeHandle.Fits (some handle) fields → field ∈ fields → Leaks codec false field.2 →
      Leaks codec true (.array [.string name, .object fields])
  | field {isItem : Bool} {fields : List (String × Tree)} {field : String × Tree} :
      ¬TypeHandle.Fits ((codec.typeTag? fields).bind codec.registry.resolve)
        (Assoc.erase codec.config.discriminator fields) →
      field ∈ Assoc.erase codec.config.discriminator fields → Leaks codec false field.2 →
      Leaks codec isItem (.object fields)
  | wrapped {isItem : Bool} {name : String} {kind : CollectionKind} {inner : List Tree}
      {item : Tree} :
      codec.registry.resolve name = some (.container (.collection kind)) →
      item ∈ inner → Leaks codec true item →
      Leaks codec isItem (.array [.string name, .array inner])
  | item {isItem : Bool} {items : List Tree} {item : Tree} :
      codec.heading? isItem items = none → item ∈ items → Leaks codec true item →
      Leaks codec isItem (.array items)

-- Fields become an object if they fit, and a map if they do not.
theorem fieldsAs_of_fits (codec : Codec M) (handle : Option (TypeHandle M))
    (fields : List (String × Tree)) :
    (TypeHandle.Fits handle fields ∧ ∃ object, codec.fieldsAs handle fields = .object object) ∨
      ¬TypeHandle.Fits handle fields ∧ ∃ kind, codec.fieldsAs handle fields =
        .map kind (Keyed.ofList kind (codec.decodeFields fields)).entries := by
  rcases codec.fieldsAs_cases handle fields with ⟨object, hobject⟩ | ⟨kind, hmap⟩
  · obtain ⟨type, hfits⟩ := fieldsAs_eq_object_iff.mp hobject
    exact .inl ⟨⟨type, object, hfits⟩, object, hobject⟩
  · refine .inr ⟨?_, kind, hmap⟩
    rintro ⟨type, object, hfits⟩
    cases hmap.symm.trans (fieldsAs_eq_object_iff.mpr ⟨type, hfits⟩)

theorem holdsKey_fieldsAs {codec : Codec M} {handle : Option (TypeHandle M)} {name : String}
    {fields : List (String × Tree)} (hnames : (Assoc.keys fields).Nodup) :
    (codec.fieldsAs handle fields).HoldsKey name ↔ ¬TypeHandle.Fits handle fields ∧
      (name ∈ Assoc.keys fields ∨
        ∃ field ∈ fields, (codec.decodeTree false field.2).HoldsKey name) := by
  rcases codec.fieldsAs_of_fits handle fields with ⟨hfits, object, hobject⟩ | ⟨hmisfits, kind, hmap⟩
  · rw [hobject]
    exact iff_of_false (Value.not_holdsKey_object object) fun h => h.1 hfits
  · have hperm := Keyed.ofList_perm kind (codec.keys_decodeFields fields ▸ hnames)
    have hkeys : name ∈ Assoc.keys (Keyed.ofList kind (codec.decodeFields fields)).entries ↔
        name ∈ Assoc.keys fields := by
      rw [← codec.keys_decodeFields fields]
      exact (hperm.map Prod.fst).mem_iff
    rw [hmap, Value.holdsKey_map, hkeys, and_iff_right hmisfits]
    simp only [hperm.mem_iff]
    rw [decodeFields_eq]
    simp

theorem not_leaks_leaf {codec : Codec M} {isItem : Bool} {tree : Tree} (h : tree.IsLeaf) :
    ¬codec.Leaks isItem tree := by
  rintro ⟨⟩ <;> exact h

theorem leaks_list_iff {codec : Codec M} {isItem : Bool} {items : List Tree}
    (h : codec.heading? isItem items = none) :
    codec.Leaks isItem (.array items) ↔ ∃ item ∈ items, codec.Leaks true item := by
  refine ⟨fun hleaks => ?_, fun ⟨item, hitem, hleaks⟩ => .item h hitem hleaks⟩
  cases hleaks with
  | pair hname htakes => exact absurd h (heading?_pair_ne_none hname htakes _)
  | pairField hname htakes => exact absurd h (heading?_pair_ne_none hname htakes _)
  | wrapped hname => exact absurd h (heading?_wrapper_ne_none hname _ _)
  | item _ hitem hleaks => exact ⟨_, hitem, hleaks⟩

theorem leaks_wrapper_iff {codec : Codec M} {isItem : Bool} {name : String} {kind : CollectionKind}
    {inner : List Tree}
    (hname : codec.registry.resolve name = some (.container (.collection kind))) :
    codec.Leaks isItem (.array [.string name, .array inner]) ↔
      ∃ item ∈ inner, codec.Leaks true item := by
  refine ⟨fun hleaks => ?_, fun ⟨item, hitem, hleaks⟩ => .wrapped hname hitem hleaks⟩
  cases hleaks with
  | wrapped _ hitem hleaks => exact ⟨_, hitem, hleaks⟩
  | item hheading => exact absurd hheading (heading?_wrapper_ne_none hname _ _)

theorem leaks_pair_iff {codec : Codec M} {name : String} {handle : TypeHandle M}
    {fields : List (String × Tree)} (hname : codec.registry.resolve name = some handle)
    (htakes : handle.TakesFields) :
    codec.Leaks true (.array [.string name, .object fields]) ↔
      ¬TypeHandle.Fits (some handle) fields ∧
        (codec.config.discriminator ∈ Assoc.keys fields ∨
          ∃ field ∈ fields, codec.Leaks false field.2) := by
  constructor
  · intro hleaks
    cases hleaks with
    | pair hother _ hmisfits hkey =>
        cases hname.symm.trans hother
        exact ⟨hmisfits, .inl hkey⟩
    | pairField hother _ hmisfits hfield hleaks =>
        cases hname.symm.trans hother
        exact ⟨hmisfits, .inr ⟨_, hfield, hleaks⟩⟩
    | item hheading => exact absurd hheading (heading?_pair_ne_none hname htakes fields)
  · rintro ⟨hmisfits, hkey | ⟨field, hfield, hleaks⟩⟩
    · exact .pair hname htakes hmisfits hkey
    · exact .pairField hname htakes hmisfits hfield hleaks

theorem leaks_object_iff {codec : Codec M} {isItem : Bool} {fields : List (String × Tree)} :
    codec.Leaks isItem (.object fields) ↔
      ¬TypeHandle.Fits ((codec.typeTag? fields).bind codec.registry.resolve)
          (Assoc.erase codec.config.discriminator fields) ∧
        ∃ field ∈ Assoc.erase codec.config.discriminator fields, codec.Leaks false field.2 :=
  ⟨fun | .field hmisfits hfield hleaks => ⟨hmisfits, _, hfield, hleaks⟩,
    fun ⟨hmisfits, _, hfield, hleaks⟩ => .field hmisfits hfield hleaks⟩

-- The discriminator is among the entries of a map exactly if the tree leaks it.
theorem holdsKey_decodeTree_iff {codec : Codec M} {tree : Tree} (hdistinct : tree.Distinct)
    (isItem : Bool) :
    (codec.decodeTree isItem tree).HoldsKey codec.config.discriminator ↔
      codec.Leaks isItem tree := by
  induction isItem, tree using codec.decodeTree_induct with
  | leaf isItem tree hleaf =>
      rw [codec.decodeTree_leaf isItem hleaf]
      exact iff_of_false (Value.not_holdsKey_leaf hleaf) (not_leaks_leaf hleaf)
  | list isItem items hheading ih =>
      have hitems := Tree.distinct_array.mp hdistinct
      rw [decodeTree_array hheading, Value.holdsKey_collection, leaks_list_iff hheading]
      simp only [List.mem_map, exists_exists_and_eq_and]
      exact exists_congr fun item => and_congr_right fun hitem => ih item hitem (hitems item hitem)
  | wrapper isItem name kind inner hname ih =>
      have hwrapped := Tree.distinct_array.mp hdistinct (.array inner) (by simp)
      have hinner := Tree.distinct_array.mp hwrapped
      rw [decodeTree_wrapper hname, Value.holdsKey_ofList, leaks_wrapper_iff hname]
      simp only [List.mem_map, exists_exists_and_eq_and]
      exact exists_congr fun item => and_congr_right fun hitem => ih item hitem (hinner item hitem)
  | pair name handle fields hname htakes ih =>
      obtain ⟨hnames, hfields⟩ :=
        Tree.distinct_object.mp (Tree.distinct_array.mp hdistinct (.object fields) (by simp))
      rw [decodeTree_pair hname htakes, holdsKey_fieldsAs hnames, leaks_pair_iff hname htakes]
      refine and_congr_right fun _ => or_congr_right (exists_congr fun field => ?_)
      exact and_congr_right fun hfield => ih field hfield (hfields field hfield)
  | object isItem fields ih =>
      obtain ⟨hnames, hfields⟩ := Tree.distinct_object.mp hdistinct
      have hsub := Assoc.erase_subset codec.config.discriminator fields
      rw [decodeTree_object, holdsKey_fieldsAs (Assoc.nodup_keys_erase _ hnames), leaks_object_iff]
      refine and_congr_right fun _ => (or_iff_right (Assoc.notMem_keys_erase _ _)).trans ?_
      refine exists_congr fun field => and_congr_right fun hfield => ?_
      exact ih field (hsub hfield) (hfields field (hsub hfield))

-- The discriminator is left in a value exactly if the document holds a tree that leaks it.
theorem holdsKey_decode_iff (codec : Codec M) {document : ByteArray} {value : Value M}
    (h : codec.decode document = .ok value) :
    value.HoldsKey codec.config.discriminator ↔
      ∃ tree, tree? document = some tree ∧ codec.Leaks false tree := by
  rcases decode_eq_ok_iff.mp h with ⟨hblank, rfl⟩ | ⟨tree, htree, rfl⟩
  · have hnone : tree? document = none := by rw [tree?, hblank, Option.bind_none]
    simp [hnone, Value.HoldsKey, Value.nodes]
  · rw [holdsKey_decodeTree_iff (distinct_of_tree? htree)]
    simp [htree]

theorem holdsKey_decode_iff_switches :
    (Value.collection .list [.map .unordered [("@class", .scalar (.string "x"))]] :
      Value Switch).HoldsKey "@class" := by
  let document : Tree :=
    .array [.array [.string "java.util.HashMap", .object [("@class", .string "x")]]]
  have hname : (Switch.codec false).registry.resolve "java.util.HashMap" =
      some (.container (.map .unordered)) := by decide +kernel
  have hdecode : (Switch.codec false).decode document.text.toUTF8 =
      .ok (.collection .list [.map .unordered [("@class", .scalar (.string "x"))]]) := by
    rw [decode_text _ (by decide) (by decide), decodeTree_array rfl, List.map_singleton,
      decodeTree_pair hname trivial]
    rfl
  exact (holdsKey_decode_iff (Switch.codec false) hdecode).mpr
    ⟨document, tree?_text (by decide) (by decide),
      .item rfl List.mem_cons_self (.pair hname trivial nofun List.mem_cons_self)⟩

-- The discriminator does come up as a key: a pair keeps the fields it announces as they are.
theorem decode_holdsKey :
    ¬∀ (codec : Codec Switch) (document : ByteArray) (value : Value Switch),
      codec.config.validate = .ok codec.config → codec.decode document = .ok value →
      ¬value.HoldsKey codec.config.discriminator := by
  intro h
  let document : Tree := .array [.array [.string "java.util.HashMap",
    .object [("@class", .string "x"), ("k", .number (.ofInt64 1))]]]
  have hname : (Switch.codec false).registry.resolve "java.util.HashMap" =
      some (.container (.map .unordered)) := by decide +kernel
  have hleaks : (Switch.codec false).Leaks false document :=
    .item rfl List.mem_cons_self (.pair hname trivial nofun List.mem_cons_self)
  have hdistinct : document.Distinct := by decide
  exact h (Switch.codec false) document.text.toUTF8 _ rfl
    ((Switch.codec false).decode_text hdistinct (by decide))
    ((holdsKey_decodeTree_iff hdistinct false).mpr hleaks)

end Codec

end TaggedCache
