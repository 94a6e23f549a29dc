import TaggedCache.Proofs.Codec.Ambiguity
import TaggedCache.Proofs.Codec.Members
import TaggedCache.Proofs.Codec.TypedRead
import TaggedCache.Proofs.Registry

namespace TaggedCache

open Json

variable {M : ObjectModel} {α : Type}

-- A type writes a value as an object without a field of the given name, and reads it back.
def ObjectModel.RoundTrips (M : ObjectModel) (name : String) (type : M.Ty) (x : M.Payload type) :
    Prop :=
  ∃ fields, M.write type x = .ok (.object fields) ∧ name ∉ Assoc.keys fields ∧
    M.read type (.object fields) = .ok x

-- A list of objects of one type
def Value.listOf (type : M.Ty) (xs : List (M.Payload type)) : Value M :=
  .collection .list (xs.map fun x => .object ⟨type, x⟩)

theorem Value.wellFormed_listOf (type : M.Ty) (xs : List (M.Payload type)) :
    (Value.listOf type xs).WellFormed := by
  refine Value.wellFormed_collection.mpr ⟨trivial, List.forall_mem_map.mpr fun x _ => ?_⟩
  exact Value.wellFormed_object _

namespace Codec

-- What a reader finds in place of a member of the outermost list that a writer has written
def received (reader writer : Codec M) (member : Value M) : Value M :=
  match writer.memberDocument member with
  | .ok tree => reader.decodeTree true tree
  | .error _ => .null

theorem decode_listOf {writer : Codec M} {type : M.Ty} {xs : List (M.Payload type)}
    (hwrites : M.WritesDistinct)
    (htrips : ∀ x ∈ xs, M.RoundTrips writer.config.discriminator type x)
    (hdepth : writer.documentNesting (.listOf type xs) ≤ maxDepth) :
    ∃ bytes, writer.encode (.listOf type xs) = .ok bytes ∧ ∀ reader : Codec M,
      reader.decode bytes =
        .ok (.collection .list (xs.map fun x => reader.received writer (.object ⟨type, x⟩))) := by
  have hexists : ∀ x ∈ xs, ∃ tree, writer.memberDocument (.object ⟨type, x⟩) = .ok tree := by
    intro x hx
    obtain ⟨fields, hwrite, -⟩ := htrips x hx
    exact ⟨_, objectDocument_eq_ok_iff.mpr ⟨fields, Object.toTree_eq_ok_iff.mpr hwrite, rfl⟩⟩
  obtain ⟨trees, htrees⟩ := exists_forall₂ hexists
  have hdocument : writer.document (.listOf type xs) = .ok (some (.array trees)) := by
    refine document_eq_ok_some_iff.mpr (collectionDocument_eq_ok_iff.mpr ⟨trees, ?_, by simp⟩)
    have hfilter := filter_objects (xs.map fun x => (⟨type, x⟩ : Object M))
    rw [List.map_map, Function.comp_def] at hfilter
    rw [hfilter]
    exact List.forall₂_map_left_iff.mpr htrees
  have hdistinct := distinct_document hwrites (Value.wellFormed_listOf type xs) hdocument
  rw [← depth_document hdocument] at hdepth
  refine ⟨_, encode_eq_ok_iff.mpr (.inr ⟨_, hdocument, rfl⟩), fun reader => ?_⟩
  have hheading : reader.heading? false trees = none := by
    cases htrees with
    | nil => rfl
    | cons htree _ =>
        obtain ⟨fields, -, rfl⟩ := objectDocument_eq_ok_iff.mp htree
        exact heading?_eq_none_of_object List.mem_cons_self
  have hreceived : trees.map (reader.decodeTree true) =
      xs.map fun x => reader.received writer (.object ⟨type, x⟩) := by
    refine (map_eq_map_of_forall₂ htrees fun x _ tree _ htree => ?_).symm
    rw [received, htree]
  rw [reader.decode_text hdistinct hdepth, decodeTree_array hheading, hreceived]

theorem received_object {reader writer : Codec M} {object : Object M}
    {fields : List (String × Tree)}
    (hdiscriminator : reader.config.discriminator = writer.config.discriminator)
    (htree : object.toTree = .ok (.object fields))
    (hlacks : writer.config.discriminator ∉ Assoc.keys fields) :
    reader.received writer (.object object) =
      reader.fieldsAs (reader.registry.resolve (writer.registry.nameOf object)) fields := by
  have hdocument : writer.memberDocument (.object object) =
      .ok (reader.tagged (writer.registry.nameOf object) fields) := by
    refine objectDocument_eq_ok_iff.mpr ⟨fields, htree, ?_⟩
    rw [tagged, tagged, hdiscriminator]
  rw [received, hdocument]
  exact reader.decodeTree_tagged (hdiscriminator ▸ hlacks) true _

-- A value is read of what a reader finds, in whatever order hash containers yield their members.
def Recovers (read : Tree → Except Mismatch α) (found : Value M) (x : α) : Prop :=
  ∀ other, found.Reorders other → ∃ tree, other.toTree = .ok tree ∧ read tree = .ok x

-- A list is read member by member.
theorem readAs_list_iff {target : String} {read : Tree → Except Mismatch α} {xs : List α}
    (find : α → Value M) :
    (∀ other, (Value.collection .list (xs.map find)).Reorders other →
        other.readAs target (readItems read) = .ok (some xs)) ↔
      ∀ x ∈ xs, Recovers read (find x) x := by
  constructor
  · intro h x hx other horder
    obtain ⟨before, after, rfl⟩ := List.append_of_mem hx
    rw [List.map_append, List.map_cons] at h
    have hread := h _ (Value.reorders_member horder (before.map find) (after.map find))
    exact of_forall₂_middle (by simp) (readAs_items_iff.mp hread)
  · intro h other horder
    obtain ⟨others, rfl, hothers⟩ := Value.exists_of_reorders_list horder
    refine readAs_items_iff.mpr ?_
    have hfound := (List.forall₂_map_left_iff.mp hothers).flip
    refine forall₂_imp_mem hfound fun other _ x hx hmoved => ?_
    exact h x hx other hmoved

-- A type that is known gets back what it has written.
theorem recovers_of_resolve {reader writer : Codec M} {type : M.Ty} {x : M.Payload type}
    (hdiscriminator : reader.config.discriminator = writer.config.discriminator)
    (htrip : M.RoundTrips writer.config.discriminator type x)
    (hresolve : reader.registry.resolve (writer.registry.nameOf ⟨type, x⟩) = some (.object type)) :
    Recovers (M.read type) (reader.received writer (.object ⟨type, x⟩)) x := by
  obtain ⟨fields, hwrite, hlacks, hread⟩ := htrip
  have htree : (⟨type, x⟩ : Object M).toTree = .ok (.object fields) :=
    Object.toTree_eq_ok_iff.mpr hwrite
  have hfound : reader.received writer (.object ⟨type, x⟩) = .object ⟨type, x⟩ := by
    rw [received_object hdiscriminator htree hlacks, hresolve, fieldsAs_eq_object_iff]
    exact ⟨type, rfl, by rw [ObjectModel.materialize, hread]⟩
  intro other horder
  rw [hfound] at horder
  rw [Value.eq_of_reorders_object horder]
  exact ⟨_, htree, hread⟩

-- A type that is not known still gets it back from a generic map, if its tree is plain and the
-- order of fields is of no account.
theorem recovers_of_plain {reader writer : Codec M} {type : M.Ty} {x : M.Payload type}
    (hwrites : M.WritesDistinct)
    (hdiscriminator : reader.config.discriminator = writer.config.discriminator)
    (htrip : M.RoundTrips writer.config.discriminator type x)
    (hunknown : ∀ other, reader.registry.resolve (writer.registry.nameOf ⟨type, x⟩) ≠
      some (.object other))
    (hread : OrderFree (M.read type))
    (hlacks : (Value.object ⟨type, x⟩).LacksName reader.config.discriminator)
    (hplain : ¬reader.Ambiguous false (Value.object ⟨type, x⟩).plain) :
    Recovers (M.read type) (reader.received writer (.object ⟨type, x⟩)) x := by
  obtain ⟨fields, hwrite, hfields, hback⟩ := htrip
  have htree : (⟨type, x⟩ : Object M).toTree = .ok (.object fields) :=
    Object.toTree_eq_ok_iff.mpr hwrite
  have hvalue : (Value.object ⟨type, x⟩ : Value M).toTree = .ok (.object fields) := htree
  have hdistinct := Value.distinct_of_toTree hwrites (Value.wellFormed_object _) hvalue
  obtain ⟨hnames, hparts⟩ := Tree.distinct_object.mp hdistinct
  obtain ⟨-, hlacks⟩ := Tree.every_object.mp (Value.lacksField_of_toTree hlacks hvalue)
  rw [← Value.ofTree_of_toTree hvalue, Value.ofTree, ambiguous_map, Value.ofFields_eq] at hplain
  have hdecoded : reader.decodeFields fields = Value.ofFields fields := by
    rw [decodeFields_eq, Value.ofFields_eq]
    refine List.map_congr_left fun field hfield => ?_
    rw [(decodeTree_eq_ofTree_iff (hparts field hfield) (hlacks field hfield) false).mpr ?_]
    exact fun hambiguous => hplain ⟨_, List.mem_map_of_mem hfield, hambiguous⟩
  have hfound := received_object hdiscriminator htree hfields
  rw [fieldsAs_eq_restoredFields _ hnames hdecoded] at hfound
  obtain ⟨hsteady, hwritesAs⟩ := writesAs_restoredFields hdistinct fun other _ hother _ =>
    absurd hother (hunknown other)
  intro other horder
  rw [hfound] at horder
  obtain ⟨-, own, hown, hsame⟩ := Value.writesAs_of_reorders horder hsteady hwritesAs
  have hdistinctOwn := Tree.distinct_of_canonical_eq hsame hdistinct
  exact ⟨own, hown, hread _ _ x hdistinct hdistinctOwn hsame.symm hback⟩

-- A typed read of a document gives a list, in whatever order hash containers yield their members.
def Yields (codec : Codec M) (target : String) (read : Tree → Except Mismatch α)
    (bytes : ByteArray) (xs : List α) : Prop :=
  codec.decodeCollection target read bytes = .ok (some xs) ∧
    ∀ result, codec.TypedResult target (readItems read) bytes result → result = .ok (some xs)

theorem yields_iff {codec : Codec M} {target : String} {read : Tree → Except Mismatch α}
    {bytes : ByteArray} {xs : List α} {find : α → Value M}
    (h : codec.decode bytes = .ok (.collection .list (xs.map find))) :
    codec.Yields target read bytes xs ↔ ∀ x ∈ xs, Recovers read (find x) x := by
  have hown := typedResult_decodeAs h target (readItems read)
  rw [Yields, and_iff_right_of_imp fun hall => hall _ hown, ← readAs_list_iff find]
  constructor
  · exact fun hall other horder => hall _ ⟨_, other, h, horder, rfl⟩
  · rintro hall _ ⟨_, other, hsame, horder, rfl⟩
    cases h.symm.trans hsame
    exact hall other horder

-- A list of objects is read back with their own type wherever the name they were written under
-- stands for the type. Elsewhere it depends on what the fields of the objects are taken for.
theorem typedResult_objects (writer : Codec M) (target : String) {type : M.Ty}
    {xs : List (M.Payload type)} (hwrites : M.WritesDistinct)
    (htrips : ∀ x ∈ xs, M.RoundTrips writer.config.discriminator type x)
    (hdepth : writer.documentNesting (.listOf type xs) ≤ maxDepth) :
    ∃ bytes, writer.encode (.listOf type xs) = .ok bytes ∧ ∀ reader : Codec M,
      reader.config.discriminator = writer.config.discriminator →
      (reader.Yields target (M.read type) bytes xs ↔
        ∀ x ∈ xs, Recovers (M.read type) (reader.received writer (.object ⟨type, x⟩)) x) ∧
      ((∀ x ∈ xs, reader.registry.resolve (writer.registry.nameOf ⟨type, x⟩) =
          some (.object type)) →
        reader.Yields target (M.read type) bytes xs) ∧
      (reader.registry = .empty → OrderFree (M.read type) →
        (∀ x ∈ xs, (Value.object ⟨type, x⟩).LacksName reader.config.discriminator ∧
          ¬reader.Ambiguous false (Value.object ⟨type, x⟩).plain) →
        reader.Yields target (M.read type) bytes xs) := by
  obtain ⟨bytes, hbytes, hdecode⟩ := decode_listOf hwrites htrips hdepth
  refine ⟨bytes, hbytes, fun reader hdiscriminator => ?_⟩
  have hiff : reader.Yields target (M.read type) bytes xs ↔
      ∀ x ∈ xs, Recovers (M.read type) (reader.received writer (.object ⟨type, x⟩)) x :=
    yields_iff (hdecode reader)
  refine ⟨hiff, fun hresolve => hiff.mpr fun x hx => ?_, fun hempty hread hplain =>
    hiff.mpr fun x hx => ?_⟩
  · exact recovers_of_resolve hdiscriminator (htrips x hx) (hresolve x hx)
  · refine recovers_of_plain hwrites hdiscriminator (htrips x hx) ?_ hread (hplain x hx).1
      (hplain x hx).2
    rw [hempty]
    exact Registry.resolve_empty_ne _

theorem typedResult_objects_switches :
    ∃ bytes, (Switch.codec false).encode (.listOf () [true, false]) = .ok bytes ∧
      (Switch.codec false).Yields "switches" (Switch.read ()) bytes [true, false] ∧
      (⟨.empty, .default⟩ : Codec Switch).Yields "switches" (Switch.read ()) bytes
        [true, false] := by
  have htrips : ∀ on ∈ [true, false], Switch.RoundTrips "@class" () on := by
    have hlacks : "@class" ∉ ["on"] := by decide
    exact fun on _ => ⟨[("on", .bool on)], rfl, hlacks, rfl⟩
  have hdepth : (Switch.codec false).documentNesting (.listOf () [true, false]) ≤ maxDepth := by
    decide
  obtain ⟨bytes, hbytes, hreader⟩ := typedResult_objects (Switch.codec false) "switches"
    Switch.writesDistinct htrips hdepth
  obtain ⟨-, hknown, -⟩ := hreader (Switch.codec false) rfl
  obtain ⟨-, -, hunknown⟩ := hreader ⟨.empty, .default⟩ rfl
  refine ⟨bytes, hbytes, hknown fun on _ => ?_, hunknown rfl Switch.orderFree_read fun on _ => ?_⟩
  · cases on <;> decide +kernel
  · refine ⟨Switch.lacksName (by decide) _, ?_⟩
    have htree : (Value.object (⟨(), on⟩ : Object Switch)).toTree =
        .ok (.object [("on", .bool on)]) := rfl
    rw [← Value.ofTree_of_toTree htree, Value.ofTree, ambiguous_map]
    rintro ⟨entry, hentry, hambiguous⟩
    cases List.mem_singleton.mp hentry
    cases hambiguous

end Codec

-- Both types are known, but the newer one was registered last and has the name.
def Lamp.sharedCodec : Codec Lamp := ⟨.ofPlan [.type false, .type true], .default⟩

-- An application with one type, a panel with a switch
def Panel : ObjectModel where
  Ty := Unit
  decEq := inferInstance
  name := fun _ => "demo.Panel"
  Payload := fun _ => Bool
  write := fun _ on => .ok (.object [("switch", .object [("on", .bool on)])])
  read := fun _ tree =>
    match tree with
    | .object [("switch", .object [("on", .bool on)])] => .ok on
    | other => .error (.wrongType (Found.ofTree other) "a panel")
  describe := fun _ _ => ""

namespace Codec

-- A list of objects does not always come back as their own type: the name of the type can have
-- been given to another one, and a registry without types takes fields inside objects for tags.
theorem decodeCollection_objects_lost :
    (¬∀ (codec : Codec Lamp) (target : String) (type : Bool) (xs : List Bool) (bytes : ByteArray),
      codec.config.validate = .ok codec.config → type ∈ Assoc.keys codec.registry.names →
      (∀ x ∈ xs, Lamp.RoundTrips codec.config.discriminator type x) →
      codec.encode (.listOf type xs) = .ok bytes →
      codec.documentNesting (.listOf type xs) ≤ maxDepth →
      codec.decodeCollection target (Lamp.read type) bytes = .ok (some xs)) ∧
    ¬∀ (registry : Registry Panel) (config : CodecConfig) (target : String) (xs : List Bool)
      (bytes : ByteArray), config.validate = .ok config →
      (∀ x ∈ xs, Panel.RoundTrips config.discriminator () x) →
      (⟨registry, config⟩ : Codec Panel).encode (.listOf () xs) = .ok bytes →
      (⟨registry, config⟩ : Codec Panel).documentNesting (.listOf () xs) ≤ maxDepth →
      (⟨.empty, config⟩ : Codec Panel).decodeCollection target (Panel.read ()) bytes =
        .ok (some xs) := by
  constructor
  · intro h
    let document : Tree := .array [.object [("@class", .string "demo.Lamp"), ("on", .bool true)]]
    have hlacks : "@class" ∉ ["on"] := by decide
    have hlost := h Lamp.sharedCodec "lamps" false [true] document.text.toUTF8 rfl
      List.mem_cons_self (fun on _ => ⟨[("on", .bool on)], rfl, hlacks, rfl⟩)
      (encode_eq_ok_iff.mpr (.inr ⟨document, rfl, rfl⟩)) (by decide)
    have hdecode : Lamp.sharedCodec.decode document.text.toUTF8 =
        .ok (.collection .list [.object ⟨true, false⟩]) :=
      (Lamp.sharedCodec.decode_text (by decide) (by decide)).trans rfl
    rw [decodeCollection, decodeAs_eq, hdecode] at hlost
    cases hlost
  · intro h
    let document : Tree := .array [.object
      [("on", .string "demo.Panel"), ("switch", .object [("on", .bool true)])]]
    have hlacks : "on" ∉ ["switch"] := by decide
    have hlost := h (.ofPlan [.type ()]) ⟨"on", false⟩ "panels" [true] document.text.toUTF8 rfl
      (fun on _ => ⟨[("switch", .object [("on", .bool on)])], rfl, hlacks, rfl⟩)
      (encode_eq_ok_iff.mpr (.inr ⟨document, rfl, rfl⟩)) (by decide)
    have hdecode : (⟨.empty, ⟨"on", false⟩⟩ : Codec Panel).decode document.text.toUTF8 =
        .ok (.collection .list [.map .unordered [("switch", .map .unordered [])]]) :=
      (Codec.decode_text _ (by decide) (by decide)).trans rfl
    rw [decodeCollection, decodeAs_eq, hdecode] at hlost
    cases hlost

end Codec

end TaggedCache
