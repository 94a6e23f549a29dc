import TaggedCache.Proofs.Codec.Readers
import TaggedCache.Proofs.Codec.RoundTrip

namespace TaggedCache

open Json

variable {M : ObjectModel} {α : Type}

namespace Json.Tree

def isNull : Tree → Bool
  | .null => true
  | _ => false

-- An array without the nulls among its items
def withoutNulls : Tree → Tree
  | .array items => .array (items.filter (!·.isNull))
  | tree => tree

end Json.Tree

namespace Codec

theorem steady_ofTree {tree : Tree} (h : tree.Distinct) : (Value.ofTree tree : Value M).Steady := by
  induction tree with
  | null => exact Value.steady_null
  | bool | number | string => exact Value.steady_scalar _
  | array items ih =>
      rw [Value.ofTree, Value.steady_collection, Value.ofItems_eq, List.forall_mem_map]
      exact ⟨by simp, fun item hitem => ih item hitem (Tree.distinct_array.mp h item hitem)⟩
  | object fields ih =>
      obtain ⟨hnames, hfields⟩ := Tree.distinct_object.mp h
      rw [Value.ofTree, Value.steady_map, keys_ofFields, Value.ofFields_eq, List.forall_mem_map]
      exact ⟨hnames, fun field hfield => ih field hfield (hfields field hfield)⟩

theorem writesAs_ofTree (tree : Tree) : (Value.ofTree tree : Value M).WritesAs tree :=
  ⟨tree, Value.toTree_ofTree tree, rfl⟩

-- If the name that a member is written under stands for some type, then that type fails to read
-- the member's tree, or makes an object of it that has the same tree.
def KeepsTree (codec : Codec M) (member : Value M) : Prop :=
  ∀ name type tree object, codec.writtenName? member = some name →
    codec.registry.resolve name = some (.object type) → member.toTree = .ok tree →
    M.materialize type tree = .ok object → (Value.object object).WritesAs tree

-- Whatever fields become under a name, they can be written again.
theorem writesAs_restoredFields {codec : Codec M} {name : String} {fields : List (String × Tree)}
    (hdistinct : (Tree.object fields).Distinct)
    (hkeeps : ∀ type object, codec.registry.resolve name = some (.object type) →
      M.materialize type (.object fields) = .ok object →
        (Value.object object).WritesAs (.object fields)) :
    (codec.restoredFields name fields).Steady ∧
      (codec.restoredFields name fields).WritesAs (.object fields) := by
  have hplain : (Value.map .unordered (Value.ofFields fields) : Value M).Steady ∧
      (Value.map .unordered (Value.ofFields fields) : Value M).WritesAs (.object fields) :=
    ⟨steady_ofTree hdistinct, writesAs_ofTree (.object fields)⟩
  unfold restoredFields
  split
  · rename_i type hname
    split
    · rename_i object hread
      exact ⟨Value.steady_object object, hkeeps type object hname hread⟩
    · exact hplain
  · rename_i kind hname
    obtain ⟨hkeys, hentries⟩ := Value.steady_map.mp hplain.1
    have hperm := Keyed.ofList_perm kind hkeys
    have hkeysBack := (hperm.map Prod.fst).nodup_iff.mpr hkeys
    refine ⟨Value.steady_map.mpr ⟨hkeysBack, fun entry hentry => ?_⟩, ?_⟩
    · exact hentries entry (hperm.mem_iff.mp hentry)
    · exact Value.writesAs_of_perm hperm.symm hkeys hplain.2
  · exact hplain

theorem writesAs_decodeTree_member {codec : Codec M} {member : Value M} {written : Tree}
    (hwrites : M.WritesDistinct) (hmember : member.WellFormed)
    (hlacks : member.LacksName codec.config.discriminator) (hkeeps : codec.KeepsTree member)
    (h : codec.memberDocument member = .ok written) (hheadless : written.Every codec.Headless) :
    ∃ tree, member.toTree = .ok tree ∧ (codec.decodeTree true written).Steady ∧
      (codec.decodeTree true written).WritesAs tree := by
  cases hname : codec.writtenName? member with
  | none =>
      rw [memberDocument_of_unnamed hname] at h
      have huntagged := untagged_of_toTree hwrites hmember hlacks h hheadless
      rw [decodeTree_untagged huntagged]
      exact ⟨written, h, steady_ofTree huntagged.distinct, writesAs_ofTree written⟩
  | some name =>
      obtain ⟨fields, htree, rfl⟩ := memberDocument_of_named hname h
      have huntagged := untagged_fields hwrites hmember hlacks htree hheadless
      rw [decodeTree_tagged _ (Untagged.object_iff.mp huntagged).2.1, fieldsAs_untagged huntagged]
      refine ⟨.object fields, htree, writesAs_restoredFields huntagged.distinct ?_⟩
      exact fun type object hresolve hread => hkeeps name type _ object hname hresolve htree hread

-- What is written of a member that is not null is not null either.
theorem isNull_of_memberDocument {codec : Codec M} {member : Value M} {written tree : Tree}
    (hnull : member.isNull = false) (h : codec.memberDocument member = .ok written)
    (htree : member.toTree = .ok tree) : tree.isNull = false := by
  cases member with
  | null => contradiction
  | object object =>
      obtain ⟨fields, hfields, -⟩ := objectDocument_eq_ok_iff.mp h
      cases hfields.symm.trans htree
      rfl
  | scalar | collection | map =>
      have hplain := Value.ofTree_of_toTree htree
      cases tree with
      | null => cases hplain
      | _ => rfl

theorem exists_toTree_of_memberDocument {codec : Codec M} {member : Value M} {written : Tree}
    (h : codec.memberDocument member = .ok written) : ∃ tree, member.toTree = .ok tree := by
  cases hname : codec.writtenName? member with
  | none => exact ⟨written, memberDocument_of_unnamed hname ▸ h⟩
  | some name =>
      obtain ⟨fields, htree, -⟩ := memberDocument_of_named hname h
      exact ⟨_, htree⟩

-- The nulls of a collection are the nulls of its tree, if the rest can be written.
theorem exists_trees_of_written {codec : Codec M} {items : List (Value M)} {writtens : List Tree}
    (h : List.Forall₂ (fun item written => codec.memberDocument item = .ok written)
      (items.filter (!·.isNull)) writtens) :
    ∃ trees, List.Forall₂ (fun item tree => item.toTree = .ok tree) items trees ∧
      List.Forall₂ (fun item tree => item.toTree = .ok tree)
        (items.filter (!·.isNull)) (trees.filter (!·.isNull)) := by
  have htree : ∀ item ∈ items, ∃ tree, item.toTree = .ok tree ∧ item.isNull = tree.isNull := by
    intro item hitem
    cases hnull : item.isNull with
    | true =>
        cases item with
        | null => exact ⟨.null, rfl, rfl⟩
        | _ => contradiction
    | false =>
        have hkept : item ∈ items.filter (!·.isNull) := List.mem_filter.mpr ⟨hitem, by simp [hnull]⟩
        obtain ⟨written, -, hwritten⟩ := exists_right_of_mem h hkept
        obtain ⟨tree, htree⟩ := exists_toTree_of_memberDocument hwritten
        exact ⟨tree, htree, (isNull_of_memberDocument hnull hwritten htree).symm⟩
  obtain ⟨trees, htrees⟩ := exists_forall₂ htree
  refine ⟨trees, htrees.imp fun _ _ h => h.1, ?_⟩
  refine (List.rel_filter (fun item tree hsame => ?_) htrees).imp fun _ _ h => h.1
  simp [hsame.2]

-- A value and its document, in which only the tags of outermost members name a type
structure WritesPlainly (codec : Codec M) (value : Value M) (document : Tree) : Prop where
  wellFormed : value.WellFormed
  lacksName : value.LacksName codec.config.discriminator
  written : codec.document value = .ok (some document)
  depth_le : document.depth ≤ maxDepth
  headless : document.Every codec.Headless

theorem readsBack_collection {codec : Codec M} {kind : CollectionKind} {items : List (Value M)}
    {document : Tree} (hwrites : M.WritesDistinct) (hwrap : codec.config.wrapCollections = false)
    (h : codec.WritesPlainly (.collection kind items) document)
    (hkeeps : ∀ member ∈ items, codec.KeepsTree member) :
    ∃ tree back, (Value.collection kind items).toTree = .ok tree ∧
      codec.ReadsBack document.text.toUTF8 back tree.withoutNulls := by
  obtain ⟨hvalue, hlacks, hwritten, hdepth, hheadless⟩ := h
  have hdistinct := distinct_document hwrites hvalue hwritten
  obtain ⟨writtens, hwrittens, rfl⟩ :=
    collectionDocument_eq_ok_iff.mp (document_eq_ok_some_iff.mp hwritten)
  simp only [hwrap, Bool.false_and, Bool.false_eq_true, if_false] at hdistinct hdepth hheadless ⊢
  obtain ⟨hpair, hparts⟩ := Tree.every_array.mp hheadless
  obtain ⟨trees, htrees, hkept⟩ := exists_trees_of_written hwrittens
  have htree : (Value.collection kind items).toTree = .ok (.array trees) :=
    Value.toTree_collection.mpr ⟨trees, htrees, rfl⟩
  have hback : List.Forall₂ (fun written tree => (codec.decodeTree true written).Steady ∧
      (codec.decodeTree true written).WritesAs tree) writtens (trees.filter (!·.isNull)) := by
    refine forall₂_imp_mem (forall₂_of_common hwrittens hkept) ?_
    rintro written hmem tree - ⟨item, hitem, hsource, htree⟩
    have hmember := List.mem_of_mem_filter hitem
    obtain ⟨_, hsame, hsteady, hwritesAs⟩ := writesAs_decodeTree_member hwrites
      ((Value.wellFormed_collection.mp hvalue).2 item hmember)
      (Value.lacksName_collection.mp hlacks item hmember) (hkeeps item hmember) hsource
      (hparts written hmem)
    cases htree.symm.trans hsame
    exact ⟨hsteady, hwritesAs⟩
  refine ⟨.array trees, .collection .list (writtens.map (codec.decodeTree true)), htree, ?_⟩
  constructor
  · rw [codec.decode_text hdistinct hdepth, decodeTree_array (heading?_of_headless hpair false)]
  · exact nofun
  · rw [Value.steady_collection, List.forall_mem_map]
    refine ⟨nofun, fun written hmem => ?_⟩
    obtain ⟨tree, -, hsteady, -⟩ := exists_right_of_mem hback hmem
    exact hsteady
  · refine Value.writesAs_collection.mpr ⟨_, rfl, List.forall₂_map_left_iff.mpr ?_⟩
    exact hback.imp fun _ _ h => h.2
  · have hall := Tree.distinct_array.mp (Value.distinct_of_toTree hwrites hvalue htree)
    exact Tree.distinct_array.mpr fun tree htree => hall tree (List.mem_of_mem_filter htree)

theorem readsBack_map {codec : Codec M} {kind : MapKind} {entries : List (String × Value M)}
    {document : Tree} (hwrites : M.WritesDistinct)
    (h : codec.WritesPlainly (.map kind entries) document) :
    (Value.map kind entries).toTree = .ok document ∧
      ∃ back, codec.ReadsBack document.text.toUTF8 back document := by
  obtain ⟨hvalue, hlacks, hwritten, hdepth, hheadless⟩ := h
  have htree : (Value.map kind entries).toTree = .ok document := document_eq_ok_some_iff.mp hwritten
  have huntagged := untagged_of_toTree hwrites hvalue hlacks htree hheadless
  have hdistinct := huntagged.distinct
  refine ⟨htree, .ofTree document, ?_, ?_, steady_ofTree hdistinct, writesAs_ofTree document,
    hdistinct⟩
  · rw [codec.decode_text hdistinct hdepth, decodeTree_untagged huntagged]
  · obtain ⟨fields, -, rfl⟩ := Value.toTree_map.mp htree
    exact nofun

-- What the entries of a map are read as, each from the plain tree of its own value
def ReadsEach (read : Tree → Except Mismatch α) (entries : List (String × Value M))
    (results : List (String × α)) : Prop :=
  List.Forall₂ (fun entry result => entry.1 = result.1 ∧
    ∃ tree, entry.2.toTree = .ok tree ∧ read tree = .ok result.2) entries results

theorem readsEach_iff {read : Tree → Except Mismatch α} {entries : List (String × Value M)}
    {fields : List (String × Tree)} {results : List (String × α)}
    (h : List.Forall₂ (fun entry field => entry.1 = field.1 ∧ entry.2.toTree = .ok field.2)
      entries fields) :
    ReadsEach read entries results ↔
      List.Forall₂ (fun field result => field.1 = result.1 ∧ read field.2 = .ok result.2)
        fields results := by
  constructor
  · intro hresults
    refine (forall₂_of_common h hresults).imp ?_
    rintro field result ⟨entry, -, ⟨hname, htree⟩, hkey, tree, hsame, hread⟩
    cases htree.symm.trans hsame
    exact ⟨hname.symm.trans hkey, hread⟩
  · intro hresults
    refine (forall₂_of_common h.flip hresults).imp ?_
    rintro entry result ⟨field, -, ⟨hname, htree⟩, hkey, hread⟩
    exact ⟨hname.trans hkey, field.2, htree, hread⟩

-- A typed read gives what the plain tree of the written value reads as, whatever the order in
-- which hash containers yield their members.
theorem typedResult_encode_iff (codec : Codec M) (target : String)
    {read : Tree → Except Mismatch α} (hwrites : M.WritesDistinct)
    (hwrap : codec.config.wrapCollections = false) (hread : OrderFree read) :
    (∀ kind items document, codec.WritesPlainly (.collection kind items) document →
      (∀ member ∈ items, codec.KeepsTree member) →
      ∃ bytes tree, codec.encode (.collection kind items) = .ok bytes ∧
        (Value.collection kind items).toTree = .ok tree ∧
        codec.TypedResult target (readItems read) bytes
          (codec.decodeCollection target read bytes) ∧
        ∀ result, codec.TypedResult target (readItems read) bytes result → ∀ found,
          result = .ok (some found) ↔ readItems read tree.withoutNulls = .ok found) ∧
    ∀ kind entries document, codec.WritesPlainly (.map kind entries) document →
      ∃ bytes, codec.encode (.map kind entries) = .ok bytes ∧
        codec.TypedResult target (readEntries .ok read) bytes
          (codec.decodeMap target .ok read bytes) ∧
        ∀ result, codec.TypedResult target (readEntries .ok read) bytes result → ∀ found,
          result.map (Option.map (Assoc.sorted compare)) = .ok (some found) ↔
            ∃ results, ReadsEach read entries results ∧ Assoc.sorted compare results = found := by
  constructor
  · intro kind items document h hkeeps
    obtain ⟨tree, back, htree, hback⟩ := readsBack_collection hwrites hwrap h hkeeps
    have hbytes := encode_eq_ok_iff.mpr (.inr ⟨document, h.written, rfl⟩)
    refine ⟨_, tree, hbytes, htree, typedResult_decodeAs hback.decode target _, ?_⟩
    intro result hresult found
    exact typedResult_iff hback (orderFree_readItems hread) hresult found
  · intro kind entries document h
    obtain ⟨htree, back, hback⟩ := readsBack_map hwrites h
    have hbytes := encode_eq_ok_iff.mpr (.inr ⟨document, h.written, rfl⟩)
    refine ⟨_, hbytes, typedResult_decodeAs hback.decode target _, ?_⟩
    intro result hresult found
    obtain ⟨fields, hfields, rfl⟩ := Value.toTree_map.mp htree
    have hnames := (Tree.distinct_object.mp hback.distinct).1
    rw [typedResult_map_iff hback (orderFree_readEntries hread) hresult]
    refine exists_congr fun results => and_congr_left fun _ => ?_
    rw [readEntries_eq_ok_iff hnames, readsEach_iff hfields]

end Codec

theorem Switch.writesAs_of_materialize {type : Unit} {tree : Tree} {object : Object Switch}
    (h : Switch.materialize type tree = .ok object) : (Value.object object).WritesAs tree := by
  unfold ObjectModel.materialize at h
  split at h
  · rename_i on hread
    cases h
    simp only [Switch] at hread
    split at hread
    · cases hread
      exact ⟨_, rfl, rfl⟩
    · contradiction
  · contradiction

theorem Switch.orderFree_read : OrderFree (Switch.read ()) := by
  intro a b on ha hb hsame hread
  simp only [Switch] at hread
  split at hread
  · rename_i value
    cases hread
    obtain ⟨fields, arranged, rfl, hperm, harranged⟩ := Tree.exists_fields_of_canonical_eq hsame
    cases harranged with
    | cons hfield hrest =>
        cases hrest
        rename_i field
        obtain ⟨name, value⟩ := field
        cases value <;> simp [Tree.canonical] at hfield
        obtain ⟨rfl, hvalue⟩ := hfield
        cases hvalue
        rw [List.singleton_perm] at hperm
        subst hperm
        rfl
  · contradiction

namespace Codec

theorem typedResult_encode_iff_switches :
    (∃ bytes, (Switch.codec false).encode (.collection .linkedList
        [.object ⟨(), true⟩, .null, .map .sorted [("on", .scalar (.bool false))]]) = .ok bytes ∧
      (Switch.codec false).decodeCollection "switches" (Switch.read ()) bytes =
        .ok (some [true, false])) ∧
    ∃ bytes, (Switch.codec false).encode (.map .concurrent
        [("b", .object ⟨(), true⟩), ("a", .object ⟨(), false⟩)]) = .ok bytes ∧
      ((Switch.codec false).decodeMap "switches" .ok (Switch.read ()) bytes).map
        (Option.map (Assoc.sorted compare)) =
          .ok (some (Assoc.sorted compare [("b", true), ("a", false)])) := by
  obtain ⟨hcollection, hmap⟩ := typedResult_encode_iff (Switch.codec false) "switches"
    Switch.writesDistinct rfl Switch.orderFree_read
  constructor
  · obtain ⟨bytes, tree, hbytes, htree, hresult, hiff⟩ := hcollection .linkedList
      [.object ⟨(), true⟩, .null, .map .sorted [("on", .scalar (.bool false))]] _
      ⟨by simp [Collection.Proper, Keyed.Proper, Keyed.keys], by simp [Switch.lacksName], rfl,
        by decide, by decide +kernel⟩
      fun member _ name type tree object _ _ _ hread => Switch.writesAs_of_materialize hread
    cases htree
    exact ⟨bytes, hbytes, (hiff _ hresult [true, false]).mpr rfl⟩
  · obtain ⟨bytes, hbytes, hresult, hiff⟩ := hmap .concurrent
      [("b", .object ⟨(), true⟩), ("a", .object ⟨(), false⟩)] _
      ⟨by simp [Keyed.Proper, Keyed.keys], by simp [Switch.lacksName], rfl,
        by decide, by decide +kernel⟩
    refine ⟨bytes, hbytes, (hiff _ hresult _).mpr ⟨[("b", true), ("a", false)], ?_, rfl⟩⟩
    exact .cons ⟨rfl, _, rfl, rfl⟩ (.cons ⟨rfl, _, rfl, rfl⟩ .nil)

end Codec

-- An application with an older and a newer type of one name. The newer type reads what the older
-- one has written, but takes nothing over.
def Lamp : ObjectModel where
  Ty := Bool
  decEq := inferInstance
  name := fun _ => "demo.Lamp"
  Payload := fun _ => Bool
  write := fun newer on => .ok (.object [(if newer then "lit" else "on", .bool on)])
  read := fun newer tree =>
    match newer, tree with
    | false, .object [("on", .bool on)] => .ok on
    | true, .object [("lit", .bool on)] => .ok on
    | true, .object _ => .ok false
    | _, other => .error (.wrongType (Found.ofTree other) "a lamp")
  describe := fun _ _ => ""

-- Only the newer type is known.
def Lamp.codec : Codec Lamp := ⟨.ofPlan [.type true], .default⟩

namespace Codec

-- A typed read does not always see the plain tree: the name of an object's type can stand for
-- another type, even if no type in the written value is registered.
theorem decodeCollection_of_shared_name :
    ¬∀ (codec : Codec Lamp) (target : String) (read : Tree → Except Mismatch Bool)
      (kind : CollectionKind) (items : List (Value Lamp)) (document tree : Tree)
      (found : List Bool),
      codec.config.validate = .ok codec.config → codec.config.wrapCollections = false →
      OrderFree read → codec.WritesPlainly (.collection kind items) document →
      (∀ object ∈ (Value.collection kind items).objects,
        object.type ∈ Assoc.keys codec.registry.names → ∀ own again, object.toTree = .ok own →
          Lamp.materialize object.type own = .ok again → (Value.object again).WritesAs own) →
      (Value.collection kind items).toTree = .ok tree →
      ((codec.encode (.collection kind items) >>= codec.decodeCollection target read) =
        .ok (some found) ↔ readItems read tree.withoutNulls = .ok found) := by
  intro h
  let document : Tree := .array [.object [("@class", .string "demo.Lamp"), ("on", .bool true)]]
  have hplain : Lamp.codec.WritesPlainly (.collection .list [.object ⟨false, true⟩]) document := by
    have hlacks : (Value.object (⟨false, true⟩ : Object Lamp)).LacksName
        Lamp.codec.config.discriminator := by
      refine Value.lacksName_object.mpr ?_
      rintro _ ⟨⟩
      decide
    refine ⟨by simp [Collection.Proper], ?_, rfl, by decide, by decide +kernel⟩
    exact Value.lacksName_collection.mpr (List.forall_mem_singleton.mpr hlacks)
  have hregistered : ∀ object ∈ (Value.collection .list [.object ⟨false, true⟩]).objects,
      object.type ∈ Assoc.keys Lamp.codec.registry.names → ∀ own again, object.toTree = .ok own →
        Lamp.materialize object.type own = .ok again → (Value.object again).WritesAs own := by
    intro object hobject hmem
    have honly : object = ⟨false, true⟩ := List.mem_singleton.mp hobject
    subst honly
    exact absurd hmem (by decide)
  have hread := (h Lamp.codec "lamps" (Switch.read ()) .list [.object ⟨false, true⟩] document
    (.array [.object [("on", .bool true)]]) [true] rfl rfl Switch.orderFree_read hplain hregistered
    rfl).mpr rfl
  have hdecode : Lamp.codec.decode document.text.toUTF8 =
      .ok (.collection .list [.object ⟨true, false⟩]) :=
    (Lamp.codec.decode_text (by decide) (by decide)).trans rfl
  have herror : Lamp.codec.decodeCollection "lamps" (Switch.read ()) document.text.toUTF8 =
      .error (.conversion "lamps" (.wrongType .map "a switch")) := by
    rw [decodeCollection, decodeAs_eq, hdecode]
    rfl
  rw [encode_eq_ok_iff.mpr (.inr ⟨document, hplain.written, rfl⟩)] at hread
  cases herror.symm.trans hread

end Codec

end TaggedCache
