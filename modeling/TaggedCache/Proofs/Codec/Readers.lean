import TaggedCache.Codec.Typed
import TaggedCache.Proofs.Codec.Reading
import TaggedCache.Proofs.Order.PlainTree

namespace TaggedCache

open Json

variable {M : ObjectModel} {α β : Type}

-- A reader that takes no notice of the order of fields
def OrderFree (read : Tree → Except Mismatch α) : Prop :=
  ∀ a b result, a.Distinct → b.Distinct → a.canonical = b.canonical →
    read a = .ok result → read b = .ok result

-- The plain tree of a value, read as a given type. A null is no value.
def Value.readAs (target : String) (read : Tree → Except Mismatch α) :
    Value M → Except CodecError (Option α)
  | .null => .ok none
  | value => do
      match read (← value.toTree) with
      | .ok result => return some result
      | .error problem => .error (.conversion target problem)

namespace Value

theorem readAs_eq_bind {target : String} {read : Tree → Except Mismatch α} {value : Value M}
    (hnull : value ≠ .null) :
    value.readAs target read = (do
      match read (← value.toTree) with
      | .ok result => return some result
      | .error problem => .error (.conversion target problem)) := by
  cases value <;> first | contradiction | rfl

theorem readAs_eq_ok_some_iff {target : String} {read : Tree → Except Mismatch α} {value : Value M}
    {result : α} (hnull : value ≠ .null) :
    value.readAs target read = .ok (some result) ↔
      ∃ tree, value.toTree = .ok tree ∧ read tree = .ok result := by
  rw [readAs_eq_bind hnull, bind_eq_ok_iff]
  refine exists_congr fun tree => and_congr_right fun _ => ?_
  cases read tree with
  | ok other => exact ⟨fun h => by cases h; rfl, fun h => by cases h; rfl⟩
  | error problem => exact ⟨nofun, nofun⟩

-- A value cannot be read if it has no tree, or if its tree does not fit.
theorem readAs_eq_error_iff {target : String} {read : Tree → Except Mismatch α} {value : Value M}
    {e : CodecError} :
    value.readAs target read = .error e ↔ value ≠ .null ∧ (value.toTree = .error e ∨
      ∃ tree problem, value.toTree = .ok tree ∧ read tree = .error problem ∧
        e = .conversion target problem) := by
  by_cases hnull : value = .null
  · subst hnull
    exact ⟨nofun, fun h => absurd rfl h.1⟩
  rw [readAs_eq_bind hnull, bind_eq_error_iff, and_iff_right hnull]
  refine or_congr_right (exists_congr fun tree => ?_)
  cases read tree with
  | ok result => exact ⟨fun h => (nomatch h.2), fun ⟨_, _, h, _⟩ => (nomatch h)⟩
  | error problem => simp [eq_comm]

-- What was read can be changed by the reader as well as afterwards.
theorem readAs_map_eq_ok_some_iff {target : String} {read : Tree → Except Mismatch α} (f : α → β)
    {value : Value M} (hnull : value ≠ .null) {result : β} :
    (value.readAs target read).map (Option.map f) = .ok (some result) ↔
      value.readAs target (fun tree => (read tree).map f) = .ok (some result) := by
  have hsome (x : Except CodecError (Option α)) :
      x.map (Option.map f) = .ok (some result) ↔ ∃ a, x = .ok (some a) ∧ f a = result := by
    rw [map_eq_ok_iff]
    simp only [Option.map_eq_some_iff]
    exact ⟨fun ⟨_, hx, a, ha, h⟩ => ⟨a, ha ▸ hx, h⟩, fun ⟨a, hx, h⟩ => ⟨_, hx, a, rfl, h⟩⟩
  simp only [hsome, readAs_eq_ok_some_iff hnull, map_eq_ok_iff]
  constructor
  · rintro ⟨a, ⟨tree, htree, hread⟩, h⟩
    exact ⟨tree, htree, a, hread, h⟩
  · rintro ⟨tree, htree, a, hread, h⟩
    exact ⟨a, ⟨tree, htree, hread⟩, h⟩

-- An order-free reader reads the same from every tree that a value could be written as.
theorem readAs_iff_of_writesAs {target : String} {read : Tree → Except Mismatch α}
    (hread : OrderFree read) {value : Value M} {tree : Tree} (hnull : value ≠ .null)
    (h : value.WritesAs tree) (hdistinct : tree.Distinct) (result : α) :
    value.readAs target read = .ok (some result) ↔ read tree = .ok result := by
  obtain ⟨own, hown, hsame⟩ := h
  have hdistinctOwn := Tree.distinct_of_canonical_eq hsame hdistinct
  rw [readAs_eq_ok_some_iff hnull]
  constructor
  · rintro ⟨_, htree, hresult⟩
    cases hown.symm.trans htree
    exact hread own tree result hdistinctOwn hdistinct hsame hresult
  · intro hresult
    exact ⟨own, hown, hread tree own result hdistinct hdistinctOwn hsame.symm hresult⟩

end Value

namespace Codec

theorem decodeAs_eq (codec : Codec M) (target : String) (read : Tree → Except Mismatch α)
    (bytes : ByteArray) :
    codec.decodeAs target read bytes = codec.decode bytes >>= Value.readAs target read := rfl

theorem orderFree_readItems {read : Tree → Except Mismatch α} (hread : OrderFree read) :
    OrderFree (readItems read) := by
  intro a b results ha hb hsame hresults
  cases a with
  | array items =>
      obtain ⟨others, rfl, hothers⟩ := Tree.exists_items_of_canonical_eq hsame
      rw [Tree.distinct_array] at ha hb
      rw [readItems, mapM_eq_ok_iff] at hresults ⊢
      refine forall₂_imp_mem (forall₂_of_common hothers hresults) ?_
      rintro other hother result - ⟨item, hitem, hcanonical, hresult⟩
      exact hread item other result (ha item hitem) (hb other hother) hcanonical hresult
  | _ => contradiction

-- The members of a collection, each read from its own plain tree
theorem readAs_items_iff {target : String} {read : Tree → Except Mismatch α}
    {kind : CollectionKind} {items : List (Value M)} {results : List α} :
    (Value.collection kind items).readAs target (readItems read) = .ok (some results) ↔
      List.Forall₂ (fun item result => ∃ tree, item.toTree = .ok tree ∧ read tree = .ok result)
        items results := by
  have hnull : Value.collection kind items ≠ .null := nofun
  rw [Value.readAs_eq_ok_some_iff hnull]
  constructor
  · rintro ⟨tree, htree, hread⟩
    obtain ⟨trees, htrees, rfl⟩ := Value.toTree_collection.mp htree
    rw [readItems, mapM_eq_ok_iff] at hread
    refine (forall₂_of_common htrees.flip hread).imp ?_
    exact fun item result ⟨tree, _, hitem, hresult⟩ => ⟨tree, hitem, hresult⟩
  · intro h
    obtain ⟨trees, htrees, hread⟩ := exists_between_of_forall₂ h
    exact ⟨.array trees, Value.toTree_collection.mpr ⟨trees, htrees, rfl⟩,
      mapM_eq_ok_iff.mpr hread⟩

-- The entries of an object with names that are not repeated, each read on its own
theorem readEntries_eq_ok_iff {read : Tree → Except Mismatch α} {fields : List (String × Tree)}
    (hnames : (Assoc.keys fields).Nodup) {results : List (String × α)} :
    readEntries .ok read (.object fields) = .ok results ↔
      List.Forall₂ (fun field result => field.1 = result.1 ∧ read field.2 = .ok result.2)
        fields results := by
  have hentry (field : String × Tree) (result : String × α) :
      (do
        let key ← Except.ok field.1
        let value ← read field.2
        return (key, value)) = .ok result ↔ field.1 = result.1 ∧ read field.2 = .ok result.2 := by
    simp only [bind_eq_ok_iff]
    constructor
    · rintro ⟨key, hkey, value, hvalue, h⟩
      cases hkey
      cases h
      exact ⟨rfl, hvalue⟩
    · rintro ⟨hname, hvalue⟩
      exact ⟨field.1, rfl, result.2, hvalue, congrArg Except.ok (Prod.ext hname rfl)⟩
  have hkeys {results : List (String × α)} (h : List.Forall₂ (fun field result =>
      field.1 = result.1 ∧ read field.2 = .ok result.2) fields results) :
      Assoc.ofList results = results := by
    have hsame : Assoc.keys fields = Assoc.keys results :=
      map_eq_map_of_forall₂ h fun _ _ _ _ hentry => hentry.1
    exact Assoc.ofList_of_nodup (hsame ▸ hnames)
  rw [readEntries, bind_eq_ok_iff]
  simp only [mapM_eq_ok_iff, hentry]
  constructor
  · rintro ⟨entries, hentries, h⟩
    cases (hkeys hentries).symm.trans (Except.ok.inj h)
    exact hentries
  · intro h
    exact ⟨results, h, congrArg Except.ok (hkeys h)⟩

-- Into a sorted map, entries are read whatever their order.
theorem orderFree_readEntries {read : Tree → Except Mismatch α} (hread : OrderFree read) :
    OrderFree fun tree => (readEntries .ok read tree).map (Assoc.sorted compare) := by
  intro a b results ha hb hsame hresults
  obtain ⟨found, hfound, rfl⟩ := map_eq_ok_iff.mp hresults
  cases a with
  | object fields =>
      obtain ⟨others, arranged, rfl, hperm, harranged⟩ := Tree.exists_fields_of_canonical_eq hsame
      rw [Tree.distinct_object] at ha hb
      rw [readEntries_eq_ok_iff ha.1] at hfound
      have hread : List.Forall₂ (fun field result =>
          field.1 = result.1 ∧ read field.2 = .ok result.2) arranged found := by
        refine forall₂_imp_mem (forall₂_of_common harranged hfound) ?_
        rintro other hother result - ⟨field, hfield, ⟨hname, hcanonical⟩, hkey, hresult⟩
        refine ⟨hname.symm.trans hkey, ?_⟩
        exact hread field.2 other.2 result.2 (ha.2 field hfield)
          (hb.2 other (hperm.mem_iff.mp hother)) hcanonical hresult
      obtain ⟨moved, hmoved, hback⟩ := List.perm_comp_forall₂ hperm.symm hread
      have hnames : Assoc.keys others = Assoc.keys moved :=
        map_eq_map_of_forall₂ hmoved fun _ _ _ _ hentry => hentry.1
      rw [map_eq_ok_iff]
      exact ⟨moved, (readEntries_eq_ok_iff hb.1).mpr hmoved,
        Assoc.sorted_eq_of_perm hback (hnames ▸ hb.1)⟩
  | _ => contradiction

-- What a typed read of a document can give: the hash containers of the value in between
-- may yield their members in any order.
def TypedResult (codec : Codec M) (target : String) (read : Tree → Except Mismatch α)
    (bytes : ByteArray) (result : Except CodecError (Option α)) : Prop :=
  ∃ back other, codec.decode bytes = .ok back ∧ back.Reorders other ∧
    other.readAs target read = result

theorem typedResult_decodeAs {codec : Codec M} {bytes : ByteArray} {back : Value M}
    (h : codec.decode bytes = .ok back) (target : String) (read : Tree → Except Mismatch α) :
    codec.TypedResult target read bytes (codec.decodeAs target read bytes) := by
  refine ⟨back, back, h, .refl, ?_⟩
  rw [decodeAs_eq, h]
  rfl

-- The document of a value reads as the value of another tree.
structure ReadsBack (codec : Codec M) (bytes : ByteArray) (back : Value M) (tree : Tree) :
    Prop where
  decode : codec.decode bytes = .ok back
  ne_null : back ≠ .null
  steady : back.Steady
  writesAs : back.WritesAs tree
  distinct : tree.Distinct

theorem typedResult_iff {codec : Codec M} {target : String} {read : Tree → Except Mismatch α}
    {bytes : ByteArray} {back : Value M} {tree : Tree} (hback : codec.ReadsBack bytes back tree)
    (hread : OrderFree read) {result : Except CodecError (Option α)}
    (hresult : codec.TypedResult target read bytes result) (found : α) :
    result = .ok (some found) ↔ read tree = .ok found := by
  obtain ⟨_, other, hdecode, horder, rfl⟩ := hresult
  cases hback.decode.symm.trans hdecode
  have hother := (Value.writesAs_of_reorders horder hback.steady hback.writesAs).2
  have hnull := Value.ne_null_of_reorders horder hback.ne_null
  exact Value.readAs_iff_of_writesAs hread hnull hother hback.distinct found

-- The same for a reader that is order-free only once its result is put in order
theorem typedResult_map_iff {codec : Codec M} {target : String} {read : Tree → Except Mismatch α}
    {f : α → β} {bytes : ByteArray} {back : Value M} {tree : Tree}
    (hback : codec.ReadsBack bytes back tree) (hread : OrderFree fun tree => (read tree).map f)
    {result : Except CodecError (Option α)} (hresult : codec.TypedResult target read bytes result)
    (found : β) :
    result.map (Option.map f) = .ok (some found) ↔ ∃ a, read tree = .ok a ∧ f a = found := by
  obtain ⟨_, other, hdecode, horder, rfl⟩ := hresult
  cases hback.decode.symm.trans hdecode
  have hnull := Value.ne_null_of_reorders horder hback.ne_null
  have hmapped : codec.TypedResult target (fun tree => (read tree).map f) bytes
      (other.readAs target fun tree => (read tree).map f) := ⟨back, other, hdecode, horder, rfl⟩
  rw [Value.readAs_map_eq_ok_some_iff f hnull, typedResult_iff hback hread hmapped, map_eq_ok_iff]

end Codec

end TaggedCache
