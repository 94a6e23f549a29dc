import TaggedCache.Proofs.Codec.Decoding
import TaggedCache.Proofs.Codec.Readers
import TaggedCache.Proofs.Value.Refusal
import TaggedCache.Typed.Record

namespace TaggedCache

open Json

variable {M : ObjectModel} {α β κ : Type}

namespace Value

-- A value from a document cannot be read if it does not fit or if an object in it refuses.
theorem error_cases_of_readAs {target : String} {read : Tree → Except Mismatch α} {value : Value M}
    {e : CodecError} (hleaves : value.Every FromTree) (h : value.readAs target read = .error e) :
    (∃ problem, e = .conversion target problem) ∨
      ∃ object text tree, value.Refuses object text ∧ M.read object.type tree = .ok object.payload ∧
        e = .encoding object.typeName (.refused text) := by
  obtain ⟨-, herror | ⟨tree, problem, -, -, he⟩⟩ := readAs_eq_error_iff.mp h
  · exact .inr (exists_refuses_of_toTree_eq_error hleaves herror)
  · exact .inl ⟨problem, he⟩

theorem exists_readAs_eq_encoding {target : String} {read : Tree → Except Mismatch α}
    {value : Value M} {object : Object M} {text : String} (hleaves : value.Every FromTree)
    (h : value.Refuses object text) :
    ∃ name problem, value.readAs target read = .error (.encoding name problem) := by
  have hnull : value ≠ .null := by
    rintro rfl
    cases h.1
  obtain ⟨e, herror⟩ := exists_toTree_eq_error_of_refuses h
  obtain ⟨cause, reason, -, -, -, rfl⟩ := exists_refuses_of_toTree_eq_error hleaves herror
  exact ⟨_, _, readAs_eq_error_iff.mpr ⟨hnull, .inl herror⟩⟩

end Value

namespace Codec

theorem fromTree_decodeTree (codec : Codec M) (isItem : Bool) (tree : Tree) :
    (codec.decodeTree isItem tree).Every Value.FromTree := by
  refine codec.every_decodeTree ?_ ?_ (fun _ _ => trivial) (fun _ _ => trivial) isItem tree
  · intro tree hleaf
    cases tree with
    | null => trivial
    | bool | string => exact ⟨_, rfl⟩
    | number value => exact ⟨_, Scalar.toTree_ofNumber value⟩
    | array | object => exact hleaf.elim
  · intro type tree object hread
    rw [ObjectModel.materialize] at hread
    split at hread
    · cases hread
      exact ⟨tree, ‹_›⟩
    · contradiction

theorem fromTree_of_decode {codec : Codec M} {bytes : ByteArray} {value : Value M}
    (h : codec.decode bytes = .ok value) : value.Every Value.FromTree := by
  rcases decode_eq_ok_iff.mp h with ⟨-, rfl⟩ | ⟨tree, -, rfl⟩
  · exact Value.every_null.mpr trivial
  · exact codec.fromTree_decodeTree false tree

theorem malformed_of_decode {codec : Codec M} {bytes : ByteArray} {e : CodecError}
    (h : codec.decode bytes = .error e) : e.isMalformed = true := by
  rw [decode] at h
  split at h
  · contradiction
  · split at h
    · contradiction
    · cases h
      rfl

-- How a typed read of a document ends, if it gives nothing: the document cannot be decoded, or
-- some object in the decoded value refuses to be written, or the target does not fit.
structure ReadOutcome (codec : Codec M) (target : String) (bytes : ByteArray)
    (result : Except CodecError β) : Prop where
  malformed_iff : ∀ e, result = .error e ∧ e.isMalformed = true ↔ codec.decode bytes = .error e
  refused_iff : (∃ name problem, result = .error (.encoding name problem)) ↔
    ∃ back object text, codec.decode bytes = .ok back ∧ back.Refuses object text
  error_cases : ∀ e, result = .error e → e.isMalformed = true ∨
    (∃ problem, e = .conversion target problem) ∨
    ∃ back object text tree, codec.decode bytes = .ok back ∧ back.Refuses object text ∧
      M.read object.type tree = .ok object.payload ∧ e = .encoding object.typeName (.refused text)

theorem readOutcome_of_decode_error {codec : Codec M} {bytes : ByteArray} {e : CodecError}
    (h : codec.decode bytes = .error e) (target : String) :
    codec.ReadOutcome target bytes (.error e : Except CodecError β) := by
  have hmalformed := malformed_of_decode h
  refine ⟨fun other => ?_, ?_, ?_⟩
  · rw [h, Except.error.injEq, Except.error.injEq]
    exact ⟨fun hother => hother.1, fun hother => ⟨hother, hother ▸ hmalformed⟩⟩
  · constructor
    · rintro ⟨name, problem, ⟨⟩⟩
      contradiction
    · rintro ⟨back, object, text, hback, -⟩
      cases h.symm.trans hback
  · rintro _ ⟨⟩
    exact .inl hmalformed

-- Reads end like this in whatever order hash containers yield their members.
theorem readOutcome_readAs {codec : Codec M} {bytes : ByteArray} {back other : Value M}
    (hback : codec.decode bytes = .ok back) (horder : back.Reorders other) (target : String)
    (read : Tree → Except Mismatch α) :
    codec.ReadOutcome target bytes (other.readAs target read) := by
  have hleaves : other.Every Value.FromTree :=
    (Value.every_iff_of_reorders (fun _ _ => trivial) (fun _ _ => trivial) horder).mp
      (fromTree_of_decode hback)
  have hrefuses (object : Object M) (text : String) :
      back.Refuses object text ↔ other.Refuses object text :=
    and_congr_left fun _ => Value.mem_objects_iff_of_reorders horder object
  have hcases {e : CodecError} (he : other.readAs target read = .error e) :=
    Value.error_cases_of_readAs hleaves he
  refine ⟨fun e => ?_, ?_, fun e he => .inr ((hcases he).imp_right ?_)⟩
  · rw [hback]
    refine iff_of_false ?_ nofun
    rintro ⟨he, hmalformed⟩
    rcases hcases he with ⟨problem, rfl⟩ | ⟨object, text, tree, -, -, rfl⟩ <;> contradiction
  · constructor
    · rintro ⟨name, problem, he⟩
      rcases hcases he with ⟨_, ⟨⟩⟩ | ⟨object, text, -, hrefused, -⟩
      exact ⟨back, object, text, hback, (hrefuses object text).mpr hrefused⟩
    · rintro ⟨_, object, text, hsame, hrefused⟩
      cases hback.symm.trans hsame
      exact Value.exists_readAs_eq_encoding hleaves ((hrefuses object text).mp hrefused)
  · rintro ⟨object, text, tree, hrefused, hread⟩
    exact ⟨back, object, text, tree, hback, (hrefuses object text).mpr hrefused, hread⟩

theorem readOutcome_decodeAs (codec : Codec M) (target : String) (read : Tree → Except Mismatch α)
    (bytes : ByteArray) : codec.ReadOutcome target bytes (codec.decodeAs target read bytes) := by
  rw [decodeAs_eq]
  cases hback : codec.decode bytes with
  | error e => exact readOutcome_of_decode_error hback target
  | ok back => exact readOutcome_readAs hback .refl target read

-- A typed read reports the errors of decoding and of conversion, and no others, unless the
-- document holds an object that can be read, but not be written.
theorem readOutcome_typed [DecidableEq κ] (codec : Codec M) (target : String)
    (readKey : String → Except Mismatch κ) (read : Tree → Except Mismatch α) (bytes : ByteArray) :
    (codec.ReadOutcome target bytes (codec.decodeCollection target read bytes) ∧
      codec.ReadOutcome target bytes (codec.decodeMap target readKey read bytes)) ∧
    (∀ result, codec.TypedResult target (readItems read) bytes result →
      codec.ReadOutcome target bytes result) ∧
    ∀ result, codec.TypedResult target (readEntries readKey read) bytes result →
      codec.ReadOutcome target bytes result := by
  refine ⟨⟨codec.readOutcome_decodeAs target _ bytes, codec.readOutcome_decodeAs target _ bytes⟩,
    ?_, ?_⟩ <;>
  · rintro _ ⟨back, other, hback, horder, rfl⟩
    exact readOutcome_readAs hback horder target _

end Codec

-- An application with one type, a table whose rows have two keys. It is read from a list of
-- rows, but there is no tree for a table that is not empty.
def Grid : ObjectModel where
  Ty := Unit
  decEq := inferInstance
  name := fun _ => "demo.Grid"
  Payload := fun _ => Datum
  write := fun _ => Datum.toTree
  read := fun _ =>
    (Layout.record "Grid" [.plain "cells" (.table [.signed 32, .signed 32] .string)] false).read
  describe := fun _ => Datum.describe

namespace Grid

def codec : Codec Grid := ⟨.ofPlan [.type ()], .default⟩

-- A list of one table
def tree : Tree := .array [.object [("@class", .string "demo.Grid"),
  ("cells", .array [.array [.number (.ofInt64 1), .number (.ofInt64 2), .string "x"]])]]

def object : Object Grid :=
  ⟨(), .record "Grid"
    [("cells", .table [[.number (.ofInt64 1), .number (.ofInt64 2), .string "x"]])]⟩

theorem decode_tree :
    codec.decode tree.text.toUTF8 = .ok (.collection .list [.object object]) := by
  rw [codec.decode_text (by decide) (by decide)]
  rfl

end Grid

namespace Codec

theorem readOutcome_typed_grid :
    ∃ name problem, Grid.codec.decodeCollection "rows" Except.ok Grid.tree.text.toUTF8 =
      .error (.encoding name problem) := by
  obtain ⟨⟨houtcome, -⟩, -⟩ := readOutcome_typed Grid.codec "rows" Except.ok Except.ok
    Grid.tree.text.toUTF8
  exact houtcome.refused_iff.mpr ⟨_, Grid.object, Datum.compositeKey, Grid.decode_tree,
    List.mem_singleton_self _, rfl⟩

-- A read can end with an error of writing: the types of objects in a document may be unable to
-- write what they have read.
theorem decodeCollection_eq_encoding_error :
    ¬∀ (codec : Codec Grid) (target : String) (read : Tree → Except Mismatch Tree)
      (bytes : ByteArray) (name : String) (problem : EncodeProblem),
      codec.config.validate = .ok codec.config →
      codec.decodeCollection target read bytes ≠ .error (.encoding name problem) := by
  intro h
  refine h Grid.codec "rows" .ok Grid.tree.text.toUTF8 "demo.Grid"
    (.refused Datum.compositeKey) rfl ?_
  rw [decodeCollection, decodeAs_eq, Grid.decode_tree]
  rfl

end Codec

end TaggedCache
