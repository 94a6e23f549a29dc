import TaggedCache.Json.Printer
import TaggedCache.Json.Token
import Mathlib.Tactic.SplitIfs

namespace TaggedCache.Json

-- Controls without a letter of their own are written as code units.
def writtenAsUnit (c : Char) : Bool :=
  c.toNat < 0x20 && !(c ∈ ['\x08', '\x0c', '\n', '\r', '\t'])

-- How a character comes back from its text
def pieceOf (c : Char) : Piece := if writtenAsUnit c then .unit c.toNat else .char c

theorem hexDigit?_digitChar {d : Nat} (h : d < 16) : hexDigit? (Nat.digitChar d) = some d := by
  have hall : ∀ d < 16, hexDigit? (Nat.digitChar d) = some d := by decide
  exact hall d h

theorem hexUnit?_digitChars {code : Nat} (h : code < 0x20) :
    hexUnit? '0' '0' (Nat.digitChar (code / 16)) (Nat.digitChar (code % 16)) = some code := by
  have hzero : hexDigit? '0' = some 0 := by decide
  simp [hexUnit?, hzero, hexDigit?_digitChar (show code / 16 < 16 by omega),
    hexDigit?_digitChar (show code % 16 < 16 by omega)]
  omega

-- Put a piece in front of what was read
def before (piece : Piece) (reading : List Piece × List Char) : List Piece × List Char :=
  (piece :: reading.1, reading.2)

theorem scanPieces_letter {letter c : Char} (h : escaped? letter = some c) (rest : List Char) :
    scanPieces ('\\' :: letter :: rest) = (scanPieces rest).map (before (.char c)) := by
  have hu : letter ≠ 'u' := by
    rintro rfl
    simp [escaped?] at h
  rw [scanPieces.eq_def]
  split
  · simp_all
  · simp_all
  · rename_i heq
    obtain ⟨rfl, rfl⟩ := List.cons.inj (List.cons.inj heq).2
    rw [h]
    cases scanPieces rest <;> rfl
  · rename_i hother heq
    obtain ⟨rfl, rfl⟩ := List.cons.inj heq
    exact absurd rfl (hother _ _ rfl)
  · simp_all

theorem scanPieces_unit {a b c d : Char} {code : Nat} (h : hexUnit? a b c d = some code)
    (rest : List Char) :
    scanPieces ('\\' :: 'u' :: a :: b :: c :: d :: rest) =
      (scanPieces rest).map (before (.unit code)) := by
  rw [scanPieces, h]
  cases scanPieces rest <;> rfl

theorem scanPieces_char {c : Char} (hquote : c ≠ '"') (hslash : c ≠ '\\')
    (hcontrol : ¬c.toNat < 0x20) (rest : List Char) :
    scanPieces (c :: rest) = (scanPieces rest).map (before (.char c)) := by
  rw [scanPieces.eq_def]
  split <;> simp_all
  rename_i heq
  obtain ⟨rfl, rfl⟩ := heq
  rw [if_neg (by omega)]
  cases scanPieces rest <;> rfl

theorem scanPieces_escape (c : Char) (rest : List Char) :
    scanPieces (escape c ++ rest) = (scanPieces rest).map (before (pieceOf c)) := by
  unfold escape
  split_ifs with hquote hslash hb hf hn hr ht hcontrol
  · subst c
    exact scanPieces_letter rfl rest
  · subst c
    exact scanPieces_letter rfl rest
  · subst c
    exact scanPieces_letter rfl rest
  · subst c
    exact scanPieces_letter rfl rest
  · subst c
    exact scanPieces_letter rfl rest
  · subst c
    exact scanPieces_letter rfl rest
  · subst c
    exact scanPieces_letter rfl rest
  · have hunit : writtenAsUnit c = true := by simp [writtenAsUnit, hcontrol, hb, hf, hn, hr, ht]
    rw [pieceOf, if_pos hunit]
    exact scanPieces_unit (hexUnit?_digitChars hcontrol) rest
  · have hchar : writtenAsUnit c = false := by simp [writtenAsUnit, hcontrol]
    rw [pieceOf, hchar]
    exact scanPieces_char hquote hslash hcontrol rest

theorem scanPieces_flatMap_escape (text rest : List Char) :
    scanPieces (text.flatMap escape ++ '"' :: rest) = some (text.map pieceOf, rest) := by
  induction text with
  | nil => rfl
  | cons c text ih =>
      rw [List.flatMap_cons, List.append_assoc, scanPieces_escape, ih]
      rfl

theorem spell_map_pieceOf (text : List Char) : spell (text.map pieceOf) = some text := by
  induction text with
  | nil => rfl
  | cons c text ih =>
      rw [List.map_cons, pieceOf]
      split_ifs with hunit
      · have hcode : c.toNat < 0x20 := by
          simp only [writtenAsUnit, Bool.and_eq_true, decide_eq_true_eq] at hunit
          exact hunit.1
        have hhigh : isHighUnit c.toNat = false := by simp [isHighUnit]; omega
        have hlow : isLowUnit c.toNat = false := by simp [isLowUnit]; omega
        rw [spell.eq_def]
        split <;> simp_all
        all_goals
          rename_i heq
          rw [← heq.1, Char.ofNat_toNat]
      · simp [spell, ih]

-- A string reads back as itself after its opening quote.
theorem scanString_stringChars (s : String) (rest : List Char) :
    scanString (s.toList.flatMap escape ++ '"' :: rest) = some (some s, rest) := by
  simp [scanString, scanPieces_flatMap_escape, spell_map_pieceOf]

end TaggedCache.Json
