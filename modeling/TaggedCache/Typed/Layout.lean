import TaggedCache.Json.Draft
import TaggedCache.Mismatch
import TaggedCache.Typed.Datum

namespace TaggedCache

open Binary Json

-- Why a text holds no value of a type: what it holds is of another type,
-- or it breaks off before that shows
inductive Refusal where
  | misfit
  | malformed
  deriving DecidableEq

namespace Refusal

-- How reading ends where a draft of another type is met. A leaf has to be read for that,
-- a container does not.
def ofDraft : Draft → Refusal
  | .broken | .string none => malformed
  | .number numeral => if numeral.number?.isNone then malformed else misfit
  | _ => misfit

end Refusal

-- What was read of data that are complete: what does not fit there is of another type
def fitted {α : Type} (result : Except Mismatch α) : Except Refusal α :=
  result.mapError fun _ => .misfit

-- How values of a type are laid out: how one is read from a tree, and how from a text. A field
-- of a record with this layout may be missing if there is a value for that.
structure Layout where
  read : Tree → Except Mismatch Datum
  readDraft : Draft → Except Refusal Datum
  absent : Option Datum

namespace Layout

def wrongType {α : Type} (tree : Tree) (expected : String) : Except Mismatch α :=
  .error (.wrongType (Found.ofTree tree) expected)

-- Values that a text holds the way a tree does
def leaf (read : Tree → Except Mismatch Datum) : Layout where
  read
  readDraft draft :=
    match draft.tree? with
    | some tree => fitted (read tree)
    | none => .error (.ofDraft draft)
  absent := none

def bool : Layout :=
  leaf fun
    | .bool value => .ok (.bool value)
    | tree => wrongType tree "a boolean"

def string : Layout :=
  leaf fun
    | .string value => .ok (.string value)
    | tree => wrongType tree "a string"

-- A text of one character
def char : Layout :=
  leaf fun
    | .string value =>
        if value.length = 1 then .ok (.string value)
        else .error (.wrongValue (.string value) "a character")
    | tree => wrongType tree "a character"

-- Whole numbers between two bounds
def whole (name : String) (least greatest : Int) : Layout :=
  leaf fun
    | .number (.whole value lower upper) =>
        let number := Number.whole value lower upper
        if least ≤ value ∧ value ≤ greatest then .ok (.number number)
        else .error (.wrongValue (.number number) name)
    | tree => wrongType tree name

-- Whole numbers of the given number of bits
def unsigned (bits : Nat) : Layout := whole ("u" ++ toString bits) 0 (Nat.pow 2 bits - 1)

def signed (bits : Nat) : Layout :=
  whole ("i" ++ toString bits) (-Nat.pow 2 (bits - 1)) (Nat.pow 2 (bits - 1) - 1)

-- Any number, as a double
def double : Layout :=
  leaf fun
    | .number number => .ok (.double number.toDouble)
    | tree => wrongType tree "f64"

-- A type with a single value
def unit (expected : String) : Layout :=
  leaf fun
    | .null => .ok .null
    | tree => wrongType tree expected

-- Any number, as a single. In a text it must not be too large for one.
def single : Layout where
  read
    | .number number => .ok (.single number.toSingle)
    | tree => wrongType tree "f32"
  readDraft
    | .number numeral =>
        match numeral.single? with
        | some value => .ok (.single value)
        | none => .error .malformed
    | draft => .error (.ofDraft draft)
  absent := none

-- Any tree, kept as it is
def any : Layout where
  read tree := .ok (.tree tree)
  readDraft draft :=
    match draft.tree? with
    | some tree => .ok (.tree tree)
    | none => .error .malformed
  absent := none

-- A value, or null for its absence
def optional (layout : Layout) : Layout where
  read
    | .null => .ok .null
    | tree => layout.read tree
  readDraft
    | .null => .ok .null
    | draft => layout.readDraft draft
  absent := some .null

-- Any number of values of one layout
def list (layout : Layout) : Layout where
  read
    | .array items => (items.mapM layout.read).map .list
    | tree => wrongType tree "a sequence"
  readDraft
    | .array items closed => do
        let values ← items.mapM layout.readDraft
        if closed then return .list values else .error .malformed
    | draft => .error (.ofDraft draft)
  absent := none

-- Read a whole document, which has to end with the value it holds
def readDocument (layout : Layout) (document : ByteArray) : Except Refusal Datum := do
  let (draft, ended) := Draft.ofDocument document
  let value ← layout.readDraft draft
  if ended then return value else .error .malformed

end Layout

end TaggedCache
