import TaggedCache.Json.Draft
import TaggedCache.Mismatch

namespace TaggedCache

open Json

-- A key of a typed map
inductive Key where
  | bool (value : Bool)
  | number (value : Int)
  | text (value : String)
  deriving DecidableEq

namespace Key

def rank : Key → Nat
  | bool _ => 0
  | number _ => 1
  | text _ => 2

def compare : Key → Key → Ordering
  | bool a, bool b => Ord.compare a b
  | number a, number b => Ord.compare a b
  | text a, text b => Ord.compare a b
  | a, b => Ord.compare a.rank b.rank

-- The document text of a key
def chars : Key → List Char
  | bool value => Tree.chars (.bool value)
  | number value => intChars value
  | text value => stringChars value

end Key

-- How the keys of a typed map are read from the names of entries
inductive KeyLayout where
  | string
  | char
  | bool
  | whole (name : String) (least greatest : Int)

namespace KeyLayout

-- Where a reader stands in a text after a number of bytes
def placeAfter (name : String) (bytes : Nat) : Place :=
  let seen := name.toUTF8.toList.take bytes
  ⟨seen.count 0x0A + 1, (seen.reverse.takeWhile (· ≠ 0x0A)).length⟩

-- A problem with a numeral, and how many bytes it takes to see it
abbrev Problem := String × Nat

def invalidNumber : String := "invalid number"

def endOfText : String := "EOF while parsing a value"

-- Digits that have to follow at a point of a numeral: a text that ends there is cut off,
-- and anything else is seen one byte later
def missingDigits (read : Nat) : List Char → Problem
  | [] => (endOfText, read)
  | _ => (invalidNumber, read + 1)

-- What is wrong with the exponent of a numeral, if anything
def exponentProblem? (read : Nat) : List Char → Option Problem
  | [] => none
  | c :: text =>
      if c = 'e' || c = 'E' then
        let digits := (scanSign text).2
        let read := read + 1 + (text.length - digits.length)
        if (spanDigits digits).1.isEmpty then some (missingDigits read digits) else none
      else none

-- What is wrong with what follows the digits before the point, if anything
def fractionProblem? (read : Nat) : List Char → Option Problem
  | '.' :: text =>
      let (digits, rest) := spanDigits text
      if digits.isEmpty then some (missingDigits (read + 1) text)
      else exponentProblem? (read + 1 + digits.length) rest
  | text => exponentProblem? read text

-- What is wrong with a numeral without its sign, if anything
def numeralProblem? (read : Nat) (text : List Char) : Option Problem :=
  match spanDigits text with
  | ([], rest) => some (missingDigits read rest)
  | ('0' :: _ :: _, _) => some (invalidNumber, read + 2)
  | (digits, rest) => fractionProblem? (read + digits.length) rest

-- An exponent is read no further than to the digit that makes it greater than this
def greatestExponent : Nat := 0x7FFFFFFF

-- How much of a numeral is read before it turns out to be too large
def readUntilTooLarge (text : List Char) : Nat :=
  let start := (text.takeWhile fun c => c ≠ 'e' && c ≠ 'E').length
  let digits := (scanSign (text.drop (start + 1))).2
  let skipped := text.length - digits.length
  let tooLarge := fun (count : Nat) => greatestExponent < Nat.ofDigitChars 10 (digits.take count) 0
  match (List.range (digits.length + 1)).find? tooLarge with
  | some count => skipped + count
  | none => text.length

-- The whole number that an entry is named by. A fraction or an exponent makes another type of it.
def readWhole (expected : String) (least greatest : Int) (name : String) :
    Except Mismatch Key :=
  let text := name.toList
  let startsNumeral := match text with
    | c :: _ => isDigit c || c == '-'
    | [] => false
  if !startsNumeral then .error .keyNotNumeric
  else
    match scanNumeral text with
    | none =>
        let (problem, read) := match text with
          | '-' :: text => (numeralProblem? 1 text).getD (invalidNumber, 0)
          | text => (numeralProblem? 0 text).getD (invalidNumber, 0)
        .error (.keyNumeral problem (placeAfter name read))
    | some (numeral, rest) =>
        let written := text.take (text.length - rest.length)
        let place := placeAfter name written.length
        match numeral.number? with
        | none =>
            .error (.keyNumeral "number out of range" (placeAfter name (readUntilTooLarge written)))
        | some number =>
            match number with
            | .whole value _ _ =>
                if least ≤ value ∧ value ≤ greatest then
                  if rest.isEmpty then .ok (.number value) else .error .keyNotNumeric
                else .error (.keyNumber (.wrongValue (.number number) expected) place)
            | .double .. => .error (.keyNumber (.wrongType (.number number) expected) place)

def read (layout : KeyLayout) (name : String) : Except Mismatch Key :=
  match layout with
  | string => .ok (.text name)
  | char =>
      if name.length = 1 then .ok (.text name)
      else .error (.wrongValue (.string name) "a character")
  | bool =>
      if name = "true" then .ok (.bool true)
      else if name = "false" then .ok (.bool false)
      else .error (.wrongType (.string name) "a boolean")
  | whole expected least greatest => readWhole expected least greatest name

end KeyLayout

end TaggedCache
