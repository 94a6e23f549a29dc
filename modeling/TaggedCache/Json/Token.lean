import TaggedCache.Json.Tree

namespace TaggedCache.Json

open Binary

-- A number as a text writes it: its digits as one whole number, times a power of ten.
-- A plain numeral has neither a fraction nor an exponent.
structure Numeral where
  negative : Bool
  digits : Nat
  exponent : Int
  plain : Bool
  deriving DecidableEq

-- The number a numeral stands for, unless it is too large. A whole number of more than
-- 64 bits is taken as a double, and so is minus zero.
def Numeral.number? (n : Numeral) : Option Number :=
  let value : Int := if n.negative then -n.digits else n.digits
  let whole := if n.plain && !(n.negative && n.digits == 0) then Number.ofInt? value else none
  whole.orElse fun _ => Number.ofDouble? (Binary64.ofDecimal n.negative n.digits n.exponent)

-- The single a numeral stands for, unless it is too large. Plain digits of at most 64 bits are
-- taken as a number first, which may be a double, and anything else is rounded only once.
def Numeral.single? (n : Numeral) : Option Binary32 :=
  if n.plain && n.digits < 0x10000000000000000 then n.number?.map Number.toSingle
  else
    let value := Binary32.ofDecimal n.negative n.digits n.exponent
    if value.isFinite then some value else none

def isSpace (c : Char) : Bool := c == ' ' || c == '\t' || c == '\n' || c == '\r'

def skipSpace (text : List Char) : List Char := text.dropWhile isSpace

-- A part of a string: a character, or a code unit that was written as an escape
inductive Piece where
  | char (c : Char)
  | unit (code : Nat)

def hexDigit? (c : Char) : Option Nat :=
  if '0' ≤ c && c ≤ '9' then some (c.toNat - 48)
  else if 'a' ≤ c && c ≤ 'f' then some (c.toNat - 87)
  else if 'A' ≤ c && c ≤ 'F' then some (c.toNat - 55)
  else none

def hexUnit? (a b c d : Char) : Option Nat := do
  let a ← hexDigit? a
  let b ← hexDigit? b
  let c ← hexDigit? c
  let d ← hexDigit? d
  return ((a * 16 + b) * 16 + c) * 16 + d

-- The character of an escape of one letter
def escaped? (c : Char) : Option Char :=
  match c with
  | '"' => some '"'
  | '\\' => some '\\'
  | '/' => some '/'
  | 'b' => some '\x08'
  | 'f' => some '\x0c'
  | 'n' => some '\n'
  | 'r' => some '\r'
  | 't' => some '\t'
  | _ => none

-- The pieces of a string up to its closing quote, and the text after it
def scanPieces : List Char → Option (List Piece × List Char)
  | '"' :: rest => some ([], rest)
  | '\\' :: 'u' :: a :: b :: c :: d :: rest => do
      let code ← hexUnit? a b c d
      let (pieces, rest) ← scanPieces rest
      return (.unit code :: pieces, rest)
  | '\\' :: c :: rest => do
      let c ← escaped? c
      let (pieces, rest) ← scanPieces rest
      return (.char c :: pieces, rest)
  | c :: rest =>
      if c.toNat < 0x20 || c == '\\' then none
      else do
        let (pieces, rest) ← scanPieces rest
        return (.char c :: pieces, rest)
  | [] => none

def isHighUnit (code : Nat) : Bool := 0xD800 ≤ code && code < 0xDC00

def isLowUnit (code : Nat) : Bool := 0xDC00 ≤ code && code < 0xE000

-- The characters that pieces spell. A high unit has to be followed by a low one,
-- and a low unit by itself spells nothing.
def spell : List Piece → Option (List Char)
  | [] => some []
  | .char c :: rest => (spell rest).map (c :: ·)
  | .unit high :: .unit low :: rest =>
      if isHighUnit high && isLowUnit low then
        (spell rest).map (Char.ofNat (0x10000 + (high - 0xD800) * 0x400 + (low - 0xDC00)) :: ·)
      else if isHighUnit high || isLowUnit high then none
      else (spell (.unit low :: rest)).map (Char.ofNat high :: ·)
  | .unit code :: rest =>
      if isHighUnit code || isLowUnit code then none
      else (spell rest).map (Char.ofNat code :: ·)

-- A string after its opening quote
def scanString (text : List Char) : Option (Option String × List Char) :=
  (scanPieces text).map fun (pieces, rest) => ((spell pieces).map String.ofList, rest)

def isDigit (c : Char) : Bool := '0' ≤ c && c ≤ '9'

-- Digits at the start of a text, and what follows them
def spanDigits (text : List Char) : List Char × List Char :=
  (text.takeWhile isDigit, text.dropWhile isDigit)

-- The digits before the point: a single zero, or digits that do not start with one
def scanWhole (text : List Char) : Option (List Char × List Char) :=
  match spanDigits text with
  | ([], _) => none
  | ('0' :: _ :: _, _) => none
  | (digits, rest) => some (digits, rest)

-- The digits after a point, if there is one
def scanFraction : List Char → Option (List Char × List Char)
  | '.' :: text =>
      match spanDigits text with
      | ([], _) => none
      | (digits, rest) => some (digits, rest)
  | text => some ([], text)

-- The sign in front of the digits of an exponent
def scanSign : List Char → Bool × List Char
  | '+' :: text => (false, text)
  | '-' :: text => (true, text)
  | text => (false, text)

-- An exponent, if there is one
def scanExponent : List Char → Option (Option Int × List Char)
  | [] => some (none, [])
  | c :: text =>
      if c = 'e' || c = 'E' then
        let (negative, text) := scanSign text
        match spanDigits text with
        | ([], _) => none
        | (digits, rest) =>
            let value : Int := Nat.ofDigitChars 10 digits 0
            some (some (if negative then -value else value), rest)
      else some (none, c :: text)

-- A numeral without its sign
def scanUnsigned (negative : Bool) (text : List Char) : Option (Numeral × List Char) := do
  let (whole, text) ← scanWhole text
  let (fraction, text) ← scanFraction text
  let (exponent, text) ← scanExponent text
  let numeral : Numeral := {
    negative := negative
    digits := Nat.ofDigitChars 10 (whole ++ fraction) 0
    exponent := exponent.getD 0 - fraction.length
    plain := fraction.isEmpty && exponent.isNone }
  return (numeral, text)

def scanNumeral : List Char → Option (Numeral × List Char)
  | '-' :: text => scanUnsigned true text
  | text => scanUnsigned false text

end TaggedCache.Json
