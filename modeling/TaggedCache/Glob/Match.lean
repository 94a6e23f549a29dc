import TaggedCache.Glob

namespace TaggedCache.Glob

-- Patterns match bytes. A token leaves an end of a text for every way in which it can match
-- the start of the text.

def charBytes (c : Char) : List UInt8 := (String.ofList [c]).toUTF8.toList

def separatorByte : UInt8 := 0x2F

-- All ends of a text, the text itself included
def ends : List UInt8 → List (List UInt8)
  | [] => [[]]
  | b :: rest => (b :: rest) :: ends rest

-- The ends of a text that follow a separator
def endsAfterSeparator : List UInt8 → List (List UInt8)
  | [] => []
  | b :: rest =>
      if b == separatorByte then rest :: endsAfterSeparator rest else endsAfterSeparator rest

-- What follows a separator at the start of a text
def afterSeparator? : List UInt8 → Option (List UInt8)
  | b :: rest => if b == separatorByte then some rest else none
  | [] => none

-- The bytes of a range of characters: those of both ends, and those between the last byte
-- of the one and the first byte of the other
def rangeHolds (range : Char × Char) (b : UInt8) : Bool :=
  let low := charBytes range.1
  let high := charBytes range.2
  low.contains b || high.contains b ||
    (range.1 != range.2 && low.getLast?.any (· ≤ b) && high.head?.any (b ≤ ·))

-- What is left of a text after some bytes at its start
def dropBytes : List UInt8 → List UInt8 → Option (List UInt8)
  | [], text => some text
  | b :: bytes, c :: text => if b == c then dropBytes bytes text else none
  | _ :: _, [] => none

-- Ends of one text are told apart by their length
def distinctEnds (texts : List (List UInt8)) : List (List UInt8) :=
  (texts.map fun text => (text.length, text)).foldl
    (fun acc entry => if acc.any (·.1 == entry.1) then acc else acc ++ [entry]) []
  |>.map (·.2)

mutual

-- Whether a token has nothing to match: a group without any other than empty alternatives
def isVoid : Token → Bool
  | .alternates patterns => areVoid patterns
  | _ => false

def isVoidSequence : List Token → Bool
  | [] => true
  | token :: rest => isVoid token && isVoidSequence rest

def areVoid : List (List Token) → Bool
  | [] => true
  | pattern :: rest => isVoidSequence pattern && areVoid rest

end

mutual

-- What a token leaves of a text
def rests (token : Token) (text : List UInt8) : List (List UInt8) :=
  match token with
  | .literal c => (dropBytes (charBytes c) text).toList
  | .any => (text.tail?).toList
  | .star => ends text
  | .leadingPath => text :: endsAfterSeparator text
  | .trailingPath => (afterSeparator? text).toList.flatMap ends
  | .innerPath => (afterSeparator? text).toList.flatMap fun rest => rest :: endsAfterSeparator rest
  | .class negated ranges =>
      match text with
      | b :: rest => if ranges.any (rangeHolds · b) != negated then [rest] else []
      | [] => []
  | .alternates patterns =>
      if areVoid patterns then [text] else restsOfAlternates patterns text

-- What a sequence of tokens leaves of several texts
def restsOfSequence (tokens : List Token) (texts : List (List UInt8)) : List (List UInt8) :=
  match tokens with
  | [] => texts
  | token :: tokens => restsOfSequence tokens (distinctEnds (texts.flatMap (rests token)))

-- What the alternatives of a group leave, the empty ones aside
def restsOfAlternates (patterns : List (List Token)) (text : List UInt8) : List (List UInt8) :=
  match patterns with
  | [] => []
  | pattern :: patterns =>
      (if isVoidSequence pattern then [] else restsOfSequence pattern [text]) ++
        restsOfAlternates patterns text

end

-- Whether a pattern matches the whole of a text
def isMatch (tokens : List Token) (text : String) : Bool :=
  match tokens with
  | [.leadingPath] => true
  | tokens => (restsOfSequence tokens [text.toUTF8.toList]).any (·.isEmpty)

end TaggedCache.Glob
