import TaggedCache.Assoc
import TaggedCache.Json.Token

namespace TaggedCache.Json

-- A document as its text writes it: fields in order, repeated ones included, and numbers
-- before they are rounded. A text that breaks off leaves a draft of what came before.
inductive Draft where
  | null
  | bool (value : Bool)
  | number (value : Numeral)
  -- no value if the escapes of the string spell no text
  | string (value : Option String)
  | array (items : List Draft) (closed : Bool)
  -- a name is absent if its escapes spell no text
  | object (fields : List (Option String × Draft)) (closed : Bool)
  -- an array or object that is complete and stands deeper than a tree may
  | tooDeep
  | broken
  deriving Inhabited

-- What a reader makes of the start of a text: a value, and the rest of the text,
-- which is absent if the text broke off
abbrev Reading (α : Type) := α × Option (List Char)

-- A value without any parts at the start of a text
def scanLeaf (text : List Char) : Option (Draft × List Char) :=
  match text with
  | 'n' :: 'u' :: 'l' :: 'l' :: rest => some (.null, rest)
  | 't' :: 'r' :: 'u' :: 'e' :: rest => some (.bool true, rest)
  | 'f' :: 'a' :: 'l' :: 's' :: 'e' :: rest => some (.bool false, rest)
  | '"' :: rest => (scanString rest).map fun (value, rest) => (.string value, rest)
  | rest => (scanNumeral rest).map fun (value, rest) => (.number value, rest)

-- The name of a field at the start of a text
def scanName (text : List Char) : Option (Option String × List Char) :=
  match skipSpace text with
  | '"' :: rest => scanString rest
  | _ => none

-- The greatest number of arrays and objects that may stand inside each other
def maxDepth : Nat := 127

-- What comes next in a text whose values are passed over
inductive Expected where
  | value
  | name
  | delimiter

-- The text after a value of any depth. The containers that are open around a place in it
-- are given by the brackets that close them, the innermost first.
def passOver (fuel : Nat) (expected : Expected) (closers text : List Char) : Option (List Char) :=
  match fuel with
  | 0 => none
  | fuel + 1 =>
      match expected, closers, skipSpace text with
      | .value, _, '[' :: rest =>
          match skipSpace rest with
          | ']' :: rest => passOver fuel .delimiter closers rest
          | rest => passOver fuel .value (']' :: closers) rest
      | .value, _, '{' :: rest =>
          match skipSpace rest with
          | '}' :: rest => passOver fuel .delimiter closers rest
          | rest => passOver fuel .name ('}' :: closers) rest
      | .value, _, rest =>
          match scanLeaf rest with
          | some (_, rest) => passOver fuel .delimiter closers rest
          | none => none
      | .name, _, rest =>
          match scanName rest with
          | some (_, rest) =>
              match skipSpace rest with
              | ':' :: rest => passOver fuel .value closers rest
              | _ => none
          | none => none
      | .delimiter, [], rest => some rest
      | .delimiter, closer :: outer, c :: rest =>
          if c = closer then passOver fuel .delimiter outer rest
          else if c = ',' then
            passOver fuel (if closer = '}' then .name else .value) (closer :: outer) rest
          else none
      | .delimiter, _ :: _, [] => none

-- A value that stands deeper than a tree may
def scanTooDeep (fuel : Nat) (text : List Char) : Reading Draft :=
  match passOver fuel .value [] text with
  | some rest => (.tooDeep, some rest)
  | none => (.broken, none)

mutual

-- A value at the start of a text, of at most the given depth.
-- The fuel bounds the number of steps; twice the length of the text is always enough.
def scan (fuel depth : Nat) (text : List Char) : Reading Draft :=
  match fuel with
  | 0 => (.broken, none)
  | fuel + 1 =>
      match depth, skipSpace text with
      | 0, '[' :: rest => scanTooDeep fuel ('[' :: rest)
      | 0, '{' :: rest => scanTooDeep fuel ('{' :: rest)
      | depth + 1, '[' :: rest =>
          match skipSpace rest with
          | ']' :: rest => (.array [] true, some rest)
          | rest =>
              let (items, rest) := scanItems fuel depth rest
              (.array items rest.isSome, rest)
      | depth + 1, '{' :: rest =>
          match skipSpace rest with
          | '}' :: rest => (.object [] true, some rest)
          | rest =>
              let (fields, rest) := scanFields fuel depth rest
              (.object fields rest.isSome, rest)
      | _, rest =>
          match scanLeaf rest with
          | some (leaf, rest) => (leaf, some rest)
          | none => (.broken, none)

-- The items of an array after its opening bracket, up to the closing one
def scanItems (fuel depth : Nat) (text : List Char) : Reading (List Draft) :=
  match fuel with
  | 0 => ([], none)
  | fuel + 1 =>
      match scan fuel depth text with
      | (item, none) => ([item], none)
      | (item, some rest) =>
          match skipSpace rest with
          | ']' :: rest => ([item], some rest)
          | ',' :: rest =>
              let (items, rest) := scanItems fuel depth rest
              (item :: items, rest)
          | _ => ([item], none)

-- The fields of an object after its opening brace, up to the closing one
def scanFields (fuel depth : Nat) (text : List Char) :
    Reading (List (Option String × Draft)) :=
  match fuel with
  | 0 => ([], none)
  | fuel + 1 =>
      match scanName text with
      | some (name, rest) =>
          match skipSpace rest with
          | ':' :: rest =>
              match scan fuel depth rest with
              | (value, none) => ([(name, value)], none)
              | (value, some rest) =>
                  match skipSpace rest with
                  | '}' :: rest => ([(name, value)], some rest)
                  | ',' :: rest =>
                      let (fields, rest) := scanFields fuel depth rest
                      ((name, value) :: fields, rest)
                  | _ => ([(name, value)], none)
          | _ => ([(name, .broken)], none)
      | none => ([], none)

end

namespace Draft

-- A whole text as a draft, and whether the text ends with the document
def ofChars (text : List Char) : Draft × Bool :=
  match scan (2 * text.length + 1) maxDepth text with
  | (draft, some rest) => (draft, (skipSpace rest).isEmpty)
  | (draft, none) => (draft, false)

-- The characters of a document from a byte on. A byte that is no part of a text
-- reads as an escape that spells none.
def charsFrom (document : ByteArray) (start : Nat) : List Char :=
  if start < document.size then
    match document.utf8DecodeChar? start with
    | some c => c :: charsFrom document (start + c.utf8Size)
    | none => ['\uFFFD', '\\', 'u', 'd', 'c', '0', '0'] ++ charsFrom document (start + 1)
  else []
termination_by document.size - start
decreasing_by
  · have := c.utf8Size_pos
    omega
  · omega

-- A whole document as a draft, and whether it ends with the value it holds
def ofDocument (document : ByteArray) : Draft × Bool := ofChars (charsFrom document 0)

mutual

-- The tree of a complete draft. A repeated field keeps its first place and its last value.
def tree? : Draft → Option Tree
  | .null => some .null
  | .bool value => some (.bool value)
  | .number value => value.number?.map .number
  | .string value => value.map .string
  | .array items closed => if closed then (trees? items).map .array else none
  | .object fields closed =>
      if closed then (fields? fields).map fun fields => .object (Assoc.ofList fields) else none
  | .tooDeep | .broken => none

def trees? : List Draft → Option (List Tree)
  | [] => some []
  | item :: rest => do
      let item ← item.tree?
      let rest ← trees? rest
      return item :: rest

def fields? : List (Option String × Draft) → Option (List (String × Tree))
  | [] => some []
  | (some name, value) :: rest => do
      let value ← value.tree?
      let rest ← fields? rest
      return (name, value) :: rest
  | (none, _) :: _ => none

end

mutual

-- Whether a draft breaks off nowhere. What its numbers and strings stand for does not matter.
def isComplete : Draft → Bool
  | .broken => false
  | .array items closed => closed && areComplete items
  | .object fields closed => closed && areCompleteFields fields
  | _ => true

def areComplete : List Draft → Bool
  | [] => true
  | item :: rest => item.isComplete && areComplete rest

def areCompleteFields : List (Option String × Draft) → Bool
  | [] => true
  | (_, value) :: rest => value.isComplete && areCompleteFields rest

end

end Draft

-- The tree of a whole text
def Tree.ofChars? (text : List Char) : Option Tree :=
  match Draft.ofChars text with
  | (draft, true) => draft.tree?
  | (_, false) => none

def Tree.ofString? (text : String) : Option Tree := Tree.ofChars? text.toList

end TaggedCache.Json
