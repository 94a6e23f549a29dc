import TaggedCache.Assoc
import TaggedCache.Binary.Shortest
import TaggedCache.Json.Tree

namespace TaggedCache.Json

-- A character inside a string: quotes, backslashes and controls are escaped, nothing else
def escape (c : Char) : List Char :=
  if c = '"' then ['\\', '"']
  else if c = '\\' then ['\\', '\\']
  else if c = '\x08' then ['\\', 'b']
  else if c = '\x0c' then ['\\', 'f']
  else if c = '\n' then ['\\', 'n']
  else if c = '\r' then ['\\', 'r']
  else if c = '\t' then ['\\', 't']
  else if c.toNat < 0x20 then
    ['\\', 'u', '0', '0', Nat.digitChar (c.toNat / 16), Nat.digitChar (c.toNat % 16)]
  else [c]

def stringChars (s : String) : List Char := ['"'] ++ s.toList.flatMap escape ++ ['"']

def intChars (value : Int) : List Char :=
  (if value < 0 then ['-'] else []) ++ Nat.toDigits 10 value.natAbs

def Number.chars : Number → List Char
  | .whole value _ _ => intChars value
  | .double value _ => value.chars

-- Parts with commas between them
def commaJoin : List (List Char) → List Char
  | [] => []
  | [part] => part
  | part :: rest => part ++ ',' :: commaJoin rest

def fieldChars (field : String × List Char) : List Char :=
  stringChars field.1 ++ ':' :: field.2

def arrayChars (items : List (List Char)) : List Char := '[' :: commaJoin items ++ [']']

def objectChars (fields : List (String × List Char)) : List Char :=
  '{' :: commaJoin (fields.map fieldChars) ++ ['}']

mutual

-- The compact text of a tree
def Tree.chars : Tree → List Char
  | .null => ['n', 'u', 'l', 'l']
  | .bool true => ['t', 'r', 'u', 'e']
  | .bool false => ['f', 'a', 'l', 's', 'e']
  | .number value => value.chars
  | .string value => stringChars value
  | .array items => arrayChars (Tree.charsOfItems items)
  | .object fields => objectChars (Tree.charsOfFields fields)

def Tree.charsOfItems : List Tree → List (List Char)
  | [] => []
  | item :: rest => item.chars :: Tree.charsOfItems rest

def Tree.charsOfFields : List (String × Tree) → List (String × List Char)
  | [] => []
  | (name, value) :: rest => (name, value.chars) :: Tree.charsOfFields rest

end

def Tree.text (tree : Tree) : String := String.ofList tree.chars

mutual

-- The tree with the fields of every object in ascending order of their names
def Tree.canonical : Tree → Tree
  | .array items => .array (Tree.canonicalItems items)
  | .object fields => .object (Assoc.sorted compare (Tree.canonicalFields fields))
  | leaf => leaf

def Tree.canonicalItems : List Tree → List Tree
  | [] => []
  | item :: rest => item.canonical :: Tree.canonicalItems rest

def Tree.canonicalFields : List (String × Tree) → List (String × Tree)
  | [] => []
  | (name, value) :: rest => (name, value.canonical) :: Tree.canonicalFields rest

end

end TaggedCache.Json
