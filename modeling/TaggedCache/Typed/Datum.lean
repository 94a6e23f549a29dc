import TaggedCache.Json.Printer
import TaggedCache.Text.Quoted

namespace TaggedCache

open Binary Json

-- A value of a declared type
inductive Datum where
  -- an absent optional value, or the value of a type that has only one
  | null
  | bool (value : Bool)
  | number (value : Number)
  | double (value : Binary64)
  | single (value : Binary32)
  | string (value : String)
  | list (items : List Datum)
  | record (name : String) (fields : List (String × Datum))
  -- rows of a map with composite keys, ascending; the last column holds the value
  | table (rows : List (List Datum))
  -- a tree that is kept as it is
  | tree (value : Tree)
  deriving Inhabited

namespace Datum

-- Only text can name the entries of an object
def compositeKey : String := "key must be a string"

mutual

-- The tree of a datum. Doubles and singles that are not finite become null.
def toTree : Datum → Except String Tree
  | null => .ok .null
  | bool value => .ok (.bool value)
  | number value => .ok (.number value)
  | double value => .ok (((Number.ofDouble? value).map Tree.number).getD .null)
  | single value => .ok (((Number.ofDouble? value.toDouble).map Tree.number).getD .null)
  | string value => .ok (.string value)
  | list items => (treesOfItems items).map .array
  | record _ fields => (treesOfFields fields).map .object
  | table rows => if rows.isEmpty then .ok (.object []) else .error compositeKey
  | tree value => .ok value

def treesOfItems : List Datum → Except String (List Tree)
  | [] => .ok []
  | item :: rest => do
      let item ← item.toTree
      let rest ← treesOfItems rest
      return item :: rest

def treesOfFields : List (String × Datum) → Except String (List (String × Tree))
  | [] => .ok []
  | (name, value) :: rest => do
      let value ← value.toTree
      let rest ← treesOfFields rest
      return (name, value) :: rest

end

mutual

-- The document text of a datum. Unlike in a tree, singles have the digits of a single here.
def chars : Datum → Except String (List Char)
  | single value => .ok (if value.isFinite then value.chars else Tree.chars .null)
  | list items => (charsOfItems items).map arrayChars
  | record _ fields => (charsOfFields fields).map objectChars
  | leaf => leaf.toTree.map Tree.chars

def charsOfItems : List Datum → Except String (List (List Char))
  | [] => .ok []
  | item :: rest => do
      let item ← item.chars
      let rest ← charsOfItems rest
      return item :: rest

def charsOfFields : List (String × Datum) → Except String (List (String × List Char))
  | [] => .ok []
  | (name, value) :: rest => do
      let value ← value.chars
      let rest ← charsOfFields rest
      return (name, value) :: rest

end

-- The document text of a datum, or why there is none
def text (datum : Datum) : Except String String := datum.chars.map String.ofList

mutual

-- A text that shows a datum with the names of its types
def describe : Datum → String
  | null => "None"
  | bool value => if value then "true" else "false"
  | number value => String.ofList value.chars
  | double value => if value.isFinite then String.ofList value.chars else value.word
  | single value => if value.isFinite then String.ofList value.chars else value.toDouble.word
  | string value => Text.quoted value
  | list items => "[" ++ ", ".intercalate (describeItems items) ++ "]"
  | record name fields =>
      name ++ " \x7b " ++ ", ".intercalate (describeFields fields) ++ " \x7d"
  | table rows => "\x7b" ++ ", ".intercalate (describeRows rows) ++ "\x7d"
  | tree value => value.text

def describeItems : List Datum → List String
  | [] => []
  | item :: rest => item.describe :: describeItems rest

def describeFields : List (String × Datum) → List String
  | [] => []
  | (name, value) :: rest => (name ++ ": " ++ value.describe) :: describeFields rest

def describeRows : List (List Datum) → List String
  | [] => []
  | row :: rest =>
      let columns := describeItems row
      ("(" ++ ", ".intercalate columns.dropLast ++ "): " ++ columns.getLast?.getD "") ::
        describeRows rest

end

def rank : Datum → Nat
  | null => 0
  | bool _ => 1
  | number _ => 2
  | double _ => 3
  | single _ => 4
  | string _ => 5
  | list _ => 6
  | record .. => 7
  | table _ => 8
  | tree _ => 9

def compareNumbers : Number → Number → Ordering
  | .whole a _ _, .whole b _ _ => Ord.compare a b
  | a, b => Ord.compare a.toDouble.place b.toDouble.place

mutual

-- The order of data of one type: an absent value first, numbers by value, records field by field
def compare : Datum → Datum → Ordering
  | bool a, bool b => Ord.compare a b
  | number a, number b => compareNumbers a b
  | string a, string b => Ord.compare a b
  | list a, list b => compareItems a b
  | record _ a, record _ b => compareFields a b
  | a, b => Ord.compare a.rank b.rank

def compareItems : List Datum → List Datum → Ordering
  | [], [] => .eq
  | [], _ :: _ => .lt
  | _ :: _, [] => .gt
  | a :: restA, b :: restB => (compare a b).then (compareItems restA restB)

def compareFields : List (String × Datum) → List (String × Datum) → Ordering
  | [], [] => .eq
  | [], _ :: _ => .lt
  | _ :: _, [] => .gt
  | (_, a) :: restA, (_, b) :: restB => (compare a b).then (compareFields restA restB)

end

end Datum

end TaggedCache
