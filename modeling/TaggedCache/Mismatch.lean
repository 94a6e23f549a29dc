import TaggedCache.Json.Printer
import TaggedCache.Text.Quoted

namespace TaggedCache

open Json

-- What a reader met where it expected something else
inductive Found where
  | null
  | bool (value : Bool)
  | number (value : Number)
  | string (value : String)
  | sequence
  | map
  | unitVariant

namespace Found

def ofTree : Tree → Found
  | .null => .null
  | .bool value => .bool value
  | .number value => .number value
  | .string value => .string value
  | .array _ => .sequence
  | .object _ => .map

def message : Found → String
  | null => "null"
  | bool value => "boolean `" ++ (if value then "true" else "false") ++ "`"
  | number value =>
      let kind := match value with
        | .whole .. => "integer"
        | .double .. => "floating point"
      kind ++ " `" ++ String.ofList value.chars ++ "`"
  | string value => "string " ++ Text.quoted value
  | sequence => "sequence"
  | map => "map"
  | unitVariant => "unit variant"

end Found

-- A place in a text: the line, and the bytes read of that line
structure Place where
  line : Nat
  column : Nat

-- Why a tree does not fit a type
inductive Mismatch where
  | wrongType (found : Found) (expected : String)
  | wrongValue (found : Found) (expected : String)
  | wrongLength (length : Nat) (expected : String)
  | missingField (name : String)
  | unknownField (name : String) (known : List String)
  | unknownVariant (name : String) (known : List String)
  -- the name of a map entry is not a number
  | keyNotNumeric
  -- the name of a map entry starts like a number and goes wrong at a place
  | keyNumeral (problem : String) (place : Place)
  -- the name of a map entry is a number of the wrong type
  | keyNumber (problem : Mismatch) (place : Place)

namespace Mismatch

-- Names in backticks, as alternatives
def alternatives (names : List String) : String :=
  let ticked := names.map fun name => "`" ++ name ++ "`"
  match ticked with
  | [] => "there are no fields"
  | [one] => "expected " ++ one
  | [one, two] => "expected " ++ one ++ " or " ++ two
  | many => "expected one of " ++ ", ".intercalate many

def atPlace (place : Place) : String :=
  " at line " ++ toString place.line ++ " column " ++ toString place.column

def message : Mismatch → String
  | wrongType found expected => "invalid type: " ++ found.message ++ ", expected " ++ expected
  | wrongValue found expected => "invalid value: " ++ found.message ++ ", expected " ++ expected
  | wrongLength length expected => "invalid length " ++ toString length ++ ", expected " ++ expected
  | missingField name => "missing field `" ++ name ++ "`"
  | unknownField name known => "unknown field `" ++ name ++ "`, " ++ alternatives known
  | unknownVariant name known => "unknown variant `" ++ name ++ "`, " ++ alternatives known
  | keyNotNumeric => "invalid value: expected key to be a number in quotes"
  | keyNumeral problem place => problem ++ atPlace place
  | keyNumber problem place => problem.message ++ atPlace place

end Mismatch

end TaggedCache
