import TaggedCache.Assoc
import TaggedCache.Typed.Layout

namespace TaggedCache

open Json

-- A field of a record. It may have a value to take where the field is missing,
-- and it may be left out of the record where its value is null.
structure Field where
  name : String
  layout : Layout
  missing : Option Datum
  omitNull : Bool

namespace Field

def plain (name : String) (layout : Layout) : Field := ⟨name, layout, none, false⟩

-- The value for a field that an object does not have
def absent? (field : Field) : Option Datum := field.missing.orElse fun _ => field.layout.absent

end Field

namespace Layout

-- One part of a sequence of fixed length, and the value to take where the sequence is shorter
structure Part where
  layout : Layout
  missing : Option Datum

def Part.plain (layout : Layout) : Part := ⟨layout, none⟩

def partsOfFields (fields : List Field) : List Part :=
  fields.map fun field => ⟨field.layout, field.missing⟩

-- Read the items of an array part by part. The count is that of the parts read before.
def readParts (expected : String) (count : Nat) :
    List Part → List Tree → Except Mismatch (List Datum)
  | [], [] => .ok []
  | [], rest => .error (.wrongLength (count + rest.length) "fewer elements in array")
  | part :: parts, item :: rest => do
      let value ← part.layout.read item
      let values ← readParts expected (count + 1) parts rest
      return value :: values
  | part :: parts, [] =>
      match part.missing with
      | some value => do
          let values ← readParts expected count parts []
          return value :: values
      | none => .error (.wrongLength count expected)

-- Read the items of an array in a text part by part. Items too many are no part of the text
-- of such a sequence.
def readDraftParts (closed : Bool) : List Part → List Draft → Except Refusal (List Datum)
  | [], [] => if closed then .ok [] else .error .malformed
  | [], _ => .error .malformed
  | part :: parts, item :: rest => do
      let value ← part.layout.readDraft item
      let values ← readDraftParts closed parts rest
      return value :: values
  | part :: parts, [] =>
      match closed, part.missing with
      | true, some value => do
          let values ← readDraftParts closed parts []
          return value :: values
      | true, none => .error .misfit
      | false, _ => .error .malformed

-- A sequence of fixed length as the items of a list
def parts (expected : String) (parts : List Part) : Layout where
  read
    | .array items => (readParts expected 0 parts items).map .list
    | tree => wrongType tree expected
  readDraft
    | .array items closed => (readDraftParts closed parts items).map .list
    | draft => .error (.ofDraft draft)
  absent := none

def tuple (layouts : List Layout) : Layout :=
  parts ("a tuple of size " ++ toString layouts.length) (layouts.map .plain)

-- A record from the values of its fields in order of declaration
def assemble (name : String) (fields : List Field) (values : List Datum) : Datum :=
  let kept := (fields.zip values).filter fun entry =>
    match entry.2 with
    | .null => !entry.1.omitNull
    | _ => true
  .record name (kept.map fun entry => (entry.1.name, entry.2))

-- Read the fields of an object in the order of the object
def readFields (fields : List Field) (strict : Bool) :
    List (String × Tree) → Except Mismatch (List (String × Datum))
  | [] => .ok []
  | (name, tree) :: rest =>
      match fields.find? (·.name = name) with
      | some field => do
          let value ← field.layout.read tree
          let values ← readFields fields strict rest
          return (name, value) :: values
      | none =>
          if strict then .error (.unknownField name (fields.map (·.name)))
          else readFields fields strict rest

-- The values of all fields, from those that were read
def completeFields (fields : List Field) (values : List (String × Datum)) :
    Except Mismatch (List Datum) :=
  fields.mapM fun field =>
    match (Assoc.get? field.name values).orElse fun _ => field.absent? with
    | some value => .ok value
    | none => .error (.missingField field.name)

def readObject (name : String) (fields : List Field) (strict : Bool)
    (object : List (String × Tree)) : Except Mismatch Datum := do
  let values ← readFields fields strict object
  return assemble name fields (← completeFields fields values)

-- Read the fields of an object in a text, some of which were seen before. Fields that the record
-- does not have are passed over.
def readDraftFields (fields : List Field) (strict : Bool) (seen : List String) :
    List (Option String × Draft) → Except Refusal (List (String × Datum))
  | [] => .ok []
  | (none, _) :: _ => .error .malformed
  | (some name, draft) :: rest =>
      match fields.find? (·.name = name) with
      | some field =>
          if seen.contains name then .error .misfit
          else do
            let value ← field.layout.readDraft draft
            let values ← readDraftFields fields strict (name :: seen) rest
            return (name, value) :: values
      | none =>
          if strict then .error .misfit
          else if draft.isComplete then readDraftFields fields strict seen rest
          else .error .malformed

def readDraftObject (name : String) (fields : List Field) (strict : Bool)
    (object : List (Option String × Draft)) (closed : Bool) : Except Refusal Datum := do
  let values ← readDraftFields fields strict [] object
  if closed then return assemble name fields (← fitted (completeFields fields values))
  else .error .malformed

def elementCount (count : Nat) : String :=
  toString count ++ (if count = 1 then " element" else " elements")

-- A record, written as an object or as an array of its fields in order.
-- A strict record has no other fields.
def record (name : String) (fields : List Field) (strict : Bool) : Layout where
  read
    | .array items =>
        let expected := "struct " ++ name ++ " with " ++ elementCount fields.length
        (readParts expected 0 (partsOfFields fields) items).map (assemble name fields)
    | .object object => readObject name fields strict object
    | tree => wrongType tree ("struct " ++ name)
  readDraft
    | .array items closed =>
        (readDraftParts closed (partsOfFields fields) items).map (assemble name fields)
    | .object object closed => readDraftObject name fields strict object closed
    | draft => .error (.ofDraft draft)
  absent := none

-- What one alternative of a type holds
inductive Variant where
  | unit
  | one (layout : Layout)
  | tuple (layouts : List Layout)
  | record (fields : List Field)

-- What a reader of the content of an alternative expects
def Variant.expected : Variant → String
  | unit => "unit"
  | one _ => "newtype variant"
  | tuple _ => "tuple variant"
  | record _ => "struct variant"

-- The content of an alternative. An empty array is no content for a tuple.
def Variant.read (variant : Variant) (name : String) (tree : Tree) : Except Mismatch Datum :=
  match variant, tree with
  | unit, .null => .ok .null
  | one layout, tree => layout.read tree
  | tuple _, .array [] => .error (.wrongType .null ("tuple variant " ++ name))
  | tuple layouts, .array items =>
      let expected := "tuple variant " ++ name ++ " with " ++ elementCount layouts.length
      (readParts expected 0 (layouts.map .plain) items).map .list
  | record fields, .object object => readObject name fields false object
  | variant, tree => wrongType tree variant.expected

-- The content of an alternative in a text, where that of a record may be an array, too
def Variant.readDraft (variant : Variant) (name : String) (draft : Draft) :
    Except Refusal Datum :=
  match variant, draft with
  | unit, .null => .ok .null
  | one layout, draft => layout.readDraft draft
  | tuple layouts, .array items closed =>
      (readDraftParts closed (layouts.map .plain) items).map .list
  | record fields, .array items closed =>
      (readDraftParts closed (partsOfFields fields) items).map (assemble name fields)
  | record fields, .object object closed => readDraftObject name fields false object closed
  | _, draft => .error (.ofDraft draft)

def findVariant (variants : List (String × Variant)) (name : String) : Except Mismatch Variant :=
  match Assoc.get? name variants with
  | some variant => .ok variant
  | none => .error (.unknownVariant name (variants.map (·.1)))

-- The value of an alternative. One that holds nothing is its name.
def Variant.value (variant : Variant) (name : String) (content : Datum) : Datum :=
  match variant with
  | unit => .string name
  | _ => .record name [(name, content)]

-- A type with alternatives: the name of one that holds nothing, or an object whose only field
-- has the name of the alternative and holds its content
def alternatives (typeName : String) (variants : List (String × Variant)) : Layout where
  read
    | .string name => do
        match ← findVariant variants name with
        | .unit => return .string name
        | variant => .error (.wrongType .unitVariant variant.expected)
    | .object [(name, content)] => do
        let variant ← findVariant variants name
        return variant.value name (← variant.read (typeName ++ "::" ++ name) content)
    | .object _ => .error (.wrongValue .map "map with a single key")
    | tree => wrongType tree "string or map"
  readDraft
    | .string (some name) => do
        match ← fitted (findVariant variants name) with
        | .unit => return .string name
        | _ => .error .misfit
    | .object ((some name, content) :: rest) closed => do
        let variant ← fitted (findVariant variants name)
        let value ← variant.readDraft (typeName ++ "::" ++ name) content
        if rest.isEmpty && closed then return variant.value name value else .error .malformed
    | _ => .error .malformed
  absent := none

-- The rows of a map with composite keys, from lists of the parts of a key and a value.
-- A later row takes the place of an earlier one with its key.
def tableOfRows (keyCount : Nat) (rows : List Datum) : Datum :=
  let put := fun (acc : List (List Datum × List Datum)) (row : Datum) =>
    match row with
    | .list columns =>
        Assoc.putSorted Datum.compareItems (columns.take keyCount) (columns.drop keyCount) acc
    | _ => acc
  .table ((rows.foldl put []).map fun row => row.1 ++ row.2)

-- A map with composite keys, read from a list of its rows
def table (keys : List Layout) (value : Layout) : Layout :=
  let rows := list (tuple (keys ++ [value]))
  let ofList := fun (datum : Datum) =>
    match datum with
    | .list found => tableOfRows keys.length found
    | other => other
  { read := fun tree => (rows.read tree).map ofList
    readDraft := fun draft => (rows.readDraft draft).map ofList
    absent := none }

end Layout

end TaggedCache
