import TaggedCache.Codec.Document
import TaggedCache.Json.Draft

namespace TaggedCache

open Json

namespace Codec

variable {M : ObjectModel}

-- An object of a type from its fields, or a generic map of the fields if they do not fit.
-- The entries are the fields as values.
def materialized (type : M.Ty) (fields : List (String × Tree)) (entries : List (String × Value M)) :
    Value M :=
  match M.materialize type (.object fields) with
  | .ok object => .object object
  | .error _ => (Keyed.ofList .unordered entries).toValue

-- What a pair announces about its second item by the name that comes first
inductive Heading (M : ObjectModel) where
  | collection (kind : CollectionKind)
  | object (type : M.Ty) (fields : List (String × Tree))
  | map (kind : MapKind)

-- The heading of an array, if it has one: the name of a collection kind in front of an array,
-- or, for an array that is itself an item of one, the name of a type or a map kind
-- in front of an object
def heading? (codec : Codec M) (isItem : Bool) : List Tree → Option (Heading M)
  | [.string name, .array _] =>
      match codec.registry.resolve name with
      | some (.container (.collection kind)) => some (.collection kind)
      | _ => none
  | [.string name, .object fields] =>
      match isItem, codec.registry.resolve name with
      | true, some (.object type) => some (.object type fields)
      | true, some (.container (.map kind)) => some (.map kind)
      | _, _ => none
  | _ => none

-- The type name an object carries, if the discriminator field holds a text
def typeTag? (codec : Codec M) (fields : List (String × Tree)) : Option String :=
  match Assoc.get? codec.config.discriminator fields with
  | some (.string name) => some name
  | _ => none

-- The value of an object, given its fields as values
def decodeObject (codec : Codec M) (fields : List (String × Tree))
    (entries : List (String × Value M)) : Value M :=
  let entries := Assoc.erase codec.config.discriminator entries
  match (codec.typeTag? fields).bind codec.registry.resolve with
  | some (.object type) => materialized type (Assoc.erase codec.config.discriminator fields) entries
  | some (.container (.map kind)) => (Keyed.ofList kind entries).toValue
  | _ => (Keyed.ofList .unordered entries).toValue

mutual

-- The value of a tree, which may be an item of an array. Nothing is refused: a node whose type
-- name is unknown, or whose fields do not fit the type, becomes a generic map or list.
def decodeTree (codec : Codec M) (isItem : Bool) : Tree → Value M
  | .null => .null
  | .bool value => .scalar (.bool value)
  | .number value => .scalar (Scalar.ofNumber value)
  | .string value => .scalar (.string value)
  | .array items =>
      match codec.heading? isItem items with
      | some (.collection kind) => (Collection.ofList kind (codec.decodeSecondItems items)).toValue
      | some (.object type fields) => materialized type fields (codec.decodeSecondFields items)
      | some (.map kind) => (Keyed.ofList kind (codec.decodeSecondFields items)).toValue
      | none => Value.list (codec.decodeItems items)
  | .object fields => codec.decodeObject fields (codec.decodeFields fields)

-- The items of an array as values, none for another tree
def decodeItemsOf (codec : Codec M) : Tree → List (Value M)
  | .array items => codec.decodeItems items
  | _ => []

-- The fields of an object as values, none for another tree
def decodeFieldsOf (codec : Codec M) : Tree → List (String × Value M)
  | .object fields => codec.decodeFields fields
  | _ => []

def decodeItems (codec : Codec M) : List Tree → List (Value M)
  | [] => []
  | item :: rest => codec.decodeTree true item :: codec.decodeItems rest

-- The items of the second item of a pair
def decodeSecondItems (codec : Codec M) : List Tree → List (Value M)
  | [_, second] => codec.decodeItemsOf second
  | _ => []

-- The fields of the second item of a pair
def decodeSecondFields (codec : Codec M) : List Tree → List (String × Value M)
  | [_, second] => codec.decodeFieldsOf second
  | _ => []

def decodeFields (codec : Codec M) : List (String × Tree) → List (String × Value M)
  | [] => []
  | (name, value) :: rest => (name, codec.decodeTree false value) :: codec.decodeFields rest

end

-- White space of ASCII, which may surround a document or be all of it
def isBlankByte (b : UInt8) : Bool :=
  b == 0x20 || b == 0x09 || b == 0x0A || b == 0x0C || b == 0x0D

-- What a document is expected to hold, by its first byte
def expectation (first : UInt8) : String :=
  if first == 0x5B then "invalid array document"
  else if first == 0x7B then "invalid object document"
  else "invalid scalar document"

-- The value of a document. Blanks alone are null.
def decode (codec : Codec M) (document : ByteArray) : Except CodecError (Value M) :=
  match document.toList.find? (!isBlankByte ·) with
  | none => .ok .null
  | some first =>
      match String.fromUTF8? document >>= Tree.ofString? with
      | some tree => .ok (codec.decodeTree false tree)
      | none => .error (.malformed (expectation first))

end Codec

end TaggedCache
