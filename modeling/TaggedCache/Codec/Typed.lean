import TaggedCache.Codec.Decode

namespace TaggedCache

open Json

namespace Codec

variable {M : ObjectModel} {κ α : Type}

-- The items of an array, each read as a value of one type
def readItems (read : Tree → Except Mismatch α) : Tree → Except Mismatch (List α)
  | .array items => items.mapM read
  | tree => .error (.wrongType (Found.ofTree tree) "a sequence")

-- The entries of an object, keys and values read as values of their types.
-- A repeated key keeps its first place and takes its last value.
def readEntries [DecidableEq κ] (readKey : String → Except Mismatch κ)
    (read : Tree → Except Mismatch α) : Tree → Except Mismatch (List (κ × α))
  | .object fields => do
      let entries ← fields.mapM fun field => do
        let key ← readKey field.1
        let value ← read field.2
        return (key, value)
      return Assoc.ofList entries
  | tree => .error (.wrongType (Found.ofTree tree) "a map")

-- Decode a document and read the plain tree of its value as a given type. A null is no value.
def decodeAs (codec : Codec M) (target : String) (read : Tree → Except Mismatch α)
    (document : ByteArray) : Except CodecError (Option α) := do
  match ← codec.decode document with
  | .null => return none
  | value =>
      let tree ← value.toTree
      match read tree with
      | .ok result => return some result
      | .error problem => .error (.conversion target problem)

-- The items of a document that holds a collection. The target names the collection's type.
def decodeCollection (codec : Codec M) (target : String) (read : Tree → Except Mismatch α)
    (document : ByteArray) : Except CodecError (Option (List α)) :=
  codec.decodeAs target (readItems read) document

-- The entries of a document that holds a map. The target names the map's type.
def decodeMap [DecidableEq κ] (codec : Codec M) (target : String)
    (readKey : String → Except Mismatch κ) (read : Tree → Except Mismatch α)
    (document : ByteArray) : Except CodecError (Option (List (κ × α))) :=
  codec.decodeAs target (readEntries readKey read) document

end Codec

end TaggedCache
