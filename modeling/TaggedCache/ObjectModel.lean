import TaggedCache.Error

namespace TaggedCache

open Json

-- The types of an application whose values the cache can hold. A type has a name of its own,
-- writes its values as trees, and reads them back.
structure ObjectModel where
  Ty : Type
  decEq : DecidableEq Ty
  name : Ty → String
  Payload : Ty → Type
  write : (type : Ty) → Payload type → Except String Tree
  read : (type : Ty) → Tree → Except Mismatch (Payload type)
  -- a text for a value that no tree can be written for
  describe : (type : Ty) → Payload type → String

instance (M : ObjectModel) : DecidableEq M.Ty := M.decEq

-- A value of some application type
structure Object (M : ObjectModel) where
  type : M.Ty
  payload : M.Payload type

namespace Object

variable {M : ObjectModel}

def typeName (object : Object M) : String := M.name object.type

def toTree (object : Object M) : Except CodecError Tree :=
  (M.write object.type object.payload).mapError fun text =>
    .encoding object.typeName (.refused text)

-- The payload, if the object is of the given type
def payload? (object : Object M) (type : M.Ty) : Option (M.Payload type) :=
  if h : object.type = type then some (h ▸ object.payload) else none

-- A text that tells the contents of objects of one type apart: the tree with sorted fields
def canonicalText (object : Object M) : String :=
  match object.toTree with
  | .ok tree => tree.canonical.text
  | .error _ => M.describe object.type object.payload

end Object

-- An object of the given type from a tree
def ObjectModel.materialize (M : ObjectModel) (type : M.Ty) (tree : Tree) :
    Except CodecError (Object M) :=
  match M.read type tree with
  | .ok payload => .ok ⟨type, payload⟩
  | .error problem => .error (.conversion (M.name type) problem)

end TaggedCache
