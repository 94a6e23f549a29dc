import TaggedCache.Assoc
import TaggedCache.Distinct
import TaggedCache.Kind
import TaggedCache.ObjectModel
import TaggedCache.Scalar

namespace TaggedCache

-- What the cache holds: nothing, a leaf, an object of the application, or a container.
-- The lists inside containers are in the order in which the container yields its members;
-- for the unordered kinds that may be any order.
inductive Value (M : ObjectModel) where
  | null
  | scalar (value : Scalar)
  | object (value : Object M)
  | collection (kind : CollectionKind) (items : List (Value M))
  | map (kind : MapKind) (entries : List (String × Value M))

namespace Value

variable {M : ObjectModel}

instance : Inhabited (Value M) := ⟨.null⟩

def isNull : Value M → Bool
  | null => true
  | _ => false

def typeName : Value M → String
  | null => "null"
  | scalar value => value.typeName
  | object value => value.typeName
  | collection kind _ => kind.wireName
  | map kind _ => kind.wireName

def asString? : Value M → Option String
  | scalar (.string value) => some value
  | _ => none

def asInt? : Value M → Option Int64
  | scalar (.int value) => some value
  | _ => none

-- The double nearest to any number
def asDouble? : Value M → Option Binary.Binary64
  | scalar value => value.magnitude?
  | _ => none

def asBool? : Value M → Option Bool
  | scalar (.bool value) => some value
  | _ => none

end Value

end TaggedCache
