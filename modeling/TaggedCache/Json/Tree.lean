import TaggedCache.Binary.Format

namespace TaggedCache.Json

open Binary

-- A number of a document: a whole number of at most 64 bits, or a finite double
inductive Number where
  | whole (value : Int) (least : -0x8000000000000000 ≤ value)
      (greatest : value < 0x10000000000000000)
  | double (value : Binary64) (finite : value.isFinite = true)
  deriving DecidableEq

namespace Number

-- A whole number, unless it is too large for a document
def ofInt? (value : Int) : Option Number :=
  if h : -0x8000000000000000 ≤ value ∧ value < 0x10000000000000000 then
    some (.whole value h.1 h.2)
  else none

-- A double, unless it is infinite or not a number
def ofDouble? (value : Binary64) : Option Number :=
  if h : value.isFinite = true then some (.double value h) else none

def ofInt64 (value : Int64) : Number :=
  .whole value.toInt value.le_toInt (by have := value.toInt_lt; omega)

def ofUInt64 (value : UInt64) : Number :=
  .whole value.toNat (by omega) (by have := value.toNat_lt; omega)

-- The double nearest to a number
def toDouble : Number → Binary64
  | .whole value _ _ => Binary64.ofInt value
  | .double value _ => value

-- The single nearest to a number
def toSingle : Number → Binary32
  | .whole value _ _ => Binary32.ofInt value
  | .double value _ => Binary32.ofDouble value

end Number

-- A document as data. The fields of an object keep their order, and no name occurs twice
-- in an object that was read from a text.
inductive Tree where
  | null
  | bool (value : Bool)
  | number (value : Number)
  | string (value : String)
  | array (items : List Tree)
  | object (fields : List (String × Tree))
  deriving Inhabited

end TaggedCache.Json
