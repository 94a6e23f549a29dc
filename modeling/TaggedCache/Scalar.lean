import TaggedCache.Error

namespace TaggedCache

open Binary Json

-- The leaves of a value. Equal numbers of different representations are different scalars.
inductive Scalar where
  | bool (value : Bool)
  | int (value : Int64)
  | uint (value : UInt64)
  | float (value : Binary64)
  | string (value : String)
  deriving DecidableEq

namespace Scalar

def typeName : Scalar → String
  | bool _ => "bool"
  | int _ => "i64"
  | uint _ => "u64"
  | float _ => "f64"
  | string _ => "String"

-- The scalar for a whole number that is not negative: signed as long as it fits
def ofUInt64 (value : UInt64) : Scalar :=
  if value.toNat < 0x8000000000000000 then int (Int64.ofNat value.toNat) else uint value

-- The scalar for a number of a document
def ofNumber : Number → Scalar
  | .whole value _ _ =>
      if value < 0x8000000000000000 then int (Int64.ofInt value)
      else uint (UInt64.ofNat value.toNat)
  | .double value _ => float value

def toTree : Scalar → Except CodecError Tree
  | bool value => .ok (.bool value)
  | int value => .ok (.number (Number.ofInt64 value))
  | uint value => .ok (.number (Number.ofUInt64 value))
  | float value =>
      match Number.ofDouble? value with
      | some number => .ok (.number number)
      | none => .error (.encoding "f64" (.nonFinite value))
  | string value => .ok (.string value)

def rank : Scalar → Nat
  | bool _ => 0
  | int _ => 1
  | uint _ => 2
  | float _ => 3
  | string _ => 4

-- The double nearest to a number
def magnitude? : Scalar → Option Binary64
  | int value => some (Binary64.ofInt value.toInt)
  | uint value => some (Binary64.ofInt value.toNat)
  | float value => some value
  | bool _ | string _ => none

-- Scalars of one representation compare by value, floats by their place in the total order.
-- Numbers of two representations compare by magnitude, and by rank where that is equal.
def compare : Scalar → Scalar → Ordering
  | bool a, bool b => Ord.compare a b
  | string a, string b => Ord.compare a b
  | int a, int b => Ord.compare a.toInt b.toInt
  | uint a, uint b => Ord.compare a.toNat b.toNat
  | float a, float b => Ord.compare a.place b.place
  | a, b =>
      match a.magnitude?, b.magnitude? with
      | some x, some y => (Ord.compare x.place y.place).then (Ord.compare a.rank b.rank)
      | _, _ => Ord.compare a.rank b.rank

end Scalar

end TaggedCache
