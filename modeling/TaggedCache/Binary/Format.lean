namespace TaggedCache.Binary

-- A quotient rounded to the nearest whole number, a tie going to the even neighbour
def roundDiv (num den : Nat) : Nat :=
  let low := num / den
  let twice := 2 * (num % den)
  if twice < den then low
  else if den < twice then low + 1
  else if low % 2 = 0 then low else low + 1

-- A binary interchange format: a sign, an exponent field, and a fraction field.
-- A magnitude is the number that the exponent and fraction fields spell together.
structure Format where
  exponentBits : Nat
  fractionBits : Nat

namespace Format

def double : Format := ⟨11, 52⟩

def single : Format := ⟨8, 23⟩

-- How many fractions the fraction field can spell
def fractions (format : Format) : Nat := Nat.pow 2 format.fractionBits

-- The magnitude of infinity. Greater magnitudes are not numbers.
def infinity (format : Format) : Nat := (Nat.pow 2 format.exponentBits - 1) * format.fractions

-- The smallest positive number is one divided by this power of two
def scale (format : Format) : Nat :=
  Nat.pow 2 (Nat.pow 2 (format.exponentBits - 1) - 2 + format.fractionBits)

-- The value of a finite magnitude, as a multiple of the smallest positive number
def units (format : Format) (magnitude : Nat) : Nat :=
  let exponent := magnitude / format.fractions
  let fraction := magnitude % format.fractions
  if exponent = 0 then fraction
  else (format.fractions + fraction) * Nat.pow 2 (exponent - 1)

-- The magnitude nearest to a quotient, a tie going to the even neighbour.
-- A carry out of the fraction runs into the exponent, which is what it has to do.
def nearest (format : Format) (num den : Nat) : Nat :=
  let whole := num * format.scale / den
  let drop := whole.log2 - format.fractionBits
  let significand := roundDiv (num * format.scale) (den * Nat.pow 2 drop)
  min (drop * format.fractions + significand) format.infinity

-- The magnitude nearest to `digits` times ten to the `exponent`. Exponents that no digits can
-- bring back into range are settled before the power is formed.
def nearestDecimal (format : Format) (digits : Nat) (exponent : Int) : Nat :=
  let length := (Nat.toDigits 10 digits).length
  if digits = 0 then 0
  else if 400 < exponent + length then format.infinity
  else if exponent + length < -400 then 0
  else if 0 ≤ exponent then format.nearest (digits * Nat.pow 10 exponent.toNat) 1
  else format.nearest digits (Nat.pow 10 (-exponent).toNat)

end Format

-- A number of the double format, by its bits
structure Binary64 where
  bits : UInt64
  deriving DecidableEq

-- A number of the single format, by its bits
structure Binary32 where
  bits : UInt32
  deriving DecidableEq

namespace Binary64

def ofParts (negative : Bool) (magnitude : Nat) : Binary64 :=
  ⟨UInt64.ofNat ((if negative then 0x8000000000000000 else 0) + magnitude)⟩

def negative (f : Binary64) : Bool := 0x8000000000000000 ≤ f.bits.toNat

def magnitude (f : Binary64) : Nat := f.bits.toNat % 0x8000000000000000

def isFinite (f : Binary64) : Bool := f.magnitude < Format.double.infinity

def isNaN (f : Binary64) : Bool := Format.double.infinity < f.magnitude

-- The number nearest to an integer
def ofInt (i : Int) : Binary64 := ofParts (i < 0) (Format.double.nearest i.natAbs 1)

-- The number nearest to a decimal
def ofDecimal (negative : Bool) (digits : Nat) (exponent : Int) : Binary64 :=
  ofParts negative (Format.double.nearestDecimal digits exponent)

-- The place of a number in the total order: negative before positive, not-a-numbers
-- outermost on the side of their sign, negative zero just before zero
def place (f : Binary64) : Int :=
  if f.negative then -1 - f.magnitude else f.magnitude

end Binary64

namespace Binary32

def negative (f : Binary32) : Bool := 0x80000000 ≤ f.bits.toNat

def magnitude (f : Binary32) : Nat := f.bits.toNat % 0x80000000

def isFinite (f : Binary32) : Bool := f.magnitude < Format.single.infinity

def ofParts (negative : Bool) (magnitude : Nat) : Binary32 :=
  ⟨UInt32.ofNat ((if negative then 0x80000000 else 0) + magnitude)⟩

-- The single number nearest to a double number
def ofDouble (f : Binary64) : Binary32 :=
  ofParts f.negative <|
    if f.isNaN then Format.single.infinity + 0x400000
    else if f.isFinite then
      Format.single.nearest (Format.double.units f.magnitude) Format.double.scale
    else Format.single.infinity

-- The single number nearest to a decimal
def ofDecimal (negative : Bool) (digits : Nat) (exponent : Int) : Binary32 :=
  ofParts negative (Format.single.nearestDecimal digits exponent)

-- The single number nearest to an integer
def ofInt (i : Int) : Binary32 := ofParts (i < 0) (Format.single.nearest i.natAbs 1)

-- The same number with the double format. What is not a number becomes quiet.
def toDouble (f : Binary32) : Binary64 :=
  Binary64.ofParts f.negative <|
    if f.isFinite then Format.double.nearest (Format.single.units f.magnitude) Format.single.scale
    else
      let fraction := f.magnitude - Format.single.infinity
      if fraction = 0 then Format.double.infinity
      else
        let quiet := if fraction < 0x400000 then fraction + 0x400000 else fraction
        Format.double.infinity + quiet * 0x20000000

end Binary32

end TaggedCache.Binary
