import TaggedCache.Binary.Format

namespace TaggedCache.Binary

-- A decimal number: its digits as one whole number, times a power of ten
structure Decimal where
  digits : Nat
  exponent : Int
  deriving DecidableEq

namespace Format

-- The power of ten just below a positive number of the given value in smallest units
def decade (format : Format) (units : Nat) : Int :=
  if format.scale ≤ units then ((Nat.toDigits 10 (units / format.scale)).length : Int) - 1
  else -((Nat.toDigits 10 (format.scale / units)).length : Int)

-- The two neighbours of a value on the grid of multiples of a power of ten, the nearer first,
-- the even one first if they are equally near
def neighbours (format : Format) (units : Nat) (exponent : Int) : List Decimal :=
  let num := units * Nat.pow 10 (-exponent).toNat
  let den := format.scale * Nat.pow 10 exponent.toNat
  let low := num / den
  let rounded := roundDiv num den
  if rounded = low then [⟨low, exponent⟩, ⟨low + 1, exponent⟩]
  else [⟨low + 1, exponent⟩, ⟨low, exponent⟩]

-- The value written out in full. It always reads back.
def exact (format : Format) (units : Nat) : Decimal :=
  let places := format.scale.log2
  ⟨units * Nat.pow 5 places, -places⟩

-- The candidates for the shortest decimal: the neighbours of the value on the grids of one,
-- two, up to seventeen digits, and at last the value in full
def candidates (format : Format) (units : Nat) : List Decimal :=
  let grids := (List.range 17).map fun (digits : Nat) => format.decade units - digits
  grids.flatMap (format.neighbours units) ++ [format.exact units]

-- The fewest digits that read back as a finite positive magnitude, and of those the nearest
def shortest (format : Format) (magnitude : Nat) : Decimal :=
  let units := format.units magnitude
  let readsBack := fun (d : Decimal) => format.nearestDecimal d.digits d.exponent == magnitude
  ((format.candidates units).find? readsBack).getD (format.exact units)

end Format

-- How decimals are laid out: the least and the greatest decade written without an exponent
structure Style where
  least : Int
  greatest : Int

namespace Style

def double : Style := ⟨-5, 15⟩

def single : Style := ⟨-6, 12⟩

-- Digits without an exponent. A whole number keeps one zero after the point.
def positional (digits : List Char) (decade : Int) : List Char :=
  if decade < 0 then
    ['0', '.'] ++ List.replicate (-decade - 1).toNat '0' ++ digits
  else
    let whole := decade.toNat + 1
    if digits.length ≤ whole then
      digits ++ List.replicate (whole - digits.length) '0' ++ ['.', '0']
    else
      digits.take whole ++ ['.'] ++ digits.drop whole

-- One digit before the point, and a signed exponent
def scientific (digits : List Char) (decade : Int) : List Char :=
  let fraction := if digits.length ≤ 1 then [] else ['.'] ++ digits.drop 1
  let sign := if decade < 0 then '-' else '+'
  digits.take 1 ++ fraction ++ ['e', sign] ++ Nat.toDigits 10 decade.natAbs

-- The text of a decimal other than zero
def chars (style : Style) (decimal : Decimal) : List Char :=
  let written := Nat.toDigits 10 decimal.digits
  let decade := decimal.exponent + written.length - 1
  let digits := (written.reverse.dropWhile (· == '0')).reverse
  if style.least ≤ decade && decade ≤ style.greatest then positional digits decade
  else scientific digits decade

-- The text of a finite magnitude with its sign
def number (style : Style) (format : Format) (negative : Bool) (magnitude : Nat) : List Char :=
  (if negative then ['-'] else []) ++
    if magnitude = 0 then ['0', '.', '0'] else style.chars (format.shortest magnitude)

end Style

-- The text of a finite double number
def Binary64.chars (f : Binary64) : List Char :=
  Style.double.number Format.double f.negative f.magnitude

-- The text of a finite single number
def Binary32.chars (f : Binary32) : List Char :=
  Style.single.number Format.single f.negative f.magnitude

-- The word for a number that has no digits
def Binary64.word (f : Binary64) : String :=
  if f.isNaN then "NaN" else if f.negative then "-inf" else "inf"

end TaggedCache.Binary
