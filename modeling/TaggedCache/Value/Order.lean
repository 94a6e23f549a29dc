import TaggedCache.Value

namespace TaggedCache

-- The contents of a value in the order in which values compare. The members of unordered sets
-- and the entries of all maps are sorted, and objects are known by their canonical text.
inductive Arrangement where
  | null
  | scalar (value : Scalar)
  | object (typeName text : String)
  | collection (kind : CollectionKind) (items : List Arrangement)
  | map (kind : MapKind) (entries : List (String × Arrangement))

namespace Arrangement

def rank : Arrangement → Nat
  | null => 0
  | scalar _ => 1
  | object .. => 2
  | collection .. => 3
  | map .. => 4

mutual

-- Kinds of value compare first, then what they hold, lists member by member
def compare : Arrangement → Arrangement → Ordering
  | null, null => .eq
  | scalar a, scalar b => Scalar.compare a b
  | object typeA textA, object typeB textB =>
      (Ord.compare typeA typeB).then (Ord.compare textA textB)
  | collection kindA itemsA, collection kindB itemsB =>
      (Ord.compare kindA.rank kindB.rank).then (compareItems itemsA itemsB)
  | map kindA entriesA, map kindB entriesB =>
      (Ord.compare kindA.rank kindB.rank).then (compareEntries entriesA entriesB)
  | a, b => Ord.compare a.rank b.rank

def compareItems : List Arrangement → List Arrangement → Ordering
  | [], [] => .eq
  | [], _ :: _ => .lt
  | _ :: _, [] => .gt
  | a :: restA, b :: restB => (compare a b).then (compareItems restA restB)

def compareEntries : List (String × Arrangement) → List (String × Arrangement) → Ordering
  | [], [] => .eq
  | [], _ :: _ => .lt
  | _ :: _, [] => .gt
  | (keyA, a) :: restA, (keyB, b) :: restB =>
      ((Ord.compare keyA keyB).then (compare a b)).then (compareEntries restA restB)

end

-- What a hasher is fed
inductive Word where
  | number (value : Int)
  | text (value : String)
  deriving DecidableEq

def scalarWords (value : Scalar) : List Word :=
  .number value.rank ::
    match value with
    | .bool b => [.number b.toNat]
    | .int i => [.number i.toInt]
    | .uint u => [.number u.toNat]
    | .float f => [.number f.bits.toNat]
    | .string s => [.text s]

mutual

-- The words a value feeds to a hasher. Lists announce their length.
def words : Arrangement → List Word
  | null => [.number 0]
  | scalar value => .number 1 :: scalarWords value
  | object typeName text => [.number 2, .text typeName, .text text]
  | collection kind items =>
      .number 3 :: .number kind.rank :: .number items.length :: wordsOfItems items
  | map kind entries =>
      .number 4 :: .number kind.rank :: .number entries.length :: wordsOfEntries entries

def wordsOfItems : List Arrangement → List Word
  | [] => []
  | item :: rest => item.words ++ wordsOfItems rest

def wordsOfEntries : List (String × Arrangement) → List Word
  | [] => []
  | (key, value) :: rest => .text key :: value.words ++ wordsOfEntries rest

end

end Arrangement

namespace Value

variable {M : ObjectModel}

mutual

def arrangement : Value M → Arrangement
  | null => .null
  | scalar value => .scalar value
  | object value => .object value.typeName value.canonicalText
  | collection kind items =>
      .collection kind <|
        if kind = .unorderedSet then
          (arrangements items).mergeSort fun a b => (a.compare b).isLE
        else arrangements items
  | map kind entries => .map kind (Assoc.sorted Ord.compare (arrangedEntries entries))

def arrangements : List (Value M) → List Arrangement
  | [] => []
  | item :: rest => item.arrangement :: arrangements rest

def arrangedEntries : List (String × Value M) → List (String × Arrangement)
  | [] => []
  | (key, value) :: rest => (key, value.arrangement) :: arrangedEntries rest

end

-- The total order of values
def compare (a b : Value M) : Ordering := a.arrangement.compare b.arrangement

-- Values are equal when they compare equal
def equal (a b : Value M) : Bool := (compare a b).isEq

-- What a value feeds to a hasher
def hashWords (value : Value M) : List Arrangement.Word := value.arrangement.words

-- Values in ascending order, equal ones as they stood
def sort (values : List (Value M)) : List (Value M) :=
  values.mergeSort fun a b => (compare a b).isLE

end Value

end TaggedCache
