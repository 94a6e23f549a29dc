import TaggedCache.Value.Container

namespace TaggedCache

open Json

namespace Value

variable {M : ObjectModel}

mutual

-- The plain tree of a value, without any discriminators
def toTree : Value M → Except CodecError Tree
  | null => .ok .null
  | scalar value => value.toTree
  | object value => value.toTree
  | collection _ items => (treesOfItems items).map .array
  | map _ entries => (treesOfEntries entries).map .object

def treesOfItems : List (Value M) → Except CodecError (List Tree)
  | [] => .ok []
  | item :: rest => do
      let item ← item.toTree
      let rest ← treesOfItems rest
      return item :: rest

def treesOfEntries : List (String × Value M) → Except CodecError (List (String × Tree))
  | [] => .ok []
  | (key, value) :: rest => do
      let value ← value.toTree
      let rest ← treesOfEntries rest
      return (key, value) :: rest

end

-- The text of a plain tree, empty if there is none
def plainText (value : Value M) : String :=
  match value.toTree with
  | .ok tree => tree.text
  | .error _ => ""

-- Values in ascending order of a text given for each
def sortByText (text : Value M → String) (values : List (Value M)) : List (Value M) :=
  let labelled := values.map fun value => (text value, value)
  (labelled.mergeSort fun a b => (Ord.compare a.1 b.1).isLE).map (·.2)

def isUnordered : MapKind → Bool
  | .unordered | .concurrent => true
  | .insertionOrdered | .sorted => false

mutual

-- The same value with the unordered containers in it listed in a settled order:
-- maps by key, sets by the text of their members
def settled : Value M → Value M
  | collection kind items =>
      let items := settledItems items
      collection kind (if kind = .unorderedSet then sortByText plainText items else items)
  | map kind entries =>
      let entries := settledEntries entries
      map kind (if isUnordered kind then Assoc.sorted Ord.compare entries else entries)
  | leaf => leaf

def settledItems : List (Value M) → List (Value M)
  | [] => []
  | item :: rest => item.settled :: settledItems rest

def settledEntries : List (String × Value M) → List (String × Value M)
  | [] => []
  | (key, value) :: rest => (key, value.settled) :: settledEntries rest

end

end Value

end TaggedCache
