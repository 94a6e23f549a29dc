import TaggedCache.Kind.Name
import TaggedCache.Value.Order

namespace TaggedCache

-- A sequence of values of one kind
structure Collection (M : ObjectModel) where
  kind : CollectionKind
  items : List (Value M)

-- A string-keyed map of values of one kind
structure Keyed (M : ObjectModel) where
  kind : MapKind
  entries : List (String × Value M)

namespace Collection

variable {M : ObjectModel}

def empty (kind : CollectionKind) : Collection M := ⟨kind, []⟩

def toValue (c : Collection M) : Value M := .collection c.kind c.items

def contains (c : Collection M) (value : Value M) : Bool :=
  Distinct.holds Value.compare value c.items

-- Add a value at the end, or at its place in a sorted set. A set keeps the member it has
-- if the value equals one.
def insert (c : Collection M) (value : Value M) : Collection M :=
  { c with
    items :=
      match c.kind with
      | .list | .linkedList => c.items ++ [value]
      | .unorderedSet | .orderedSet => Distinct.insert Value.compare value c.items
      | .sortedSet => Distinct.insertSorted Value.compare value c.items }

-- Whether an insertion adds a member
def accepts (c : Collection M) (value : Value M) : Bool :=
  !c.kind.isSet || !c.contains value

def extend (c : Collection M) (values : List (Value M)) : Collection M :=
  values.foldl insert c

-- The collection filled with values one after the other
def ofList (kind : CollectionKind) (values : List (Value M)) : Collection M :=
  (empty kind).extend values

-- The members in the order in which collections compare
def comparisonOrder (c : Collection M) : List (Value M) :=
  if c.kind = .unorderedSet then Value.sort c.items else c.items

end Collection

namespace Keyed

variable {M : ObjectModel}

def empty (kind : MapKind) : Keyed M := ⟨kind, []⟩

def toValue (m : Keyed M) : Value M := .map m.kind m.entries

def get? (m : Keyed M) (key : String) : Option (Value M) := Assoc.get? key m.entries

def has (m : Keyed M) (key : String) : Bool := Assoc.has key m.entries

-- Set the value of a key. A sorted map keeps its keys ascending; any other map keeps a key
-- where it is and adds a new one at the end.
def put (m : Keyed M) (key : String) (value : Value M) : Keyed M :=
  { m with
    entries :=
      match m.kind with
      | .sorted => Assoc.putSorted compare key value m.entries
      | .unordered | .insertionOrdered | .concurrent => Assoc.put key value m.entries }

def extend (m : Keyed M) (entries : List (String × Value M)) : Keyed M :=
  entries.foldl (fun m entry => m.put entry.1 entry.2) m

-- The map filled with entries one after the other
def ofList (kind : MapKind) (entries : List (String × Value M)) : Keyed M :=
  (empty kind).extend entries

def keys (m : Keyed M) : List String := m.entries.map (·.1)

-- The entries in ascending order of their keys
def sortedEntries (m : Keyed M) : List (String × Value M) := Assoc.sorted compare m.entries

-- The entries a visitor sees that gives up at the entry with the given number, counted from one,
-- and whether it gave up
def visit (m : Keyed M) (limit : Nat) : List (String × Value M) × Bool :=
  if limit = 0 ∨ m.entries.length < limit then (m.entries, false)
  else (m.entries.take limit, true)

end Keyed

-- An empty container of a kind
def ContainerKind.build {M : ObjectModel} : ContainerKind → Value M
  | collection kind => (Collection.empty kind).toValue
  | map kind => (Keyed.empty kind).toValue

namespace Value

variable {M : ObjectModel}

def list (items : List (Value M)) : Value M := (Collection.ofList .list items).toValue

def asCollection? : Value M → Option (Collection M)
  | collection kind items => some ⟨kind, items⟩
  | _ => none

def asKeyed? : Value M → Option (Keyed M)
  | map kind entries => some ⟨kind, entries⟩
  | _ => none

def asObject? : Value M → Option (Object M)
  | object value => some value
  | _ => none

end Value

end TaggedCache
