namespace TaggedCache

-- The kinds of sequence a value can hold, in the order in which kinds compare
inductive CollectionKind where
  | list
  | linkedList
  | unorderedSet
  | orderedSet
  | sortedSet
  deriving DecidableEq, Repr

-- The kinds of string-keyed map a value can hold, in the order in which kinds compare
inductive MapKind where
  | unordered
  | insertionOrdered
  | sorted
  | concurrent
  deriving DecidableEq, Repr

-- Any kind of container
inductive ContainerKind where
  | collection (kind : CollectionKind)
  | map (kind : MapKind)
  deriving DecidableEq, Repr

namespace CollectionKind

-- The name a document gives to the kind
def wireName : CollectionKind → String
  | list => "std::vec::Vec"
  | linkedList => "std::collections::LinkedList"
  | unorderedSet => "std::collections::HashSet"
  | orderedSet => "indexmap::IndexSet"
  | sortedSet => "std::collections::BTreeSet"

-- Whether equal members are kept only once
def isSet : CollectionKind → Bool
  | list | linkedList => false
  | unorderedSet | orderedSet | sortedSet => true

def rank : CollectionKind → Nat
  | list => 0
  | linkedList => 1
  | unorderedSet => 2
  | orderedSet => 3
  | sortedSet => 4

end CollectionKind

namespace MapKind

-- The name a document gives to the kind
def wireName : MapKind → String
  | unordered => "std::collections::HashMap"
  | insertionOrdered => "indexmap::IndexMap"
  | sorted => "std::collections::BTreeMap"
  | concurrent => "dashmap::DashMap"

def rank : MapKind → Nat
  | unordered => 0
  | insertionOrdered => 1
  | sorted => 2
  | concurrent => 3

end MapKind

def ContainerKind.wireName : ContainerKind → String
  | collection kind => kind.wireName
  | map kind => kind.wireName

end TaggedCache
