import TaggedCache.Kind
import TaggedCache.Text.Blank

namespace TaggedCache

-- A type name without the blanks around it and without its type arguments
def baseName (name : String) : String :=
  Text.trimEnd (String.ofList ((Text.trim name).toList.takeWhile (· ≠ '<')))

-- The characters that separate the segments of a qualified name
def isNameSeparator (c : Char) : Bool := c == '.' || c == ':' || c == '$'

-- The last segment of a qualified name. Some segment has to come before it.
def lastSegment? (name : String) : Option String :=
  let fromEnd := name.toList.reverse
  let segment := fromEnd.takeWhile fun c => !isNameSeparator c
  let path := (fromEnd.dropWhile fun c => !isNameSeparator c).dropWhile isNameSeparator
  if segment.isEmpty || path.isEmpty then none else some (String.ofList segment.reverse)

namespace ContainerKind

-- The kinds of well-known container types, by the last segment of the type's name
def known? (segment : String) : Option ContainerKind :=
  match segment with
  | "Vec" | "List" | "ArrayList" | "Collection" => some (.collection .list)
  | "LinkedList" => some (.collection .linkedList)
  | "HashSet" | "Set" => some (.collection .unorderedSet)
  | "IndexSet" | "LinkedHashSet" => some (.collection .orderedSet)
  | "BTreeSet" | "TreeSet" | "SortedSet" | "NavigableSet" => some (.collection .sortedSet)
  | "HashMap" | "Map" => some (.map .unordered)
  | "IndexMap" | "LinkedHashMap" => some (.map .insertionOrdered)
  | "BTreeMap" | "TreeMap" | "SortedMap" | "NavigableMap" => some (.map .sorted)
  | "DashMap" | "ConcurrentHashMap" | "ConcurrentMap" => some (.map .concurrent)
  | _ => none

-- The plain kind of a family of container types, by the end of the type's name
def family? (segment : String) : Option ContainerKind :=
  let endsWith := fun (ending : String) => ending.toList.isSuffixOf segment.toList
  if endsWith "Set" then some (.collection .unorderedSet)
  else if endsWith "List" || endsWith "Vec" || endsWith "Deque" then some (.collection .list)
  else if endsWith "Map" then some (.map .unordered)
  else none

-- The kind that a qualified type name stands for
def ofName? (name : String) : Option ContainerKind := do
  let segment ← lastSegment? (baseName name)
  (known? segment).orElse fun _ => family? segment

end ContainerKind

end TaggedCache
