namespace TaggedCache.Assoc

variable {κ α : Type} [DecidableEq κ]

-- A keyed list holds each key at most once. Its order is the order of first arrival,
-- unless it is filled by `putSorted`.

-- The value stored under a key
def get? (key : κ) : List (κ × α) → Option α
  | [] => none
  | (k, a) :: rest => if k = key then some a else get? key rest

-- Whether a key is present
def has (key : κ) (entries : List (κ × α)) : Bool := (get? key entries).isSome

-- Replace the value of a present key where it stands, or append a new entry
def put (key : κ) (value : α) : List (κ × α) → List (κ × α)
  | [] => [(key, value)]
  | (k, a) :: rest => if k = key then (k, value) :: rest else (k, a) :: put key value rest

-- Drop the entry of a key. The order of the others is kept.
def erase (key : κ) (entries : List (κ × α)) : List (κ × α) :=
  entries.filter (·.1 ≠ key)

-- Put the entries one after the other: a repeated key keeps its first place
-- and takes its last value
def ofList (entries : List (κ × α)) : List (κ × α) :=
  entries.foldl (fun acc entry => put entry.1 entry.2 acc) []

-- Replace the value of a present key, or insert a new entry before the first greater key
def putSorted (compare : κ → κ → Ordering) (key : κ) (value : α) :
    List (κ × α) → List (κ × α)
  | [] => [(key, value)]
  | (k, a) :: rest =>
      match compare key k with
      | .lt => (key, value) :: (k, a) :: rest
      | .eq => (k, value) :: rest
      | .gt => (k, a) :: putSorted compare key value rest

-- The entries in ascending order of their keys
def sorted (compare : κ → κ → Ordering) (entries : List (κ × α)) : List (κ × α) :=
  entries.mergeSort fun a b => (compare a.1 b.1).isLE

end TaggedCache.Assoc
