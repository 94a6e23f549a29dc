namespace TaggedCache.Distinct

variable {α : Type}

-- Lists that hold no two members a comparison finds equal

-- Whether some member compares equal to a value
def holds (compare : α → α → Ordering) (value : α) (members : List α) : Bool :=
  members.any fun member => (compare value member).isEq

-- Append a value unless an equal member is there already
def insert (compare : α → α → Ordering) (value : α) (members : List α) : List α :=
  if holds compare value members then members else members ++ [value]

-- Insert a value before the first greater member. An equal member stays as it is.
def insertSorted (compare : α → α → Ordering) (value : α) : List α → List α
  | [] => [value]
  | member :: rest =>
      match compare value member with
      | .lt => value :: member :: rest
      | .eq => member :: rest
      | .gt => member :: insertSorted compare value rest

-- Members in order of first arrival
def ofList (compare : α → α → Ordering) (values : List α) : List α :=
  values.foldl (fun members value => insert compare value members) []

-- Members in ascending order
def sortedOfList (compare : α → α → Ordering) (values : List α) : List α :=
  values.foldl (fun members value => insertSorted compare value members) []

end TaggedCache.Distinct
