import TaggedCache.Value.Container

namespace TaggedCache

-- What a type name stands for
inductive TypeHandle (M : ObjectModel) where
  | object (type : M.Ty)
  | container (kind : ContainerKind)

-- The names a codec knows: those of application types, the name each known type is written
-- under, and names that were given to container kinds
structure Registry (M : ObjectModel) where
  objects : List (String × M.Ty)
  names : List (M.Ty × String)
  containers : List (String × ContainerKind)

-- One entry of a registration plan
inductive Registration (M : ObjectModel) where
  | type (type : M.Ty)
  | alias (type : M.Ty) (name : String)
  | container (name : String) (kind : ContainerKind)

namespace Registry

variable {M : ObjectModel}

def empty : Registry M := ⟨[], [], []⟩

-- Make a type known under its own name. Whatever had that name before loses it.
def register (r : Registry M) (type : M.Ty) : Registry M :=
  { r with
    objects := Assoc.put (M.name type) type r.objects
    names := Assoc.put type (M.name type) r.names }

-- Let a further name stand for whatever a type's own name stands for at present.
-- A type that is not known yet is made known first.
def registerAlias (r : Registry M) (type : M.Ty) (name : String) : Registry M :=
  let r := if Assoc.has type r.names then r else r.register type
  match Assoc.get? (M.name type) r.objects with
  | some target => { r with objects := Assoc.put name target r.objects }
  | none => r

-- Let a name stand for a kind of container, whatever its type arguments
def registerContainer (r : Registry M) (name : String) (kind : ContainerKind) : Registry M :=
  { r with containers := Assoc.put (baseName name) kind r.containers }

def apply (r : Registry M) : Registration M → Registry M
  | .type type => r.register type
  | .alias type name => r.registerAlias type name
  | .container name kind => r.registerContainer name kind

-- The registry that a plan leads to
def ofPlan (plan : List (Registration M)) : Registry M := plan.foldl apply empty

-- What a name stands for: a type, a container name that was registered, or a container type
-- that is known by its qualified name, in this order
def resolve (r : Registry M) (name : String) : Option (TypeHandle M) :=
  let name := Text.trim name
  let object := (Assoc.get? name r.objects).map TypeHandle.object
  let container := (Assoc.get? (baseName name) r.containers).map TypeHandle.container
  let builtIn := (ContainerKind.ofName? name).map TypeHandle.container
  (object.orElse fun _ => container).orElse fun _ => builtIn

-- Like `resolve`, for a caller that cannot do without
def require (r : Registry M) (name : String) : Except CodecError (TypeHandle M) :=
  match r.resolve name with
  | some handle => .ok handle
  | none => .error (.unresolvable name)

-- The name an object is written under
def nameOf (r : Registry M) (object : Object M) : String :=
  (Assoc.get? object.type r.names).getD object.typeName

def contains (r : Registry M) (name : String) : Bool := Assoc.has (Text.trim name) r.objects

-- How many names stand for types, aliases included
def size (r : Registry M) : Nat := r.objects.length

end Registry

end TaggedCache
