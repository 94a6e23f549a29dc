import TaggedCache.Codec.Config
import TaggedCache.Registry
import TaggedCache.Value.Tree

namespace TaggedCache

open Json

-- A registry of type names and the configuration of documents
structure Codec (M : ObjectModel) where
  registry : Registry M
  config : CodecConfig

namespace Codec

variable {M : ObjectModel}

-- A codec with a configuration of its own, if that is valid
def make (registry : Registry M) (config : CodecConfig) : Except CodecError (Codec M) :=
  config.validate.map fun config => ⟨registry, config⟩

-- An object's fields with a type name in front, which takes the place of a field so named
def tagged (codec : Codec M) (name : String) (fields : List (String × Tree)) : Tree :=
  .object ((codec.config.discriminator, .string name) ::
    Assoc.erase codec.config.discriminator fields)

-- Put a type name into a tree, which has to be an object
def tag (codec : Codec M) (name source : String) : Tree → Except CodecError Tree
  | .object fields => .ok (codec.tagged name fields)
  | _ => .error (.encoding source .untaggable)

def objectDocument (codec : Codec M) (object : Object M) : Except CodecError Tree := do
  let tree ← object.toTree
  codec.tag (codec.registry.nameOf object) object.typeName tree

-- A member of the outermost collection: objects and maps carry a type name,
-- anything else is a plain tree
def memberDocument (codec : Codec M) : Value M → Except CodecError Tree
  | .object object => codec.objectDocument object
  | .map kind entries => do
      let tree ← (Value.map kind entries).toTree
      codec.tag kind.wireName kind.wireName tree
  | member => member.toTree

-- The outermost collection, without the nulls among its members
def collectionDocument (codec : Codec M) (kind : CollectionKind) (items : List (Value M)) :
    Except CodecError Tree := do
  let members ← (items.filter (!·.isNull)).mapM codec.memberDocument
  if codec.config.wrapCollections && kind ≠ .list then
    return .array [.string kind.wireName, .array members]
  else
    return .array members

-- The tree of a value's document. Null has none.
def document (codec : Codec M) : Value M → Except CodecError (Option Tree)
  | .null => .ok none
  | .collection kind items => some <$> codec.collectionDocument kind items
  | .object object => some <$> codec.objectDocument object
  | value => some <$> value.toTree

-- The document of a value as a text, which is empty for null
def encodeText (codec : Codec M) (value : Value M) : Except CodecError String :=
  (codec.document value).map fun
    | some tree => tree.text
    | none => ""

-- The document of a value
def encode (codec : Codec M) (value : Value M) : Except CodecError ByteArray :=
  (codec.encodeText value).map String.toUTF8

-- The value with its unordered containers in a settled order, so that equal values have
-- equal documents. Members of the outermost collection are sorted by the text they get there.
def settled (codec : Codec M) (value : Value M) : Value M :=
  let memberText := fun member =>
    match codec.memberDocument member with
    | .ok tree => tree.text
    | .error _ => ""
  match value.settled with
  | .collection .unorderedSet items =>
      .collection .unorderedSet (Value.sortByText memberText items)
  | value => value

end Codec

end TaggedCache
