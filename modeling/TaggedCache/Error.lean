import TaggedCache.Mismatch

namespace TaggedCache

open Json

-- Why a value has no document
inductive EncodeProblem where
  -- infinity and not-a-number have no place in a document
  | nonFinite (value : Binary.Binary64)
  -- only an object has room for a discriminator
  | untaggable
  -- the value's own type refuses
  | refused (text : String)

def EncodeProblem.message : EncodeProblem → String
  | nonFinite value => "non-finite float " ++ value.word ++ " has no document form"
  | untaggable => "value does not serialize to an object and cannot carry a type discriminator"
  | refused text => text

-- What is wrong with a configuration
inductive ConfigProblem where
  | emptyDiscriminator
  | paddedDiscriminator (name : String)
  | notBoolean (setting : String) (value : String)
  | other (text : String)

def ConfigProblem.message : ConfigProblem → String
  | emptyDiscriminator => "discriminator field name must not be empty"
  | paddedDiscriminator name =>
      "discriminator field name '" ++ name ++ "' must not have surrounding whitespace"
  | notBoolean setting value => setting ++ " must be a boolean, got '" ++ value ++ "'"
  | other text => text

-- Why a codec gives no result
inductive CodecError where
  | malformed (text : String)
  | encoding (typeName : String) (problem : EncodeProblem)
  | unresolvable (name : String)
  | conversion (target : String) (problem : Mismatch)
  | configuration (problem : ConfigProblem)

namespace CodecError

def message : CodecError → String
  | malformed text => "malformed document: " ++ text
  | encoding typeName problem =>
      "failed to encode value of type '" ++ typeName ++ "': " ++ problem.message
  | unresolvable name => "type '" ++ name ++ "' is not registered"
  | conversion target problem =>
      "cannot convert document into '" ++ target ++ "': " ++ problem.message
  | configuration problem => "configuration error: " ++ problem.message

def isMalformed : CodecError → Bool
  | malformed _ => true
  | _ => false

end CodecError

end TaggedCache
