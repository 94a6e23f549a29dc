import TaggedCache.Error
import TaggedCache.Text.Blank
import TaggedCache.Text.Lowercase

namespace TaggedCache

-- How documents are written: the name of the field that holds a type name, and whether
-- a collection other than a list is wrapped in an array that names its kind
structure CodecConfig where
  discriminator : String
  wrapCollections : Bool
  deriving DecidableEq

-- The settings a process starts with, by name. A setting that is no text counts as absent.
abbrev Environment := String → Option String

namespace CodecConfig

def default : CodecConfig := ⟨"@class", false⟩

def discriminatorSetting : String := "POLYCACHE_DISCRIMINATOR"

def wrapSetting : String := "POLYCACHE_WRAPPER_ARRAYS"

-- A discriminator has to be a name without blanks around it
def validate (config : CodecConfig) : Except CodecError CodecConfig :=
  let trimmed := Text.trim config.discriminator
  if trimmed.isEmpty then .error (.configuration .emptyDiscriminator)
  else if config.discriminator ≠ trimmed then
    .error (.configuration (.paddedDiscriminator config.discriminator))
  else .ok config

-- A setting that is either on or off, in any case and with blanks around it
def readFlag (setting value : String) : Except CodecError Bool :=
  let lowered := Text.lowercase (Text.trim value)
  if lowered ∈ ["true", "1", "yes", "on"] then .ok true
  else if lowered ∈ ["false", "0", "no", "off"] then .ok false
  else .error (.configuration (.notBoolean setting lowered))

-- The configuration that an environment asks for
def ofEnvironment (environment : Environment) : Except CodecError CodecConfig := do
  let discriminator := (environment discriminatorSetting).getD default.discriminator
  let wrapCollections ←
    match environment wrapSetting with
    | some value => readFlag wrapSetting value
    | none => .ok default.wrapCollections
  validate ⟨discriminator, wrapCollections⟩

end CodecConfig

end TaggedCache
