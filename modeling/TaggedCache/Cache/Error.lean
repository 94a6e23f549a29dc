import TaggedCache.Error
import TaggedCache.Glob

namespace TaggedCache

-- What a caller can do about an error
inductive RecoveryHint where
  | clearAndRetry
  | treatAsMiss
  | updateConfiguration
  | noRecovery
  deriving DecidableEq

-- Which way a value was going when its codec failed
inductive Direction where
  | encode
  | decode
  deriving DecidableEq

def Direction.name : Direction → String
  | encode => "Encode"
  | decode => "Decode"

-- Why a cache gives no result
inductive CacheError where
  | serialization (key : String) (direction : Direction) (source : CodecError)
      (hint : RecoveryHint)
  | corruption (key reason : String) (hint : RecoveryHint)
  | invalidKey (key reason : String) (hint : RecoveryHint)
  | invalidPattern (pattern : String) (source : Glob.Problem) (hint : RecoveryHint)
  | configuration (text : String) (hint : RecoveryHint)

namespace CacheError

def patternMessage (pattern : String) (problem : Glob.Problem) : String :=
  "error parsing glob '" ++ pattern ++ "': " ++ problem.message

def message : CacheError → String
  | serialization key direction source _ =>
      "Failed to " ++ direction.name ++ " cache entry '" ++ key ++ "': " ++ source.message
  | corruption key reason _ => "Cache corruption detected for key '" ++ key ++ "': " ++ reason
  | invalidKey key reason _ => "Invalid cache key '" ++ key ++ "': " ++ reason
  | invalidPattern pattern source _ =>
      "Invalid key pattern '" ++ pattern ++ "': " ++ patternMessage pattern source
  | configuration text _ => "Cache configuration error: " ++ text

-- The text of the error behind an error
def source? : CacheError → Option String
  | serialization _ _ source _ => some source.message
  | invalidPattern pattern source _ => some (patternMessage pattern source)
  | _ => none

def hint : CacheError → RecoveryHint
  | serialization _ _ _ hint | corruption _ _ hint | invalidKey _ _ hint
  | invalidPattern _ _ hint | configuration _ hint => hint

def isCorruption : CacheError → Bool
  | corruption .. => true
  | _ => false

-- What a codec's error means for the entry of a key
def ofCodec (key : String) (direction : Direction) : CodecError → CacheError
  | .malformed text => corruption key text .clearAndRetry
  | .configuration problem => configuration problem.message .updateConfiguration
  | .encoding typeName problem =>
      serialization key direction (.encoding typeName problem) .noRecovery
  | source => serialization key direction source .treatAsMiss

-- What a codec's error means where no entry is concerned
def ofCodecAlone (source : CodecError) : CacheError :=
  match source with
  | .encoding .. => ofCodec "" .encode source
  | _ => ofCodec "" .decode source

-- The codec's error behind an error, or the closest there is
def toCodec : CacheError → CodecError
  | serialization _ _ source _ => source
  | corruption _ reason _ => .malformed reason
  | error => .configuration (.other error.message)

end CacheError

end TaggedCache
