import TaggedCache.Cache.Error
import TaggedCache.Codec.Config

namespace TaggedCache

-- How a cache uses its store: what the stored keys start with, the seconds an entry lives
-- unless told otherwise, and whether an unreadable entry is dropped and taken for a miss
structure CacheConfig where
  scope : String
  defaultLife : Option Nat
  dropsCorrupt : Bool
  deriving DecidableEq

-- Why a text is no count of seconds
inductive CountProblem where
  | empty
  | invalidDigit
  | tooLarge

def CountProblem.message : CountProblem → String
  | empty => "cannot parse integer from empty string"
  | invalidDigit => "invalid digit found in string"
  | tooLarge => "number too large to fit in target type"

namespace CacheConfig

def default : CacheConfig := ⟨"", none, true⟩

def scopeSetting : String := "POLYCACHE_KEY_PREFIX"

def lifeSetting : String := "POLYCACHE_DEFAULT_TTL_SECS"

def dropsCorruptSetting : String := "POLYCACHE_MISS_ON_CORRUPT"

-- Digits after a number that was read so far. The first problem from the left counts.
def readDigits (count : Nat) : List Char → Except CountProblem Nat
  | [] => .ok count
  | c :: rest =>
      if !('0' ≤ c && c ≤ '9') then .error .invalidDigit
      else if 0x10000000000000000 ≤ count * 10 + (c.toNat - 48) then .error .tooLarge
      else readDigits (count * 10 + (c.toNat - 48)) rest

-- A whole number of at most 64 bits, with a plus sign or without
def readCount (text : String) : Except CountProblem Nat :=
  match text.toList with
  | [] => .error .empty
  | ['+'] => .error .invalidDigit
  | '+' :: digits => readDigits 0 digits
  | digits => readDigits 0 digits

-- The configuration that an environment asks for. A life of zero seconds means no end.
def ofEnvironment (environment : Environment) : Except CacheError CacheConfig := do
  let defaultLife ←
    match environment lifeSetting with
    | none => .ok default.defaultLife
    | some value =>
        match readCount (Text.trim value) with
        | .ok seconds => .ok (if seconds = 0 then none else some seconds)
        | .error problem =>
            let text := lifeSetting ++ " must be a whole number of seconds: " ++ problem.message
            .error (.configuration text .updateConfiguration)
  let dropsCorrupt :=
    match environment dropsCorruptSetting with
    | none => default.dropsCorrupt
    | some value => Text.lowercase (Text.trim value) == "true"
  return ⟨(environment scopeSetting).getD default.scope, defaultLife, dropsCorrupt⟩

-- The stored key for a key of the cache
def qualify (config : CacheConfig) (key : String) : String := config.scope ++ key

-- The pattern for the stored keys of those that match a pattern. The scope stands for itself.
def qualifyPattern (config : CacheConfig) (pattern : String) : String :=
  Glob.escape config.scope ++ pattern

end CacheConfig

end TaggedCache
