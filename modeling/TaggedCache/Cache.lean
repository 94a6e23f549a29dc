import TaggedCache.Cache.Config
import TaggedCache.Codec.Typed
import TaggedCache.Store

namespace TaggedCache

open Json

-- A cache of values: a codec in front of a store of bytes
structure Cache (M : ObjectModel) where
  codec : Codec M
  config : CacheConfig

namespace Cache

variable {M : ObjectModel} {κ α : Type}

-- Write a value under a key, to live for the given seconds or without end.
-- If it cannot be encoded, or the key is not valid, nothing is stored.
def putFor (cache : Cache M) (store : Store) (now : Nat) (key : String) (value : Value M)
    (life : Option Nat) : Except CacheError Store :=
  match cache.codec.encode value with
  | .error problem => .error (.ofCodec key .encode problem)
  | .ok bytes => store.set now (cache.config.qualify key) bytes life

-- Write a value under a key, to live as long as the configuration says
def put (cache : Cache M) (store : Store) (now : Nat) (key : String) (value : Value M) :
    Except CacheError Store :=
  cache.putFor store now key value cache.config.defaultLife

-- Read the bytes of a key with a decoder. An entry that is no document at all
-- is dropped and taken for a miss, if the configuration says so.
def read (cache : Cache M) (store : Store) (now : Nat) (key : String)
    (decode : ByteArray → Except CodecError (Option α)) : Except CacheError (Option α) × Store :=
  let qualified := cache.config.qualify key
  match store.get now qualified with
  | (.error problem, store) => (.error problem, store)
  | (.ok none, store) => (.ok none, store)
  | (.ok (some bytes), store) =>
      match decode bytes with
      | .ok value => (.ok value, store)
      | .error problem =>
          let problem := CacheError.ofCodec key .decode problem
          if problem.isCorruption && cache.config.dropsCorrupt then
            match store.delete qualified with
            | .ok (_, store) => (.ok none, store)
            | .error problem => (.error problem, store)
          else (.error problem, store)

-- The value of a key
def get (cache : Cache M) (store : Store) (now : Nat) (key : String) :
    Except CacheError (Option (Value M)) × Store :=
  cache.read store now key fun bytes => (cache.codec.decode bytes).map some

-- The items of the collection of a key
def getCollection (cache : Cache M) (store : Store) (now : Nat) (key target : String)
    (read : Tree → Except Mismatch α) : Except CacheError (Option (List α)) × Store :=
  cache.read store now key (cache.codec.decodeCollection target read)

-- The entries of the map of a key
def getMap [DecidableEq κ] (cache : Cache M) (store : Store) (now : Nat) (key target : String)
    (readKey : String → Except Mismatch κ) (read : Tree → Except Mismatch α) :
    Except CacheError (Option (List (κ × α))) × Store :=
  cache.read store now key (cache.codec.decodeMap target readKey read)

-- Remove a key, and tell whether there was an entry
def remove (cache : Cache M) (store : Store) (key : String) : Except CacheError (Bool × Store) :=
  store.delete (cache.config.qualify key)

-- A text without what it starts with, if it starts with that
def dropStart? (start text : String) : Option String :=
  if start.toList.isPrefixOf text.toList then
    some (String.ofList (text.toList.drop start.toList.length))
  else none

-- The keys that match a pattern, ascending
def keys (cache : Cache M) (store : Store) (now : Nat) (pattern : String) :
    Except CacheError (List String) :=
  (store.keys now (cache.config.qualifyPattern pattern)).map fun keys =>
    keys.filterMap (dropStart? cache.config.scope)

end Cache

end TaggedCache
