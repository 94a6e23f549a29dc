import TaggedCache.Assoc
import TaggedCache.Cache.Error
import TaggedCache.Glob.Match
import TaggedCache.Text.Quoted

namespace TaggedCache

-- Bytes with the time at which they stop being there, in seconds
structure Entry where
  bytes : ByteArray
  expiresAt : Option Nat

def Entry.isExpired (entry : Entry) (now : Nat) : Bool := entry.expiresAt.any (· ≤ now)

-- Entries by key. An expired entry takes up room until it is dropped.
structure Store where
  entries : List (String × Entry)

namespace Store

def empty : Store := ⟨[]⟩

def size (store : Store) : Nat := store.entries.length

-- A key is not empty and holds no control characters
def validateKey (key : String) : Except CacheError Unit :=
  if key.isEmpty then .error (.invalidKey key "key must not be empty" .noRecovery)
  else if key.toList.any Text.isControl then
    .error (.invalidKey (Text.displayed key) "key must not contain control characters" .noRecovery)
  else .ok ()

-- The bytes of a key. An entry that turns out to be expired is dropped.
def get (store : Store) (now : Nat) (key : String) :
    Except CacheError (Option ByteArray) × Store :=
  match validateKey key with
  | .error problem => (.error problem, store)
  | .ok () =>
      match Assoc.get? key store.entries with
      | none => (.ok none, store)
      | some entry =>
          if entry.isExpired now then (.ok none, ⟨Assoc.erase key store.entries⟩)
          else (.ok (some entry.bytes), store)

-- Store bytes under a key, for a number of seconds or without end.
-- Times have no upper end here: a life beyond the range of a clock is not modelled.
def set (store : Store) (now : Nat) (key : String) (bytes : ByteArray) (life : Option Nat) :
    Except CacheError Store := do
  validateKey key
  return ⟨Assoc.put key ⟨bytes, life.map (now + ·)⟩ store.entries⟩

-- Remove a key, and tell whether there was an entry, expired or not
def delete (store : Store) (key : String) : Except CacheError (Bool × Store) := do
  validateKey key
  return (Assoc.has key store.entries, ⟨Assoc.erase key store.entries⟩)

-- The keys of live entries that match a pattern, ascending
def keys (store : Store) (now : Nat) (pattern : String) : Except CacheError (List String) :=
  match Glob.parse pattern with
  | .error problem => .error (.invalidPattern pattern problem .noRecovery)
  | .ok tokens =>
      let live := store.entries.filter fun entry =>
        !entry.2.isExpired now && Glob.isMatch tokens entry.1
      .ok ((live.map (·.1)).mergeSort fun a b => (compare a b).isLE)

-- Drop all expired entries, and tell how many there were
def purge (store : Store) (now : Nat) : Nat × Store :=
  let kept := store.entries.filter fun entry => !entry.2.isExpired now
  (store.entries.length - kept.length, ⟨kept⟩)

end Store

end TaggedCache
