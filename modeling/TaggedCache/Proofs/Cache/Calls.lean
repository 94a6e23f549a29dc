import TaggedCache.Cache
import TaggedCache.Proofs.Codec.ReadOutcome
import TaggedCache.Proofs.Store.Calls

namespace TaggedCache

open Json

variable {M : ObjectModel} {α : Type}

@[simp] theorem CacheError.isCorruption_ofCodec (key : String) (direction : Direction)
    (problem : CodecError) :
    (ofCodec key direction problem).isCorruption = problem.isMalformed := by
  cases problem <;> rfl

namespace Codec

-- A way to read documents that takes those to be malformed that the codec cannot decode, and
-- has no other problems than those of a value that is converted.
structure Reads (codec : Codec M) (decode : ByteArray → Except CodecError (Option α)) : Prop where
  malformed_iff : ∀ bytes e, decode bytes = .error e ∧ e.isMalformed = true ↔
    codec.decode bytes = .error e
  error_cases : ∀ bytes e, decode bytes = .error e → e.isMalformed = true ∨
    (∃ target problem, e = .conversion target problem) ∨ ∃ name problem, e = .encoding name problem

theorem reads_of_readOutcome {codec : Codec M} (target : String)
    {decode : ByteArray → Except CodecError (Option α)}
    (h : ∀ bytes, codec.ReadOutcome target bytes (decode bytes)) : codec.Reads decode where
  malformed_iff bytes := (h bytes).malformed_iff
  error_cases := by
    intro bytes e he
    rcases (h bytes).error_cases e he with h | ⟨problem, rfl⟩ | ⟨_, _, _, _, _, _, _, rfl⟩
    · exact .inl h
    · exact .inr (.inl ⟨_, _, rfl⟩)
    · exact .inr (.inr ⟨_, _, rfl⟩)

theorem reads_decode (codec : Codec M) :
    codec.Reads fun bytes => (codec.decode bytes).map some where
  malformed_iff bytes e := by
    rw [map_eq_error_iff]
    exact and_iff_left_of_imp malformed_of_decode
  error_cases bytes e h := .inl (malformed_of_decode (map_eq_error_iff.mp h))

end Codec

namespace Cache

-- What an entry is read as: as a value, or as a collection or a map with members of given types
inductive Reading (M : ObjectModel) : Type → Type 1 where
  | value : Reading M (Value M)
  | items {α : Type} (target : String) (read : Tree → Except Mismatch α) : Reading M (List α)
  | entries {κ α : Type} [DecidableEq κ] (target : String) (readKey : String → Except Mismatch κ)
      (read : Tree → Except Mismatch α) : Reading M (List (κ × α))

-- How a codec reads the bytes of an entry
def Reading.decode (codec : Codec M) : Reading M α → ByteArray → Except CodecError (Option α)
  | value, bytes => (codec.decode bytes).map some
  | items target read, bytes => codec.decodeCollection target read bytes
  | entries target readKey read, bytes => codec.decodeMap target readKey read bytes

-- What a codec may make of bytes. A typed read sees the members of hash containers in any order.
def Reading.Gives (codec : Codec M) (bytes : ByteArray) (reading : Reading M α)
    (result : Except CodecError (Option α)) : Prop :=
  result = reading.decode codec bytes ∨
    match reading, result with
    | value, _ => False
    | items target read, result => codec.TypedResult target (Codec.readItems read) bytes result
    | entries target readKey read, result =>
        codec.TypedResult target (Codec.readEntries readKey read) bytes result

theorem Reading.reads_of_gives {codec : Codec M} (reading : Reading M α)
    {decode : ByteArray → Except CodecError (Option α)}
    (h : ∀ bytes, reading.Gives codec bytes (decode bytes)) : codec.Reads decode := by
  cases reading with
  | value =>
      have hdecode : decode = fun bytes => (codec.decode bytes).map some := by
        funext bytes
        exact (h bytes).resolve_right id
      exact hdecode ▸ codec.reads_decode
  | items target read | entries target readKey read =>
      refine Codec.reads_of_readOutcome target fun bytes => ?_
      rcases h bytes with h | ⟨back, other, hback, horder, h⟩
      · exact h ▸ codec.readOutcome_decodeAs target _ bytes
      · exact h ▸ Codec.readOutcome_readAs hback horder target _

theorem Reading.reads (codec : Codec M) (reading : Reading M α) :
    codec.Reads (reading.decode codec) :=
  reading.reads_of_gives fun _ => .inl rfl

-- A call to a cache
inductive Call (M : ObjectModel) : Type 1 where
  | put (key : String) (value : Value M)
  | putFor (key : String) (value : Value M) (life : Option Nat)
  | read {α : Type} (key : String) (reading : Reading M α)
  | remove (key : String)
  | keys (pattern : String)

-- What a call gives unless it fails
@[reducible] def Call.Result : Call M → Type
  | put .. | putFor .. => Unit
  | @read _ α _ _ => Option α
  | remove _ => Bool
  | keys _ => List String

-- A read of the entry of a key
def readAs (cache : Cache M) (store : Store) (now : Nat) (key : String) :
    Reading M α → Except CacheError (Option α) × Store
  | Reading.value => cache.get store now key
  | Reading.items target read => cache.getCollection store now key target read
  | Reading.entries target readKey read => cache.getMap store now key target readKey read

-- A call at a time, to a cache in front of a store
def perform (cache : Cache M) (store : Store) (now : Nat) :
    (call : Call M) → Except CacheError call.Result × Store
  | .put key value => store.settle ((cache.put store now key value).map ((), ·))
  | .putFor key value life => store.settle ((cache.putFor store now key value life).map ((), ·))
  | .read key reading => cache.readAs store now key reading
  | .remove key => store.settle (cache.remove store key)
  | .keys pattern => (cache.keys store now pattern, store)

theorem readAs_eq (cache : Cache M) (store : Store) (now : Nat) (key : String)
    (reading : Reading M α) :
    cache.readAs store now key reading = cache.read store now key (reading.decode cache.codec) := by
  cases reading <;> rfl

-- The entry that is stored for a key of the cache
def stored? (cache : Cache M) (store : Store) (key : String) : Option Entry :=
  Assoc.get? (cache.config.qualify key) store.entries

-- A store without the entry for a key of the cache
def without (cache : Cache M) (store : Store) (key : String) : Store :=
  ⟨Assoc.erase (cache.config.qualify key) store.entries⟩

-- An entry is of no use: it has expired, or its bytes are no document and the cache is to take
-- such entries for missing.
def Useless (cache : Cache M) (now : Nat) (entry : Entry) : Prop :=
  entry.isExpired now = true ∨
    cache.config.dropsCorrupt = true ∧ ∃ e, cache.codec.decode entry.bytes = .error e

-- There is an entry for a key, and it is of no use.
def Discards (cache : Cache M) (store : Store) (now : Nat) (key : String) : Prop :=
  Store.validateKey (cache.config.qualify key) = .ok () ∧
    ∃ entry, cache.stored? store key = some entry ∧ cache.Useless now entry

section

variable {cache : Cache M} {store : Store} {now : Nat} {key : String}
  {decode : ByteArray → Except CodecError (Option α)}

theorem read_of_live {entry : Entry}
    (hkey : Store.validateKey (cache.config.qualify key) = .ok ())
    (hentry : cache.stored? store key = some entry) (h : entry.isExpired now = false) :
    cache.read store now key decode =
      match decode entry.bytes with
      | .ok value => (.ok value, store)
      | .error problem =>
          if problem.isMalformed && cache.config.dropsCorrupt then
            (.ok none, cache.without store key)
          else (.error (.ofCodec key .decode problem), store) := by
  rw [stored?] at hentry
  simp only [read, Store.get, hkey, hentry, h, Bool.false_eq_true, if_false]
  cases decode entry.bytes with
  | ok value => rfl
  | error problem =>
      simp only [CacheError.isCorruption_ofCodec, Store.delete_eq, hkey]
      rfl

-- An entry that is of no use is dropped, and the read gives nothing.
theorem read_of_discards (hdecode : cache.codec.Reads decode)
    (h : cache.Discards store now key) :
    cache.read store now key decode = (.ok none, cache.without store key) := by
  obtain ⟨hkey, entry, hentry, huseless⟩ := h
  by_cases hexpired : entry.isExpired now = true
  · rw [stored?] at hentry
    simp only [read, Store.get, hkey, hentry, hexpired, if_true, without]
  · obtain ⟨hdrops, problem, hproblem⟩ := huseless.resolve_left hexpired
    obtain ⟨herror, hmalformed⟩ := (hdecode.malformed_iff entry.bytes problem).mpr hproblem
    rw [read_of_live hkey hentry (Bool.eq_false_iff.mpr hexpired), herror]
    simp only [hmalformed, hdrops, Bool.and_self, if_true]

-- Nothing else is dropped.
theorem read_snd_of_not_discards (hdecode : cache.codec.Reads decode)
    (h : ¬cache.Discards store now key) : (cache.read store now key decode).2 = store := by
  cases hkey : Store.validateKey (cache.config.qualify key) with
  | error problem => simp only [read, Store.get, hkey]
  | ok =>
      cases hentry : cache.stored? store key with
      | none =>
          rw [stored?] at hentry
          simp only [read, Store.get, hkey, hentry]
      | some entry =>
          have huseful : ¬cache.Useless now entry := fun huseless =>
            h ⟨hkey, entry, hentry, huseless⟩
          obtain ⟨hlive, hreadable⟩ := not_or.mp huseful
          rw [read_of_live hkey hentry (Bool.eq_false_iff.mpr hlive)]
          cases herror : decode entry.bytes with
          | ok value => rfl
          | error problem =>
              have hkept : (problem.isMalformed && cache.config.dropsCorrupt) = false := by
                rw [Bool.and_eq_false_iff, or_iff_not_imp_left, Bool.not_eq_false]
                intro hmalformed
                by_contra hdrops
                exact hreadable ⟨Bool.not_eq_false _ ▸ hdrops, problem,
                  (hdecode.malformed_iff _ _).mp ⟨herror, hmalformed⟩⟩
              simp only [hkept, Bool.false_eq_true, if_false]

end

-- What a call to a cache does to the entries of a store
def Call.effect (cache : Cache M) (now : Nat) : Call M → Store.Effect
  | put key value => putEffect cache.config.defaultLife key value
  | putFor key value life => putEffect life key value
  | read key _ =>
      ⟨fun _ _ => False,
        fun other entry => other = cache.config.qualify key ∧ cache.Useless now entry⟩
  | remove key => (Store.Call.delete (cache.config.qualify key)).effect now
  | keys pattern => (Store.Call.keys (cache.config.qualifyPattern pattern)).effect now
where
  putEffect (life : Option Nat) (key : String) (value : Value M) : Store.Effect :=
    match cache.codec.encode value with
    | .ok bytes => (Store.Call.set (cache.config.qualify key) bytes life).effect now
    | .error _ => ⟨fun _ _ => False, fun _ _ => False⟩

section

variable {cache : Cache M} {store : Store}

theorem changes_read (hstore : store.Sound) (now : Nat) (key : String) (reading : Reading M α) :
    (cache.perform store now (.read key reading)).2.Sound ∧
      store.Changes ((Call.read key reading).effect cache now)
        (cache.perform store now (.read key reading)).2 := by
  have hreads := reading.reads cache.codec
  rw [perform, readAs_eq]
  by_cases hdiscards : cache.Discards store now key
  · rw [read_of_discards hreads hdiscards]
    obtain ⟨-, found, hfound, huseless⟩ := hdiscards
    exact Store.changes_drop hstore (hstore.get?_iff_mem.mp hfound) huseless
  · rw [read_snd_of_not_discards hreads hdiscards]
    refine Store.changes_keep hstore fun entry hentry huseless => hdiscards ?_
    exact ⟨hstore.valid_of_mem hentry, entry, hstore.get?_iff_mem.mpr hentry, huseless⟩

theorem changes_putFor (hstore : store.Sound) (now : Nat) (key : String) (value : Value M)
    (life : Option Nat) :
    (cache.perform store now (.putFor key value life)).2.Sound ∧
      store.Changes ((Call.putFor key value life).effect cache now)
        (cache.perform store now (.putFor key value life)).2 := by
  rw [perform, putFor, Call.effect, Call.effect.putEffect]
  cases cache.codec.encode value with
  | error problem => exact ⟨hstore, Store.changes_self (fun _ _ => id) fun _ _ _ => id⟩
  | ok bytes => exact Store.changes_set hstore now (cache.config.qualify key) bytes life

theorem changes_perform (hstore : store.Sound) (now : Nat) (call : Call M) :
    (cache.perform store now call).2.Sound ∧
      store.Changes (call.effect cache now) (cache.perform store now call).2 := by
  cases call with
  | put key value => exact changes_putFor hstore now key value cache.config.defaultLife
  | putFor key value life => exact changes_putFor hstore now key value life
  | read key reading => exact changes_read hstore now key reading
  | remove key => exact Store.changes_delete hstore now (cache.config.qualify key)
  | keys pattern => exact ⟨hstore, Store.changes_self (fun _ _ => id) fun _ _ _ => id⟩

end

end Cache

end TaggedCache
