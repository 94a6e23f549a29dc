import TaggedCache.Proofs.Assoc
import TaggedCache.Store

namespace TaggedCache

namespace Store

-- The keys of a store are valid, and no key is there twice.
structure Sound (store : Store) : Prop where
  nodup : (Assoc.keys store.entries).Nodup
  valid : ∀ key ∈ Assoc.keys store.entries, validateKey key = .ok ()

theorem sound_empty : empty.Sound := ⟨List.nodup_nil, nofun⟩

namespace Sound

variable {store : Store} {key : String} {entry other : Entry}

theorem valid_of_mem (hstore : store.Sound) (h : (key, entry) ∈ store.entries) :
    validateKey key = .ok () := hstore.valid key (List.mem_map_of_mem h)

theorem get?_iff_mem (hstore : store.Sound) :
    Assoc.get? key store.entries = some entry ↔ (key, entry) ∈ store.entries :=
  Assoc.get?_eq_some_iff_mem hstore.nodup

theorem eq_of_mem (hstore : store.Sound) (h : (key, entry) ∈ store.entries)
    (hother : (key, other) ∈ store.entries) : entry = other := by
  have hsome := hstore.get?_iff_mem.mpr h
  rw [hstore.get?_iff_mem.mpr hother] at hsome
  exact (Option.some.inj hsome).symm

theorem filter (hstore : store.Sound) (p : String × Entry → Bool) :
    (⟨store.entries.filter p⟩ : Store).Sound where
  nodup := hstore.nodup.sublist (List.filter_sublist.map Prod.fst)
  valid := by
    intro key hkey
    exact hstore.valid key ((List.filter_sublist.map Prod.fst).subset hkey)

theorem put (hstore : store.Sound) (hkey : validateKey key = .ok ()) (entry : Entry) :
    (⟨Assoc.put key entry store.entries⟩ : Store).Sound where
  nodup := Assoc.nodup_keys_put key entry hstore.nodup
  valid := by
    intro other hother
    rcases Assoc.mem_keys_put.mp hother with rfl | hother
    · exact hkey
    · exact hstore.valid other hother

end Sound

-- What an event leaves in a store that was not there, and what it takes away from it
structure Effect where
  writes : String → Entry → Prop
  drops : String → Entry → Prop

-- What a store holds after an event is what the event writes, and what it does not drop.
def Changes (store : Store) (effect : Effect) (changed : Store) : Prop :=
  ∀ key entry, (key, entry) ∈ changed.entries ↔
    effect.writes key entry ∨ (key, entry) ∈ store.entries ∧ ¬effect.drops key entry

-- One of several events writes an entry, and none after it drops it.
def Leaves (effects : List Effect) (key : String) (entry : Entry) : Prop :=
  ∃ earlier effect later, effects = earlier ++ effect :: later ∧ effect.writes key entry ∧
    ∀ other ∈ later, ¬other.drops key entry

theorem leaves_cons {effect : Effect} {effects : List Effect} {key : String} {entry : Entry} :
    Leaves (effect :: effects) key entry ↔
      (effect.writes key entry ∧ ∀ other ∈ effects, ¬other.drops key entry) ∨
        Leaves effects key entry := by
  constructor
  · rintro ⟨_ | ⟨first, earlier⟩, writer, later, heq, hwrites, hlater⟩
    · cases heq
      exact .inl ⟨hwrites, hlater⟩
    · cases heq
      exact .inr ⟨earlier, writer, later, rfl, hwrites, hlater⟩
  · rintro (⟨hwrites, hlater⟩ | ⟨earlier, writer, later, rfl, hwrites, hlater⟩)
    · exact ⟨[], effect, effects, rfl, hwrites, hlater⟩
    · exact ⟨effect :: earlier, writer, later, rfl, hwrites, hlater⟩

-- Steps for events whose effects are known
def Steps {ε : Type*} (step : Store → ε → Store) (effect : ε → Effect) : Prop :=
  ∀ store event, store.Sound →
    (step store event).Sound ∧ store.Changes (effect event) (step store event)

-- What a store holds after a run of events was written on the way or has been there from the
-- start.
theorem mem_foldl_iff {ε : Type*} {step : Store → ε → Store} {effect : ε → Effect}
    (hstep : Steps step effect) {store : Store} (hstore : store.Sound) (events : List ε) :
    (events.foldl step store).Sound ∧ ∀ key entry,
      (key, entry) ∈ (events.foldl step store).entries ↔
        Leaves (events.map effect) key entry ∨
          (key, entry) ∈ store.entries ∧ ∀ event ∈ events, ¬(effect event).drops key entry := by
  induction events generalizing store with
  | nil =>
      refine ⟨hstore, fun key entry => ?_⟩
      have hleaves : ¬Leaves [] key entry := by
        rintro ⟨earlier, effect, later, heq, -⟩
        simp at heq
      simp [hleaves]
  | cons event events ih =>
      obtain ⟨hsound, hchanges⟩ := hstep store event hstore
      obtain ⟨hend, hmem⟩ := ih hsound
      refine ⟨hend, fun key entry => ?_⟩
      rw [List.foldl_cons, hmem, hchanges key entry, List.map_cons, leaves_cons,
        List.forall_mem_map, List.forall_mem_cons]
      tauto

-- A call to a store
inductive Call where
  | get (key : String)
  | set (key : String) (bytes : ByteArray) (life : Option Nat)
  | delete (key : String)
  | keys (pattern : String)
  | purge

-- What a call gives unless it is rejected
@[reducible] def Call.Result : Call → Type
  | get _ => Option ByteArray
  | set .. => Unit
  | delete _ => Bool
  | keys _ => List String
  | purge => Nat

-- The outcome of a change. A store stays as it is where the change is rejected.
def settle {α : Type} (store : Store) :
    Except CacheError (α × Store) → Except CacheError α × Store
  | .ok (result, changed) => (.ok result, changed)
  | .error problem => (.error problem, store)

-- A call at a time
def perform (store : Store) (now : Nat) : (call : Call) → Except CacheError call.Result × Store
  | .get key => store.get now key
  | .set key bytes life => store.settle ((store.set now key bytes life).map ((), ·))
  | .delete key => store.settle (store.delete key)
  | .keys pattern => (store.keys now pattern, store)
  | .purge => (.ok (store.purge now).1, (store.purge now).2)

-- The store after calls, each at a time
def after (store : Store) (calls : List (Nat × Call)) : Store :=
  calls.foldl (fun store call => (store.perform call.1 call.2).2) store

-- Entries leave a store when they are replaced or deleted, and some time after they have expired:
-- as soon as they are asked for, or when the store is purged.
def Call.effect (now : Nat) : Call → Effect
  | get key => ⟨fun _ _ => False, fun other entry => other = key ∧ entry.isExpired now⟩
  | set key bytes life =>
      ⟨fun other entry => validateKey key = .ok () ∧ other = key ∧
        entry = ⟨bytes, life.map (now + ·)⟩, fun other _ => other = key⟩
  | delete key => ⟨fun _ _ => False, fun other _ => other = key⟩
  | keys _ => ⟨fun _ _ => False, fun _ _ => False⟩
  | purge => ⟨fun _ _ => False, fun _ entry => entry.isExpired now⟩

-- The bytes that are there for a key at a time
def live? (store : Store) (now : Nat) (key : String) : Option ByteArray :=
  ((Assoc.get? key store.entries).filter (!·.isExpired now)).map Entry.bytes

theorem get_fst (store : Store) (now : Nat) (key : String) :
    (store.get now key).1 = (validateKey key).map fun () => store.live? now key := by
  rw [get, live?]
  cases validateKey key with
  | error problem => rfl
  | ok =>
      cases Assoc.get? key store.entries with
      | none => rfl
      | some entry =>
          by_cases hexpired : entry.isExpired now <;> simp [Option.filter, hexpired, Except.map]

theorem set_eq (store : Store) (now : Nat) (key : String) (bytes : ByteArray) (life : Option Nat) :
    store.set now key bytes life = (validateKey key).map fun () =>
      ⟨Assoc.put key ⟨bytes, life.map (now + ·)⟩ store.entries⟩ := by
  rw [set]
  cases validateKey key <;> rfl

theorem delete_eq (store : Store) (key : String) :
    store.delete key = (validateKey key).map fun () =>
      (Assoc.has key store.entries, ⟨Assoc.erase key store.entries⟩) := by
  rw [delete]
  cases validateKey key <;> rfl

section

variable {store : Store}

theorem Sound.ne_of_invalid (hstore : store.Sound) {key other : String} {problem : CacheError}
    (hkey : validateKey key = .error problem) {entry : Entry}
    (h : (other, entry) ∈ store.entries) : other ≠ key := by
  rintro rfl
  cases (hstore.valid_of_mem h).symm.trans hkey

theorem changes_self {effect : Effect} (hwrites : ∀ key entry, ¬effect.writes key entry)
    (hdrops : ∀ key entry, (key, entry) ∈ store.entries → ¬effect.drops key entry) :
    store.Changes effect store := by
  intro key entry
  rw [or_iff_right (hwrites key entry)]
  exact ⟨fun h => ⟨h, hdrops key entry h⟩, fun h => h.1⟩

theorem changes_erase {key : String} {effect : Effect}
    (hwrites : ∀ other entry, ¬effect.writes other entry)
    (hdrops : ∀ other entry, (other, entry) ∈ store.entries →
      (effect.drops other entry ↔ other = key)) :
    store.Changes effect ⟨Assoc.erase key store.entries⟩ := by
  intro other entry
  rw [Assoc.mem_erase, or_iff_right (hwrites other entry)]
  exact and_congr_right fun h => not_congr (hdrops other entry h).symm

-- The entry of a key is dropped if it meets a condition.
theorem changes_drop (hstore : store.Sound) {key : String} {found : Entry} {p : Entry → Prop}
    (hfound : (key, found) ∈ store.entries) (hp : p found) :
    (⟨Assoc.erase key store.entries⟩ : Store).Sound ∧
      store.Changes ⟨fun _ _ => False, fun other entry => other = key ∧ p entry⟩
        ⟨Assoc.erase key store.entries⟩ := by
  refine ⟨hstore.filter _, changes_erase (fun _ _ => id) fun other entry hentry => ?_⟩
  refine and_iff_left_of_imp ?_
  rintro rfl
  exact hstore.eq_of_mem hentry hfound ▸ hp

theorem changes_keep (hstore : store.Sound) {key : String} {p : Entry → Prop}
    (hp : ∀ entry, (key, entry) ∈ store.entries → ¬p entry) :
    store.Sound ∧
      store.Changes ⟨fun _ _ => False, fun other entry => other = key ∧ p entry⟩ store := by
  refine ⟨hstore, changes_self (fun _ _ => id) ?_⟩
  rintro _ entry hentry ⟨rfl, hdropped⟩
  exact hp entry hentry hdropped

theorem changes_get (hstore : store.Sound) (now : Nat) (key : String) :
    (store.get now key).2.Sound ∧
      store.Changes ((Call.get key).effect now) (store.get now key).2 := by
  rw [get]
  cases hkey : validateKey key with
  | error problem =>
      exact changes_keep hstore fun entry hentry => absurd rfl (hstore.ne_of_invalid hkey hentry)
  | ok =>
      cases hfound : Assoc.get? key store.entries with
      | none =>
          refine changes_keep hstore fun entry hentry => ?_
          rw [hstore.get?_iff_mem.mpr hentry] at hfound
          contradiction
      | some found =>
          have hmem := hstore.get?_iff_mem.mp hfound
          by_cases hexpired : found.isExpired now = true
          · simp only [hexpired, if_true]
            exact changes_drop hstore hmem hexpired
          · simp only [hexpired, Bool.false_eq_true, if_false]
            exact changes_keep hstore fun entry hentry => hstore.eq_of_mem hmem hentry ▸ hexpired

theorem changes_set (hstore : store.Sound) (now : Nat) (key : String) (bytes : ByteArray)
    (life : Option Nat) :
    (store.perform now (.set key bytes life)).2.Sound ∧
      store.Changes ((Call.set key bytes life).effect now)
        (store.perform now (.set key bytes life)).2 := by
  rw [perform, set_eq]
  cases hkey : validateKey key with
  | error problem =>
      refine ⟨hstore, changes_self ?_ fun other entry hentry => hstore.ne_of_invalid hkey hentry⟩
      rintro other entry ⟨hvalid, -⟩
      cases hkey.symm.trans hvalid
  | ok =>
      refine ⟨hstore.put hkey _, fun other entry => ?_⟩
      refine (Assoc.mem_put_iff hstore.nodup).trans (or_congr_left ?_)
      rw [Prod.mk.injEq]
      exact (and_iff_right hkey).symm

theorem changes_delete (hstore : store.Sound) (now : Nat) (key : String) :
    (store.perform now (.delete key)).2.Sound ∧
      store.Changes ((Call.delete key).effect now) (store.perform now (.delete key)).2 := by
  rw [perform, delete_eq]
  cases hkey : validateKey key with
  | error problem =>
      exact ⟨hstore, changes_self (fun _ _ => id)
        fun other entry hentry => hstore.ne_of_invalid hkey hentry⟩
  | ok => exact ⟨hstore.filter _, changes_erase (fun _ _ => id) fun _ _ _ => Iff.rfl⟩

theorem changes_purge (hstore : store.Sound) (now : Nat) :
    (store.purge now).2.Sound ∧ store.Changes (Call.purge.effect now) (store.purge now).2 := by
  refine ⟨hstore.filter _, fun key entry => ?_⟩
  simp [purge, Call.effect]

-- What each call does to the entries of a store
theorem changes_perform (hstore : store.Sound) (now : Nat) (call : Call) :
    (store.perform now call).2.Sound ∧
      store.Changes (call.effect now) (store.perform now call).2 := by
  cases call with
  | get key => exact changes_get hstore now key
  | set key bytes life => exact changes_set hstore now key bytes life
  | delete key => exact changes_delete hstore now key
  | keys pattern => exact ⟨hstore, changes_self (fun _ _ => id) fun _ _ _ => id⟩
  | purge => exact changes_purge hstore now

theorem steps_perform :
    Steps (fun store (call : Nat × Call) => (store.perform call.1 call.2).2)
      fun call => call.2.effect call.1 :=
  fun _ call hstore => changes_perform hstore call.1 call.2

theorem sound_after (hstore : store.Sound) (calls : List (Nat × Call)) :
    (store.after calls).Sound :=
  (mem_foldl_iff steps_perform hstore calls).1

-- What calls have left in a store
theorem mem_after_iff (hstore : store.Sound) (calls : List (Nat × Call)) (key : String)
    (entry : Entry) :
    (key, entry) ∈ (store.after calls).entries ↔
      Leaves (calls.map fun call => call.2.effect call.1) key entry ∨
        (key, entry) ∈ store.entries ∧ ∀ call ∈ calls, ¬(call.2.effect call.1).drops key entry :=
  (mem_foldl_iff steps_perform hstore calls).2 key entry

end

end Store

end TaggedCache
