import TaggedCache.Proofs.Cache.Calls
import TaggedCache.Proofs.Store.Expiry

namespace TaggedCache

variable {M : ObjectModel} {α : Type}

namespace Store

variable {store other : Store} {now : Nat}

-- Whether a key is held after events depends on what an earlier event dropped only if that would
-- otherwise still be there. Events that write an entry are taken to drop the one before it.
theorem has_foldl_eq_iff {ε : Type*} {step : Store → ε → Store} {effect : ε → Effect}
    (hstep : Steps step effect)
    (hreplaces : ∀ event key entry former,
      (effect event).writes key entry → (effect event).drops key former)
    {early : Effect} (hearly : early.Expires now) (hstore : store.Sound) (hother : other.Sound)
    (hchanges : store.Changes early other) (events : List ε) (key : String) :
    Assoc.has key (events.foldl step other).entries =
        Assoc.has key (events.foldl step store).entries ↔
      ¬∃ entry, (key, entry) ∈ store.entries ∧ early.drops key entry ∧
        ∀ event ∈ events, ¬(effect event).drops key entry := by
  obtain ⟨-, hplain⟩ := mem_foldl_iff hstep hstore events
  obtain ⟨-, hdropped⟩ := mem_foldl_iff hstep hother events
  have hother_iff (entry : Entry) : (key, entry) ∈ other.entries ↔
      (key, entry) ∈ store.entries ∧ ¬early.drops key entry := by
    rw [hchanges key entry, or_iff_right (hearly.not_writes key entry)]
  rw [Bool.eq_iff_iff, Assoc.has_iff_exists_mem, Assoc.has_iff_exists_mem]
  constructor
  · rintro hsame ⟨entry, hentry, hearlier, hlater⟩
    obtain ⟨last, hlast⟩ := hsame.mpr ⟨entry, (hplain key entry).mpr (.inr ⟨hentry, hlater⟩)⟩
    rcases (hdropped key last).mp hlast with ⟨_, _, _, hsplit, hwrites, -⟩ | ⟨hheld, -⟩
    · -- The event that writes the key has dropped the lingering entry.
      have hwriter := hsplit ▸ List.mem_append_right _ List.mem_cons_self
      obtain ⟨event, hevent, rfl⟩ := List.mem_map.mp hwriter
      exact hlater event hevent (hreplaces event key last entry hwrites)
    · obtain ⟨hheld, hkept⟩ := (hother_iff last).mp hheld
      exact hkept (hstore.eq_of_mem hentry hheld ▸ hearlier)
  · intro hlingers
    refine exists_congr fun entry => ?_
    rw [hdropped key entry, hplain key entry, hother_iff entry]
    refine or_congr_right (and_congr_left fun hlater => and_iff_left_of_imp ?_)
    exact fun hentry hearlier => hlingers ⟨entry, hentry, hearlier, hlater⟩

-- Whether a write succeeds does not depend on what is stored.
theorem perform_set_fst (store : Store) (now : Nat) (key : String) (bytes : ByteArray)
    (life : Option Nat) : (store.perform now (.set key bytes life)).1 = validateKey key := by
  rw [perform, set_eq]
  cases validateKey key <;> rfl

theorem perform_delete_eq_iff (hstore : store.Sound) (hother : other.Sound) (now : Nat)
    (key : String) :
    (store.perform now (.delete key)).1 = (other.perform now (.delete key)).1 ↔
      Assoc.has key store.entries = Assoc.has key other.entries := by
  rw [perform, perform, delete_eq, delete_eq]
  cases hkey : validateKey key with
  | ok => exact Except.ok.injEq (Assoc.has key store.entries) _ ▸ Iff.rfl
  | error problem =>
      have hmissing {store : Store} (hstore : store.Sound) :
          Assoc.has key store.entries = false := by
        rw [Bool.eq_false_iff, ne_eq, Assoc.has_iff]
        intro hmem
        cases (hstore.valid key hmem).symm.trans hkey
      rw [hmissing hstore, hmissing hother]
      exact iff_of_true rfl rfl

end Store

namespace Cache

section

variable {cache : Cache M} {store other : Store}

theorem perform_putFor_fst_congr (store other : Store) (now : Nat) (key : String)
    (value : Value M) (life : Option Nat) :
    (cache.perform store now (.putFor key value life)).1 =
      (cache.perform other now (.putFor key value life)).1 := by
  simp only [perform, putFor]
  cases cache.codec.encode value with
  | error problem => rfl
  | ok bytes =>
      exact (Store.perform_set_fst store now _ bytes life).trans
        (Store.perform_set_fst other now _ bytes life).symm

-- A read gives what it makes of the bytes it gets.
theorem read_fst_congr {now : Nat} {key : String}
    (h : (store.get now (cache.config.qualify key)).1 =
      (other.get now (cache.config.qualify key)).1)
    (decode : ByteArray → Except CodecError (Option α)) :
    (cache.read store now key decode).1 = (cache.read other now key decode).1 := by
  rw [read, read]
  rcases hstore : store.get now (cache.config.qualify key) with ⟨result, changed⟩
  rcases hother : other.get now (cache.config.qualify key) with ⟨same, changedOther⟩
  rw [hstore, hother] at h
  cases h
  rcases result with problem | _ | bytes
  · rfl
  · rfl
  · cases hdecode : decode bytes with
    | ok value => simp only [hdecode]
    | error problem =>
        simp only [hdecode, Store.delete_eq]
        split
        · cases Store.validateKey (cache.config.qualify key) <;> rfl
        · rfl

end

end Cache

-- What is asked of a store, directly or through a cache in front of it
inductive Request (M : ObjectModel) : Type 1 where
  | direct (call : Store.Call)
  | through (cache : Cache M) (call : Cache.Call M)

namespace Request

-- What a request gives unless it fails
@[reducible] def Result : Request M → Type
  | direct call => call.Result
  | through _ call => call.Result

-- A request at a time
def perform (store : Store) (now : Nat) :
    (request : Request M) → Except CacheError request.Result × Store
  | direct call => store.perform now call
  | through cache call => cache.perform store now call

-- The store after requests, each at a time, that start from an empty one
def after (requests : List (Nat × Request M)) : Store :=
  requests.foldl (fun store request => (request.2.perform store request.1).2) .empty

def effect (now : Nat) : Request M → Store.Effect
  | direct call => call.effect now
  | through cache call => call.effect cache now

-- The stored key that a request removes
def removed? : Request M → Option String
  | direct (.delete key) => some key
  | through cache (.remove key) => some (cache.config.qualify key)
  | direct _ | through _ _ => none

-- An entry that was expired, and that a call dropped for that, would still be held after later
-- requests without this call.
def Lingers (history : List (Nat × Request M)) (now : Nat) (early : Store.Call)
    (later : List (Nat × Request M)) (key : String) : Prop :=
  ∃ entry, (key, entry) ∈ (after history).entries ∧ (early.effect now).drops key entry ∧
    ∀ request ∈ later, ¬(request.2.effect request.1).drops key entry

theorem changes_perform {store : Store} (hstore : store.Sound) (now : Nat) (request : Request M) :
    (request.perform store now).2.Sound ∧
      store.Changes (request.effect now) (request.perform store now).2 := by
  cases request with
  | direct call => exact Store.changes_perform hstore now call
  | through cache call => exact Cache.changes_perform hstore now call

theorem steps_perform :
    Store.Steps (fun store (request : Nat × Request M) => (request.2.perform store request.1).2)
      fun request => request.2.effect request.1 :=
  fun _ request hstore => changes_perform hstore request.1 request.2

theorem sound_after (requests : List (Nat × Request M)) : (after requests).Sound :=
  (Store.mem_foldl_iff steps_perform Store.sound_empty requests).1

-- A request that writes an entry takes the place of the one before it.
theorem replaces_effect {now : Nat} {request : Request M} {key : String} {entry : Entry}
    (h : (request.effect now).writes key entry) (former : Entry) :
    (request.effect now).drops key former := by
  have hput {cache : Cache M} {life : Option Nat} {other : String} {value : Value M}
      (h : (Cache.Call.effect.putEffect cache now life other value).writes key entry) :
      (Cache.Call.effect.putEffect cache now life other value).drops key former := by
    rw [Cache.Call.effect.putEffect] at h ⊢
    cases hencode : cache.codec.encode value with
    | error problem => simp [hencode] at h
    | ok bytes =>
        rw [hencode] at h
        exact h.2.1
  cases request with
  | direct call =>
      cases call with
      | get | delete | keys | purge => exact h.elim
      | set => exact h.2.1
  | through cache call =>
      cases call with
      | put | putFor => exact hput h
      | read | remove | keys => exact h.elim

-- Only requests that remove a key can tell stores apart that differ in expired entries.
theorem perform_fst_eq_iff {store other : Store} {now : Nat} (hstore : store.Sound)
    (hother : other.Sound) (hagrees : Store.AgreesAt now store other) {request : Request M}
    (hpurge : request ≠ .direct .purge) :
    (request.perform store now).1 = (request.perform other now).1 ↔
      ∀ key ∈ request.removed?, Assoc.has key store.entries = Assoc.has key other.entries := by
  have hget := Store.get_congr hstore hother hagrees
  have hkeys := Store.keys_congr hstore hother hagrees
  cases request with
  | direct call =>
      cases call with
      | get key => exact iff_of_true (hget key) (by simp [removed?])
      | set key bytes life =>
          exact iff_of_true ((Store.perform_set_fst store now key bytes life).trans
            (Store.perform_set_fst other now key bytes life).symm) (by simp [removed?])
      | delete key =>
          refine (Store.perform_delete_eq_iff hstore hother now key).trans ?_
          simp [removed?]
      | keys pattern => exact iff_of_true (hkeys pattern) (by simp [removed?])
      | purge => contradiction
  | through cache call =>
      cases call with
      | put key value =>
          exact iff_of_true (Cache.perform_putFor_fst_congr _ _ _ _ _ _) (by simp [removed?])
      | putFor key value life =>
          exact iff_of_true (Cache.perform_putFor_fst_congr _ _ _ _ _ _) (by simp [removed?])
      | read key reading =>
          refine iff_of_true ?_ (by simp [removed?])
          simp only [perform, Cache.perform, Cache.readAs_eq]
          exact Cache.read_fst_congr (hget _) _
      | remove key =>
          refine (Store.perform_delete_eq_iff hstore hother now (cache.config.qualify key)).trans ?_
          simp [removed?]
      | keys pattern =>
          refine iff_of_true ?_ (by simp [removed?])
          simp only [perform, Cache.perform, Cache.keys, hkeys]

-- Whether an entry that has expired has been dropped already shows in nothing but what a request
-- reports that removes it. Before the early call both runs are the same.
theorem perform_after_early_eq_iff (history later : List (Nat × Request M)) {now time : Nat}
    {early : Store.Call} (hearly : early = .purge ∨ ∃ key, early = .get key) (htime : now ≤ time)
    {request : Request M} (hrequest : request ≠ .direct .purge) :
    (request.perform (after (history ++ (now, .direct early) :: later)) time).1 =
        (request.perform (after (history ++ later)) time).1 ↔
      ∀ key ∈ request.removed?, ¬Lingers history now early later key := by
  have hsound := sound_after history
  obtain ⟨hdropped, hchanges⟩ := Store.changes_perform hsound now early
  have hexpires : (early.effect now).Expires now := by
    rcases hearly with rfl | ⟨key, rfl⟩
    · exact Store.expires_purge now
    · exact Store.expires_get now key
  have hagrees := Store.agreesAt_foldl steps_perform hexpires hsound hdropped hchanges later htime
  have hplain : after (history ++ later) = later.foldl _ (after history) := List.foldl_append
  have hinserted : after (history ++ (now, .direct early) :: later) = later.foldl _ _ :=
    List.foldl_append
  rw [perform_fst_eq_iff (sound_after _) (sound_after _) (hplain ▸ hinserted ▸ hagrees) hrequest]
  refine forall₂_congr fun key _ => ?_
  rw [hplain, hinserted]
  have hreplaces (request : Nat × Request M) (key : String) (entry former : Entry)
      (h : (request.2.effect request.1).writes key entry) := replaces_effect h former
  exact Store.has_foldl_eq_iff steps_perform hreplaces hexpires hsound hdropped hchanges later key

-- An entry ends at 5. At 9 it counts as removed unless it has been purged, and cannot be read
-- in either case.
theorem perform_after_early_eq_iff_purged :
    let cache : Cache Grid := ⟨Grid.codec, .default⟩
    let history : List (Nat × Request Grid) := [(0, .direct (.set "a" "x".toUTF8 (some 5)))]
    let purged := after (history ++ [(7, .direct .purge)])
    ((through cache (.remove "a")).perform purged 9).1 ≠
        ((through cache (.remove "a")).perform (after (history ++ [])) 9).1 ∧
      ((through cache (.read "a" .value)).perform purged 9).1 =
        ((through cache (.read "a" .value)).perform (after (history ++ [])) 9).1 := by
  intro cache history purged
  have hclock : 7 ≤ 9 := by decide
  have hremove := perform_after_early_eq_iff history [] (.inl rfl) hclock
    (show through cache (.remove "a") ≠ .direct .purge from nofun)
  have hread := perform_after_early_eq_iff history [] (.inl rfl) hclock
    (show through cache (.read "a" .value) ≠ .direct .purge from nofun)
  refine ⟨fun hsame => ?_, hread.mpr nofun⟩
  refine hremove.mp hsame "a" (by decide) ⟨⟨"x".toUTF8, some 5⟩, ?_, rfl, nofun⟩
  exact List.mem_singleton_self _

-- Removing an expired entry is reported, unless the entry has been purged before.
theorem perform_after_early_ne :
    ¬∀ (history later : List (Nat × Request Grid)) (now time : Nat) (early : Store.Call)
      (request : Request Grid),
      (history.map (·.1) ++ now :: later.map (·.1) ++ [time]).Pairwise (· ≤ ·) →
      (early = .purge ∨ ∃ key, early = .get key) →
      ((∃ key, request = .direct (.get key)) ∨ (∃ key, request = .direct (.delete key)) ∨
        ∃ pattern, request = .direct (.keys pattern)) →
      (request.perform (after (history ++ (now, .direct early) :: later)) time).1 =
        (request.perform (after (history ++ later)) time).1 := by
  intro h
  have hsame := h [(0, .direct (.set "a" "x".toUTF8 (some 0)))] [] 0 0 .purge
    (.direct (.delete "a")) (by decide) (.inl rfl) (.inr (.inl ⟨"a", rfl⟩))
  have hreported : (Except.ok false : Except CacheError Bool) = .ok true := hsame
  cases hreported

end Request

end TaggedCache
