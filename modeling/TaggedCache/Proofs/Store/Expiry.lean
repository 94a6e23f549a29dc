import TaggedCache.Proofs.Pointwise
import TaggedCache.Proofs.Store.Calls

namespace TaggedCache

theorem Entry.isExpired_eq_false_iff {entry : Entry} {now : Nat} :
    entry.isExpired now = false ↔ ∀ time ∈ entry.expiresAt, now < time := by
  rw [isExpired]
  cases entry.expiresAt <;> simp

theorem Entry.not_isExpired_of_le {entry : Entry} {now later : Nat} (hlater : now ≤ later)
    (h : entry.isExpired later = false) : entry.isExpired now = false := by
  rw [isExpired_eq_false_iff] at h ⊢
  intro time htime
  have := h time htime
  omega

namespace Store

-- Two stores hold the same entries, but for those that have expired.
def AgreesAt (now : Nat) (store other : Store) : Prop :=
  ∀ key entry, entry.isExpired now = false →
    ((key, entry) ∈ store.entries ↔ (key, entry) ∈ other.entries)

-- The keys of the entries that are there at a time and match a pattern
def liveKeys (store : Store) (now : Nat) (tokens : List Glob.Token) : List String :=
  let live := store.entries.filter fun entry =>
    !entry.2.isExpired now && Glob.isMatch tokens entry.1
  live.map (·.1)

theorem keys_of_parse {pattern : String} {tokens : List Glob.Token}
    (h : Glob.parse pattern = .ok tokens) (store : Store) (now : Nat) :
    store.keys now pattern =
      .ok ((store.liveKeys now tokens).mergeSort fun a b => (compare a b).isLE) := by
  rw [keys, h]
  rfl

section

variable {store other : Store} {now : Nat}

theorem live?_eq_some_iff (hstore : store.Sound) {key : String} {bytes : ByteArray} :
    store.live? now key = some bytes ↔ ∃ entry, (key, entry) ∈ store.entries ∧
      entry.isExpired now = false ∧ entry.bytes = bytes := by
  simp only [live?, Option.map_eq_some_iff, Option.filter_eq_some_iff, hstore.get?_iff_mem,
    Bool.not_eq_true', and_assoc]

theorem get_eq_some_iff (hstore : store.Sound) {key : String} {bytes : ByteArray} :
    (store.get now key).1 = .ok (some bytes) ↔ ∃ entry, (key, entry) ∈ store.entries ∧
      entry.isExpired now = false ∧ entry.bytes = bytes := by
  rw [get_fst, map_eq_ok_iff, ← live?_eq_some_iff hstore]
  constructor
  · rintro ⟨-, -, hlive⟩
    exact hlive
  · intro hlive
    obtain ⟨entry, hentry, -⟩ := (live?_eq_some_iff hstore).mp hlive
    exact ⟨(), hstore.valid_of_mem hentry, hlive⟩

theorem mem_liveKeys {tokens : List Glob.Token} {key : String} :
    key ∈ store.liveKeys now tokens ↔
      (∃ entry, (key, entry) ∈ store.entries ∧ entry.isExpired now = false) ∧
        Glob.isMatch tokens key = true := by
  simp only [liveKeys, List.mem_map, List.mem_filter, Bool.and_eq_true, Bool.not_eq_true']
  constructor
  · rintro ⟨⟨_, entry⟩, ⟨hentry, hlive, hmatch⟩, rfl⟩
    exact ⟨⟨entry, hentry, hlive⟩, hmatch⟩
  · rintro ⟨⟨entry, hentry, hlive⟩, hmatch⟩
    exact ⟨(key, entry), ⟨hentry, hlive, hmatch⟩, rfl⟩

-- The keys that are there are those that can be read.
theorem mem_liveKeys_iff_get (hstore : store.Sound) {tokens : List Glob.Token} {key : String} :
    key ∈ store.liveKeys now tokens ↔
      (∃ bytes, (store.get now key).1 = .ok (some bytes)) ∧ Glob.isMatch tokens key = true := by
  rw [mem_liveKeys]
  refine and_congr_left fun _ => ?_
  simp only [get_eq_some_iff hstore]
  constructor
  · rintro ⟨entry, hentry, hlive⟩
    exact ⟨entry.bytes, entry, hentry, hlive, rfl⟩
  · rintro ⟨-, entry, hentry, hlive, -⟩
    exact ⟨entry, hentry, hlive⟩

theorem nodup_liveKeys (hstore : store.Sound) (now : Nat) (tokens : List Glob.Token) :
    (store.liveKeys now tokens).Nodup :=
  hstore.nodup.sublist (List.filter_sublist.map Prod.fst)

-- Entries that have expired make no difference to what can be read.
theorem get_congr (hstore : store.Sound) (hother : other.Sound) (h : AgreesAt now store other)
    (key : String) : (store.get now key).1 = (other.get now key).1 := by
  have hlive : store.live? now key = other.live? now key := by
    refine Option.ext fun bytes => ?_
    rw [live?_eq_some_iff hstore, live?_eq_some_iff hother]
    refine exists_congr fun entry => and_congr_left ?_
    exact fun hlive => h key entry hlive.1
  rw [get_fst, get_fst, hlive]

theorem keys_congr (hstore : store.Sound) (hother : other.Sound) (h : AgreesAt now store other)
    (pattern : String) : store.keys now pattern = other.keys now pattern := by
  cases hparse : Glob.parse pattern with
  | error problem => rw [keys, keys, hparse]
  | ok tokens =>
      have hperm : (store.liveKeys now tokens).Perm (other.liveKeys now tokens) := by
        refine (List.perm_ext_iff_of_nodup (nodup_liveKeys hstore now tokens)
          (nodup_liveKeys hother now tokens)).mpr fun key => ?_
        rw [mem_liveKeys, mem_liveKeys]
        exact and_congr_left fun _ => exists_congr fun entry => and_congr_left (h key entry)
      have hsorted := Assoc.mergeSort_eq_of_perm hperm fun a _ b _ (heq : compare a b = .eq) =>
        Std.LawfulEqCmp.eq_of_compare heq
      rw [keys_of_parse hparse, keys_of_parse hparse, hsorted]

-- The keys are listed in ascending order.
theorem pairwise_mergeSort_liveKeys (hstore : store.Sound) (now : Nat) (tokens : List Glob.Token) :
    ((store.liveKeys now tokens).mergeSort fun a b => (compare a b).isLE).Pairwise (· < ·) := by
  have hsorted : ((store.liveKeys now tokens).mergeSort fun a b => (compare a b).isLE).Pairwise
      fun a b => (compare a b).isLE := Assoc.pairwise_mergeSort _
  have hnodup : ((store.liveKeys now tokens).mergeSort fun a b => (compare a b).isLE).Nodup :=
    (List.mergeSort_perm _ _).nodup_iff.mpr (nodup_liveKeys hstore now tokens)
  refine (hsorted.and hnodup).imp fun {a b} ⟨hle, hne⟩ => compareOfLessAndEq_eq_lt.mp ?_
  change compare a b = .lt
  cases hcompare : compare a b with
  | lt => rfl
  | eq => exact absurd (Std.LawfulEqCmp.eq_of_compare hcompare) hne
  | gt => simp [hcompare] at hle

-- An event that takes nothing away but what has expired
structure Effect.Expires (effect : Effect) (now : Nat) : Prop where
  not_writes : ∀ key entry, ¬effect.writes key entry
  isExpired_of_drops : ∀ key entry, effect.drops key entry → entry.isExpired now = true

theorem expires_get (now : Nat) (key : String) : ((Call.get key).effect now).Expires now :=
  ⟨fun _ _ => id, fun _ _ h => h.2⟩

theorem expires_purge (now : Nat) : (Call.purge.effect now).Expires now :=
  ⟨fun _ _ => id, fun _ _ => id⟩

-- Whether expired entries have been dropped before other events makes no difference after them
-- but for entries that have expired.
theorem agreesAt_foldl {ε : Type*} {step : Store → ε → Store} {effect : ε → Effect}
    (hstep : Steps step effect) {early : Effect} (hearly : early.Expires now)
    (hstore : store.Sound) (hother : other.Sound) (hchanges : store.Changes early other)
    (events : List ε) {later : Nat} (hlater : now ≤ later) :
    AgreesAt later (events.foldl step other) (events.foldl step store) := by
  intro key entry hlive
  have hstart : (key, entry) ∈ other.entries ↔ (key, entry) ∈ store.entries := by
    rw [hchanges key entry, or_iff_right (hearly.not_writes key entry)]
    refine and_iff_left fun hdrops => ?_
    have hexpired := hearly.isExpired_of_drops key entry hdrops
    rw [Entry.not_isExpired_of_le hlater hlive] at hexpired
    contradiction
  rw [(mem_foldl_iff hstep hother events).2, (mem_foldl_iff hstep hstore events).2, hstart]

end

-- Why a call is rejected: for its key or for its pattern
def Call.check : Call → Except CacheError Unit
  | get key | set key _ _ | delete key => validateKey key
  | keys pattern =>
      match Glob.parse pattern with
      | .ok _ => .ok ()
      | .error problem => .error (.invalidPattern pattern problem .noRecovery)
  | purge => .ok ()

theorem perform_eq_error_iff (store : Store) (now : Nat) (call : Call) (problem : CacheError) :
    (store.perform now call).1 = .error problem ↔ call.check = .error problem := by
  cases call with
  | get key =>
      rw [perform, get_fst]
      exact map_eq_error_iff
  | set key bytes life =>
      rw [perform, set_eq, Call.check]
      cases validateKey key <;> simp [settle, Except.map]
  | delete key =>
      rw [perform, delete_eq, Call.check]
      cases validateKey key <;> simp [settle, Except.map]
  | keys pattern =>
      rw [perform, keys, Call.check]
      cases Glob.parse pattern <;> simp
  | purge => simp [perform, Call.check]

theorem perform_of_check {call : Call} {problem : CacheError} (h : call.check = .error problem)
    (store : Store) (now : Nat) : (store.perform now call).2 = store := by
  cases call with
  | get key => rw [perform, get, show validateKey key = .error problem from h]
  | set key bytes life => rw [perform, set_eq, show validateKey key = .error problem from h]; rfl
  | delete key => rw [perform, delete_eq, show validateKey key = .error problem from h]; rfl
  | keys pattern => rfl
  | purge => contradiction

-- A call that puts an entry under a key or takes it away
def Call.Settles (key : String) : Call → Prop
  | set other _ _ | delete other => other = key
  | get _ | keys _ | purge => False

-- The entry that the latest set of a key has made, if no delete of the key came after it.
-- Calls with an invalid key are rejected and do not count.
def Stands (history : List (Nat × Call)) (key : String) (entry : Entry) : Prop :=
  ∃ earlier time bytes life later,
    history = earlier ++ (time, .set key bytes life) :: later ∧
      validateKey key = .ok () ∧ entry = ⟨bytes, life.map (time + ·)⟩ ∧
      ∀ call ∈ later, ¬call.2.Settles key

-- Up to a time at which it has not expired, an entry is only lost to calls that settle its key.
theorem drops_iff_settles {call : Nat × Call} {now : Nat} {key : String} {entry : Entry}
    (hclock : call.1 ≤ now) (hlive : entry.isExpired now = false) :
    (call.2.effect call.1).drops key entry ↔ call.2.Settles key := by
  have hbefore := Entry.not_isExpired_of_le hclock hlive
  obtain ⟨time, call⟩ := call
  cases call with
  | get other | purge => simp [Call.effect, Call.Settles, hbefore]
  | set | delete => exact eq_comm
  | keys => exact Iff.rfl

theorem mem_after_empty_iff (history : List (Nat × Call)) (key : String) (entry : Entry) :
    (key, entry) ∈ (empty.after history).entries ↔
      Leaves (history.map fun call => call.2.effect call.1) key entry := by
  rw [mem_after_iff sound_empty]
  exact or_iff_left fun h => absurd h.1 (by simp [empty])

theorem mem_after_iff_stands {history : List (Nat × Call)} {now : Nat}
    (hclock : ∀ call ∈ history, call.1 ≤ now) {key : String} {entry : Entry}
    (hlive : entry.isExpired now = false) :
    (key, entry) ∈ (empty.after history).entries ↔ Stands history key entry := by
  rw [mem_after_empty_iff]
  constructor
  · rintro ⟨_, _, _, hsplit, hwrites, hlater⟩
    obtain ⟨earlier, rest, rfl, rfl, hrest⟩ := List.map_eq_append_iff.mp hsplit
    obtain ⟨⟨time, call⟩, later, rfl, rfl, rfl⟩ := List.map_eq_cons_iff.mp hrest
    cases call with
    | get | delete | keys | purge => exact hwrites.elim
    | set other bytes life =>
        obtain ⟨hvalid, rfl, rfl⟩ := hwrites
        refine ⟨earlier, time, bytes, life, later, rfl, hvalid, rfl, fun call hcall => ?_⟩
        rw [← drops_iff_settles (hclock call (by simp [hcall])) hlive]
        exact hlater _ (List.mem_map_of_mem hcall)
  · rintro ⟨earlier, time, bytes, life, later, rfl, hvalid, rfl, hlater⟩
    refine ⟨_, (Call.set key bytes life).effect time, _, by rw [List.map_append, List.map_cons],
      ⟨hvalid, rfl, rfl⟩, ?_⟩
    refine List.forall_mem_map.mpr fun call hcall => ?_
    rw [drops_iff_settles (hclock call (by simp [hcall])) hlive]
    exact hlater call hcall

-- What a store shows after calls is a map with expiry: under each key the bytes that were put
-- there last, as long as they live. Purging removes what has expired and shows in no later read,
-- and a call that is rejected has no effect.
structure RefinesMap (history : List (Nat × Call)) (now : Nat) (store : Store) : Prop where
  held_iff : (Assoc.keys store.entries).Nodup ∧ ∀ key entry, (key, entry) ∈ store.entries ↔
    Leaves (history.map fun call => call.2.effect call.1) key entry
  get_iff : ∀ key bytes, (store.get now key).1 = .ok (some bytes) ↔
    ∃ entry, Stands history key entry ∧ entry.bytes = bytes ∧
      ∀ time ∈ entry.expiresAt, now < time
  keys : ∀ pattern tokens, Glob.parse pattern = .ok tokens →
    ∃ keys, store.keys now pattern = .ok keys ∧ keys.Pairwise (· < ·) ∧
      ∀ key, key ∈ keys ↔
        (∃ bytes, (store.get now key).1 = .ok (some bytes)) ∧ Glob.isMatch tokens key = true
  purge_count : (store.purge now).1 = (store.entries.filter (·.2.isExpired now)).length
  purge_unseen : ∀ calls later, now ≤ later →
    (∀ key, (((store.purge now).2.after calls).get later key).1 =
      ((store.after calls).get later key).1) ∧
    ∀ pattern, ((store.purge now).2.after calls).keys later pattern =
      (store.after calls).keys later pattern
  rejected_iff : ∀ call problem,
    (store.perform now call).1 = .error problem ↔ call.check = .error problem
  unchanged_of_rejected : ∀ call problem,
    (store.perform now call).1 = .error problem → (store.perform now call).2 = store

-- The clock may stand still between calls, but does not go back.
theorem refinesMap_after {history : List (Nat × Call)} {now : Nat}
    (hclock : ∀ call ∈ history, call.1 ≤ now) : RefinesMap history now (empty.after history) := by
  have hsound := sound_after sound_empty history
  obtain ⟨hpurged, hchanges⟩ := changes_purge hsound now
  refine ⟨⟨hsound.nodup, mem_after_empty_iff history⟩, fun key bytes => ?_,
    fun pattern tokens hparse => ?_, ?_, fun calls later hlater => ?_, perform_eq_error_iff _ now,
    fun call problem h => ?_⟩
  · rw [get_eq_some_iff hsound]
    refine exists_congr fun entry => ?_
    rw [← Entry.isExpired_eq_false_iff, and_comm (a := entry.bytes = bytes), ← and_assoc,
      ← and_assoc]
    exact and_congr_left fun _ => and_congr_left (mem_after_iff_stands hclock)
  · exact ⟨_, keys_of_parse hparse _ now, pairwise_mergeSort_liveKeys hsound now tokens,
      fun key => List.mem_mergeSort.trans (mem_liveKeys_iff_get hsound)⟩
  · have hlength := (empty.after history).entries.length_eq_length_filter_add
      fun entry => entry.2.isExpired now
    simp only [purge]
    omega
  · have hagrees : AgreesAt later _ _ :=
      agreesAt_foldl steps_perform (expires_purge now) hsound hpurged hchanges calls hlater
    exact ⟨get_congr (sound_after hpurged calls) (sound_after hsound calls) hagrees,
      keys_congr (sound_after hpurged calls) (sound_after hsound calls) hagrees⟩
  · exact perform_of_check ((perform_eq_error_iff _ now call problem).mp h) _ now

-- A key that is set again has its new bytes without end. A life of no time ends at once, and the
-- entry is counted until it is purged.
theorem refinesMap_after_overwritten :
    let store := empty.after [(0, .set "a" "x".toUTF8 (some 5)), (1, .set "a" "y".toUTF8 none),
      (2, .set "b" "z".toUTF8 (some 0)), (3, .set "" "z".toUTF8 none), (3, .delete "c")]
    (store.get 9 "a").1 = .ok (some "y".toUTF8) ∧ (store.purge 9).1 = 1 := by
  intro store
  have hrefines : RefinesMap _ 9 store := refinesMap_after (by decide)
  refine ⟨(hrefines.get_iff _ _).mpr ⟨⟨"y".toUTF8, none⟩, ?_, rfl, nofun⟩,
    hrefines.purge_count.trans rfl⟩
  exact ⟨[_], 1, _, none, _, rfl, rfl, rfl, by simp [Call.Settles]⟩

end Store

end TaggedCache
