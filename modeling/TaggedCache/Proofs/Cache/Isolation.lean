import TaggedCache.Proofs.Cache.Calls
import TaggedCache.Proofs.Store.Expiry

namespace TaggedCache

variable {M N : ObjectModel} {α : Type}

namespace Store

-- The part of a store whose keys meet a condition
def restrict (p : String → Bool) (store : Store) : Store :=
  ⟨store.entries.filter fun entry => p entry.1⟩

section

variable {p : String → Bool} {key : String}

theorem get_restrict (hkey : p key = true) (store : Store) (now : Nat) :
    (store.restrict p).get now key =
      ((store.get now key).1, (store.get now key).2.restrict p) := by
  rw [get, get]
  cases validateKey key with
  | error problem => rfl
  | ok =>
      simp only [restrict, Assoc.get?_filter hkey]
      cases Assoc.get? key store.entries with
      | none => rfl
      | some entry =>
          by_cases hexpired : entry.isExpired now <;> simp [hexpired, Assoc.filter_erase]

theorem restrict_get (hkey : p key = false) (store : Store) (now : Nat) :
    (store.get now key).2.restrict p = store.restrict p := by
  rw [get]
  cases validateKey key with
  | error problem => rfl
  | ok =>
      cases Assoc.get? key store.entries with
      | none => rfl
      | some entry =>
          by_cases hexpired : entry.isExpired now <;>
            simp [hexpired, restrict, Assoc.filter_erase_of_neg hkey]

-- A change of the part is the part of the change, and is rejected for the same reason.
theorem set_restrict (hkey : p key = true) (store : Store) (now : Nat) (bytes : ByteArray)
    (life : Option Nat) :
    (store.restrict p).set now key bytes life =
      (store.set now key bytes life).map (restrict p) := by
  rw [set_eq, set_eq]
  cases validateKey key with
  | error problem => rfl
  | ok => simp [Except.map, restrict, Assoc.filter_put, hkey]

theorem restrict_set (hkey : p key = false) {store changed : Store} {now : Nat} {bytes : ByteArray}
    {life : Option Nat} (h : store.set now key bytes life = .ok changed) :
    changed.restrict p = store.restrict p := by
  rw [set_eq] at h
  obtain ⟨-, -, rfl⟩ := map_eq_ok_iff.mp h
  simp [restrict, Assoc.filter_put, hkey]

theorem delete_restrict (hkey : p key = true) (store : Store) :
    (store.restrict p).delete key =
      (store.delete key).map fun outcome => (outcome.1, outcome.2.restrict p) := by
  rw [delete_eq, delete_eq]
  cases validateKey key with
  | error problem => rfl
  | ok => simp [Except.map, restrict, Assoc.has, Assoc.get?_filter hkey, Assoc.filter_erase]

theorem restrict_delete (hkey : p key = false) {store changed : Store} {held : Bool}
    (h : store.delete key = .ok (held, changed)) : changed.restrict p = store.restrict p := by
  rw [delete_eq] at h
  obtain ⟨-, -, heq⟩ := map_eq_ok_iff.mp h
  cases heq
  simp [restrict, Assoc.filter_erase_of_neg hkey]

end

end Store

-- A stored key starts like those of a cache.
def CacheConfig.covers (config : CacheConfig) (key : String) : Bool :=
  config.scope.toList.isPrefixOf key.toList

theorem CacheConfig.covers_qualify (config : CacheConfig) (key : String) :
    config.covers (config.qualify key) = true := by
  simp [covers, qualify, List.isPrefixOf_iff_prefix]

-- Stored keys that start alike belong to caches one of whose scopes starts with the other.
theorem CacheConfig.covers_qualify_eq_false {config other : CacheConfig}
    (h : ¬config.scope.toList <+: other.scope.toList)
    (hother : ¬other.scope.toList <+: config.scope.toList) (key : String) :
    config.covers (other.qualify key) = false := by
  rw [covers, qualify, Bool.eq_false_iff, ne_eq, List.isPrefixOf_iff_prefix, String.toList_append]
  intro hprefix
  exact (List.prefix_or_prefix_of_prefix hprefix (List.prefix_append _ _)).elim h hother

namespace Cache

-- The outcome of a call, with the part of the store it leaves whose keys meet a condition
def part (p : String → Bool) {ρ : Type} (outcome : ρ × Store) : ρ × Store :=
  (outcome.1, outcome.2.restrict p)

section

variable {cache : Cache M} {p : String → Bool}

-- A cache sees in a store what starts like its own keys, and nothing else.
theorem read_restrict {key : String} (hkey : p (cache.config.qualify key) = true) (store : Store)
    (now : Nat) (decode : ByteArray → Except CodecError (Option α)) :
    cache.read (store.restrict p) now key decode = part p (cache.read store now key decode) := by
  simp only [read, Store.get_restrict hkey]
  rcases hget : store.get now (cache.config.qualify key) with ⟨problem | _ | bytes, changed⟩
  · rfl
  · rfl
  · cases hdecode : decode bytes with
    | ok value => simp [hdecode, part]
    | error problem =>
        simp only [hdecode, Store.delete_restrict hkey]
        split
        · cases changed.delete (cache.config.qualify key) <;> rfl
        · rfl

theorem dropStart?_of_not_covers {config : CacheConfig} {key : String}
    (h : config.covers key = false) : dropStart? config.scope key = none := by
  rw [CacheConfig.covers] at h
  simp [dropStart?, h]

theorem keys_restrict (cache : Cache M) (store : Store) (now : Nat) (pattern : String) :
    cache.keys (store.restrict cache.config.covers) now pattern = cache.keys store now pattern := by
  rw [keys, keys]
  cases hparse : Glob.parse (cache.config.qualifyPattern pattern) with
  | error problem => simp only [Store.keys, hparse]
  | ok tokens =>
      have hlive : (store.restrict cache.config.covers).liveKeys now tokens =
          (store.liveKeys now tokens).filter cache.config.covers := by
        simp only [Store.liveKeys, Store.restrict, List.filter_map, List.filter_filter]
        exact congrArg _ (List.filter_congr fun entry _ => Bool.and_comm _ _)
      have hdrop (keys : List String) : (keys.filter cache.config.covers).filterMap
          (dropStart? cache.config.scope) = keys.filterMap (dropStart? cache.config.scope) := by
        rw [List.filterMap_filter]
        refine List.filterMap_congr fun key _ => ?_
        cases hcovers : cache.config.covers key with
        | true => rfl
        | false => exact (dropStart?_of_not_covers hcovers).symm
      rw [Store.keys_of_parse hparse, Store.keys_of_parse hparse, hlive, ← Assoc.filter_mergeSort]
      simp only [Except.map, hdrop]

end

-- What a call can give and leave in a store. A typed read sees the members of hash containers in
-- any order.
inductive Performs (cache : Cache M) (store : Store) (now : Nat) :
    (call : Call M) → Except CacheError call.Result × Store → Prop
  | plain (call : Call M) : Performs cache store now call (cache.perform store now call)
  | read {α : Type} (key : String) (reading : Reading M α)
      (decode : ByteArray → Except CodecError (Option α)) :
      (∀ bytes, reading.Gives cache.codec bytes (decode bytes)) →
      Performs cache store now (.read key reading) (cache.read store now key decode)

section

variable {cache : Cache M}

-- A cache gives and leaves the same whether there are other entries in the store or not.
theorem perform_restrict (cache : Cache M) (store : Store) (now : Nat) (call : Call M) :
    cache.perform (store.restrict cache.config.covers) now call =
      part cache.config.covers (cache.perform store now call) := by
  have hput (key : String) (value : Value M) (life : Option Nat) :
      cache.perform (store.restrict cache.config.covers) now (.putFor key value life) =
        part cache.config.covers (cache.perform store now (.putFor key value life)) := by
    simp only [perform, putFor]
    cases cache.codec.encode value with
    | error problem => rfl
    | ok bytes =>
        simp only [Store.set_restrict (cache.config.covers_qualify key)]
        cases store.set now (cache.config.qualify key) bytes life <;> rfl
  cases call with
  | put key value => exact hput key value cache.config.defaultLife
  | putFor key value life => exact hput key value life
  | read key reading =>
      simp only [perform, readAs_eq]
      exact read_restrict (cache.config.covers_qualify key) store now _
  | remove key =>
      simp only [perform, remove, Store.delete_restrict (cache.config.covers_qualify key)]
      cases store.delete (cache.config.qualify key) <;> rfl
  | keys pattern => simp only [perform, keys_restrict, part]

theorem performs_restrict_iff {store changed : Store} {now : Nat} {call : Call M}
    {result : Except CacheError call.Result} :
    cache.Performs (store.restrict cache.config.covers) now call (result, changed) ↔
      ∃ whole, cache.Performs store now call (result, whole) ∧
        whole.restrict cache.config.covers = changed := by
  constructor
  · intro h
    generalize houtcome : (result, changed) = outcome at h
    cases h with
    | plain call =>
        rw [perform_restrict, part, Prod.mk.injEq] at houtcome
        obtain ⟨rfl, rfl⟩ := houtcome
        exact ⟨_, .plain call, rfl⟩
    | read key reading decode hdecode =>
        rw [read_restrict (cache.config.covers_qualify key), part, Prod.mk.injEq] at houtcome
        obtain ⟨rfl, rfl⟩ := houtcome
        exact ⟨_, .read key reading decode hdecode, rfl⟩
  · rintro ⟨whole, hwhole, rfl⟩
    generalize houtcome : (result, whole) = outcome at hwhole
    cases hwhole with
    | plain call =>
        have hpart : cache.Performs (store.restrict cache.config.covers) now call _ := .plain call
        rwa [perform_restrict, part, ← houtcome] at hpart
    | read key reading decode hdecode =>
        have hpart :
            cache.Performs (store.restrict cache.config.covers) now (.read key reading) _ :=
          .read key reading decode hdecode
        rwa [read_restrict (cache.config.covers_qualify key), part, ← houtcome] at hpart

section

variable {p : String → Bool} (hcovers : ∀ key, p (cache.config.qualify key) = false)

include hcovers

theorem restrict_read (store : Store) (now : Nat) (key : String)
    (decode : ByteArray → Except CodecError (Option α)) :
    (cache.read store now key decode).2.restrict p = store.restrict p := by
  have hget := Store.restrict_get (hcovers key) store now
  rw [read]
  rcases hfound : store.get now (cache.config.qualify key) with ⟨problem | _ | bytes, changed⟩
  all_goals rw [hfound] at hget
  · exact hget
  · exact hget
  · cases hdecode : decode bytes with
    | ok value => simpa only [hdecode] using hget
    | error problem =>
        simp only [hdecode]
        split
        · cases hdelete : changed.delete (cache.config.qualify key) with
          | error problem => exact hget
          | ok outcome => exact (Store.restrict_delete (hcovers key) hdelete).trans hget
        · exact hget

-- A cache leaves alone what does not start like its own keys.
theorem restrict_perform (store : Store) (now : Nat) (call : Call M) :
    (cache.perform store now call).2.restrict p = store.restrict p := by
  have hput (key : String) (value : Value M) (life : Option Nat) :
      (cache.perform store now (.putFor key value life)).2.restrict p = store.restrict p := by
    simp only [perform, putFor]
    cases cache.codec.encode value with
    | error problem => rfl
    | ok bytes =>
        change (store.settle
          ((store.set now (cache.config.qualify key) bytes life).map _)).2.restrict p = _
        cases hset : store.set now (cache.config.qualify key) bytes life with
        | error problem => rfl
        | ok changed => exact Store.restrict_set (hcovers key) hset
  cases call with
  | put key value => exact hput key value cache.config.defaultLife
  | putFor key value life => exact hput key value life
  | read key reading =>
      simp only [perform, readAs_eq]
      exact restrict_read hcovers store now key _
  | remove key =>
      simp only [perform, remove]
      cases hdelete : store.delete (cache.config.qualify key) with
      | error problem => rfl
      | ok outcome => exact Store.restrict_delete (hcovers key) hdelete
  | keys pattern => rfl

theorem restrict_of_performs {store : Store} {now : Nat} {call : Call M}
    {outcome : Except CacheError call.Result × Store} (h : cache.Performs store now call outcome) :
    outcome.2.restrict p = store.restrict p := by
  cases h with
  | plain call => exact restrict_perform hcovers store now call
  | read key reading decode => exact restrict_read hcovers store now key decode

end

end

-- Calls to two caches in front of one store, each at a time
abbrev Interleaving (M N : ObjectModel) : Type 1 := List (Nat × (Call M ⊕ Call N))

-- The calls to the first of two caches alone
def Interleaving.own (calls : Interleaving M N) : Interleaving M N := calls.filter (·.2.isLeft)

-- What the first of two caches gives, call by call
def resultsOf (mine : Cache M) (theirs : Cache N) (store : Store) :
    Interleaving M N → List (Σ call : Call M, Except CacheError call.Result)
  | [] => []
  | (now, .inl call) :: rest =>
      ⟨call, (mine.perform store now call).1⟩ ::
        resultsOf mine theirs (mine.perform store now call).2 rest
  | (now, .inr call) :: rest => resultsOf mine theirs (theirs.perform store now call).2 rest

-- What the first of two caches can give, call by call, whatever the order in which the caches see
-- the members of hash containers
inductive Yields (mine : Cache M) (theirs : Cache N) :
    Store → Interleaving M N → List (Σ call : Call M, Except CacheError call.Result) → Prop
  | done (store : Store) : Yields mine theirs store [] []
  | mine {store changed : Store} {now : Nat} {call : Call M} {rest : Interleaving M N}
      {result : Except CacheError call.Result}
      {results : List (Σ call : Call M, Except CacheError call.Result)} :
      mine.Performs store now call (result, changed) → Yields mine theirs changed rest results →
      Yields mine theirs store ((now, .inl call) :: rest) (⟨call, result⟩ :: results)
  | theirs {store changed : Store} {now : Nat} {call : Call N} {rest : Interleaving M N}
      {result : Except CacheError call.Result}
      {results : List (Σ call : Call M, Except CacheError call.Result)} :
      theirs.Performs store now call (result, changed) → Yields mine theirs changed rest results →
      Yields mine theirs store ((now, .inr call) :: rest) results

section

variable {mine : Cache M} {theirs : Cache N}
  (hcovers : ∀ key, mine.config.covers (theirs.config.qualify key) = false)

include hcovers

theorem resultsOf_restrict (store : Store) (calls : Interleaving M N) :
    resultsOf mine theirs (store.restrict mine.config.covers) calls.own =
      resultsOf mine theirs store calls := by
  induction calls generalizing store with
  | nil => rfl
  | cons entry rest ih =>
      obtain ⟨now, call | call⟩ := entry
      · rw [Interleaving.own, List.filter_cons_of_pos rfl, ← Interleaving.own, resultsOf, resultsOf,
          mine.perform_restrict, part, ih]
      · rw [Interleaving.own, List.filter_cons_of_neg (by simp), ← Interleaving.own, resultsOf,
          ← restrict_perform hcovers store now call, ih]

theorem yields_restrict_iff {store : Store} {calls : Interleaving M N}
    {results : List (Σ call : Call M, Except CacheError call.Result)} :
    Yields mine theirs (store.restrict mine.config.covers) calls.own results ↔
      Yields mine theirs store calls results := by
  induction calls generalizing store results with
  | nil =>
      constructor
      · rintro ⟨⟩
        exact .done store
      · rintro ⟨⟩
        exact .done _
  | cons entry rest ih =>
      obtain ⟨now, call | call⟩ := entry
      · rw [Interleaving.own, List.filter_cons_of_pos rfl, ← Interleaving.own]
        constructor
        · intro h
          cases h with
          | mine hperforms hrest =>
              obtain ⟨whole, hwhole, rfl⟩ := performs_restrict_iff.mp hperforms
              exact .mine hwhole (ih.mp hrest)
        · intro h
          cases h with
          | mine hperforms hrest =>
              exact .mine (performs_restrict_iff.mpr ⟨_, hperforms, rfl⟩) (ih.mpr hrest)
      · rw [Interleaving.own, List.filter_cons_of_neg (by simp), ← Interleaving.own]
        constructor
        · intro h
          have hkept := restrict_perform hcovers store now call
          exact .theirs (.plain call) (ih.mp (hkept ▸ h))
        · intro h
          cases h with
          | theirs hperforms hrest =>
              rw [← restrict_of_performs hcovers hperforms]
              exact ih.mpr hrest

end

-- Caches whose scopes do not start alike do not notice each other, whatever they are asked for,
-- in whatever order and at whatever times: each gives what its own calls alone would give.
theorem resultsOf_own (mine : Cache M) (theirs : Cache N)
    (hmine : ¬mine.config.scope.toList <+: theirs.config.scope.toList)
    (htheirs : ¬theirs.config.scope.toList <+: mine.config.scope.toList)
    (store : Store) (calls : Interleaving M N) :
    resultsOf mine theirs store calls = resultsOf mine theirs store calls.own ∧
      ∀ results, Yields mine theirs store calls results ↔
        Yields mine theirs store calls.own results := by
  have hcovers := CacheConfig.covers_qualify_eq_false hmine htheirs
  have hown : calls.own.own = calls.own := by simp [Interleaving.own]
  constructor
  · rw [← resultsOf_restrict hcovers store calls, ← resultsOf_restrict hcovers store calls.own,
      hown]
  · intro results
    have halone : Yields mine theirs (store.restrict mine.config.covers) calls.own.own results ↔
        Yields mine theirs store calls.own results := yields_restrict_iff hcovers
    rw [hown] at halone
    exact (yields_restrict_iff hcovers).symm.trans halone

-- A key that two caches have in common is removed by each for itself.
theorem resultsOf_own_removed :
    let mine : Cache Switch := ⟨Switch.codec false, ⟨"t1:", none, true⟩⟩
    let theirs : Cache Switch := ⟨Switch.codec true, ⟨"t2:", none, false⟩⟩
    let calls : Interleaving Switch Switch :=
      [(0, .inl (.putFor "k" .null none)), (1, .inr (.remove "k")),
        (1, .inr (.keys "\x7d,\x7bt1:*")), (2, .inl (.remove "k")),
        (2, .inr (.read "k" .value)), (3, .inl (.remove "k"))]
    ¬mine.config.scope.toList <+: theirs.config.scope.toList ∧
      ¬theirs.config.scope.toList <+: mine.config.scope.toList ∧
      resultsOf mine theirs .empty calls =
        [⟨.putFor "k" .null none, .ok ()⟩, ⟨.remove "k", .ok true⟩, ⟨.remove "k", .ok false⟩] := by
  intro mine theirs calls
  have hmine : ¬mine.config.scope.toList <+: theirs.config.scope.toList := by decide
  have htheirs : ¬theirs.config.scope.toList <+: mine.config.scope.toList := by decide
  obtain ⟨hresults, -⟩ := resultsOf_own mine theirs hmine htheirs .empty calls
  refine ⟨hmine, htheirs, hresults.trans ?_⟩
  simp only [mine, theirs, calls]
  rfl

end Cache

end TaggedCache
