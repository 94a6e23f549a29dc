import TaggedCache.Proofs.Cache.Calls

namespace TaggedCache

variable {M : ObjectModel} {α : Type}

theorem Codec.decode_bareWord (codec : Codec M) :
    codec.decode "x".toUTF8 = .error (.malformed "invalid scalar document") := by
  have hbytes : "x".toUTF8.toList = [0x78] := toList_toUTF8_ofList ['x']
  rw [decode, hbytes, fromUTF8?_toUTF8]
  rfl

namespace Cache

-- What a read may do to a store, and how it ends where it fails. Entries that are of no use are
-- dropped; whatever else happens, the store stays as it is.
structure ReadFrame (cache : Cache M) (store : Store) (now : Nat) (key : String)
    (decode : ByteArray → Except CodecError (Option α))
    (outcome : Except CacheError (Option α) × Store) : Prop where
  others : ∀ other, other ≠ cache.config.qualify key →
    Assoc.get? other outcome.2.entries = Assoc.get? other store.entries
  dropped : cache.Discards store now key →
    outcome.1 = .ok none ∧ cache.stored? outcome.2 key = none
  kept : ¬cache.Discards store now key → outcome.2 = store
  corrupt : ∀ entry e, Store.validateKey (cache.config.qualify key) = .ok () →
    cache.stored? store key = some entry → entry.isExpired now = false →
    cache.codec.decode entry.bytes = .error e → cache.config.dropsCorrupt = false →
    ∃ text, e = .malformed text ∧ outcome = (.error (.corruption key text .clearAndRetry), store)
  unreadable : ∀ entry e, Store.validateKey (cache.config.qualify key) = .ok () →
    cache.stored? store key = some entry → entry.isExpired now = false →
    decode entry.bytes = .error e → e.isMalformed = false →
    ∃ hint, outcome = (.error (.serialization key .decode e hint), store)

-- What a write may do to a store. It fails if the value cannot be encoded, or else if the key is
-- not valid, and then the store stays as it is.
structure PutFrame (cache : Cache M) (store : Store) (now : Nat) (key : String) (value : Value M)
    (life : Option Nat) (outcome : Except CacheError Unit × Store) : Prop where
  error_iff : ∀ problem, outcome.1 = .error problem ↔
    (∃ e, cache.codec.encode value = .error e ∧ problem = .ofCodec key .encode e) ∨
      (∃ bytes, cache.codec.encode value = .ok bytes) ∧
        Store.validateKey (cache.config.qualify key) = .error problem
  unchanged : ∀ problem, outcome.1 = .error problem → outcome.2 = store
  stored : outcome.1 = .ok () → ∃ bytes, cache.codec.encode value = .ok bytes ∧
    cache.stored? outcome.2 key = some ⟨bytes, life.map (now + ·)⟩
  others : ∀ other, other ≠ cache.config.qualify key →
    Assoc.get? other outcome.2.entries = Assoc.get? other store.entries

section

variable {cache : Cache M} {store : Store} {key : String}

theorem get?_without (other : String) :
    Assoc.get? other (cache.without store key).entries =
      if cache.config.qualify key = other then none else Assoc.get? other store.entries :=
  Assoc.get?_erase _ other store.entries

theorem readFrame_read {now : Nat} {decode : ByteArray → Except CodecError (Option α)}
    (hdecode : cache.codec.Reads decode) :
    cache.ReadFrame store now key decode (cache.read store now key decode) := by
  refine ⟨fun other hother => ?_, fun hdiscards => ?_, read_snd_of_not_discards hdecode,
    fun entry e hkey hentry hlive he hdrops => ?_, fun entry e hkey hentry hlive he hformed => ?_⟩
  · by_cases hdiscards : cache.Discards store now key
    · rw [read_of_discards hdecode hdiscards, get?_without, if_neg hother.symm]
    · rw [read_snd_of_not_discards hdecode hdiscards]
  · rw [read_of_discards hdecode hdiscards, stored?, get?_without, if_pos rfl]
    exact ⟨rfl, rfl⟩
  · obtain ⟨herror, hmalformed⟩ := (hdecode.malformed_iff entry.bytes e).mpr he
    rw [read_of_live hkey hentry hlive, herror]
    cases e with
    | malformed text => exact ⟨text, rfl, by simp [hdrops, CacheError.ofCodec]⟩
    | encoding | unresolvable | conversion | configuration => contradiction
  · rw [read_of_live hkey hentry hlive, he]
    obtain h | ⟨_, _, rfl⟩ | ⟨_, _, rfl⟩ := hdecode.error_cases entry.bytes e he
    · rw [hformed] at h
      contradiction
    · exact ⟨.treatAsMiss, rfl⟩
    · exact ⟨.noRecovery, rfl⟩

theorem putFrame_putFor (cache : Cache M) (store : Store) (now : Nat) (key : String)
    (value : Value M) (life : Option Nat) :
    cache.PutFrame store now key value life (cache.perform store now (.putFor key value life)) := by
  rw [perform, putFor]
  cases hencode : cache.codec.encode value with
  | error e =>
      refine ⟨fun problem => ?_, fun _ _ => rfl, by rintro ⟨⟩, fun _ _ => rfl⟩
      simp only [Except.map, Store.settle, Except.error.injEq, hencode]
      constructor
      · rintro rfl
        exact .inl ⟨e, rfl, rfl⟩
      · rintro (⟨_, rfl, rfl⟩ | ⟨⟨_, ⟨⟩⟩, -⟩)
        rfl
  | ok bytes =>
      simp only [Store.set_eq]
      cases hkey : Store.validateKey (cache.config.qualify key) with
      | error e =>
          refine ⟨fun problem => ?_, fun _ _ => rfl, by rintro ⟨⟩, fun _ _ => rfl⟩
          rw [hencode, hkey]
          constructor
          · exact fun h => .inr ⟨⟨bytes, rfl⟩, h⟩
          · rintro (⟨_, ⟨⟩, -⟩ | ⟨-, h⟩)
            exact h
      | ok =>
          refine ⟨fun problem => ?_, by rintro _ ⟨⟩, fun _ => ⟨bytes, hencode, ?_⟩,
            fun other hother => ?_⟩
          · rw [hencode, hkey]
            constructor
            · rintro ⟨⟩
            · rintro (⟨_, ⟨⟩, -⟩ | ⟨-, ⟨⟩⟩)
          · exact (Assoc.get?_put _ _ _ _).trans (if_pos rfl)
          · exact (Assoc.get?_put _ other _ _).trans (if_neg hother.symm)

end

-- Calls to a cache touch nothing but the entry of their own key, and that only where they must.
theorem frame_calls (cache : Cache M) (store : Store) (now : Nat) (key : String) :
    (∀ (α : Type) (reading : Reading M α),
      cache.ReadFrame store now key (reading.decode cache.codec)
        (cache.perform store now (.read key reading)) ∧
      ∀ decode, (∀ bytes, reading.Gives cache.codec bytes (decode bytes)) →
        cache.ReadFrame store now key decode (cache.read store now key decode)) ∧
    ∀ value,
      cache.PutFrame store now key value cache.config.defaultLife
        (cache.perform store now (.put key value)) ∧
      ∀ life, cache.PutFrame store now key value life
        (cache.perform store now (.putFor key value life)) := by
  refine ⟨fun α reading => ⟨?_, fun decode hdecode => ?_⟩, fun value => ⟨?_, fun life => ?_⟩⟩
  · rw [perform, readAs_eq]
    exact readFrame_read (reading.reads cache.codec)
  · exact readFrame_read (reading.reads_of_gives hdecode)
  · exact putFrame_putFor cache store now key value cache.config.defaultLife
  · exact putFrame_putFor cache store now key value life

-- Bytes that are no document make room. A table that cannot be converted stays where it is.
theorem frame_calls_grid :
    let cache : Cache Grid := ⟨Grid.codec, ⟨"p:", none, true⟩⟩
    let table : Entry := ⟨Grid.tree.text.toUTF8, none⟩
    let store : Store := ⟨[("p:k", ⟨"x".toUTF8, none⟩), ("p:t", table)]⟩
    (cache.get store 0 "k").1 = .ok none ∧
      Assoc.get? "p:t" (cache.get store 0 "k").2.entries = some table ∧
      (cache.getCollection store 0 "t" "rows" Except.ok).2 = store := by
  intro cache table store
  have hkey : cache.config.qualify "k" = "p:k" := by decide
  have hdiscards : cache.Discards store 0 "k" := by
    rw [Discards, stored?, hkey]
    exact ⟨rfl, _, rfl, .inr ⟨rfl, _, cache.codec.decode_bareWord⟩⟩
  obtain ⟨hread, -⟩ := frame_calls cache store 0 "k"
  obtain ⟨hframe, -⟩ := hread _ .value
  obtain ⟨htyped, -⟩ := frame_calls cache store 0 "t"
  obtain ⟨-, hgives⟩ := htyped _ (.items "rows" Except.ok)
  have hread := hgives (cache.codec.decodeCollection "rows" Except.ok) fun _ => .inl rfl
  refine ⟨(hframe.dropped hdiscards).1, hframe.others "p:t" (by decide), hread.kept ?_⟩
  rintro ⟨-, entry, ⟨⟩, hexpired | ⟨-, e, he⟩⟩
  · contradiction
  · cases Grid.decode_tree.symm.trans he

end Cache

end TaggedCache
