import TaggedCache.Proofs.Cache.Isolation
import TaggedCache.Proofs.Glob.Scope
import TaggedCache.Proofs.Switch

namespace TaggedCache

namespace Cache

variable {M : ObjectModel} {cache : Cache M} {pattern : String}

theorem dropStart?_eq_some_iff {start text rest : String} :
    dropStart? start text = some rest ↔ text = start ++ rest := by
  rw [dropStart?]
  constructor
  · intro h
    split at h
    · obtain ⟨tail, htail⟩ := List.isPrefixOf_iff_prefix.mp ‹_›
      obtain rfl := Option.some.inj h
      rw [← String.toList_inj, String.toList_append, ← htail]
      simp
    · contradiction
  · rintro rfl
    simp

-- Texts that start alike are ordered by what comes after that.
theorem lt_of_append_lt_append {start first second : List Char}
    (h : start ++ first < start ++ second) : first < second := by
  induction start with
  | nil => exact h
  | cons c rest ih =>
      rw [List.cons_append, List.cons_append, List.cons_lt_cons_iff] at h
      exact ih (h.resolve_left (Char.lt_irrefl c)).2

-- Whatever a store holds, a pattern lists those wanted keys that have live entries, in ascending
-- order.
def Lists (cache : Cache M) (pattern : String) (wanted : String → Prop) : Prop :=
  ∀ (store : Store) (now : Nat), store.Sound →
    ∃ keys, cache.keys store now pattern = .ok keys ∧ keys.Pairwise (· < ·) ∧
      ∀ key, key ∈ keys ↔
        (∃ entry, (cache.config.qualify key, entry) ∈ store.entries ∧
          entry.isExpired now = false) ∧ wanted key

theorem lists_of_parse {joined : List Glob.Token} {wanted : String → Prop}
    (hparse : Glob.parse (cache.config.qualifyPattern pattern) = .ok joined)
    (hwanted : ∀ key, Glob.isMatch joined (cache.config.qualify key) = true ↔ wanted key) :
    cache.Lists pattern wanted := by
  intro store now hstore
  refine ⟨_, by rw [keys, Store.keys_of_parse hparse]; rfl, ?_, fun key => ?_⟩
  · refine (Store.pairwise_mergeSort_liveKeys hstore now joined).filterMap _ ?_
    intro a b hlt first hfirst second hsecond
    rw [dropStart?_eq_some_iff.mp hfirst, dropStart?_eq_some_iff.mp hsecond, String.lt_iff,
      String.toList_append, String.toList_append] at hlt
    exact String.lt_iff.mpr (lt_of_append_lt_append hlt)
  · have hmem : cache.config.qualify key ∈ store.liveKeys now joined ↔
        (∃ entry, (cache.config.qualify key, entry) ∈ store.entries ∧
          entry.isExpired now = false) ∧ wanted key := by
      rw [Store.mem_liveKeys, hwanted]
    rw [← hmem]
    simp only [List.mem_filterMap, List.mem_mergeSort, dropStart?_eq_some_iff]
    constructor
    · rintro ⟨_, hkey, rfl⟩
      exact hkey
    · exact fun hkey => ⟨_, hkey, rfl⟩

-- A pattern lists the keys that it matches by itself.
def ListsAlike (cache : Cache M) (pattern : String) : Prop :=
  ∀ tokens, Glob.parse pattern = .ok tokens →
    cache.Lists pattern fun key => Glob.isMatch tokens key = true

-- A store with a single entry tells whether its key is wanted.
theorem exists_parse_of_lists {wanted : String → Prop} (h : cache.Lists pattern wanted) :
    ∃ joined, Glob.parse (cache.config.qualifyPattern pattern) = .ok joined ∧
      ∀ key, Store.validateKey (cache.config.qualify key) = .ok () →
        (Glob.isMatch joined (cache.config.qualify key) = true ↔ wanted key) := by
  obtain ⟨joined, hparse⟩ :
      ∃ joined, Glob.parse (cache.config.qualifyPattern pattern) = .ok joined := by
    obtain ⟨_, hkeys, -⟩ := h .empty 0 Store.sound_empty
    obtain ⟨_, hkeys, -⟩ := map_eq_ok_iff.mp hkeys
    rw [Store.keys] at hkeys
    cases hparse : Glob.parse (cache.config.qualifyPattern pattern) with
    | error problem => simp [hparse] at hkeys
    | ok joined => exact ⟨joined, rfl⟩
  refine ⟨joined, hparse, fun key hvalid => ?_⟩
  let store : Store := ⟨[(cache.config.qualify key, ⟨ByteArray.empty, none⟩)]⟩
  have hstore : store.Sound := ⟨List.nodup_singleton _, by simpa [store, Assoc.keys] using hvalid⟩
  have hlive : ∃ entry, (cache.config.qualify key, entry) ∈ store.entries ∧
      entry.isExpired 0 = false := ⟨_, List.mem_singleton_self _, rfl⟩
  have hjoined : cache.Lists pattern fun key =>
      Glob.isMatch joined (cache.config.qualify key) = true :=
    lists_of_parse hparse fun _ => Iff.rfl
  obtain ⟨keys, hkeys, -, hmem⟩ := h store 0 hstore
  obtain ⟨_, hsame, -, hmem'⟩ := hjoined store 0 hstore
  obtain rfl := Except.ok.inj (hkeys.symm.trans hsame)
  rw [← and_iff_right hlive (b := Glob.isMatch joined _ = true), ← hmem', hmem,
    and_iff_right hlive]

section

variable (hscope : ∀ c ∈ cache.config.scope.toList, Text.isControl c = false)
include hscope

theorem validateKey_qualify {key : String} (hne : cache.config.qualify key ≠ "")
    (hkey : ∀ c ∈ key.toList, Text.isControl c = false) :
    Store.validateKey (cache.config.qualify key) = .ok () := by
  have hempty : (cache.config.qualify key).isEmpty = false := by simpa using hne
  have hcontrol : (cache.config.qualify key).toList.any Text.isControl = false := by
    rw [CacheConfig.qualify, String.toList_append, List.any_append, Bool.or_eq_false_iff]
    exact ⟨by simpa using hscope, by simpa using hkey⟩
  rw [Store.validateKey, hempty, hcontrol]
  rfl

-- The empty pattern does not list the key whose stored key is the scope, if that has a backslash.
theorem not_listsAlike_empty (hbackslash : '\\' ∈ cache.config.scope.toList) :
    ¬cache.ListsAlike "" := by
  intro h
  obtain ⟨joined, hparse, hmatch⟩ := exists_parse_of_lists (h [] rfl)
  have hqualify : cache.config.qualify "" = cache.config.scope := String.append_empty
  have hne : cache.config.qualify "" ≠ "" := by
    intro hempty
    rw [← hqualify, hempty] at hbackslash
    exact List.not_mem_nil hbackslash
  have hlisted := (hmatch "" (validateKey_qualify hscope hne nofun)).mpr (by decide +kernel)
  rw [CacheConfig.qualifyPattern, String.append_empty] at hparse
  rw [hqualify, Glob.isMatch_escape_eq_false hbackslash hparse] at hlisted
  exact Bool.false_ne_true hlisted

-- A path component that is all of a pattern does not list every key after a scope.
theorem not_listsAlike_path (hbackslash : '\\' ∉ cache.config.scope.toList)
    (hne : cache.config.scope ≠ "") : ¬cache.ListsAlike "**/" := by
  intro h
  obtain ⟨joined, hparse, hmatch⟩ := exists_parse_of_lists (h [.leadingPath] rfl)
  have hvalid : Store.validateKey (cache.config.qualify "a") = .ok () :=
    validateKey_qualify hscope (by simp [CacheConfig.qualify, hne]) (by simp [Text.isControl])
  have hlisted := (hmatch "a" hvalid).mpr rfl
  have hempty : ¬Glob.BeginsPath "" := by decide
  have hnone : Glob.parse "" = .ok [] := rfl
  obtain ⟨same, hsame, hpaths⟩ := Glob.exists_parse_underPaths hbackslash hne 0 hempty hnone
  obtain rfl : joined = same := Except.ok.inj (hparse.symm.trans hsame)
  rcases (hpaths "a").mp hlisted with ⟨-, hmatch⟩ | ⟨before, after, heq, -⟩
  · exact absurd hmatch (by decide +kernel)
  · have hslash : '/' ∈ "a".toList := by simp [heq]
    exact absurd hslash (by decide)

end

-- What a pattern that begins with path components lists after a scope, beside what it matches
-- by itself. Either it is the pattern after them that must match, at the start of the key or at
-- that of a later path component. The start of the key counts only if the scope ends with a
-- separator; and by itself, but not after a scope, nothing after the components matches anything.
def ListsPaths (cache : Cache M) (pattern : String) (own : List Glob.Token) : Prop :=
  ∃ count rest tokens, pattern = Glob.underPaths (count + 1) rest ∧ ¬Glob.BeginsPath rest ∧
    Glob.parse rest = .ok tokens ∧
    (∀ key, Glob.isMatch own key = true ↔ tokens = [] ∨ Glob.isMatch tokens key = true ∨
      ∃ before after, key = before ++ "/" ++ after ∧ Glob.isMatch tokens after = true) ∧
    cache.Lists pattern fun key =>
      cache.config.scope.toList.getLast? = some '/' ∧ Glob.isMatch tokens key = true ∨
        ∃ before after, key = before ++ "/" ++ after ∧ Glob.isMatch tokens after = true

theorem listsPaths (hbackslash : '\\' ∉ cache.config.scope.toList)
    (hne : cache.config.scope ≠ "") {own : List Glob.Token} (hpath : Glob.BeginsPath pattern)
    (h : Glob.parse pattern = .ok own) : cache.ListsPaths pattern own := by
  obtain ⟨count, rest, rfl, hrest⟩ := Glob.exists_eq_underPaths hpath
  obtain ⟨tokens, htokens, hown⟩ := Glob.exists_of_parse_underPaths hrest h
  obtain ⟨joined, hparse, hmatch⟩ :=
    Glob.exists_parse_underPaths hbackslash hne count hrest htokens
  exact ⟨count, rest, tokens, rfl, hrest, htokens, hown, lists_of_parse hparse hmatch⟩

theorem listsAlike_of_notMem (hbackslash : '\\' ∉ cache.config.scope.toList)
    (hpath : ¬Glob.BeginsPath pattern) : cache.ListsAlike pattern := by
  intro tokens h
  obtain ⟨joined, hparse, hmatch⟩ := Glob.exists_parse_scope hbackslash hpath h
  exact lists_of_parse hparse fun key => by rw [CacheConfig.qualify, hmatch]

theorem listsAlike_of_empty (hempty : cache.config.scope = "") : cache.ListsAlike pattern := by
  intro tokens h
  have hparse : Glob.parse (cache.config.qualifyPattern pattern) = .ok tokens := by
    rw [CacheConfig.qualifyPattern, hempty]
    simpa [Glob.escape] using h
  exact lists_of_parse hparse fun key => by rw [CacheConfig.qualify, hempty, String.empty_append]

-- Every pattern means the same after a scope as by itself just if the scope is empty, and every
-- one but those that begin with path components just if it holds no backslash.
theorem lists_iff (cache : Cache M)
    (hscope : ∀ c ∈ cache.config.scope.toList, Text.isControl c = false) :
    ((∀ pattern, cache.ListsAlike pattern) ↔ cache.config.scope = "") ∧
    ((∀ pattern, ¬Glob.BeginsPath pattern → cache.ListsAlike pattern) ↔
      '\\' ∉ cache.config.scope.toList) ∧
    ('\\' ∉ cache.config.scope.toList → cache.config.scope ≠ "" → ∀ pattern own,
      Glob.BeginsPath pattern → Glob.parse pattern = .ok own → cache.ListsPaths pattern own) := by
  refine ⟨⟨fun h => ?_, fun h _ => listsAlike_of_empty h⟩, ⟨fun h hbackslash => ?_,
    fun h _ => listsAlike_of_notMem h⟩, fun hbackslash hne _ _ => listsPaths hbackslash hne⟩
  · by_contra hne
    by_cases hbackslash : '\\' ∈ cache.config.scope.toList
    · exact not_listsAlike_empty hscope hbackslash (h "")
    · exact not_listsAlike_path hscope hbackslash hne (h "**/")
  · exact not_listsAlike_empty hscope hbackslash (h "" (by decide))

theorem lists_iff_starred :
    let cache : Cache Switch := ⟨Switch.codec false, ⟨"a*:", none, true⟩⟩
    (∀ pattern, ¬Glob.BeginsPath pattern → cache.ListsAlike pattern) ∧
      ¬∀ pattern, cache.ListsAlike pattern := by
  intro cache
  obtain ⟨hall, hothers, -⟩ := lists_iff cache (by simp [cache, Text.isControl])
  exact ⟨hothers.mpr (by decide), fun h => absurd (hall.mp h) (by decide)⟩

-- The backslash of the scope is not escaped, so that the pattern asks for a key without it.
theorem keys_eq_nil_of_backslash :
    let cache : Cache Switch := ⟨Switch.codec false, ⟨"a\\b:", none, true⟩⟩
    let store : Store := ⟨[("a\\b:k", ⟨"1".toUTF8, none⟩)]⟩
    store.Sound ∧ Glob.parse "*" = .ok [.star] ∧ Glob.isMatch [.star] "k" = true ∧
      cache.keys store 0 "*" = .ok [] := by
  intro cache store
  have hqualify : cache.config.qualifyPattern "*" = "a\\b:*" := by decide
  let joined : List Glob.Token := [.literal 'a', .literal 'b', .literal ':', .star]
  have hparse : Glob.parse "a\\b:*" = .ok joined := rfl
  have hmatch : Glob.isMatch joined "a\\b:k" = false := by decide +kernel
  refine ⟨⟨List.nodup_singleton _, by simp [store, Assoc.keys]; rfl⟩, rfl, by decide +kernel, ?_⟩
  rw [keys, hqualify, Store.keys_of_parse hparse]
  simp [store, Store.liveKeys, hmatch, Except.map]

end Cache

end TaggedCache
