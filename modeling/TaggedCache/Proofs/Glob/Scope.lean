import TaggedCache.Proofs.Glob.Escape

namespace TaggedCache.Glob

-- A number of leading path components
def paths (count : Nat) : List Char := (List.replicate count ['*', '*', '/']).flatten

theorem paths_succ_append (count : Nat) (text : List Char) :
    paths (count + 1) ++ text = '*' :: '*' :: '/' :: (paths count ++ text) := rfl

theorem leads_eq_false {text : List Char} (hpath : ¬['*', '*', '/'] <+: text)
    (hall : text ≠ ['*', '*']) : leads text = false := by
  fun_cases leads text with
  | case1 rest =>
    cases rest with
    | nil => contradiction
    | cons c rest =>
      have hc : c ≠ '/' := by
        rintro rfl
        exact hpath ⟨rest, rfl⟩
      simpa [isSeparator] using hc
  | case2 => rfl

-- Path components after a separator take its place.
theorem step_path {head : Token} (hhead : head = .literal '/' ∨ head = .innerPath)
    (low : List Token) (rest : List Char) :
    step ⟨head :: low, []⟩ (some '/') '*' ('*' :: '/' :: rest) =
      .ok (⟨.innerPath :: low, []⟩, '/', rest) := by
  rcases hhead with rfl | rfl <;> simp [step, State.doubleStar, State.beginsComponent,
    isSeparator, State.pathComponent]

-- Whether a text begins with a separator and is matched after it or, where a later component may
-- be meant too, after another one
def AcceptsBelow (later : Prop) (tokens : List Token) (bytes : List UInt8) : Prop :=
  ∃ after, bytes = separatorByte :: after ∧ (Accepts tokens after ∨
    later ∧ ∃ rest, separatorByte :: rest <:+ after ∧ Accepts tokens rest)

theorem mem_restsOfSequence_head {head : Token} (hhead : head = .literal '/' ∨ head = .innerPath)
    {tokens : List Token} (hmem : .leadingPath ∉ tokens) (bytes : List UInt8) :
    [] ∈ restsOfSequence (head :: tokens) [bytes] ↔
      AcceptsBelow (head = .innerPath) tokens bytes := by
  rw [mem_restsOfSequence_cons, AcceptsBelow]
  simp only [accepts_iff hmem]
  rcases hhead with rfl | rfl
  · simp [mem_rests_literal, charBytes_slash]
  · simp only [mem_rests_innerPath]
    constructor
    · rintro ⟨mid, ⟨after, rfl, rfl | hmid⟩, hrest⟩
      · exact ⟨mid, rfl, .inl hrest⟩
      · exact ⟨after, rfl, .inr ⟨trivial, mid, hmid, hrest⟩⟩
    · rintro ⟨after, rfl, hrest | ⟨-, mid, hmid, hrest⟩⟩
      · exact ⟨after, ⟨after, rfl, .inl rfl⟩, hrest⟩
      · exact ⟨mid, ⟨after, rfl, .inr hmid⟩, hrest⟩

-- All that is left may be a leading path, which after a separator becomes a trailing one.
theorem mem_restsOfSequence_trailing (later : Prop) (bytes : List UInt8) :
    [] ∈ restsOfSequence [.trailingPath] [bytes] ↔ AcceptsBelow later [.leadingPath] bytes := by
  have haccepts (after : List UInt8) : Accepts [.leadingPath] after := .inl rfl
  rw [mem_restsOfSequence_cons, AcceptsBelow]
  simp only [mem_rests_trailingPath, mem_restsOfSequence_nil]
  constructor
  · rintro ⟨-, ⟨after, rfl, -⟩, -⟩
    exact ⟨after, rfl, .inl (haccepts after)⟩
  · rintro ⟨after, rfl, -⟩
    exact ⟨[], ⟨after, rfl, List.nil_suffix⟩, rfl⟩

theorem exists_read_head {head : Token} (hhead : head = .literal '/' ∨ head = .innerPath)
    (low : List Token) {text : List Char} {tokens : List Token}
    (hpath : ¬['*', '*', '/'] <+: text) (h : read .start none text = .ok tokens) :
    ∃ more, read ⟨head :: low, []⟩ (some '/') text = .ok (low.reverse ++ more) ∧
      .leadingPath ∉ more ∧ ∀ bytes, [] ∈ restsOfSequence more [bytes] ↔
        AcceptsBelow (head = .innerPath) tokens bytes := by
  by_cases hall : text = ['*', '*']
  · subst hall
    cases h
    have hread : read ⟨head :: low, []⟩ (some '/') ['*', '*'] =
        .ok (Token.trailingPath :: low).reverse := by
      rcases hhead with rfl | rfl <;> rfl
    exact ⟨[.trailingPath], hread.trans (by simp), by simp, mem_restsOfSequence_trailing _⟩
  · have hleads := leads_eq_false hpath hall
    have hmem := leadingPath_notMem_of_leads hleads h
    have hread : read ⟨head :: low, []⟩ (some '/') text =
        .ok ((head :: low).reverse ++ tokens) := by
      rw [read_after _ _ hleads, h]
      rfl
    refine ⟨head :: tokens, hread.trans (by simp), ?_, mem_restsOfSequence_head hhead hmem⟩
    rcases hhead with rfl | rfl <;> simpa using hmem

theorem exists_read_paths {head : Token} (hhead : head = .literal '/' ∨ head = .innerPath)
    (low : List Token) (count : Nat) {text : List Char} {tokens : List Token}
    (hpath : ¬['*', '*', '/'] <+: text) (h : read .start none text = .ok tokens) :
    ∃ more, read ⟨head :: low, []⟩ (some '/') (paths count ++ text) = .ok (low.reverse ++ more) ∧
      .leadingPath ∉ more ∧ ∀ bytes, [] ∈ restsOfSequence more [bytes] ↔
        AcceptsBelow (head = .innerPath ∨ 0 < count) tokens bytes := by
  induction count generalizing head with
  | zero => simpa [paths] using exists_read_head hhead low hpath h
  | succ count ih =>
      obtain ⟨more, hread, hmem, haccepts⟩ := ih (.inr rfl)
      refine ⟨more, ?_, hmem, ?_⟩
      · rw [paths_succ_append, read_cons, step_path hhead]
        exact hread
      · simpa using haccepts

section

variable {scope pattern : String} {tokens : List Token}

-- Whether some end of a text that begins a path component is matched
theorem exists_suffix_iff {key : String} :
    (∃ rest, separatorByte :: rest <:+ textBytes key.toList ∧ Accepts tokens rest) ↔
      ∃ before after, key = before ++ "/" ++ after ∧ isMatch tokens after = true := by
  simp only [separatorByte_suffix_textBytes, isMatch_iff]
  constructor
  · rintro ⟨-, ⟨before, after, hkey, rfl⟩, haccepts⟩
    refine ⟨String.ofList before, String.ofList after, ?_, by simpa using haccepts⟩
    rw [← String.toList_inj, hkey]
    simp
  · rintro ⟨before, after, rfl, haccepts⟩
    exact ⟨_, ⟨before.toList, after.toList, by simp, rfl⟩, haccepts⟩

-- A pattern that begins with path components
def BeginsPath (pattern : String) : Prop := ['*', '*', '/'] <+: pattern.toList

instance : DecidablePred BeginsPath := fun _ => inferInstanceAs (Decidable (_ <+: _))

-- A pattern with path components before it
def underPaths (count : Nat) (pattern : String) : String :=
  String.ofList (paths count ++ pattern.toList)

-- The separator at the end of a scope belongs to the path components after it.
theorem exists_parse_of_separator {start : List Char} (hscope : '\\' ∉ scope.toList)
    (hlast : scope.toList = start ++ ['/']) (count : Nat)
    (hpath : ¬BeginsPath pattern) (h : parse pattern = .ok tokens) :
    ∃ joined, parse (escape scope ++ underPaths count pattern) = .ok joined ∧
      ∀ key, isMatch joined (scope ++ key) = true ↔ isMatch tokens key = true ∨
        0 < count ∧ ∃ before after, key = before ++ "/" ++ after ∧ isMatch tokens after = true := by
  rw [parse_eq] at h
  obtain ⟨more, hread, hmem, haccepts⟩ := exists_read_paths (.inl rfl)
    (start.map scopeToken).reverse count hpath h
  refine ⟨start.map scopeToken ++ more, ?_, fun key => ?_⟩
  · rw [parse_scope_snoc hscope hlast, underPaths, String.toList_ofList]
    exact hread.trans (by rw [List.reverse_reverse])
  · have hbytes : textBytes (scope ++ key).toList =
        textBytes start ++ separatorByte :: textBytes key.toList := by
      rw [String.toList_append, hlast]
      simp [textBytes, charBytes_slash]
    rw [isMatch_iff, hbytes, accepts_scope_append hmem, haccepts, ← exists_suffix_iff, isMatch_iff]
    simp [AcceptsBelow]

theorem step_stars {last : Char} (hlast : isSeparator last = false) (token : Token)
    (low : List Token) (rest : List Char) :
    step ⟨token :: low, []⟩ (some last) '*' ('*' :: rest) =
      .ok (⟨.star :: .star :: token :: low, []⟩, '*', rest) := by
  cases rest <;> simp [step, State.doubleStar, State.beginsComponent, State.push, hlast]

theorem isSeparator_lastChar {c : Char} (hc : c ≠ '/') : isSeparator (lastChar c) = false := by
  by_cases hmeta : isMeta c = true
  · simp [lastChar, hmeta, isSeparator]
  · simp [lastChar, hmeta, isSeparator, hc]

theorem mem_restsOfSequence_stars {more : List Token} {text rest : List UInt8} :
    rest ∈ restsOfSequence (.star :: .star :: more) [text] ↔
      ∃ mid, mid <:+ text ∧ rest ∈ restsOfSequence more [mid] := by
  simp only [mem_restsOfSequence_cons, mem_rests_star]
  constructor
  · rintro ⟨first, hfirst, second, hsecond, hrest⟩
    exact ⟨second, hsecond.trans hfirst, hrest⟩
  · rintro ⟨mid, hmid, hrest⟩
    exact ⟨mid, hmid, mid, List.suffix_rfl, hrest⟩

-- After another character, two stars stand for any text, and the separator for itself.
theorem exists_parse_of_ne_separator {start : List Char} {c : Char}
    (hscope : '\\' ∉ scope.toList) (hlast : scope.toList = start ++ [c]) (hc : c ≠ '/')
    (count : Nat) (hpath : ¬BeginsPath pattern) (h : parse pattern = .ok tokens) :
    ∃ joined, parse (escape scope ++ underPaths (count + 1) pattern) = .ok joined ∧
      ∀ key, isMatch joined (scope ++ key) = true ↔
        ∃ before after, key = before ++ "/" ++ after ∧ isMatch tokens after = true := by
  rw [parse_eq] at h
  obtain ⟨more, hread, hmem, haccepts⟩ := exists_read_paths (.inl rfl)
    (.star :: .star :: scopeToken c :: (start.map scopeToken).reverse) count hpath h
  refine ⟨scope.toList.map scopeToken ++ .star :: .star :: more, ?_, fun key => ?_⟩
  · have hstars := step_stars (isSeparator_lastChar hc) (scopeToken c)
      (start.map scopeToken).reverse ('/' :: (paths count ++ pattern.toList))
    have hseparator : '/' ≠ '\\' := by decide
    rw [parse_scope_snoc hscope hlast, underPaths, String.toList_ofList, paths_succ_append,
      read_cons, hstars]
    refine (read_escapeChar hseparator _ _ _).trans (hread.trans ?_)
    simp [hlast]
  · have hmore : .leadingPath ∉ Token.star :: .star :: more := by simp [hmem]
    rw [isMatch_scope_append hmore, mem_restsOfSequence_stars]
    simp only [haccepts]
    rw [← exists_suffix_iff]
    constructor
    · rintro ⟨-, hmid, after, rfl, hafter | ⟨-, rest, hrest, hafter⟩⟩
      · exact ⟨after, hmid, hafter⟩
      · exact ⟨rest, hrest.trans (suffix_of_cons_suffix hmid), hafter⟩
    · rintro ⟨after, hmid, hafter⟩
      exact ⟨_, hmid, after, rfl, .inl hafter⟩

-- What path components at the start of a pattern mean after a scope that is not empty
theorem exists_parse_underPaths (hscope : '\\' ∉ scope.toList) (hne : scope ≠ "") (count : Nat)
    (hpath : ¬BeginsPath pattern) (h : parse pattern = .ok tokens) :
    ∃ joined, parse (escape scope ++ underPaths (count + 1) pattern) = .ok joined ∧
      ∀ key, isMatch joined (scope ++ key) = true ↔
        scope.toList.getLast? = some '/' ∧ isMatch tokens key = true ∨
          ∃ before after, key = before ++ "/" ++ after ∧ isMatch tokens after = true := by
  rcases List.eq_nil_or_concat' scope.toList with hnil | ⟨start, c, hlast⟩
  · exact absurd (String.toList_eq_nil_iff.mp hnil) hne
  · by_cases hc : c = '/'
    · subst hc
      obtain ⟨joined, hparse, hmatch⟩ :=
        exists_parse_of_separator hscope hlast (count + 1) hpath h
      refine ⟨joined, hparse, fun key => (hmatch key).trans ?_⟩
      simp [hlast]
    · obtain ⟨joined, hparse, hmatch⟩ :=
        exists_parse_of_ne_separator hscope hlast hc count hpath h
      refine ⟨joined, hparse, fun key => (hmatch key).trans ?_⟩
      simp [hlast, hc]

-- A leading path that is all of a pattern matches any text, also after a scope.
theorem exists_parse_scope_stars (hscope : '\\' ∉ scope.toList) (hall : pattern.toList = ['*', '*'])
    (h : parse pattern = .ok tokens) :
    ∃ joined, parse (escape scope ++ pattern) = .ok joined ∧
      ∀ key, isMatch joined (scope ++ key) = isMatch tokens key := by
  have hpath : ¬BeginsPath pattern := by
    rw [BeginsPath, hall]
    decide
  rcases List.eq_nil_or_concat' scope.toList with hnil | ⟨start, c, hlast⟩
  · obtain rfl : scope = "" := String.toList_eq_nil_iff.mp hnil
    exact ⟨tokens, by simpa [escape] using h, fun key => by simp⟩
  by_cases hc : c = '/'
  · subst hc
    obtain ⟨joined, hparse, hmatch⟩ := exists_parse_of_separator hscope hlast 0 hpath h
    refine ⟨joined, by simpa [underPaths, paths] using hparse, fun key => ?_⟩
    rw [Bool.eq_iff_iff, hmatch]
    simp
  · refine ⟨scope.toList.map scopeToken ++ [.star, .star], ?_, fun key => ?_⟩
    · rw [parse_scope_snoc hscope hlast, hall, read_cons, step_stars (isSeparator_lastChar hc)]
      simp [hlast, Except.bind, read_nil, State.finish]
    · rw [parse_eq, hall] at h
      cases h
      have hstars : isMatch (scope.toList.map scopeToken ++ [.star, .star]) (scope ++ key) :=
        (isMatch_scope_append (by simp) key).mpr <|
          mem_restsOfSequence_stars.mpr ⟨[], List.nil_suffix, mem_restsOfSequence_nil.mpr rfl⟩
      exact hstars

-- A pattern that does not begin with a path component means the same after a scope.
theorem exists_parse_scope (hscope : '\\' ∉ scope.toList)
    (hpath : ¬BeginsPath pattern) (h : parse pattern = .ok tokens) :
    ∃ joined, parse (escape scope ++ pattern) = .ok joined ∧
      ∀ key, isMatch joined (scope ++ key) = isMatch tokens key := by
  by_cases hall : pattern.toList = ['*', '*']
  · exact exists_parse_scope_stars hscope hall h
  · rw [parse_eq] at h
    have hleads := leads_eq_false hpath hall
    have hmem := leadingPath_notMem_of_leads hleads h
    refine ⟨scope.toList.map scopeToken ++ tokens, ?_, fun key => ?_⟩
    · rw [parse_scope hscope, read_after _ _ hleads, h, List.reverse_reverse]
      rfl
    · rw [Bool.eq_iff_iff, isMatch_scope_append hmem, isMatch_iff, accepts_iff hmem]

end

section

variable {count : Nat} {pattern : String} {own : List Token}

-- Path components at the start of a pattern come to one.
theorem read_leading (count : Nat) {text : List Char} (hpath : ¬['*', '*', '/'] <+: text) :
    read ⟨[.leadingPath], []⟩ (some '/') (paths count ++ text) =
      if text = ['*', '*'] then .ok [.leadingPath]
      else (read .start none text).map (.leadingPath :: ·) := by
  induction count with
  | zero =>
      by_cases hall : text = ['*', '*']
      · subst hall
        rfl
      · rw [if_neg hall]
        exact read_after [.leadingPath] _ (leads_eq_false hpath hall)
  | succ count ih =>
      have hstep : step ⟨[.leadingPath], []⟩ (some '/') '*' ('*' :: '/' :: (paths count ++ text)) =
          .ok (⟨[.leadingPath], []⟩, '/', paths count ++ text) := by
        simp [step, State.doubleStar, State.beginsComponent, isSeparator, State.pathComponent]
      rw [paths_succ_append, read_cons, hstep]
      exact ih

theorem parse_underPaths (hpath : ¬BeginsPath pattern) :
    parse (underPaths (count + 1) pattern) =
      if pattern.toList = ['*', '*'] then .ok [.leadingPath]
      else (parse pattern).map (.leadingPath :: ·) := by
  have hstep : step .start none '*' ('*' :: '/' :: (paths count ++ pattern.toList)) =
      .ok (⟨[.leadingPath], []⟩, '/', paths count ++ pattern.toList) := by
    simp [step, State.doubleStar, isSeparator, State.start, State.push]
  rw [parse_eq, parse_eq, underPaths, String.toList_ofList, paths_succ_append, read_cons, hstep]
  exact read_leading count hpath

-- Alone, path components stand for any number of them, with what comes after, and without
-- anything after them for any text.
theorem exists_of_parse_underPaths (hpath : ¬BeginsPath pattern)
    (h : parse (underPaths (count + 1) pattern) = .ok own) :
    ∃ tokens, parse pattern = .ok tokens ∧ ∀ key, isMatch own key = true ↔
      tokens = [] ∨ isMatch tokens key = true ∨
        ∃ before after, key = before ++ "/" ++ after ∧ isMatch tokens after = true := by
  rw [parse_underPaths hpath] at h
  by_cases hall : pattern.toList = ['*', '*']
  · rw [if_pos hall] at h
    cases h
    refine ⟨[.leadingPath], ?_, fun key => ⟨fun h => .inr (.inl h), fun _ => rfl⟩⟩
    rw [parse_eq, hall]
    rfl
  · rw [if_neg hall] at h
    obtain ⟨tokens, htokens, rfl⟩ := map_eq_ok_iff.mp h
    have hmem : .leadingPath ∉ tokens :=
      leadingPath_notMem_of_leads (leads_eq_false hpath hall) (parse_eq pattern ▸ htokens)
    refine ⟨tokens, htokens, fun key => ?_⟩
    by_cases hempty : tokens = []
    · subst hempty
      exact ⟨fun _ => .inl rfl, fun _ => rfl⟩
    · have halone : Token.leadingPath :: tokens ≠ [.leadingPath] := by simpa using hempty
      rw [or_iff_right hempty, ← exists_suffix_iff, isMatch_iff, isMatch_iff, Accepts,
        or_iff_right halone, mem_restsOfSequence_cons]
      simp only [mem_rests_leadingPath, accepts_iff hmem]
      constructor
      · rintro ⟨rest, rfl | hrest, haccepts⟩
        · exact .inl haccepts
        · exact .inr ⟨rest, hrest, haccepts⟩
      · rintro (haccepts | ⟨rest, hrest, haccepts⟩)
        · exact ⟨_, .inl rfl, haccepts⟩
        · exact ⟨rest, .inr hrest, haccepts⟩

theorem exists_eq_paths (text : List Char) :
    ∃ count rest, text = paths count ++ rest ∧ ¬['*', '*', '/'] <+: rest := by
  induction hlength : text.length using Nat.strongRecOn generalizing text with
  | ind length ih =>
      by_cases hpath : ['*', '*', '/'] <+: text
      · obtain ⟨after, rfl⟩ := hpath
        have hless : after.length < length := by
          simp only [List.length_append, List.length_cons] at hlength
          omega
        obtain ⟨count, rest, rfl, hrest⟩ := ih _ hless after rfl
        exact ⟨count + 1, rest, rfl, hrest⟩
      · exact ⟨0, text, rfl, hpath⟩

theorem exists_eq_underPaths (h : BeginsPath pattern) :
    ∃ count rest, pattern = underPaths (count + 1) rest ∧ ¬BeginsPath rest := by
  obtain ⟨_ | count, rest, hsplit, hrest⟩ := exists_eq_paths pattern.toList
  · rw [BeginsPath, hsplit] at h
    exact absurd h hrest
  · exact ⟨count, String.ofList rest, by simp [underPaths, ← hsplit], by simpa [BeginsPath]⟩

end

end TaggedCache.Glob
