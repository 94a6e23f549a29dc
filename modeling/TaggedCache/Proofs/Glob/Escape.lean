import TaggedCache.Proofs.Glob.Match
import TaggedCache.Proofs.Glob.Scan

namespace TaggedCache.Glob

-- The characters that are written as a class of their own
def isMeta (c : Char) : Bool := ['?', '*', '[', ']', '{', '}'].contains c

theorem isMeta_iff {c : Char} :
    isMeta c = true ↔ c = '?' ∨ c = '*' ∨ c = '[' ∨ c = ']' ∨ c = '{' ∨ c = '}' := by
  simp [isMeta]

def escapeChar (c : Char) : List Char := if isMeta c then ['[', c, ']'] else [c]

theorem toList_escape (text : String) : (escape text).toList = text.toList.flatMap escapeChar := by
  rw [escape, String.toList_ofList]
  rfl

theorem leads_escapeChar (c : Char) (text : List Char) : leads (escapeChar c ++ text) = false := by
  by_cases hmeta : isMeta c = true
  · simp only [escapeChar, hmeta, if_true]
    rfl
  · have hstar : c ≠ '*' := fun hc => hmeta (isMeta_iff.mpr (by simp [hc]))
    simp [escapeChar, hmeta, leads, hstar]

-- The token that an escaped character is read as, and the last character read for it
def scopeToken (c : Char) : Token := if isMeta c then .class false [(c, c)] else .literal c

def lastChar (c : Char) : Char := if isMeta c then ']' else c

theorem read_escapeChar {c : Char} (hc : c ≠ '\\') (tokens : List Token) (before : Option Char)
    (text : List Char) :
    read ⟨tokens, []⟩ before (escapeChar c ++ text) =
      read ⟨scopeToken c :: tokens, []⟩ (some (lastChar c)) text := by
  by_cases hmeta : isMeta c = true
  · simp only [escapeChar, scopeToken, lastChar, hmeta, if_true]
    rw [List.cons_append, read_cons]
    rcases isMeta_iff.mp hmeta with rfl | rfl | rfl | rfl | rfl | rfl <;> rfl
  · simp only [escapeChar, scopeToken, lastChar, if_neg hmeta]
    have hstep : step ⟨tokens, []⟩ before c text = .ok (⟨.literal c :: tokens, []⟩, c, text) := by
      rw [isMeta_iff] at hmeta
      fun_cases step ⟨tokens, []⟩ before c text <;> simp_all [State.comma, State.push]
    rw [List.singleton_append, read_cons, hstep]
    rfl

theorem read_scope {scope : List Char} (hscope : '\\' ∉ scope) (tokens : List Token)
    (before : Option Char) (text : List Char) :
    read ⟨tokens, []⟩ before (scope.flatMap escapeChar ++ text) =
      read ⟨(scope.map scopeToken).reverse ++ tokens, []⟩
        (scope.foldl (fun _ c => some (lastChar c)) before) text := by
  induction scope generalizing tokens before with
  | nil => rfl
  | cons c scope ih =>
      rw [List.flatMap_cons, List.append_assoc, read_escapeChar fun hc => hscope (by simp [hc]),
        ih fun hmem => hscope (List.mem_cons_of_mem _ hmem)]
      simp

theorem rests_scopeToken (c : Char) (text : List UInt8) :
    rests (scopeToken c) (charBytes c ++ text) = [text] := by
  by_cases hmeta : isMeta c = true
  · obtain ⟨b, hb⟩ : ∃ b, charBytes c = [b] := by
      rcases isMeta_iff.mp hmeta with rfl | rfl | rfl | rfl | rfl | rfl <;>
        exact ⟨_, charBytes_eq _⟩
    simp [scopeToken, hmeta, hb, rests, rangeHolds]
  · have hdrop : dropBytes (charBytes c) (charBytes c ++ text) = some text :=
      dropBytes_eq_some_iff.mpr rfl
    simp [scopeToken, hmeta, rests, hdrop]

theorem restsOfSequence_scope (scope : List Char) (text : List UInt8) :
    restsOfSequence (scope.map scopeToken) [textBytes scope ++ text] = [text] := by
  induction scope with
  | nil => rfl
  | cons c scope ih =>
      rw [List.map_cons, restsOfSequence, List.flatMap_singleton, textBytes, List.flatMap_cons,
        List.append_assoc, rests_scopeToken]
      exact ih

theorem leadingPath_notMem_scope (scope : List Char) : .leadingPath ∉ scope.map scopeToken := by
  rw [List.mem_map]
  rintro ⟨c, -, hc⟩
  rw [scopeToken] at hc
  split at hc <;> contradiction

-- The tokens of a scope take its own characters from a text, and no others.
theorem accepts_scope_append {scope : List Char} {more : List Token} (hmore : .leadingPath ∉ more)
    (text : List UInt8) : Accepts (scope.map scopeToken ++ more) (textBytes scope ++ text) ↔
      [] ∈ restsOfSequence more [text] := by
  have hmem : .leadingPath ∉ scope.map scopeToken ++ more :=
    List.not_mem_append (leadingPath_notMem_scope scope) hmore
  rw [accepts_iff hmem, restsOfSequence_append, restsOfSequence_scope]

section

variable {scope : String}

-- A scope is read first, and what follows it is read with its tokens before it.
theorem parse_scope (hscope : '\\' ∉ scope.toList) (pattern : String) :
    parse (escape scope ++ pattern) =
      read ⟨(scope.toList.map scopeToken).reverse, []⟩
        (scope.toList.foldl (fun _ c => some (lastChar c)) none) pattern.toList := by
  rw [parse_eq, String.toList_append, toList_escape]
  exact (read_scope hscope [] none _).trans (by simp)

theorem parse_scope_snoc {start : List Char} {c : Char} (hscope : '\\' ∉ scope.toList)
    (hlast : scope.toList = start ++ [c]) (pattern : String) :
    parse (escape scope ++ pattern) =
      read ⟨scopeToken c :: (start.map scopeToken).reverse, []⟩ (some (lastChar c))
        pattern.toList := by
  rw [parse_scope hscope, hlast, List.map_append, List.reverse_append, List.foldl_append]
  rfl

-- Whether the text after a scope is matched by tokens that follow those of the scope
theorem isMatch_scope_append {more : List Token} (hmore : .leadingPath ∉ more) (text : String) :
    isMatch (scope.toList.map scopeToken ++ more) (scope ++ text) = true ↔
      [] ∈ restsOfSequence more [textBytes text.toList] := by
  rw [isMatch_iff, String.toList_append, textBytes, List.flatMap_append]
  exact accepts_scope_append hmore _

end

section

variable {c : Char} {text : List Char}

theorem charBytes_backslash : charBytes '\\' = [0x5C] := charBytes_eq '\\'

theorem eq_of_backslash_mem (h : 0x5C ∈ charBytes c) : c = '\\' := by
  have hascii := (eq_of_mem_charBytes (by decide) h).2
  exact Char.toNat_inj.mp hascii

theorem mem_charBytes_of_literal {b : UInt8} {bytes rest : List UInt8}
    (h : rest ∈ rests (.literal c) (b :: bytes)) : b ∈ charBytes c := by
  have happend := mem_rests_literal.mp h
  cases hc : charBytes c with
  | nil => exact absurd ((charBytes_eq c).symm.trans hc) String.utf8EncodeChar_ne_nil
  | cons first others =>
      rw [hc] at happend
      exact (List.cons.inj happend).1 ▸ List.mem_cons_self

theorem mem_charBytes_of_scopeToken {b : UInt8} {bytes rest : List UInt8}
    (h : rest ∈ rests (scopeToken c) (b :: bytes)) : b ∈ charBytes c := by
  by_cases hmeta : isMeta c = true
  · by_contra hb
    simp [scopeToken, hmeta, rests, rangeHolds, hb] at h
  · rw [scopeToken, if_neg hmeta] at h
    exact mem_charBytes_of_literal h

theorem leads_flatMap_escapeChar (text : List Char) :
    leads (text.flatMap escapeChar) = false := by
  cases text with
  | nil => rfl
  | cons c text => exact leads_escapeChar c _

theorem replicate_append_cons (count : Nat) (c : Char) (text : List Char) :
    List.replicate count c ++ c :: text = c :: (List.replicate count c ++ text) := by
  rw [← List.singleton_append, ← List.append_assoc, ← List.replicate_succ', List.replicate_succ,
    List.cons_append]

theorem textBytes_backslash (text : List Char) :
    textBytes ('\\' :: text) = 0x5C :: textBytes text := by
  rw [textBytes, List.flatMap_cons, charBytes_backslash]
  rfl

theorem read_backslash (c : Char) {rest : List Char} (h : leads rest = false) :
    read .start none ('\\' :: c :: rest) =
      (read .start none rest).map (.literal c :: ·) := by
  rw [read_cons]
  exact read_after [.literal c] (some c) h

-- What a backslash makes of an escaped character: only another backslash is read as it is.
theorem exists_of_read_backslash {d : Char} {tokens : List Token}
    (h : read .start none ('\\' :: (escapeChar d ++ text.flatMap escapeChar)) = .ok tokens) :
    (∃ c more, c ≠ '\\' ∧ tokens = .literal c :: more) ∨
      d = '\\' ∧ ∃ more, read .start none (text.flatMap escapeChar) = .ok more ∧
        tokens = .literal '\\' :: more := by
  by_cases hmeta : isMeta d = true
  · have hleads : leads (d :: ']' :: text.flatMap escapeChar) = false := by
      rcases isMeta_iff.mp hmeta with rfl | rfl | rfl | rfl | rfl | rfl <;> rfl
    rw [escapeChar, if_pos hmeta] at h
    obtain ⟨more, -, rfl⟩ := map_eq_ok_iff.mp ((read_backslash '[' hleads).symm.trans h)
    exact .inl ⟨'[', more, by decide, rfl⟩
  · rw [escapeChar, if_neg hmeta] at h
    have hread := read_backslash d (leads_flatMap_escapeChar text)
    obtain ⟨more, hmore, rfl⟩ := map_eq_ok_iff.mp (hread.symm.trans h)
    by_cases hd : d = '\\'
    · exact .inr ⟨hd, more, hmore, hd ▸ rfl⟩
    · exact .inl ⟨d, more, hd, rfl⟩

-- A backslash in a pattern takes the next character as it is. So a text that holds a backslash
-- is not matched by what it is escaped to: the pattern has fewer backslashes left than the text.
theorem not_accepts_escaped (text : List Char) (count : Nat)
    (hcount : 0 < count ∨ text.head? = some '\\') {tokens : List Token}
    (h : read .start none (text.flatMap escapeChar) = .ok tokens) :
    [] ∉ restsOfSequence tokens [textBytes (List.replicate count '\\' ++ text)] := by
  induction hlength : text.length using Nat.strongRecOn generalizing text count tokens with
  | ind length ih =>
      obtain ⟨others, hothers⟩ :
          ∃ others, List.replicate count '\\' ++ text = '\\' :: others := by
        rcases hcount with hcount | hhead
        · obtain ⟨less, rfl⟩ := Nat.exists_eq_add_one.mpr hcount
          exact ⟨_, rfl⟩
        · obtain ⟨rest, rfl⟩ := List.head?_eq_some_iff.mp hhead
          exact ⟨_, replicate_append_cons count _ _⟩
      rw [hothers, textBytes_backslash]
      rcases text with _ | ⟨c, text⟩
      · cases h
        simp [State.start, mem_restsOfSequence_nil]
      by_cases hc : c = '\\'
      · subst hc
        rw [replicate_append_cons, List.cons.injEq] at hothers
        obtain ⟨-, rfl⟩ := hothers
        rcases text with _ | ⟨d, text⟩
        · contradiction
        obtain ⟨c, more, hc, rfl⟩ | ⟨rfl, more, hmore, rfl⟩ := exists_of_read_backslash h
        · rw [mem_restsOfSequence_cons]
          rintro ⟨mid, hmid, -⟩
          exact hc (eq_of_backslash_mem (mem_charBytes_of_literal hmid))
        · rw [mem_restsOfSequence_cons]
          rintro ⟨mid, hmid, hrest⟩
          rw [mem_rests_literal, charBytes_backslash] at hmid
          obtain rfl := (List.cons.inj hmid).2
          have hless : text.length < length := by
            simp only [List.length_cons] at hlength
            omega
          rw [replicate_append_cons] at hrest
          exact ih _ hless text (count + 1) (.inl count.succ_pos) hmore rfl hrest
      · rw [List.flatMap_cons, State.start, read_escapeChar hc,
          read_after _ _ (leads_flatMap_escapeChar _)] at h
        obtain ⟨more, -, rfl⟩ := map_eq_ok_iff.mp h
        rw [List.reverse_singleton, List.singleton_append, mem_restsOfSequence_cons]
        rintro ⟨mid, hmid, -⟩
        exact hc (eq_of_backslash_mem (mem_charBytes_of_scopeToken hmid))

-- A text that holds a backslash is not matched by what it is escaped to.
theorem isMatch_escape_eq_false {scope : String} {tokens : List Token}
    (hscope : '\\' ∈ scope.toList) (h : parse (escape scope) = .ok tokens) :
    isMatch tokens scope = false := by
  obtain ⟨start, rest, hsplit, hstart⟩ := List.eq_append_cons_of_mem hscope
  have hleads : leads (('\\' :: rest).flatMap escapeChar) = false := leads_flatMap_escapeChar _
  rw [parse_eq, toList_escape, hsplit, List.flatMap_append, State.start, read_scope hstart,
    List.append_nil, read_after _ _ hleads] at h
  obtain ⟨more, hmore, rfl⟩ := map_eq_ok_iff.mp h
  have hmem := leadingPath_notMem_of_leads hleads hmore
  rw [← Bool.not_eq_true, isMatch_iff, hsplit, List.reverse_reverse, textBytes,
    List.flatMap_append, ← textBytes, accepts_scope_append hmem]
  exact not_accepts_escaped ('\\' :: rest) 0 (.inr rfl) hmore

end

end TaggedCache.Glob
