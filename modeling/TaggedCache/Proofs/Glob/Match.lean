import TaggedCache.Glob.Match
import TaggedCache.Proofs.Codec.Reading

namespace TaggedCache.Glob

theorem mem_ends {text rest : List UInt8} : rest ∈ ends text ↔ rest <:+ text := by
  induction text with
  | nil => simp [ends]
  | cons b text ih => rw [ends, List.mem_cons, ih, List.suffix_cons_iff]

theorem mem_endsAfterSeparator {text rest : List UInt8} :
    rest ∈ endsAfterSeparator text ↔ separatorByte :: rest <:+ text := by
  induction text with
  | nil => simp [endsAfterSeparator]
  | cons b text ih =>
      rw [endsAfterSeparator, List.suffix_cons_iff, ← ih]
      by_cases hb : b = separatorByte
      · simp [hb]
      · simp [hb, Ne.symm hb]

theorem afterSeparator?_eq_some_iff {text rest : List UInt8} :
    afterSeparator? text = some rest ↔ text = separatorByte :: rest := by
  cases text with
  | nil => simp [afterSeparator?]
  | cons b text => by_cases hb : b = separatorByte <;> simp [afterSeparator?, hb]

theorem dropBytes_eq_some_iff {bytes text rest : List UInt8} :
    dropBytes bytes text = some rest ↔ text = bytes ++ rest := by
  induction bytes generalizing text with
  | nil => simp [dropBytes]
  | cons b bytes ih =>
      cases text with
      | nil => simp [dropBytes]
      | cons c text =>
          by_cases hb : b = c
          · simp [dropBytes, hb, ih]
          · simp [dropBytes, hb, Ne.symm hb]

-- A text with its length is added to others unless one of them has that length.
def addEnd (known : List (Nat × List UInt8)) (entry : Nat × List UInt8) :
    List (Nat × List UInt8) :=
  if known.any (·.1 == entry.1) then known else known ++ [entry]

theorem mem_or_mem_of_mem_foldl {known entries : List (Nat × List UInt8)}
    {found : Nat × List UInt8} (h : found ∈ entries.foldl addEnd known) :
    found ∈ known ∨ found ∈ entries := by
  induction entries generalizing known with
  | nil => exact .inl h
  | cons entry entries ih =>
      rcases ih h with h | h
      · rw [addEnd] at h
        split at h
        · exact .inl h
        · rcases List.mem_append.mp h with h | h
          · exact .inl h
          · exact .inr (List.mem_singleton.mp h ▸ List.mem_cons_self)
      · exact .inr (List.mem_cons_of_mem _ h)

theorem exists_mem_foldl (known : List (Nat × List UInt8)) {entries : List (Nat × List UInt8)}
    {entry : Nat × List UInt8} (h : entry ∈ known ∨ entry ∈ entries) :
    ∃ found ∈ entries.foldl addEnd known, found.1 = entry.1 := by
  induction entries generalizing known entry with
  | nil => exact ⟨entry, h.resolve_right List.not_mem_nil, rfl⟩
  | cons next entries ih =>
      rcases h with h | h
      · refine ih _ (.inl ?_)
        rw [addEnd]
        split
        · exact h
        · exact List.mem_append_left _ h
      · rcases List.mem_cons.mp h with rfl | h
        · by_cases hknown : known.any (·.1 == entry.1)
          · obtain ⟨other, hother, heq⟩ := List.any_eq_true.mp hknown
            rw [List.foldl_cons, addEnd, if_pos hknown, ← beq_iff_eq.mp heq]
            exact ih _ (.inl hother)
          · rw [List.foldl_cons, addEnd, if_neg hknown]
            exact ih _ (.inl (List.mem_append_right _ List.mem_cons_self))
        · exact ih _ (.inr h)

theorem mem_of_mem_distinctEnds {texts : List (List UInt8)} {rest : List UInt8}
    (h : rest ∈ distinctEnds texts) : rest ∈ texts := by
  obtain ⟨entry, hentry, rfl⟩ := List.mem_map.mp h
  rcases mem_or_mem_of_mem_foldl hentry with h | h
  · contradiction
  · obtain ⟨text, htext, rfl⟩ := List.mem_map.mp h
    exact htext

-- Ends of one text that have the same length are equal.
theorem mem_distinctEnds {whole rest : List UInt8} {texts : List (List UInt8)}
    (h : ∀ text ∈ texts, text <:+ whole) : rest ∈ distinctEnds texts ↔ rest ∈ texts := by
  refine ⟨mem_of_mem_distinctEnds, fun hrest => ?_⟩
  obtain ⟨entry, hentry, hlength⟩ := exists_mem_foldl []
    (.inr (List.mem_map_of_mem (f := fun text => (text.length, text)) hrest))
  rcases mem_or_mem_of_mem_foldl hentry with hnil | hmem
  · contradiction
  · obtain ⟨text, htext, rfl⟩ := List.mem_map.mp hmem
    have hsuffix := List.suffix_of_suffix_length_le (h text htext) (h rest hrest) hlength.le
    exact List.mem_map.mpr ⟨_, hentry, hsuffix.eq_of_length hlength⟩

theorem mem_rests_literal {c : Char} {text rest : List UInt8} :
    rest ∈ rests (.literal c) text ↔ text = charBytes c ++ rest := by
  rw [rests, Option.mem_toList, dropBytes_eq_some_iff]

theorem mem_rests_star {text rest : List UInt8} : rest ∈ rests .star text ↔ rest <:+ text := by
  rw [rests, mem_ends]

theorem mem_rests_leadingPath {text rest : List UInt8} :
    rest ∈ rests .leadingPath text ↔ rest = text ∨ separatorByte :: rest <:+ text := by
  rw [rests, List.mem_cons, mem_endsAfterSeparator]

theorem mem_rests_trailingPath {text rest : List UInt8} :
    rest ∈ rests .trailingPath text ↔ ∃ after, text = separatorByte :: after ∧ rest <:+ after := by
  simp only [rests, List.mem_flatMap, Option.mem_toList, afterSeparator?_eq_some_iff, mem_ends]

theorem mem_rests_innerPath {text rest : List UInt8} :
    rest ∈ rests .innerPath text ↔
      ∃ after, text = separatorByte :: after ∧
        (rest = after ∨ separatorByte :: rest <:+ after) := by
  simp only [rests, List.mem_flatMap, Option.mem_toList, afterSeparator?_eq_some_iff,
    List.mem_cons, mem_endsAfterSeparator]

theorem suffix_of_cons_suffix {b : UInt8} {text rest : List UInt8} (h : b :: rest <:+ text) :
    rest <:+ text :=
  (List.suffix_cons b rest).trans h

mutual

theorem suffix_of_mem_rests {token : Token} {text rest : List UInt8} (h : rest ∈ rests token text) :
    rest <:+ text := by
  cases token with
  | literal c => exact ⟨_, (mem_rests_literal.mp h).symm⟩
  | any =>
      cases text with
      | nil => contradiction
      | cons b text => exact List.mem_singleton.mp h ▸ List.suffix_cons b text
  | star => exact mem_rests_star.mp h
  | leadingPath =>
      rcases mem_rests_leadingPath.mp h with rfl | h
      · exact List.suffix_rfl
      · exact suffix_of_cons_suffix h
  | trailingPath =>
      obtain ⟨after, rfl, hrest⟩ := mem_rests_trailingPath.mp h
      exact hrest.trans (List.suffix_cons _ _)
  | innerPath =>
      obtain ⟨after, rfl, rfl | hrest⟩ := mem_rests_innerPath.mp h
      · exact List.suffix_cons _ _
      · exact (suffix_of_cons_suffix hrest).trans (List.suffix_cons _ _)
  | «class» negated ranges =>
      cases text with
      | nil => contradiction
      | cons b text =>
          rw [rests] at h
          split at h
          · exact List.mem_singleton.mp h ▸ List.suffix_cons b text
          · contradiction
  | alternates patterns =>
      rw [rests] at h
      split at h
      · exact List.mem_singleton.mp h ▸ List.suffix_rfl
      · exact suffix_of_mem_restsOfAlternates h

theorem suffix_of_mem_restsOfSequence {tokens : List Token} {texts : List (List UInt8)}
    {whole rest : List UInt8} (htexts : ∀ text ∈ texts, text <:+ whole)
    (h : rest ∈ restsOfSequence tokens texts) : rest <:+ whole := by
  cases tokens with
  | nil => exact htexts rest h
  | cons token tokens =>
      rw [restsOfSequence] at h
      refine suffix_of_mem_restsOfSequence (fun mid hmid => ?_) h
      obtain ⟨text, htext, hmid⟩ := List.mem_flatMap.mp (mem_of_mem_distinctEnds hmid)
      exact (suffix_of_mem_rests hmid).trans (htexts text htext)

theorem suffix_of_mem_restsOfAlternates {patterns : List (List Token)} {text rest : List UInt8}
    (h : rest ∈ restsOfAlternates patterns text) : rest <:+ text := by
  cases patterns with
  | nil => contradiction
  | cons pattern patterns =>
      rw [restsOfAlternates, List.mem_append] at h
      rcases h with h | h
      · split at h
        · contradiction
        · exact suffix_of_mem_restsOfSequence (by simp) h
      · exact suffix_of_mem_restsOfAlternates h

end

theorem suffix_of_mem_flatMap {token : Token} {texts : List (List UInt8)} {whole : List UInt8}
    (h : ∀ text ∈ texts, text <:+ whole) : ∀ mid ∈ texts.flatMap (rests token), mid <:+ whole := by
  intro mid hmid
  obtain ⟨text, htext, hmid⟩ := List.mem_flatMap.mp hmid
  exact (suffix_of_mem_rests hmid).trans (h text htext)

-- What a sequence leaves of several ends of one text is what it leaves of each.
theorem mem_restsOfSequence {tokens : List Token} {texts : List (List UInt8)}
    {whole rest : List UInt8} (h : ∀ text ∈ texts, text <:+ whole) :
    rest ∈ restsOfSequence tokens texts ↔ ∃ text ∈ texts, rest ∈ restsOfSequence tokens [text] := by
  induction tokens generalizing texts whole with
  | nil => simp [restsOfSequence]
  | cons token tokens ih =>
      have hfirst (texts : List (List UInt8)) (whole : List UInt8)
          (h : ∀ text ∈ texts, text <:+ whole) : rest ∈ restsOfSequence (token :: tokens) texts ↔
            ∃ mid ∈ texts.flatMap (rests token), rest ∈ restsOfSequence tokens [mid] := by
        have hmid : ∀ mid ∈ texts.flatMap (rests token), mid <:+ whole := suffix_of_mem_flatMap h
        rw [restsOfSequence, ih fun mid hmem => hmid mid (mem_of_mem_distinctEnds hmem)]
        exact exists_congr fun mid => and_congr_left fun _ => mem_distinctEnds hmid
      have halone (text : List UInt8) : rest ∈ restsOfSequence (token :: tokens) [text] ↔
          ∃ mid ∈ rests token text, rest ∈ restsOfSequence tokens [mid] := by
        rw [hfirst [text] text (by simp)]
        simp
      rw [hfirst texts whole h]
      simp only [halone, List.mem_flatMap]
      constructor
      · rintro ⟨mid, ⟨text, htext, hmid⟩, hrest⟩
        exact ⟨text, htext, mid, hmid, hrest⟩
      · rintro ⟨text, htext, mid, hmid, hrest⟩
        exact ⟨mid, ⟨text, htext, hmid⟩, hrest⟩

theorem mem_restsOfSequence_nil {text rest : List UInt8} :
    rest ∈ restsOfSequence [] [text] ↔ rest = text := by
  rw [restsOfSequence, List.mem_singleton]

theorem mem_restsOfSequence_cons {token : Token} {tokens : List Token} {text rest : List UInt8} :
    rest ∈ restsOfSequence (token :: tokens) [text] ↔
      ∃ mid ∈ rests token text, rest ∈ restsOfSequence tokens [mid] := by
  have hsuffix : ∀ mid ∈ rests token text, mid <:+ text := fun _ => suffix_of_mem_rests
  rw [restsOfSequence, List.flatMap_singleton,
    mem_restsOfSequence fun mid hmid => hsuffix mid (mem_of_mem_distinctEnds hmid)]
  exact exists_congr fun mid => and_congr_left fun _ => mem_distinctEnds hsuffix

theorem restsOfSequence_append (tokens more : List Token) (texts : List (List UInt8)) :
    restsOfSequence (tokens ++ more) texts =
      restsOfSequence more (restsOfSequence tokens texts) := by
  induction tokens generalizing texts with
  | nil => rfl
  | cons token tokens ih => exact ih _

-- Whether tokens match the whole of a text, given by its bytes
def Accepts (tokens : List Token) (text : List UInt8) : Prop :=
  tokens = [.leadingPath] ∨ [] ∈ restsOfSequence tokens [text]

theorem accepts_iff {tokens : List Token} {text : List UInt8} (h : .leadingPath ∉ tokens) :
    Accepts tokens text ↔ [] ∈ restsOfSequence tokens [text] :=
  or_iff_right fun htokens => h (htokens ▸ List.mem_singleton_self _)

-- The bytes of a text
def textBytes (text : List Char) : List UInt8 := text.flatMap charBytes

theorem charBytes_eq (c : Char) : charBytes c = String.utf8EncodeChar c := by
  rw [charBytes, toList_toUTF8_ofList, List.flatMap_singleton]

theorem isMatch_iff {tokens : List Token} {text : String} :
    isMatch tokens text = true ↔ Accepts tokens (textBytes text.toList) := by
  have hbytes : text.toUTF8.toList = textBytes text.toList := by
    rw [textBytes, funext charBytes_eq, ← toList_toUTF8_ofList, String.ofList_toList]
  fun_cases isMatch tokens text with
  | case1 => simp [Accepts]
  | case2 =>
      rw [Accepts, or_iff_right ‹_›, ← hbytes]
      simp only [List.any_eq_true, List.isEmpty_iff, exists_eq_right]

-- A byte of a single character is no part of another.
theorem eq_of_mem_charBytes {c : Char} {b : UInt8} (hb : b.toNat < 128) (h : b ∈ charBytes c) :
    charBytes c = [b] ∧ c.toNat = b.toNat := by
  have hne (n : Nat) (hlow : 128 ≤ n) (hhigh : n < 256) : b ≠ UInt8.ofNat n := by
    rintro rfl
    simp only [UInt8.toNat_ofNat'] at hb
    omega
  rw [charBytes_eq] at *
  revert h
  fun_cases String.utf8EncodeChar c with
  | case1 n hn =>
      intro h
      rw [List.mem_singleton.mp h]
      refine ⟨rfl, ?_⟩
      simp only [UInt8.toNat_ofNat']
      exact (Nat.mod_eq_of_lt (show n < 256 by omega)).symm
  | case2 | case3 | case4 =>
      simp (disch := omega) only [List.mem_cons, List.not_mem_nil, hne, false_or, false_implies]

theorem charBytes_slash : charBytes '/' = [separatorByte] := charBytes_eq '/'

theorem eq_of_separatorByte_mem {c : Char} (h : separatorByte ∈ charBytes c) : c = '/' := by
  have := (eq_of_mem_charBytes (by decide) h).2
  exact Char.toNat_inj.mp this

theorem separatorByte_suffix_append {bytes text rest : List UInt8} (h : separatorByte ∉ bytes) :
    separatorByte :: rest <:+ bytes ++ text ↔ separatorByte :: rest <:+ text := by
  induction bytes with
  | nil => rfl
  | cons b bytes ih =>
      rw [List.cons_append, List.suffix_cons_iff, ih fun hmem => h (List.mem_cons_of_mem _ hmem)]
      refine or_iff_right fun heq => h ?_
      exact (List.cons.inj heq).1 ▸ List.mem_cons_self

-- A separator stands in the bytes of a text where it stands in the text.
theorem separatorByte_suffix_textBytes {text : List Char} {rest : List UInt8} :
    separatorByte :: rest <:+ textBytes text ↔
      ∃ before after, text = before ++ '/' :: after ∧ rest = textBytes after := by
  induction text with
  | nil => simp [textBytes]
  | cons c text ih =>
      rw [textBytes, List.flatMap_cons, ← textBytes]
      by_cases hc : c = '/'
      · subst hc
        rw [charBytes_slash, List.singleton_append,
          List.suffix_cons_iff, ih]
        constructor
        · rintro (heq | ⟨before, after, rfl, hrest⟩)
          · exact ⟨[], text, rfl, (List.cons.inj heq).2⟩
          · exact ⟨'/' :: before, after, rfl, hrest⟩
        · rintro ⟨_ | ⟨c, before⟩, after, heq, rfl⟩
          · exact .inl ((List.cons.inj heq).2 ▸ rfl)
          · exact .inr ⟨before, after, (List.cons.inj heq).2, rfl⟩
      · rw [separatorByte_suffix_append fun hmem => hc (eq_of_separatorByte_mem hmem), ih]
        constructor
        · rintro ⟨before, after, rfl, hrest⟩
          exact ⟨c :: before, after, rfl, hrest⟩
        · rintro ⟨_ | ⟨d, before⟩, after, heq, hrest⟩
          · exact absurd (List.cons.inj heq).1 hc
          · exact ⟨before, after, (List.cons.inj heq).2, hrest⟩

end TaggedCache.Glob
