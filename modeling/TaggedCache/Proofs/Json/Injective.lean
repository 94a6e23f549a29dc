import TaggedCache.Proofs.Json.RoundTrip

namespace TaggedCache.Json

-- What starts with the text of a value starts with the text of no other value, and the text ends
-- at one place only, as long as what follows does not go on like a number.
def SelfDelimiting {α : Type} (chars : α → List Char) (value : α) : Prop :=
  ∀ ⦃other : α⦄ ⦃rest after : List Char⦄,
    StartsOutside continuesNumeral rest → StartsOutside continuesNumeral after →
    chars value ++ rest = chars other ++ after → value = other ∧ rest = after

theorem scanLeaf_chars_eq_none {tree : Tree} (h : ¬tree.IsLeaf) (rest : List Char) :
    scanLeaf (tree.chars ++ rest) = none := by
  cases tree with
  | null | bool | number | string => exact absurd trivial h
  | array items => rw [chars_array, scanLeaf_bracket (.inl rfl)]
  | object fields => rw [chars_object, scanLeaf_bracket (.inr rfl)]

theorem selfDelimiting_leaf {leaf : Tree} (hleaf : leaf.IsLeaf) :
    SelfDelimiting Tree.chars leaf := by
  intro other rest after hrest hafter h
  obtain ⟨draft, hscan, htree⟩ := scanLeaf_chars hleaf hrest
  rw [h] at hscan
  by_cases hother : other.IsLeaf
  · obtain ⟨found, hfound, hread⟩ := scanLeaf_chars hother hafter
    obtain ⟨rfl, rfl⟩ := Prod.mk.inj (Option.some.inj (hscan.symm.trans hfound))
    exact ⟨Option.some.inj (htree.symm.trans hread), rfl⟩
  · rw [scanLeaf_chars_eq_none hother] at hscan
    contradiction

-- The name of a field ends at its closing quote.
theorem selfDelimiting_fieldText {field : String × Tree}
    (hvalue : SelfDelimiting Tree.chars field.2) : SelfDelimiting fieldText field := by
  obtain ⟨name, value⟩ := field
  intro ⟨key, other⟩ rest after hrest hafter h
  simp only [fieldText, fieldChars, List.append_assoc] at h
  have hname := congrArg scanName h
  rw [scanName_stringChars, scanName_stringChars] at hname
  simp only [Option.some.injEq, Prod.mk.injEq, List.cons_append, List.cons.injEq,
    true_and] at hname
  obtain ⟨rfl, htext⟩ := hname
  obtain ⟨rfl, rfl⟩ := hvalue hrest hafter htext
  exact ⟨rfl, rfl⟩

theorem commaJoin_eq_of_afterPart_eq {parts others : List (List Char)} {close : Char}
    {rest after : List Char} (hcomma : close ≠ ',')
    (h : afterPart parts close rest = afterPart others close after) :
    commaJoin parts ++ close :: rest = commaJoin others ++ close :: after := by
  cases parts <;> cases others <;> simp_all [afterPart, commaJoin, eq_comm]

section

variable {α : Type} {chars : α → List Char} {close : Char}

-- Several texts with commas between them and a bracket after them
theorem eq_of_commaJoin_eq (hclose : continuesNumeral close = false) (hcomma : close ≠ ',')
    (hstart : ∀ value, ∃ c cs, chars value = c :: cs ∧ c ≠ close) {values others : List α}
    {rest after : List Char} (hvalues : ∀ value ∈ values, SelfDelimiting chars value)
    (h : commaJoin (values.map chars) ++ close :: rest =
      commaJoin (others.map chars) ++ close :: after) :
    values = others ∧ rest = after := by
  have hfirst (value : α) (values : List α) (rest after : List Char) :
      commaJoin ((value :: values).map chars) ++ close :: rest ≠ close :: after := by
    obtain ⟨c, cs, hchars, hne⟩ := hstart value
    rw [List.map_cons, commaJoin_cons_append, hchars]
    exact fun heq => hne (List.cons.inj heq).1
  induction values generalizing others with
  | nil =>
      cases others with
      | nil => exact ⟨rfl, (List.cons.inj h).2⟩
      | cons other others => exact absurd h.symm (hfirst other others after rest)
  | cons value values ih =>
      cases others with
      | nil => exact absurd h (hfirst value values rest after)
      | cons other others =>
          rw [List.map_cons, List.map_cons, commaJoin_cons_append, commaJoin_cons_append] at h
          obtain ⟨rfl, hafter⟩ := hvalues value List.mem_cons_self
            (startsOutside_afterPart _ rest hclose) (startsOutside_afterPart _ after hclose) h
          obtain ⟨rfl, rfl⟩ := ih (fun part hpart => hvalues part (List.mem_cons_of_mem _ hpart))
            (commaJoin_eq_of_afterPart_eq hcomma hafter)
          exact ⟨rfl, rfl⟩

end

theorem eq_of_itemsText_eq {items others : List Tree} {rest after : List Char}
    (hitems : ∀ item ∈ items, SelfDelimiting Tree.chars item)
    (h : commaJoin (items.map Tree.chars) ++ ']' :: rest =
      commaJoin (others.map Tree.chars) ++ ']' :: after) : items = others ∧ rest = after := by
  refine eq_of_commaJoin_eq (by decide) (by decide) (fun item => ?_) hitems h
  obtain ⟨c, cs, hchars, hc⟩ := exists_cons_chars item
  exact ⟨c, cs, hchars, ne_of_startsValue hc (by decide)⟩

theorem eq_of_fieldsText_eq {fields others : List (String × Tree)} {rest after : List Char}
    (hfields : ∀ field ∈ fields, SelfDelimiting Tree.chars field.2)
    (h : commaJoin (fields.map fieldText) ++ '}' :: rest =
      commaJoin (others.map fieldText) ++ '}' :: after) : fields = others ∧ rest = after :=
  eq_of_commaJoin_eq (by decide) (by decide) (fun _ => ⟨'"', _, rfl, by decide⟩)
    (fun field hfield => selfDelimiting_fieldText (hfields field hfield)) h

-- This includes trees whose objects repeat a name.
theorem selfDelimiting_chars (tree : Tree) : SelfDelimiting Tree.chars tree := by
  induction tree with
  | null | bool | number | string => exact selfDelimiting_leaf trivial
  | array items ih =>
      intro other rest after hrest hafter h
      cases other with
      | null | bool | number | string =>
          exact nomatch (selfDelimiting_leaf (by trivial) hafter hrest h.symm).1
      | array others =>
          rw [chars_array, chars_array] at h
          obtain ⟨rfl, rfl⟩ := eq_of_itemsText_eq ih (List.cons.inj h).2
          exact ⟨rfl, rfl⟩
      | object fields =>
          rw [chars_array, chars_object] at h
          exact absurd (List.cons.inj h).1 (by decide)
  | object fields ih =>
      intro other rest after hrest hafter h
      cases other with
      | null | bool | number | string =>
          exact nomatch (selfDelimiting_leaf (by trivial) hafter hrest h.symm).1
      | array items =>
          rw [chars_object, chars_array] at h
          exact absurd (List.cons.inj h).1 (by decide)
      | object others =>
          rw [chars_object, chars_object] at h
          obtain ⟨rfl, rfl⟩ := eq_of_fieldsText_eq ih (List.cons.inj h).2
          exact ⟨rfl, rfl⟩

namespace Tree

-- No two trees have the same text.
theorem text_injective : Function.Injective text := by
  intro tree other h
  have hchars : tree.chars ++ [] = other.chars ++ [] := by
    rw [List.append_nil, List.append_nil, String.ofList_injective h]
  exact (selfDelimiting_chars tree startsOutside_nil startsOutside_nil hchars).1

theorem toUTF8_text_injective : Function.Injective fun tree : Tree => tree.text.toUTF8 :=
  fun _ _ h => text_injective (String.toByteArray_inj.mp h)

end Tree

end TaggedCache.Json
