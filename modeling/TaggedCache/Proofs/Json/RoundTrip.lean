import TaggedCache.Json.Draft
import TaggedCache.Proofs.Json.NumberText
import TaggedCache.Proofs.Json.Shape
import TaggedCache.Proofs.Json.StringText

namespace TaggedCache.Json

theorem charsOfItems_eq (items : List Tree) : Tree.charsOfItems items = items.map Tree.chars := by
  induction items with
  | nil => rfl
  | cons item rest ih => rw [Tree.charsOfItems, ih, List.map_cons]

theorem charsOfFields_eq (fields : List (String × Tree)) :
    Tree.charsOfFields fields = fields.map fun field => (field.1, field.2.chars) := by
  induction fields with
  | nil => rfl
  | cons field rest ih => rw [Tree.charsOfFields, ih, List.map_cons]

-- The characters a value can start with
def startsValue (c : Char) : Bool := isDigit c || c ∈ ['-', 'n', 't', 'f', '"', '[', '{']

theorem ne_of_startsValue {c d : Char} (h : startsValue c) (hd : startsValue d = false) :
    c ≠ d := by
  rintro rfl
  rw [hd] at h
  contradiction

theorem skipSpace_of_startsValue {c : Char} (h : startsValue c) (rest : List Char) :
    skipSpace (c :: rest) = c :: rest := by
  have hspace : isSpace c = false := by
    simp [isSpace, ne_of_startsValue h (show startsValue ' ' = false by decide),
      ne_of_startsValue h (show startsValue '\t' = false by decide),
      ne_of_startsValue h (show startsValue '\n' = false by decide),
      ne_of_startsValue h (show startsValue '\r' = false by decide)]
  simp [skipSpace, hspace]

-- A text that reads as a numeral starts like one.
theorem startsNumeral {text rest : List Char} {numeral : Numeral}
    (h : scanNumeral text = some (numeral, rest)) :
    ∃ c cs, text = c :: cs ∧ (isDigit c ∨ c = '-') := by
  unfold scanNumeral at h
  split at h
  · exact ⟨_, _, rfl, .inr rfl⟩
  · cases text with
    | nil => simp [scanUnsigned, scanWhole, spanDigits] at h
    | cons c cs =>
        refine ⟨c, cs, rfl, .inl ?_⟩
        by_contra hdigit
        simp [scanUnsigned, scanWhole, spanDigits, hdigit] at h

theorem exists_cons_chars (tree : Tree) :
    ∃ c cs, tree.chars = c :: cs ∧ startsValue c := by
  cases tree with
  | null => exact ⟨_, _, rfl, by decide⟩
  | bool value => cases value <;> exact ⟨_, _, rfl, by decide⟩
  | number value =>
      obtain ⟨numeral, hscan, -⟩ := scanNumeral_chars value startsOutside_nil
      obtain ⟨c, cs, htext, hc⟩ := startsNumeral hscan
      rw [List.append_nil] at htext
      refine ⟨c, cs, htext, ?_⟩
      rcases hc with hc | rfl
      · simp [startsValue, hc]
      · decide
  | string value => exact ⟨_, _, rfl, by decide⟩
  | array items => exact ⟨_, _, rfl, by decide⟩
  | object fields => exact ⟨_, _, rfl, by decide⟩

theorem scanLeaf_number {text rest : List Char} {numeral : Numeral}
    (h : scanNumeral text = some (numeral, rest)) :
    scanLeaf text = some (.number numeral, rest) := by
  obtain ⟨c, cs, rfl, hc⟩ := startsNumeral h
  have hne : c ≠ 'n' ∧ c ≠ 't' ∧ c ≠ 'f' ∧ c ≠ '"' := by
    refine ⟨?_, ?_, ?_, ?_⟩ <;> (rintro rfl; revert hc; decide)
  unfold scanLeaf
  split <;> simp_all

-- No leaf starts with a bracket.
theorem scanLeaf_bracket {c : Char} (h : c = '[' ∨ c = '{') (rest : List Char) :
    scanLeaf (c :: rest) = none := by
  rcases h with rfl | rfl <;>
    simp [scanLeaf, scanNumeral, scanUnsigned, scanWhole, spanDigits, isDigit]

-- A leaf is read from its text, whatever follows that does not continue a number.
theorem scanLeaf_chars {leaf : Tree} (hleaf : leaf.IsLeaf) {rest : List Char}
    (hrest : StartsOutside continuesNumeral rest) :
    ∃ draft, scanLeaf (leaf.chars ++ rest) = some (draft, rest) ∧ draft.tree? = some leaf := by
  cases leaf with
  | null => exact ⟨.null, rfl, rfl⟩
  | bool value => cases value <;> exact ⟨_, rfl, rfl⟩
  | number value =>
      obtain ⟨numeral, hscan, hvalue⟩ := scanNumeral_chars value hrest
      exact ⟨.number numeral, scanLeaf_number hscan, by simp [Draft.tree?, hvalue]⟩
  | string value =>
      refine ⟨.string (some value), ?_, rfl⟩
      simp [Tree.chars, stringChars, scanLeaf, scanString_stringChars]
  | array | object => exact hleaf.elim

-- A leaf at the start of a text
theorem scan_of_scanLeaf {c : Char} {cs rest : List Char} {leaf : Draft} (fuel depth : Nat)
    (hc : startsValue c) (hopen : c ≠ '[' ∧ c ≠ '{') (h : scanLeaf (c :: cs) = some (leaf, rest)) :
    scan (fuel + 1) depth (c :: cs) = (leaf, some rest) := by
  rw [scan.eq_def]
  simp only [skipSpace_of_startsValue hc]
  split <;> simp_all

-- A tree comes back from its text where trees of a depth are read.
def ReadsBack (depth : Nat) (tree : Tree) : Prop :=
  ∀ (fuel : Nat) (rest : List Char), 2 * tree.chars.length ≤ fuel →
    StartsOutside continuesNumeral rest →
    ∃ draft, scan fuel depth (tree.chars ++ rest) = (draft, some rest) ∧ draft.tree? = some tree

theorem readsBack_leaf {depth : Nat} {leaf : Tree} (hleaf : leaf.IsLeaf) :
    ReadsBack depth leaf := by
  intro fuel rest hfuel hrest
  obtain ⟨c, cs, hchars, hc⟩ := exists_cons_chars leaf
  obtain ⟨draft, hscan, htree⟩ := scanLeaf_chars hleaf hrest
  rw [hchars] at hscan hfuel ⊢
  rw [List.length_cons] at hfuel
  obtain ⟨fuel, rfl⟩ : ∃ n, fuel = n + 1 := ⟨fuel - 1, by omega⟩
  have hopen : c ≠ '[' ∧ c ≠ '{' := by
    rw [← not_or]
    intro hbracket
    rw [List.cons_append, scanLeaf_bracket hbracket] at hscan
    contradiction
  exact ⟨draft, scan_of_scanLeaf fuel depth hc hopen hscan, htree⟩

-- What stands after the first of several parts
def afterPart (parts : List (List Char)) (close : Char) (rest : List Char) : List Char :=
  match parts with
  | [] => close :: rest
  | _ => ',' :: (commaJoin parts ++ close :: rest)

theorem commaJoin_cons_append (part : List Char) (parts : List (List Char)) (close : Char)
    (rest : List Char) :
    commaJoin (part :: parts) ++ close :: rest = part ++ afterPart parts close rest := by
  cases parts <;> simp [commaJoin, afterPart]

theorem startsOutside_afterPart (parts : List (List Char)) {close : Char} (rest : List Char)
    (h : continuesNumeral close = false) :
    StartsOutside continuesNumeral (afterPart parts close rest) := by
  cases parts with
  | nil => exact startsOutside_cons.mpr h
  | cons => exact startsOutside_cons.mpr (by decide)

theorem length_commaJoin_cons (part : List Char) (parts : List (List Char)) :
    part.length ≤ (commaJoin (part :: parts)).length ∧
      (parts ≠ [] →
        part.length + 1 + (commaJoin parts).length = (commaJoin (part :: parts)).length) := by
  cases parts <;> simp [commaJoin]
  omega

theorem scanItems_chars {depth : Nat} {items : List Tree} (hne : items ≠ [])
    (hitems : ∀ item ∈ items, ReadsBack depth item) (fuel : Nat) (rest : List Char)
    (hfuel : 2 * (commaJoin (items.map Tree.chars)).length + 1 ≤ fuel) :
    ∃ drafts, scanItems fuel depth (commaJoin (items.map Tree.chars) ++ ']' :: rest) =
        (drafts, some rest) ∧ Draft.trees? drafts = some items := by
  induction items generalizing fuel with
  | nil => contradiction
  | cons item items ih =>
      rw [List.map_cons] at hfuel ⊢
      obtain ⟨hfirst, hothers⟩ := length_commaJoin_cons item.chars (items.map Tree.chars)
      obtain ⟨fuel, rfl⟩ : ∃ n, fuel = n + 1 := ⟨fuel - 1, by omega⟩
      obtain ⟨draft, hscan, htree⟩ := hitems item (by simp) fuel
        (afterPart (items.map Tree.chars) ']' rest) (by omega)
        (startsOutside_afterPart _ rest (by decide))
      rw [commaJoin_cons_append, scanItems, hscan]
      cases items with
      | nil =>
          exact ⟨[draft], by simp [afterPart, skipSpace, isSpace], by simp [Draft.trees?, htree]⟩
      | cons next items =>
          have hlength := hothers (by simp)
          obtain ⟨drafts, hdrafts, htrees⟩ := ih (by simp)
            (fun other hother => hitems other (List.mem_cons_of_mem _ hother)) fuel (by omega)
          refine ⟨draft :: drafts, ?_, by simp [Draft.trees?, htree, htrees]⟩
          simp only [List.map_cons] at hdrafts
          simp [afterPart, skipSpace, isSpace, hdrafts]

theorem scanName_stringChars (name : String) (rest : List Char) :
    scanName (stringChars name ++ rest) = some (some name, rest) := by
  simp [scanName, stringChars, skipSpace, isSpace, scanString_stringChars]

def fieldText (field : String × Tree) : List Char := fieldChars (field.1, field.2.chars)

theorem scanFields_chars {depth : Nat} {fields : List (String × Tree)} (hne : fields ≠ [])
    (hfields : ∀ field ∈ fields, ReadsBack depth field.2) (fuel : Nat) (rest : List Char)
    (hfuel : 2 * (commaJoin (fields.map fieldText)).length + 1 ≤ fuel) :
    ∃ drafts, scanFields fuel depth (commaJoin (fields.map fieldText) ++ '}' :: rest) =
        (drafts, some rest) ∧ Draft.fields? drafts = some fields := by
  induction fields generalizing fuel with
  | nil => contradiction
  | cons field fields ih =>
      rw [List.map_cons] at hfuel ⊢
      obtain ⟨hfirst, hothers⟩ := length_commaJoin_cons (fieldText field) (fields.map fieldText)
      have hvalue : field.2.chars.length ≤ (fieldText field).length := by
        simp [fieldText, fieldChars]
        omega
      obtain ⟨fuel, rfl⟩ : ∃ n, fuel = n + 1 := ⟨fuel - 1, by omega⟩
      obtain ⟨draft, hscan, htree⟩ := hfields field (by simp) fuel
        (afterPart (fields.map fieldText) '}' rest) (by omega)
        (startsOutside_afterPart _ rest (by decide))
      have hcolon (text : List Char) : skipSpace (':' :: text) = ':' :: text := by
        simp [skipSpace, isSpace]
      rw [commaJoin_cons_append, scanFields, fieldText, fieldChars, List.append_assoc,
        scanName_stringChars]
      simp only [List.cons_append, hcolon, hscan]
      cases fields with
      | nil =>
          exact ⟨[(some field.1, draft)], by simp [afterPart, skipSpace, isSpace],
            by simp [Draft.fields?, htree]⟩
      | cons next fields =>
          have hlength := hothers (by simp)
          obtain ⟨drafts, hdrafts, htrees⟩ := ih (by simp)
            (fun other hother => hfields other (List.mem_cons_of_mem _ hother)) fuel (by omega)
          refine ⟨(some field.1, draft) :: drafts, ?_, by simp [Draft.fields?, htree, htrees]⟩
          rw [List.map_cons] at hdrafts
          simp [afterPart, skipSpace, isSpace, hdrafts]

theorem scan_openArray {fuel depth : Nat} {text : List Char} {c : Char} {cs : List Char}
    (htext : text = c :: cs) (hc : startsValue c) :
    scan (fuel + 1) (depth + 1) ('[' :: text) =
      (.array (scanItems fuel depth text).1 (scanItems fuel depth text).2.isSome,
        (scanItems fuel depth text).2) := by
  have hclose := ne_of_startsValue hc (show startsValue ']' = false by decide)
  have hopen := skipSpace_of_startsValue (show startsValue '[' by decide) text
  subst htext
  rw [scan.eq_def]
  simp only [hopen, skipSpace_of_startsValue hc]
  split
  · simp_all
  · rfl

theorem scan_openObject {fuel depth : Nat} {text : List Char} {cs : List Char}
    (htext : text = '"' :: cs) :
    scan (fuel + 1) (depth + 1) ('{' :: text) =
      (.object (scanFields fuel depth text).1 (scanFields fuel depth text).2.isSome,
        (scanFields fuel depth text).2) := by
  have hopen := skipSpace_of_startsValue (show startsValue '{' by decide) text
  subst htext
  rw [scan.eq_def]
  simp only [hopen, skipSpace_of_startsValue (show startsValue '"' by decide)]
  rfl

theorem chars_array (items : List Tree) (rest : List Char) :
    (Tree.array items).chars ++ rest =
      '[' :: (commaJoin (items.map Tree.chars) ++ ']' :: rest) := by
  simp [Tree.chars, charsOfItems_eq, arrayChars]

theorem chars_object (fields : List (String × Tree)) (rest : List Char) :
    (Tree.object fields).chars ++ rest =
      '{' :: (commaJoin (fields.map fieldText) ++ '}' :: rest) := by
  have htexts : (fields.map fun field => (field.1, field.2.chars)).map fieldChars =
      fields.map fieldText := by simp [fieldText]
  simp [Tree.chars, charsOfFields_eq, objectChars, htexts]

-- The texts of items and fields start in a way that does not look like an end.
theorem exists_cons_items (item : Tree) (items : List Tree) (rest : List Char) :
    ∃ c cs, commaJoin ((item :: items).map Tree.chars) ++ ']' :: rest = c :: cs ∧
      startsValue c := by
  obtain ⟨c, cs, hchars, hc⟩ := exists_cons_chars item
  exact ⟨c, cs ++ afterPart (items.map Tree.chars) ']' rest,
    by rw [List.map_cons, commaJoin_cons_append, hchars, List.cons_append], hc⟩

theorem exists_cons_fields (field : String × Tree) (fields : List (String × Tree))
    (rest : List Char) :
    ∃ cs, commaJoin ((field :: fields).map fieldText) ++ '}' :: rest = '"' :: cs := by
  rw [List.map_cons, commaJoin_cons_append]
  exact ⟨_, rfl⟩

theorem readsBack_array {depth : Nat} {items : List Tree}
    (hitems : ∀ item ∈ items, ReadsBack depth item) : ReadsBack (depth + 1) (.array items) := by
  intro fuel rest hfuel _
  have hlength := congrArg List.length (chars_array items [])
  simp only [List.length_append, List.length_cons, List.length_nil] at hlength
  obtain ⟨fuel, rfl⟩ : ∃ n, fuel = n + 1 := ⟨fuel - 1, by omega⟩
  rw [chars_array]
  cases items with
  | nil => exact ⟨.array [] true, by simp [scan, commaJoin, skipSpace, isSpace], rfl⟩
  | cons item items =>
      obtain ⟨drafts, hscan, htrees⟩ := scanItems_chars (by simp) hitems fuel rest (by omega)
      obtain ⟨c, cs, htext, hc⟩ := exists_cons_items item items rest
      rw [scan_openArray htext hc, hscan]
      exact ⟨.array drafts true, rfl, by simp [Draft.tree?, htrees]⟩

theorem readsBack_object {depth : Nat} {fields : List (String × Tree)}
    (hnames : (Assoc.keys fields).Nodup) (hfields : ∀ field ∈ fields, ReadsBack depth field.2) :
    ReadsBack (depth + 1) (.object fields) := by
  intro fuel rest hfuel _
  have hlength := congrArg List.length (chars_object fields [])
  simp only [List.length_append, List.length_cons, List.length_nil] at hlength
  obtain ⟨fuel, rfl⟩ : ∃ n, fuel = n + 1 := ⟨fuel - 1, by omega⟩
  rw [chars_object]
  cases fields with
  | nil => exact ⟨.object [] true, by simp [scan, commaJoin, skipSpace, isSpace], rfl⟩
  | cons field fields =>
      obtain ⟨drafts, hscan, htrees⟩ := scanFields_chars (by simp) hfields fuel rest (by omega)
      obtain ⟨cs, htext⟩ := exists_cons_fields field fields rest
      rw [scan_openObject htext, hscan]
      exact ⟨.object drafts true, rfl, by simp [Draft.tree?, htrees, Assoc.ofList_of_nodup hnames]⟩

theorem readsBack {depth : Nat} {tree : Tree} (hdistinct : tree.Distinct)
    (hdepth : tree.depth ≤ depth) : ReadsBack depth tree := by
  induction tree generalizing depth with
  | null | bool | number | string => exact readsBack_leaf trivial
  | array items ih =>
      obtain ⟨depth, rfl⟩ : ∃ n, depth = n + 1 := ⟨depth - 1, by simp [Tree.depth] at hdepth; omega⟩
      have hitems := Tree.depthOfItems_le.mp (Nat.le_of_succ_le_succ hdepth)
      have hparts := Tree.distinct_array.mp hdistinct
      exact readsBack_array fun item hitem => ih item hitem (hparts item hitem) (hitems item hitem)
  | object fields ih =>
      obtain ⟨depth, rfl⟩ : ∃ n, depth = n + 1 := ⟨depth - 1, by simp [Tree.depth] at hdepth; omega⟩
      have hfields := Tree.depthOfFields_le.mp (Nat.le_of_succ_le_succ hdepth)
      obtain ⟨hnames, hparts⟩ := Tree.distinct_object.mp hdistinct
      exact readsBack_object hnames fun field hfield =>
        ih field hfield (hparts field hfield) (hfields field hfield)

-- Reading takes back what printing makes of a tree, up to the greatest depth.
theorem ofString?_text {tree : Tree} (hdistinct : tree.Distinct) (hdepth : tree.depth ≤ maxDepth) :
    Tree.ofString? tree.text = some tree := by
  obtain ⟨draft, hscan, htree⟩ := readsBack hdistinct hdepth (2 * tree.chars.length + 1) []
    (by omega) startsOutside_nil
  rw [List.append_nil] at hscan
  simp [Tree.ofString?, Tree.text, Tree.ofChars?, Draft.ofChars, hscan, htree, skipSpace]

end TaggedCache.Json
