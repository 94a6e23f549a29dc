import TaggedCache.Proofs.Json.RoundTrip

namespace TaggedCache.Json

-- What a reading from some depth on makes of a text
structure Steady (fuel : Nat) : Prop where
  value : ∀ {depth deeper : Nat} {text rest : List Char} {draft : Draft} {tree : Tree},
    depth ≤ deeper → scan fuel depth text = (draft, some rest) → draft.tree? = some tree →
    tree.depth ≤ depth ∧ scan fuel deeper text = (draft, some rest)
  items : ∀ {depth deeper : Nat} {text rest : List Char} {drafts : List Draft} {items : List Tree},
    depth ≤ deeper → scanItems fuel depth text = (drafts, some rest) →
    Draft.trees? drafts = some items →
    Tree.depthOfItems items ≤ depth ∧ scanItems fuel deeper text = (drafts, some rest)
  fields : ∀ {depth deeper : Nat} {text rest : List Char} {drafts : List (Option String × Draft)}
    {fields : List (String × Tree)},
    depth ≤ deeper → scanFields fuel depth text = (drafts, some rest) →
    Draft.fields? drafts = some fields →
    Tree.depthOfFields fields ≤ depth ∧ scanFields fuel deeper text = (drafts, some rest)

theorem scanTooDeep_tree? {fuel : Nat} {text rest : List Char} {draft : Draft}
    (h : scanTooDeep fuel text = (draft, some rest)) : draft.tree? = none := by
  unfold scanTooDeep at h
  split at h
  · obtain ⟨rfl, -⟩ := Prod.mk.inj h
    rfl
  · cases (Prod.mk.inj h).2

theorem depth_of_scanLeaf {text rest : List Char} {leaf : Draft} {tree : Tree}
    (h : scanLeaf text = some (leaf, rest)) (htree : leaf.tree? = some tree) : tree.depth = 0 := by
  unfold scanLeaf at h
  split at h
  all_goals simp only [Option.some.injEq, Prod.mk.injEq, Option.map_eq_some_iff] at h
  · obtain ⟨rfl, -⟩ := h
    cases htree
    rfl
  · obtain ⟨rfl, -⟩ := h
    cases htree
    rfl
  · obtain ⟨rfl, -⟩ := h
    cases htree
    rfl
  · obtain ⟨⟨value, after⟩, -, rfl, -⟩ := h
    obtain ⟨value, -, rfl⟩ := Option.map_eq_some_iff.mp htree
    rfl
  · obtain ⟨⟨numeral, after⟩, -, rfl, -⟩ := h
    obtain ⟨value, -, rfl⟩ := Option.map_eq_some_iff.mp htree
    rfl

theorem steady_array {fuel : Nat} (ih : Steady fuel) {depth deeper : Nat} {text rest : List Char}
    {draft : Draft} {tree : Tree} (hle : depth ≤ deeper)
    (hscan : (Draft.array (scanItems fuel depth text).1 (scanItems fuel depth text).2.isSome,
      (scanItems fuel depth text).2) = (draft, some rest))
    (htree : draft.tree? = some tree) :
    tree.depth ≤ depth + 1 ∧
      (Draft.array (scanItems fuel deeper text).1 (scanItems fuel deeper text).2.isSome,
        (scanItems fuel deeper text).2) = (draft, some rest) := by
  rcases hitems : scanItems fuel depth text with ⟨drafts, after⟩
  rw [hitems] at hscan
  obtain ⟨rfl, rfl⟩ := Prod.mk.inj hscan
  obtain ⟨items, htrees, rfl⟩ := Option.map_eq_some_iff.mp (by simpa [Draft.tree?] using htree)
  obtain ⟨hdepth, hsame⟩ := ih.items hle hitems htrees
  exact ⟨Nat.succ_le_succ hdepth, by rw [hsame]⟩

theorem steady_object {fuel : Nat} (ih : Steady fuel) {depth deeper : Nat} {text rest : List Char}
    {draft : Draft} {tree : Tree} (hle : depth ≤ deeper)
    (hscan : (Draft.object (scanFields fuel depth text).1 (scanFields fuel depth text).2.isSome,
      (scanFields fuel depth text).2) = (draft, some rest))
    (htree : draft.tree? = some tree) :
    tree.depth ≤ depth + 1 ∧
      (Draft.object (scanFields fuel deeper text).1 (scanFields fuel deeper text).2.isSome,
        (scanFields fuel deeper text).2) = (draft, some rest) := by
  rcases hfields : scanFields fuel depth text with ⟨drafts, after⟩
  rw [hfields] at hscan
  obtain ⟨rfl, rfl⟩ := Prod.mk.inj hscan
  obtain ⟨fields, htrees, rfl⟩ := Option.map_eq_some_iff.mp (by simpa [Draft.tree?] using htree)
  obtain ⟨hdepth, hsame⟩ := ih.fields hle hfields htrees
  refine ⟨Nat.succ_le_succ (Tree.depthOfFields_le.mpr fun field hfield => ?_), by rw [hsame]⟩
  exact Tree.depthOfFields_le.mp hdepth field (Assoc.mem_of_mem_ofList hfield)

theorem steady_value {fuel : Nat} (ih : Steady fuel) {depth deeper : Nat} {text rest : List Char}
    {draft : Draft} {tree : Tree} (hle : depth ≤ deeper)
    (hscan : scan (fuel + 1) depth text = (draft, some rest)) (htree : draft.tree? = some tree) :
    tree.depth ≤ depth ∧ scan (fuel + 1) deeper text = (draft, some rest) := by
  rw [scan.eq_def] at hscan ⊢
  simp only at hscan ⊢
  split at hscan
  · rw [scanTooDeep_tree? hscan] at htree
    contradiction
  · rw [scanTooDeep_tree? hscan] at htree
    contradiction
  · obtain ⟨deeper, rfl⟩ : ∃ n, deeper = n + 1 := ⟨deeper - 1, by omega⟩
    simp only [‹skipSpace text = _›]
    split at hscan
    · obtain ⟨rfl, -⟩ := Prod.mk.inj hscan
      cases htree
      exact ⟨by simp [Tree.depth, Tree.depthOfItems], hscan⟩
    · exact steady_array ih (Nat.le_of_succ_le_succ hle) hscan htree
  · obtain ⟨deeper, rfl⟩ : ∃ n, deeper = n + 1 := ⟨deeper - 1, by omega⟩
    simp only [‹skipSpace text = _›]
    split at hscan
    · obtain ⟨rfl, -⟩ := Prod.mk.inj hscan
      cases htree
      exact ⟨by simp [Tree.depth, Tree.depthOfFields, Assoc.ofList], hscan⟩
    · exact steady_object ih (Nat.le_of_succ_le_succ hle) hscan htree
  · cases hleaf : scanLeaf (skipSpace text) with
    | none =>
        rw [hleaf] at hscan
        cases (Prod.mk.inj hscan).2
    | some found =>
        obtain ⟨leaf, after⟩ := found
        rw [hleaf] at hscan
        obtain ⟨rfl, -⟩ := Prod.mk.inj hscan
        refine ⟨by rw [depth_of_scanLeaf hleaf htree]; exact Nat.zero_le _, ?_⟩
        -- a leaf starts with no bracket, so the depth is not looked at
        have hbracket : (∀ cs, skipSpace text ≠ '[' :: cs) ∧ ∀ cs, skipSpace text ≠ '{' :: cs := by
          constructor <;> intro cs heq <;> rw [heq, scanLeaf_bracket (by decide)] at hleaf <;>
            contradiction
        split <;> simp_all

theorem exists_of_trees?_cons {draft : Draft} {drafts : List Draft} {items : List Tree}
    (h : Draft.trees? (draft :: drafts) = some items) :
    ∃ item rest, draft.tree? = some item ∧ Draft.trees? drafts = some rest ∧
      items = item :: rest := by
  obtain ⟨item, hitem, h⟩ := Option.bind_eq_some_iff.mp h
  obtain ⟨rest, hrest, h⟩ := Option.bind_eq_some_iff.mp h
  exact ⟨item, rest, hitem, hrest, (Option.some.inj h).symm⟩

theorem exists_of_fields?_cons {name : Option String} {draft : Draft}
    {drafts : List (Option String × Draft)} {fields : List (String × Tree)}
    (h : Draft.fields? ((name, draft) :: drafts) = some fields) :
    ∃ key value rest, draft.tree? = some value ∧ Draft.fields? drafts = some rest ∧
      fields = (key, value) :: rest := by
  cases name with
  | none => cases h
  | some key =>
      obtain ⟨value, hvalue, h⟩ := Option.bind_eq_some_iff.mp h
      obtain ⟨rest, hrest, h⟩ := Option.bind_eq_some_iff.mp h
      exact ⟨key, value, rest, hvalue, hrest, (Option.some.inj h).symm⟩

theorem steady_items {fuel : Nat} (ih : Steady fuel) {depth deeper : Nat} {text rest : List Char}
    {drafts : List Draft} {items : List Tree} (hle : depth ≤ deeper)
    (hscan : scanItems (fuel + 1) depth text = (drafts, some rest))
    (htrees : Draft.trees? drafts = some items) :
    Tree.depthOfItems items ≤ depth ∧ scanItems (fuel + 1) deeper text = (drafts, some rest) := by
  rw [scanItems] at hscan ⊢
  rcases hfirst : scan fuel depth text with ⟨draft, _ | after⟩
  · rw [hfirst] at hscan
    cases (Prod.mk.inj hscan).2
  · simp only [hfirst] at hscan
    split at hscan
    · obtain ⟨rfl, -⟩ := Prod.mk.inj hscan
      obtain ⟨item, others, hitem, hothers, rfl⟩ := exists_of_trees?_cons htrees
      obtain ⟨hdepth, hsame⟩ := ih.value hle hfirst hitem
      cases hothers
      simp only [hsame, ‹skipSpace after = _›]
      exact ⟨by simpa [Tree.depthOfItems] using hdepth, hscan⟩
    · rename_i following hcomma
      rcases hnext : scanItems fuel depth following with ⟨others, end?⟩
      rw [hnext] at hscan
      obtain ⟨rfl, rfl⟩ := Prod.mk.inj hscan
      obtain ⟨item, others, hitem, hothers, rfl⟩ := exists_of_trees?_cons htrees
      obtain ⟨hdepth, hsame⟩ := ih.value hle hfirst hitem
      obtain ⟨hdepths, hsames⟩ := ih.items hle hnext hothers
      simp only [hsame, hcomma, hsames, and_true]
      exact Nat.max_le.mpr ⟨hdepth, hdepths⟩
    · cases (Prod.mk.inj hscan).2

theorem steady_fields {fuel : Nat} (ih : Steady fuel) {depth deeper : Nat} {text rest : List Char}
    {drafts : List (Option String × Draft)} {fields : List (String × Tree)} (hle : depth ≤ deeper)
    (hscan : scanFields (fuel + 1) depth text = (drafts, some rest))
    (htrees : Draft.fields? drafts = some fields) :
    Tree.depthOfFields fields ≤ depth ∧
      scanFields (fuel + 1) deeper text = (drafts, some rest) := by
  rw [scanFields] at hscan ⊢
  rcases hname : scanName text with _ | ⟨name, named⟩
  · rw [hname] at hscan
    cases (Prod.mk.inj hscan).2
  · simp only [hname] at hscan ⊢
    split at hscan
    · rename_i start hcolon
      rcases hfirst : scan fuel depth start with ⟨draft, _ | after⟩
      · rw [hfirst] at hscan
        cases (Prod.mk.inj hscan).2
      · simp only [hfirst] at hscan
        split at hscan
        · obtain ⟨rfl, -⟩ := Prod.mk.inj hscan
          obtain ⟨key, value, others, hvalue, hothers, rfl⟩ := exists_of_fields?_cons htrees
          obtain ⟨hdepth, hsame⟩ := ih.value hle hfirst hvalue
          cases hothers
          simp only [hsame, ‹skipSpace after = _›]
          exact ⟨by simpa [Tree.depthOfFields] using hdepth, hscan⟩
        · rename_i following hcomma
          rcases hnext : scanFields fuel depth following with ⟨others, end?⟩
          rw [hnext] at hscan
          obtain ⟨rfl, rfl⟩ := Prod.mk.inj hscan
          obtain ⟨key, value, others, hvalue, hothers, rfl⟩ := exists_of_fields?_cons htrees
          obtain ⟨hdepth, hsame⟩ := ih.value hle hfirst hvalue
          obtain ⟨hdepths, hsames⟩ := ih.fields hle hnext hothers
          simp only [hsame, hcomma, hsames, and_true]
          exact Nat.max_le.mpr ⟨hdepth, hdepths⟩
        · cases (Prod.mk.inj hscan).2
    · cases (Prod.mk.inj hscan).2

theorem steady (fuel : Nat) : Steady fuel := by
  induction fuel with
  | zero =>
      refine ⟨fun _ h _ => ?_, fun _ h _ => ?_, fun _ h _ => ?_⟩
      · rw [scan.eq_def] at h
        cases (Prod.mk.inj h).2
      · rw [scanItems] at h
        cases (Prod.mk.inj h).2
      · rw [scanFields] at h
        cases (Prod.mk.inj h).2
  | succ fuel ih => exact ⟨steady_value ih, steady_items ih, steady_fields ih⟩

-- A text that is read as a tree was scanned to its end.
theorem exists_scan_of_ofString? {text : String} {tree : Tree}
    (h : Tree.ofString? text = some tree) :
    ∃ draft rest, scan (2 * text.toList.length + 1) maxDepth text.toList = (draft, some rest) ∧
      draft.tree? = some tree := by
  unfold Tree.ofString? Tree.ofChars? Draft.ofChars at h
  rcases hscan : scan (2 * text.toList.length + 1) maxDepth text.toList with ⟨draft, _ | rest⟩
  · simp [hscan] at h
  · simp only [hscan] at h
    split at h
    · rename_i read heq
      obtain ⟨rfl, -⟩ := Prod.mk.inj heq
      exact ⟨draft, rest, rfl, h⟩
    · contradiction

-- Nothing deeper than the greatest depth is ever read.
theorem depth_le_of_ofString? {text : String} {tree : Tree} (h : Tree.ofString? text = some tree) :
    tree.depth ≤ maxDepth := by
  obtain ⟨draft, rest, hscan, htree⟩ := exists_scan_of_ofString? h
  exact ((steady _).value (Nat.le_refl _) hscan htree).1

-- The text of a tree is read as nothing but that tree.
theorem eq_of_ofString?_text {tree read : Tree} (hdistinct : tree.Distinct)
    (h : Tree.ofString? tree.text = some read) : read = tree := by
  obtain ⟨draft, rest, hscan, htree⟩ := exists_scan_of_ofString? h
  have hdeeper := ((steady _).value (Nat.le_max_left maxDepth tree.depth) hscan htree).2
  have hchars : tree.text.toList = tree.chars := by simp [Tree.text]
  rw [hchars] at hdeeper
  obtain ⟨other, hother, hread⟩ := readsBack hdistinct (Nat.le_max_right maxDepth tree.depth)
    (2 * tree.chars.length + 1) [] (by omega) startsOutside_nil
  rw [List.append_nil, hdeeper] at hother
  obtain ⟨rfl, -⟩ := Prod.mk.inj hother
  exact Option.some.inj (htree.symm.trans hread)

-- What printing makes of a tree is read unless the tree is too deep, and then as that tree.
theorem ofString?_text_eq_ite {tree : Tree} (hdistinct : tree.Distinct) :
    Tree.ofString? tree.text = if tree.depth ≤ maxDepth then some tree else none := by
  split
  · exact ofString?_text hdistinct ‹_›
  · cases hread : Tree.ofString? tree.text with
    | none => rfl
    | some read =>
        have := depth_le_of_ofString? hread
        rw [eq_of_ofString?_text hdistinct hread] at this
        contradiction

end TaggedCache.Json
