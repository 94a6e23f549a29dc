import TaggedCache.Glob
import TaggedCache.Proofs.Pointwise

namespace TaggedCache.Glob

-- Read a class after its opening bracket.
def readClass (rest : List Char) : Except Problem (Token × List Char) :=
  let negated := match rest with
    | c :: _ => c == '!' || c == '^'
    | [] => false
  (scanClass true false [] (if negated then rest.drop 1 else rest)).map fun (ranges, rest) =>
    (.class negated ranges.reverse, rest)

-- Read one token: the state after it, the last character read, and the text left.
def step (state : State) (before : Option Char) (c : Char) (rest : List Char) :
    Except Problem (State × Char × List Char) :=
  match c, rest with
  | '?', rest => .ok (state.push .any, '?', rest)
  | '*', '*' :: rest =>
      let (state, after) := state.doubleStar before rest
      .ok (state, if after.length < rest.length then '/' else '*', after)
  | '*', rest => .ok (state.push .star, '*', rest)
  | '[', rest => (readClass rest).map fun (token, rest) => (state.push token, ']', rest)
  | '{', rest => .ok (state.openGroup, '{', rest)
  | '}', rest => state.closeGroup.map (·, '}', rest)
  | ',', rest => .ok (state.comma, ',', rest)
  | '\\', rest =>
      match rest with
      | c :: rest => .ok (state.push (.literal c), c, rest)
      | [] => .error .danglingEscape
  | c, rest => .ok (state.push (.literal c), c, rest)

theorem scan_nil (fuel : Nat) (state : State) (before : Option Char) :
    scan fuel state before [] = state.finish := by
  cases fuel <;> simp [scan]

theorem scan_cons (fuel : Nat) (state : State) (before : Option Char) (c : Char)
    (rest : List Char) :
    scan (fuel + 1) state before (c :: rest) = (step state before c rest).bind fun next =>
      scan fuel next.1 (some next.2.1) next.2.2 := by
  fun_cases step state before c rest with
  | case2 rest next after hnext =>
      rw [scan, hnext]
      rfl
  | case4 rest =>
      cases rest with
      | nil => rfl
      | cons c rest =>
          rw [scan, readClass]
          cases scanClass true false []
            (if (c == '!' || c == '^') = true then (c :: rest).drop 1 else c :: rest) <;> rfl
  | case6 =>
      rw [scan]
      cases state.closeGroup <;> rfl
  | case1 | case3 | case5 | case7 | case8 | case9 | case10 => simp_all [scan, Except.bind]

-- Whether a text begins with two stars that are its whole first path component
def leads : List Char → Bool
  | '*' :: '*' :: rest => rest.head?.all isSeparator
  | _ => false

namespace State

-- The outermost of the open sequences, put after other tokens
def aboveGroups (low tokens : List Token) : List (List (List Token) × List Token) → State
  | [] => ⟨tokens ++ low, []⟩
  | (done, before) :: groups =>
      let outer := aboveGroups low before groups
      ⟨tokens, (done, outer.tokens) :: outer.groups⟩

def above (low : List Token) (state : State) : State := aboveGroups low state.tokens state.groups

variable (low : List Token) (state : State)

theorem above_push (token : Token) :
    (state.push token).above low = (state.above low).push token := by
  obtain ⟨tokens, _ | ⟨⟨done, before⟩, groups⟩⟩ := state <;> rfl

theorem above_openGroup : state.openGroup.above low = (state.above low).openGroup := rfl

theorem above_comma : state.comma.above low = (state.above low).comma := by
  obtain ⟨tokens, _ | ⟨⟨done, before⟩, groups⟩⟩ := state <;> rfl

theorem closeGroup_above :
    (state.above low).closeGroup = state.closeGroup.map fun next => next.above low := by
  obtain ⟨tokens, _ | ⟨⟨done, before⟩, groups⟩⟩ := state
  · rfl
  · exact congrArg Except.ok (above_push low ⟨before, groups⟩ _).symm

theorem finish_above : (state.above low).finish = state.finish.map (low.reverse ++ ·) := by
  obtain ⟨tokens, _ | ⟨⟨done, before⟩, groups⟩⟩ := state
  · exact congrArg Except.ok List.reverse_append
  · rfl

theorem isEmpty_groups_above : (state.above low).groups.isEmpty = state.groups.isEmpty := by
  obtain ⟨tokens, _ | ⟨⟨done, before⟩, groups⟩⟩ := state <;> rfl

theorem above_pathComponent (token : Token) (last : Bool) :
    ((state.push token).pathComponent last).above low =
      ((state.push token).above low).pathComponent last := by
  rw [above_push]
  cases token <;> exact above_push low state _

theorem beginsComponent_above (before : Option Char) :
    (state.above low).beginsComponent before = state.beginsComponent before := by
  rw [beginsComponent, isEmpty_groups_above, beginsComponent]

theorem doubleStar_push_nil (token : Token) (before : Option Char) :
    (state.push token).doubleStar before [] =
      if (state.push token).beginsComponent before then
        ((state.push token).pathComponent true, [])
      else (((state.push token).push .star).push .star, []) :=
  rfl

theorem doubleStar_push_cons (token : Token) (before : Option Char) (c : Char)
    (rest : List Char) :
    (state.push token).doubleStar before (c :: rest) =
      if !(state.push token).beginsComponent before then
        (((state.push token).push .star).push .star, c :: rest)
      else if isSeparator c then ((state.push token).pathComponent false, rest)
      else if (c = ',' || c = '}') && !(state.push token).groups.isEmpty then
        ((state.push token).pathComponent true, c :: rest)
      else (((state.push token).push .star).push .star, c :: rest) :=
  rfl

-- A sequence with other tokens before it reads two stars alike, unless they are all it has
-- and stand for its leading path.
theorem doubleStar_above {state : State} {before : Option Char} {rest : List Char}
    (h : state ≠ start ∨ leads ('*' :: '*' :: rest) = false) :
    (state.above low).doubleStar before rest =
      ((state.doubleStar before rest).1.above low, (state.doubleStar before rest).2) := by
  obtain ⟨_ | ⟨token, tokens⟩, groups⟩ := state
  · rcases groups with _ | ⟨⟨done, outer⟩, groups⟩
    · cases rest with
      | nil => simp [start, leads] at h
      | cons c rest =>
          have hc : isSeparator c = false := by simpa [start, leads] using h
          cases low <;> simp [above, aboveGroups, doubleStar, push, hc]
    · cases rest with
      | nil => rfl
      | cons c rest =>
          simp only [above, aboveGroups, doubleStar]
          split <;> rfl
  · change (above low (push ⟨tokens, groups⟩ token)).doubleStar before rest =
      (((push ⟨tokens, groups⟩ token).doubleStar before rest).1.above low,
        ((push ⟨tokens, groups⟩ token).doubleStar before rest).2)
    have hbegins := beginsComponent_above low (push ⟨tokens, groups⟩ token) before
    have hgroups := isEmpty_groups_above low (push ⟨tokens, groups⟩ token)
    rw [above_push] at hbegins hgroups
    cases rest with
    | nil =>
        rw [above_push, doubleStar_push_nil, doubleStar_push_nil, hbegins]
        split <;> simp only [above_pathComponent, above_push]
    | cons c rest =>
        rw [above_push, doubleStar_push_cons, doubleStar_push_cons, hbegins, hgroups]
        split_ifs <;> simp only [above_pathComponent, above_push]

end State

variable {state : State}

theorem step_above {low : List Token} {before : Option Char} {c : Char} {rest : List Char}
    (h : state ≠ .start ∨ leads (c :: rest) = false) :
    step (state.above low) before c rest =
      (step state before c rest).map fun next => (next.1.above low, next.2) := by
  fun_cases step state before c rest with
  | case2 rest next after hnext =>
      rw [step, State.doubleStar_above low h, hnext]
      rfl
  | case4 rest =>
      rw [step]
      cases readClass rest with
      | error problem => rfl
      | ok read =>
          exact congrArg (fun next => Except.ok (next, ']', read.2))
            (State.above_push low state _).symm
  | case5 rest =>
      exact congrArg (fun next => Except.ok (next, '{', rest))
        (State.above_openGroup low state).symm
  | case6 rest =>
      rw [step, State.closeGroup_above]
      cases state.closeGroup <;> rfl
  | case1 | case3 | case7 | case8 | case9 | case10 =>
      simp_all [step, Except.map, State.above_push, State.above_comma]

theorem length_scanClass_le {first inRange : Bool} {ranges read : List (Char × Char)}
    {text rest : List Char} (h : scanClass first inRange ranges text = .ok (read, rest)) :
    rest.length ≤ text.length := by
  fun_induction scanClass first inRange ranges text with
  | case1 | case4 => contradiction
  | case2 =>
      cases h
      exact Nat.le_succ _
  | case3 _ _ _ _ _ _ _ ih | case5 _ _ _ _ _ _ _ _ _ ih | case6 _ _ _ _ _ _ _ _ ih =>
      exact Nat.le_succ_of_le (ih h)

theorem length_readClass_le {text rest : List Char} {token : Token}
    (h : readClass text = .ok (token, rest)) : rest.length ≤ text.length := by
  obtain ⟨⟨read, left⟩, hread, hnext⟩ := map_eq_ok_iff.mp h
  cases hnext
  have hdrop (negated : Bool) : (if negated then text.drop 1 else text).length ≤ text.length := by
    cases negated <;> simp
  exact Nat.le_trans (length_scanClass_le hread) (hdrop _)

theorem length_doubleStar_le (state : State) (before : Option Char) (rest : List Char) :
    (state.doubleStar before rest).2.length ≤ rest.length := by
  fun_cases State.doubleStar state before rest <;> simp

-- What reading one token can make of a state
inductive State.Moves (state : State) : State → Prop where
  | push (token : Token) (h : token = .leadingPath → state.tokens = []) :
      Moves state (state.push token)
  | stars : Moves state ((state.push .star).push .star)
  | component (last : Bool) (h : state.tokens ≠ []) : Moves state (state.pathComponent last)
  | openGroup : Moves state state.openGroup
  | comma : Moves state state.comma
  | closeGroup (next : State) (h : state.closeGroup = .ok next) : Moves state next

theorem moves_doubleStar (state : State) (before : Option Char) (rest : List Char) :
    state.Moves (state.doubleStar before rest).1 := by
  fun_cases State.doubleStar state before rest with
  | case1 | case2 => exact .push _ fun _ => ‹_›
  | case3 | case5 | case6 | case9 => exact .stars
  | case4 | case7 | case8 => exact .component _ ‹_›

theorem moves_of_step {before : Option Char} {c last : Char} {rest left : List Char}
    {next : State} (h : step state before c rest = .ok (next, last, left)) :
    state.Moves next ∧ left.length ≤ rest.length := by
  revert h
  fun_cases step state before c rest with
  | case2 rest middle after hstars =>
      rintro ⟨⟩
      have hmoves := moves_doubleStar state before rest
      have hlength := length_doubleStar_le state before rest
      rw [hstars] at hmoves hlength
      exact ⟨hmoves, Nat.le_succ_of_le hlength⟩
  | case4 =>
      intro h
      obtain ⟨⟨token, after⟩, hread, hnext⟩ := map_eq_ok_iff.mp h
      cases hnext
      obtain ⟨_, -, hclass⟩ := map_eq_ok_iff.mp hread
      refine ⟨.push _ fun htoken => ?_, length_readClass_le hread⟩
      cases hclass
      contradiction
  | case6 =>
      intro h
      obtain ⟨closed, hclose, hnext⟩ := map_eq_ok_iff.mp h
      cases hnext
      exact ⟨.closeGroup _ hclose, Nat.le_refl _⟩
  | case5 | case7 =>
      rintro ⟨⟩
      exact ⟨by constructor, Nat.le_refl _⟩
  | case9 => exact nofun
  | case1 | case3 | case8 | case10 =>
      rintro ⟨⟩
      exact ⟨.push _ nofun, by simp⟩

theorem State.Moves.ne_start {next : State} (h : state.Moves next) : next ≠ .start := by
  obtain ⟨tokens, groups⟩ := state
  cases h with
  | push token h | stars | openGroup => exact nofun
  | component last h =>
      obtain ⟨token, tokens, rfl⟩ := List.exists_cons_of_ne_nil h
      cases token <;> exact nofun
  | comma => cases groups <;> exact nofun
  | closeGroup next h =>
      cases groups with
      | nil => contradiction
      | cons group groups =>
          cases h
          exact nofun

-- The tokens of the outermost of the open sequences
def State.outermost (tokens : List Token) : List (List (List Token) × List Token) → List Token
  | [] => tokens
  | (_, before) :: groups => outermost before groups

-- A leading path only ever comes first in a sequence.
theorem State.Moves.leadingPath_notMem {next : State} (h : state.Moves next)
    (hstart : state ≠ .start) (hmem : .leadingPath ∉ outermost state.tokens state.groups) :
    .leadingPath ∉ outermost next.tokens next.groups := by
  obtain ⟨tokens, _ | ⟨⟨done, before⟩, groups⟩⟩ := state
  · obtain ⟨token, tokens, rfl⟩ : ∃ token rest, tokens = token :: rest :=
      List.exists_cons_of_ne_nil fun hnil => hstart (hnil ▸ rfl)
    cases h with
    | push new hnew =>
        have hne : .leadingPath ≠ new := fun h => nomatch hnew h.symm
        exact List.not_mem_cons_of_ne_of_not_mem hne hmem
    | stars =>
        exact List.not_mem_cons_of_ne_of_not_mem nofun
          (List.not_mem_cons_of_ne_of_not_mem nofun hmem)
    | comma => exact List.not_mem_cons_of_ne_of_not_mem nofun hmem
    | component last =>
        have hrest := (List.ne_and_not_mem_of_not_mem_cons hmem).2
        cases token with
        | leadingPath | trailingPath => exact hmem
        | literal | any | star | innerPath | «class» | alternates =>
            cases last <;> exact List.not_mem_cons_of_ne_of_not_mem nofun hrest
    | openGroup => exact hmem
    | closeGroup next h => contradiction
  · cases h with
    | push | stars | openGroup | comma => exact hmem
    | component last h =>
        obtain ⟨token, tokens, rfl⟩ := List.exists_cons_of_ne_nil h
        cases token <;> exact hmem
    | closeGroup next h =>
        cases h
        cases groups with
        | nil => exact List.not_mem_cons_of_ne_of_not_mem nofun hmem
        | cons => exact hmem

theorem scan_congr {fuel other : Nat} {before : Option Char} {text : List Char}
    (hfuel : text.length ≤ fuel) (hother : text.length ≤ other) :
    scan fuel state before text = scan other state before text := by
  induction fuel generalizing other state before text with
  | zero => rw [List.eq_nil_of_length_eq_zero (Nat.le_zero.mp hfuel), scan_nil, scan_nil]
  | succ fuel ih =>
      cases text with
      | nil => rw [scan_nil, scan_nil]
      | cons c rest =>
          obtain ⟨other, rfl⟩ := Nat.exists_eq_add_one.mpr (Nat.zero_lt_of_lt hother)
          rw [scan_cons, scan_cons]
          cases hstep : step state before c rest with
          | error problem => rfl
          | ok next =>
              have hlength := (moves_of_step hstep).2
              exact ih (Nat.le_trans hlength (Nat.le_of_succ_le_succ hfuel))
                (Nat.le_trans hlength (Nat.le_of_succ_le_succ hother))

-- A text is read with as much fuel as it has characters.
def read (state : State) (before : Option Char) (text : List Char) :
    Except Problem (List Token) :=
  scan text.length state before text

theorem read_nil (state : State) (before : Option Char) : read state before [] = state.finish :=
  scan_nil _ _ _

theorem read_cons (state : State) (before : Option Char) (c : Char) (rest : List Char) :
    read state before (c :: rest) = (step state before c rest).bind fun next =>
      read next.1 (some next.2.1) next.2.2 := by
  rw [read, List.length_cons, scan_cons]
  cases hstep : step state before c rest with
  | error problem => rfl
  | ok next => exact scan_congr (moves_of_step hstep).2 (Nat.le_refl _)

theorem parse_eq (pattern : String) : parse pattern = read .start none pattern.toList := by
  rw [parse, read, String.length_toList]

-- At the start of a pattern, the character before it plays no part.
theorem read_start (before other : Option Char) (text : List Char) :
    read .start before text = read .start other text := by
  cases text with
  | nil => rfl
  | cons c rest =>
      have hstars (rest : List Char) :
          State.start.doubleStar before rest = State.start.doubleStar other rest := by
        cases rest <;> rfl
      have hstep : step .start before c rest = step .start other c rest := by
        fun_cases step State.start before c rest <;> simp_all [step]
      rw [read_cons, read_cons, hstep]

-- A text is read after other tokens as it is read alone.
theorem read_above {low : List Token} {before : Option Char} {text : List Char}
    (h : state ≠ .start ∨ leads text = false) :
    read (state.above low) before text = (read state before text).map (low.reverse ++ ·) := by
  induction hlength : text.length using Nat.strongRecOn generalizing state before text with
  | ind length ih =>
      cases text with
      | nil => rw [read_nil, read_nil, State.finish_above]
      | cons c rest =>
          rw [read_cons, read_cons, step_above h]
          cases hstep : step state before c rest with
          | error problem => rfl
          | ok next =>
              obtain ⟨hmoves, hle⟩ := moves_of_step hstep
              exact ih _ (hlength ▸ Nat.lt_succ_of_le hle) (.inl hmoves.ne_start) rfl

theorem read_after (low : List Token) (before : Option Char) {text : List Char}
    (h : leads text = false) :
    read ⟨low, []⟩ before text = (read .start none text).map (low.reverse ++ ·) := by
  have habove : read (State.start.above low) before text =
      (read .start before text).map (low.reverse ++ ·) := read_above (.inr h)
  rw [read_start none before, ← habove]
  rfl

theorem leadingPath_notMem_of_read (state : State) {before : Option Char} {text : List Char}
    {tokens : List Token} (hstart : state ≠ .start)
    (hmem : .leadingPath ∉ State.outermost state.tokens state.groups)
    (h : read state before text = .ok tokens) : .leadingPath ∉ tokens := by
  induction hlength : text.length using Nat.strongRecOn generalizing state before text with
  | ind length ih =>
      cases text with
      | nil =>
          rw [read_nil] at h
          obtain ⟨last, _ | group⟩ := state
          · cases h
            exact fun h => hmem (List.mem_reverse.mp h)
          · contradiction
      | cons c rest =>
          rw [read_cons] at h
          obtain ⟨next, hstep, hnext⟩ := bind_eq_ok_iff.mp h
          obtain ⟨hmoves, hle⟩ := moves_of_step hstep
          exact ih _ (hlength ▸ Nat.lt_succ_of_le hle) next.1 hmoves.ne_start
            (hmoves.leadingPath_notMem hstart hmem) hnext rfl

-- A pattern that does not begin with a leading path holds none in its outermost sequence.
theorem leadingPath_notMem_of_leads {text : List Char} {tokens : List Token}
    (hleads : leads text = false) (h : read .start none text = .ok tokens) :
    .leadingPath ∉ tokens := by
  have habove : read (State.start.above [.any]) none text = .ok (.any :: tokens) := by
    exact (read_after [.any] none hleads).trans (h ▸ rfl)
  have hany : .leadingPath ∉ [Token.any] := by simp
  have hmem := leadingPath_notMem_of_read ⟨[.any], []⟩ nofun hany habove
  exact (List.ne_and_not_mem_of_not_mem_cons hmem).2

end TaggedCache.Glob
