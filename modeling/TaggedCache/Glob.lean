namespace TaggedCache.Glob

-- One element of a pattern
inductive Token where
  | literal (c : Char)
  -- any single byte
  | any
  -- any bytes
  | star
  -- any leading path components
  | leadingPath
  -- all that follows a separator
  | trailingPath
  -- any path components between two separators
  | innerPath
  -- a byte in, or not in, ranges of characters
  | class (negated : Bool) (ranges : List (Char × Char))
  | alternates (patterns : List (List Token))
  deriving Inhabited

-- What is wrong with a pattern
inductive Problem where
  | unclosedClass
  | invalidRange (first last : Char)
  | unopenedAlternates
  | unclosedAlternates
  | danglingEscape

def Problem.message : Problem → String
  | unclosedClass => "unclosed character class; missing ']'"
  | invalidRange first last =>
      "invalid range; '" ++ String.ofList [first] ++ "' > '" ++ String.ofList [last] ++ "'"
  | unopenedAlternates =>
      "unopened alternate group; missing '\x7b' (maybe escape '\x7d' with '[\x7d]'?)"
  | unclosedAlternates =>
      "unclosed alternate group; missing '\x7d' (maybe escape '\x7b' with '[\x7b]'?)"
  | danglingEscape => "dangling '\\'"

def isSeparator (c : Char) : Bool := c == '/'

-- The ranges of a class, the latest first. A bracket that comes first, and a dash that comes
-- first or last, stand for themselves.
def scanClass (first inRange : Bool) (ranges : List (Char × Char)) :
    List Char → Except Problem (List (Char × Char) × List Char)
  | [] => .error .unclosedClass
  | c :: rest =>
      if c = ']' && !first then
        .ok (if inRange then ('-', '-') :: ranges else ranges, rest)
      else if c = '-' && !first && !inRange then scanClass false true ranges rest
      else
        match inRange, ranges with
        | true, (low, _) :: ranges =>
            if c < low then .error (.invalidRange low c)
            else scanClass false false ((low, c) :: ranges) rest
        | _, ranges => scanClass false false ((c, c) :: ranges) rest

-- What has been read of a pattern: the tokens of the current sequence, the latest first, and
-- for each open group its finished alternatives and the tokens before it
structure State where
  tokens : List Token
  groups : List (List (List Token) × List Token)

namespace State

def start : State := ⟨[], []⟩

def push (state : State) (token : Token) : State :=
  { state with tokens := token :: state.tokens }

def openGroup (state : State) : State := ⟨[], ([], state.tokens) :: state.groups⟩

-- A comma ends an alternative, and stands for itself outside of groups
def comma (state : State) : State :=
  match state.groups with
  | [] => state.push (.literal ',')
  | (done, before) :: groups => ⟨[], (state.tokens.reverse :: done, before) :: groups⟩

def closeGroup (state : State) : Except Problem State :=
  match state.groups with
  | [] => .error .unopenedAlternates
  | (done, before) :: groups =>
      .ok ⟨.alternates (state.tokens.reverse :: done).reverse :: before, groups⟩

def finish (state : State) : Except Problem (List Token) :=
  match state.groups with
  | [] => .ok state.tokens.reverse
  | _ => .error .unclosedAlternates

-- Two stars that are a whole path component after a separator replace that separator.
-- After another such component they add nothing to it.
def pathComponent (state : State) (last : Bool) : State :=
  match state.tokens with
  | .leadingPath :: tokens => ⟨.leadingPath :: tokens, state.groups⟩
  | .trailingPath :: tokens => ⟨.trailingPath :: tokens, state.groups⟩
  | _ :: tokens => ⟨(if last then .trailingPath else .innerPath) :: tokens, state.groups⟩
  | [] => state

-- Whether stars may begin a path component after a character. Inside a group, a comma or brace
-- that stands for itself counts as a separator.
def beginsComponent (state : State) (before : Option Char) : Bool :=
  before.any fun c => isSeparator c || (!state.groups.isEmpty && (c == ',' || c == '{'))

-- Two stars, given the character before them and the text after them
def doubleStar (state : State) (before : Option Char) (rest : List Char) : State × List Char :=
  let plain := (state.push .star).push .star
  match state.tokens, rest with
  | [], [] => (state.push .leadingPath, [])
  | [], c :: rest => if isSeparator c then (state.push .leadingPath, rest) else (plain, c :: rest)
  | _, [] => if state.beginsComponent before then (state.pathComponent true, []) else (plain, [])
  | _, c :: rest =>
      if !state.beginsComponent before then (plain, c :: rest)
      else if isSeparator c then (state.pathComponent false, rest)
      else if (c = ',' || c = '}') && !state.groups.isEmpty then
        (state.pathComponent true, c :: rest)
      else (plain, c :: rest)

end State

-- Read a pattern from the given state on. The fuel bounds the number of tokens; the length of the
-- text is always enough.
def scan (fuel : Nat) (state : State) (before : Option Char) (text : List Char) :
    Except Problem (List Token) :=
  match fuel, text with
  | 0, _ | _, [] => state.finish
  | fuel + 1, '?' :: rest => scan fuel (state.push .any) (some '?') rest
  | fuel + 1, '*' :: '*' :: rest =>
      let (state, after) := state.doubleStar before rest
      scan fuel state (some (if after.length < rest.length then '/' else '*')) after
  | fuel + 1, '*' :: rest => scan fuel (state.push .star) (some '*') rest
  | fuel + 1, '[' :: rest => do
      let negated := match rest with
        | c :: _ => c == '!' || c == '^'
        | [] => false
      let (ranges, rest) ← scanClass true false [] (if negated then rest.drop 1 else rest)
      scan fuel (state.push (.class negated ranges.reverse)) (some ']') rest
  | fuel + 1, '{' :: rest => scan fuel state.openGroup (some '{') rest
  | fuel + 1, '}' :: rest => do scan fuel (← state.closeGroup) (some '}') rest
  | fuel + 1, ',' :: rest => scan fuel state.comma (some ',') rest
  | fuel + 1, '\\' :: rest =>
      match rest with
      | c :: rest => scan fuel (state.push (.literal c)) (some c) rest
      | [] => .error .danglingEscape
  | fuel + 1, c :: rest => scan fuel (state.push (.literal c)) (some c) rest

-- The tokens of a pattern
def parse (pattern : String) : Except Problem (List Token) :=
  scan pattern.length .start none pattern.toList

-- A pattern that matches a text alone, as long as it holds no backslash
def escape (text : String) : String :=
  String.ofList <| text.toList.flatMap fun c =>
    if ['?', '*', '[', ']', '{', '}'].contains c then ['[', c, ']'] else [c]

end TaggedCache.Glob
