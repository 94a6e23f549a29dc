import TaggedCache.Text.CodeSet

namespace TaggedCache.Text

-- Control characters (Cc)
def isControl (c : Char) : Bool := c.toNat < 0x20 || (0x7F ≤ c.toNat && c.toNat < 0xA0)

def hexDigits (n : Nat) : List Char := Nat.toDigits 16 n

-- A character by its code in hexadecimal
def codeEscape (c : Char) : List Char :=
  ['\\', 'u', '\x7b'] ++ hexDigits c.toNat ++ ['\x7d']

-- A character as a reader of messages sees it. Characters without a shape of their own
-- are shown by their code, those that extend a grapheme only where asked for.
def visible (quotes : List Char) (extending : Bool) (c : Char) : List Char :=
  if c = '\x00' then ['\\', '0']
  else if c = '\t' then ['\\', 't']
  else if c = '\r' then ['\\', 'r']
  else if c = '\n' then ['\\', 'n']
  else if c = '\\' || quotes.contains c then ['\\', c]
  else if (extending && CodeSet.extending.holds c) || CodeSet.unprintable.holds c then codeEscape c
  else [c]

-- A text in double quotes
def quoted (s : String) : String :=
  String.ofList (['"'] ++ s.toList.flatMap (visible ['"'] true) ++ ['"'])

-- A text for display without quotes around it. Both kinds of quote are escaped,
-- and a mark that extends a grapheme only where it has none to extend.
def displayed (s : String) : String :=
  String.ofList <|
    match s.toList with
    | [] => []
    | c :: rest => visible ['"', '\''] true c ++ rest.flatMap (visible ['"', '\''] false)

end TaggedCache.Text
