namespace TaggedCache.Text

-- White space of every script (White_Space)
def isBlank (c : Char) : Bool :=
  let code := c.toNat
  (9 ≤ code && code ≤ 13) || code == 0x20 || code == 0x85 || code == 0xA0 || code == 0x1680 ||
    (0x2000 ≤ code && code ≤ 0x200A) || code == 0x2028 || code == 0x2029 || code == 0x202F ||
    code == 0x205F || code == 0x3000

-- Drop the longest end of a list all of whose members pass a test
def dropEndWhile {α : Type} (test : α → Bool) (members : List α) : List α :=
  (members.reverse.dropWhile test).reverse

def trimEnd (s : String) : String := String.ofList (dropEndWhile isBlank s.toList)

-- The text without the blanks around it
def trim (s : String) : String :=
  String.ofList (dropEndWhile isBlank (s.toList.dropWhile isBlank))

end TaggedCache.Text
