/-!
# Blank characters

Three sets of blanks are in use. Values are trimmed of every character with the Unicode property
White_Space, the tokens of an expression are separated by four ASCII blanks, and the parts of a tag
by five.
-/

namespace Stencil.Text

/-- The characters with the Unicode property White_Space. -/
def isWhite (c : Char) : Bool :=
  let n := c.toNat
  (0x09 ≤ n && n ≤ 0x0D) || n == 0x20 || n == 0x85 || n == 0xA0 || n == 0x1680
    || (0x2000 ≤ n && n ≤ 0x200A) || n == 0x2028 || n == 0x2029 || n == 0x202F || n == 0x205F
    || n == 0x3000

/-- The blanks that may stand between the tokens of an expression. -/
def isGap (c : Char) : Bool :=
  c == ' ' || c == '\t' || c == '\r' || c == '\n'

/-- The blanks that separate the parts of a tag. -/
def isTagBlank (c : Char) : Bool :=
  c == ' ' || c == '\t' || c == '\n' || c == '\x0c' || c == '\r'

/-- The characters without the leading and trailing white space. -/
def trimChars (cs : List Char) : List Char :=
  ((cs.dropWhile isWhite).reverse.dropWhile isWhite).reverse

/-- The text without the leading and trailing white space. -/
def trim (s : String) : String :=
  String.ofList (trimChars s.toList)

/-- All characters are white space; the empty text counts. -/
def isAllWhite (s : String) : Bool :=
  s.toList.all isWhite

end Stencil.Text
