/-!
# Quoted text

Written code quotes text with double quotes. Source expressions may quote with either quote and know
a different set of escapes: `encode` writes four hexadecimal digits for the rarer control
characters, which `readBody` does not decode.
-/

namespace Stencil.Text.Quoted

/-- A number below `16 ^ 4` as four lower-case hexadecimal digits. -/
def hexFour (n : Nat) : List Char :=
  let ds := Nat.toDigits 16 n
  List.replicate (4 - ds.length) '0' ++ ds

/-- The characters that are written as four hexadecimal digits: control characters without an
escape of their own, and the line and paragraph separators. -/
def isHexEscaped (c : Char) : Bool :=
  c.toNat < 0x20 && c != '\n' && c != '\r' && c != '\t' || c.toNat == 0x2028 || c.toNat == 0x2029

/-- A character as it stands between double quotes. -/
def escape (c : Char) : List Char :=
  if c = '\\' then ['\\', '\\']
  else if c = '"' then ['\\', '"']
  else if c = '\n' then ['\\', 'n']
  else if c = '\r' then ['\\', 'r']
  else if c = '\t' then ['\\', 't']
  else if isHexEscaped c then '\\' :: 'u' :: hexFour c.toNat
  else [c]

/-- The text between double quotes. -/
def encode (s : String) : String :=
  String.ofList ('"' :: (s.toList.flatMap escape ++ ['"']))

/-- The character that an escaped character of a source expression stands for. -/
def unescape (c : Char) : Char :=
  if c = 'n' then '\n'
  else if c = 'r' then '\r'
  else if c = 't' then '\t'
  else if c = 'b' then '\x08'
  else if c = 'f' then '\x0c'
  else if c = 'v' then '\x0b'
  else if c = '0' then '\x00'
  else c

/-- Reads up to the closing quote: the text with its escapes resolved, and what follows the
quote. -/
def readBody (quote : Char) : List Char → Option (List Char × List Char)
  | [] => none
  | '\\' :: [] => none
  | '\\' :: c :: rest => (readBody quote rest).map fun (text, after) => (unescape c :: text, after)
  | c :: rest =>
    if c = quote then some ([], rest)
    else (readBody quote rest).map fun (text, after) => (c :: text, after)

theorem length_readBody_le {quote : Char} {cs text after : List Char}
    (h : readBody quote cs = some (text, after)) : after.length ≤ cs.length := by
  fun_induction readBody quote cs generalizing text with
  | case1 => simp at h
  | case2 => simp at h
  | case3 c rest ih =>
    obtain ⟨⟨t, a⟩, hr, he⟩ := Option.map_eq_some_iff.1 h
    cases he
    simp only [List.length_cons]
    exact Nat.le_succ_of_le (Nat.le_succ_of_le (ih hr))
  | case4 rest => simp_all
  | case5 c rest _ _ hc ih =>
    obtain ⟨⟨t, a⟩, hr, he⟩ := Option.map_eq_some_iff.1 h
    cases he
    exact Nat.le_succ_of_le (ih hr)

end Stencil.Text.Quoted
