import Stencil.Expr.Basic
import Stencil.Number.Numeral
import Stencil.Text.Blank
import Stencil.Text.Quoted

/-!
# Tokens of an expression

Words, numerals, quoted texts, operators and brackets. The longest token is taken: no operator is
followed by one that would extend it, so a shorter choice would never lead on.
-/

namespace Stencil

inductive Token where
  /-- A name or one of the literal words. -/
  | word (name : String)
  | number (numeral : Numeral)
  | string (value : String)
  /-- An operator between operands; `+` and `-` also stand before one. -/
  | op (operator : BinaryOp)
  | bang
  | dot
  | question
  | colon
  | pipe
  | leftParen
  | rightParen
  | leftBracket
  | rightBracket
deriving DecidableEq, Repr

namespace Token

def isNameStart (c : Char) : Bool :=
  c.isAlpha || c == '_' || c == '$'

def isNameChar (c : Char) : Bool :=
  c.isAlphanum || c == '_' || c == '$'

/-- The operator or bracket at the front. -/
def symbol? : List Char → Option (Token × List Char)
  | '=' :: '=' :: '=' :: rest => some (.op .strictEq, rest)
  | '!' :: '=' :: '=' :: rest => some (.op .strictNe, rest)
  | '|' :: '|' :: rest => some (.op .or, rest)
  | '&' :: '&' :: rest => some (.op .and, rest)
  | '=' :: '=' :: rest => some (.op .eq, rest)
  | '!' :: '=' :: rest => some (.op .ne, rest)
  | '<' :: '=' :: rest => some (.op .le, rest)
  | '>' :: '=' :: rest => some (.op .ge, rest)
  | '<' :: rest => some (.op .lt, rest)
  | '>' :: rest => some (.op .gt, rest)
  | '+' :: rest => some (.op .add, rest)
  | '-' :: rest => some (.op .sub, rest)
  | '*' :: rest => some (.op .mul, rest)
  | '/' :: rest => some (.op .div, rest)
  | '%' :: rest => some (.op .rem, rest)
  | '!' :: rest => some (.bang, rest)
  | '.' :: rest => some (.dot, rest)
  | '?' :: rest => some (.question, rest)
  | ':' :: rest => some (.colon, rest)
  | '|' :: rest => some (.pipe, rest)
  | '(' :: rest => some (.leftParen, rest)
  | ')' :: rest => some (.rightParen, rest)
  | '[' :: rest => some (.leftBracket, rest)
  | ']' :: rest => some (.rightBracket, rest)
  | _ => none

/-- The token at the front and what follows it. -/
def next? : List Char → Option (Token × List Char)
  | [] => none
  | c :: rest =>
    if isNameStart c then
      some (.word (String.ofList (c :: rest.takeWhile isNameChar)), rest.dropWhile isNameChar)
    else if c = '"' ∨ c = '\'' then
      (Text.Quoted.readBody c rest).map fun (text, after) => (.string (String.ofList text), after)
    else
      match Numeral.read? (c :: rest) with
      | some (numeral, after) => some (.number numeral, after)
      | none => symbol? (c :: rest)

theorem length_symbol?_lt {cs rest : List Char} {t : Token}
    (h : symbol? cs = some (t, rest)) : rest.length < cs.length := by
  unfold symbol? at h
  split at h <;> cases h <;> simp only [List.length_cons] <;> omega

theorem length_next?_lt {cs rest : List Char} {t : Token}
    (h : next? cs = some (t, rest)) : rest.length < cs.length := by
  unfold next? at h
  split at h
  · simp at h
  · rename_i c cs
    split at h
    · cases h
      exact Nat.lt_succ_of_le (List.dropWhile_sublist _).length_le
    · split at h
      · obtain ⟨⟨text, after⟩, hr, he⟩ := Option.map_eq_some_iff.1 h
        cases he
        exact Nat.lt_succ_of_le (Text.Quoted.length_readBody_le hr)
      · split at h
        · rename_i hn
          cases h
          exact Numeral.length_read?_lt hn
        · exact length_symbol?_lt h

/-- The tokens of a text, which blanks may separate. -/
def lex (cs : List Char) : Option (List Token) :=
  match hc : cs.dropWhile Text.isGap with
  | [] => some []
  | c :: rest =>
    match ht : next? (c :: rest) with
    | none => none
    | some (token, after) =>
      have : after.length < cs.length := by
        have := hc ▸ (List.dropWhile_sublist Text.isGap (l := cs)).length_le
        exact Nat.lt_of_lt_of_le (length_next?_lt ht) this
      (lex after).map (token :: ·)
termination_by cs.length

end Token
end Stencil
