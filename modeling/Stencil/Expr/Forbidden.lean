/-!
# Forbidden operators

Assignments, increments and decrements are refused under their own name, before the expression is
read. They are looked for outside quoted text, character by character.
-/

namespace Stencil

/-- An operator that would change a value. -/
inductive ForbiddenOp where
  | increment
  | decrement
  | assign
  /-- An assignment combined with the operator of the character. -/
  | assignWith (operator : Char)
deriving DecidableEq, Repr

namespace ForbiddenOp

def symbol : ForbiddenOp → String
  | .increment => "++"
  | .decrement => "--"
  | .assign => "="
  | .assignWith operator => String.ofList [operator, '=']

/-- The operators that an assignment can be combined with. -/
def isCombined (c : Char) : Bool :=
  c == '+' || c == '-' || c == '*' || c == '/' || c == '%' || c == '&' || c == '|' || c == '^'

/-- Where the search stands. -/
inductive Mode where
  /-- Outside quoted text, after a character. -/
  | code (previous : Option Char)
  /-- In the equals signs of a comparison. -/
  | equals
  /-- Inside quoted text. -/
  | text (quote : Char)
  /-- Inside quoted text, after a backslash. -/
  | escape (quote : Char)

/-- The assignment that a lone equals sign makes with the character before it. -/
def ofAssignment (previous : Option Char) : ForbiddenOp :=
  match previous with
  | some c => if isCombined c then .assignWith c else .assign
  | none => .assign

/-- An equals sign belongs to a comparison if another one follows, or after `!`, `<` and `>`. -/
def isComparison (previous : Option Char) (rest : List Char) : Bool :=
  rest.head? == some '=' || previous == some '!' || previous == some '<' || previous == some '>'

/-- The search from a character outside quoted text: the operator found, or the next mode. -/
def examine (previous : Option Char) (c : Char) (rest : List Char) : Except ForbiddenOp Mode :=
  if c = '"' ∨ c = '\'' then .ok (.text c)
  else if c = '+' ∧ rest.head? = some '+' then .error .increment
  else if c = '-' ∧ rest.head? = some '-' then .error .decrement
  else if c = '=' then
    if isComparison previous rest then .ok .equals else .error (ofAssignment previous)
  else .ok (.code (some c))

/-- The first forbidden operator from a mode on. -/
def search : Mode → List Char → Option ForbiddenOp
  | _, [] => none
  | .code previous, c :: rest =>
    match examine previous c rest with
    | .error op => some op
    | .ok mode => search mode rest
  | .equals, c :: rest =>
    if c = '=' then search .equals rest
    else
      match examine (some '=') c rest with
      | .error op => some op
      | .ok mode => search mode rest
  | .text quote, c :: rest =>
    if c = '\\' then search (.escape quote) rest
    else if c = quote then search (.code (some c)) rest
    else search (.text quote) rest
  | .escape quote, _ :: rest => search (.text quote) rest

/-- The first forbidden operator of an expression. -/
def find? (source : List Char) : Option ForbiddenOp :=
  search (.code none) source

end ForbiddenOp
end Stencil
