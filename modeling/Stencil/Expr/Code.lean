import Stencil.Expr.Basic
import Stencil.Number.Decimal
import Stencil.Text.Quoted

/-!
# Code of an expression

The code reaches names through the scope object only. A child is bracketed when it binds less
tightly than its place asks; two more brackets keep `- -a` from reading as `--a` and a number from
taking the dot of a member access for its own.
-/

namespace Stencil

/-- The names that the code is written with. -/
structure CodeStyle where
  /-- The object that names are looked up in. -/
  scope : String
  /-- The function that applies a filter to the code of an expression. -/
  filterFn : String
deriving DecidableEq, Repr

/-- Code has no exponents and no trailing point. -/
def CodeStyle.numbers : NumberStyle := ⟨.up, none, false⟩

def Literal.code : Literal → String
  | .number value => value.text CodeStyle.numbers
  | .string value => Text.Quoted.encode value
  | .bool value => if value then "true" else "false"
  | .null => "null"
  | .undefined => "undefined"

namespace Expr

/-- Code in brackets where they are needed. -/
def bracket (needed : Bool) (code : String) : String :=
  if needed then "(" ++ code ++ ")" else code

def isNumber : Expr → Bool
  | .literal (.number _) => true
  | _ => false

def isString : Expr → Bool
  | .literal (.string _) => true
  | _ => false

/-- A unary minus or plus. -/
def isSigned : Expr → Bool
  | .unary .neg _ | .unary .plus _ => true
  | _ => false

/-- Joining starts with a text, so that `+` never adds numbers. -/
def concatSeed (parts : List Expr) : List String :=
  match parts with
  | first :: _ => if first.isString then [] else [Text.Quoted.encode ""]
  | [] => [Text.Quoted.encode ""]

mutual

/-- The code of an expression. -/
def code (style : CodeStyle) : Expr → String
  | .literal value => value.code
  | .scope name => style.scope ++ "." ++ name
  | .member object property =>
    bracket (object.isNumber || object.level < 9) (code style object) ++ "." ++ property
  | .index object key =>
    bracket (object.level < 9) (code style object) ++ "[" ++ code style key ++ "]"
  | .unary op operand =>
    op.symbol ++ bracket (operand.isSigned || operand.level < 8) (code style operand)
  | .binary op left right =>
    bracket (left.level < op.level) (code style left) ++ " " ++ op.symbol ++ " "
      ++ bracket (right.level < op.level + 1) (code style right)
  | .conditional test consequent alternate =>
    bracket (test.level < 2) (code style test) ++ " ? "
      ++ bracket (consequent.level < 1) (code style consequent) ++ " : "
      ++ bracket (alternate.level < 1) (code style alternate)
  | .filter expression name =>
    style.filterFn ++ "(" ++ Text.Quoted.encode (code style expression) ++ ", "
      ++ Text.Quoted.encode name ++ ")"
  | .concat parts => String.intercalate " + " (concatSeed parts ++ partCodes style parts)

/-- The codes of the parts of a concatenation. -/
def partCodes (style : CodeStyle) : List Expr → List String
  | [] => []
  | part :: parts => bracket (part.level < 7) (code style part) :: partCodes style parts

end

end Expr
end Stencil
