import Stencil.Expr.Code
import Stencil.Expr.Forbidden
import Stencil.Expr.Parser
import Stencil.Expr.Report

/-!
# Reading an expression

The text is trimmed, searched for forbidden operators, read into a tree, and its numerals are
checked to be in range, in this order: the first step that fails names the error.
-/

namespace Stencil

/-- Why a text is not an expression. -/
inductive ExpressionError where
  | empty
  | forbidden (op : ForbiddenOp) (expression : String)
  | malformed (expression report : String)
  /-- A numeral that is too large for a number. -/
  | overflow (numeral : String)
deriving DecidableEq, Repr

namespace ExpressionError

def message : ExpressionError → String
  | .empty => "expression is empty"
  | .forbidden op expression =>
    "operator `" ++ op.symbol ++ "` is not allowed in `" ++ expression ++ "`"
  | .malformed expression report => "invalid expression `" ++ expression ++ "`:\n" ++ report
  | .overflow numeral => "invalid number literal `" ++ numeral ++ "`"

end ExpressionError

namespace Expr

/-- The numeral of a token whose number is out of range. -/
def overflow? : Token → Option Numeral
  | .number numeral => if numeral.value.isFinite then none else some numeral
  | _ => none

/-- Reads a trimmed text. -/
def readChars (source : List Char) : Except ExpressionError Expr :=
  if source.isEmpty then .error .empty
  else
    match ForbiddenOp.find? source with
    | some op => .error (.forbidden op (String.ofList source))
    | none =>
      match Token.lex source with
      | none => .error (.malformed (String.ofList source) (Grammar.explain source))
      | some tokens =>
        match Parser.parse tokens, tokens.findSome? overflow? with
        | none, _ => .error (.malformed (String.ofList source) (Grammar.explain source))
        | some _, some numeral => .error (.overflow (String.ofList numeral.chars))
        | some expr, none => .ok expr

/-- The expression that a text stands for. -/
def read (text : String) : Except ExpressionError Expr :=
  readChars (Text.trimChars text.toList)

/-- The code of the expression that a text stands for. -/
def compile (style : CodeStyle) (text : String) : Except ExpressionError String :=
  (read text).map (code style)

end Expr
end Stencil
