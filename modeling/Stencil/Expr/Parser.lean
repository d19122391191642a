import Stencil.Expr.Chain
import Stencil.Expr.Token

/-!
# Trees from tokens

The tokens are read one by one by a machine with a stack. A frame of the stack is an expression
that waits for the value of an inner one: a bracket to be closed, or a conditional of which the
test, or the test and the first branch, are known. The grammar decides by the next token alone, so
the machine never goes back.

    input       = expression ( "|" word )?
    expression  = chain ( "?" expression ":" expression )?
    chain       = operand ( binary operator, operand )*
    operand     = ( "!" | "-" | "+" )* primary ( "." word | "[" expression "]" )*
    primary     = number | string | word | "(" expression ")"
-/

namespace Stencil.Parser

/-- A chain whose next operand is still to come: the links so far, the latest first, and the signs
before the operand, the latest first. -/
structure OpenChain where
  links : List (Operand × BinaryOp)
  signs : List UnaryOp

/-- What waits for the value of an inner expression. -/
inductive Frame where
  /-- `(` was read where an operand is due. -/
  | paren (outer : OpenChain)
  /-- `[` was read after an operand. -/
  | index (outer : OpenChain) (object : Operand)
  /-- `?` was read after a test. -/
  | consequent (test : Expr)
  /-- `:` was read after a test and the first branch. -/
  | alternate (test consequent : Expr)

inductive State where
  /-- An operand is due. -/
  | need (stack : List Frame) (chain : OpenChain)
  /-- An operand was read; accesses may follow. -/
  | got (stack : List Frame) (chain : OpenChain) (operand : Operand)
  /-- A dot was read after an operand. -/
  | access (stack : List Frame) (chain : OpenChain) (operand : Operand)
  /-- The name of a filter is due. -/
  | filter (value : Expr)
  /-- The name of a filter was read, nothing may follow. -/
  | filtered (value : Expr) (name : String)

namespace OpenChain

def empty : OpenChain := ⟨[], []⟩

/-- An operand with this primary expression and the signs read before it. -/
def operand (c : OpenChain) (primary : Expr) : Operand :=
  ⟨c.signs.reverse, primary, []⟩

/-- The chain after an operand and a binary operator. -/
def link (c : OpenChain) (o : Operand) (op : BinaryOp) : OpenChain :=
  ⟨(o, op) :: c.links, []⟩

/-- The tree of the chain, ended by an operand. -/
def close (c : OpenChain) (o : Operand) : Expr :=
  Chain.expr ⟨c.links.reverse, o⟩

end OpenChain

/-- An expression that has ended is the last branch of every conditional that waits for one. -/
def settle : List Frame → Expr → List Frame × Expr
  | .alternate test consequent :: stack, value => settle stack (.conditional test consequent value)
  | stack, value => (stack, value)

/-- The operator before an operand that a token stands for. -/
def sign? : Token → Option UnaryOp
  | .bang => some .not
  | .op .sub => some .neg
  | .op .add => some .plus
  | _ => none

/-- The expression that a token is by itself. -/
def atom? : Token → Option Expr
  | .number numeral => some (.literal (.number numeral.value))
  | .string value => some (.literal (.string value))
  | .word name => some (.ofWord name)
  | _ => none

/-- Reads a token where an operand is due. -/
def stepNeed (stack : List Frame) (chain : OpenChain) (t : Token) : Option State :=
  match sign? t, atom? t, t with
  | some op, _, _ => some (.need stack { chain with signs := op :: chain.signs })
  | none, some value, _ => some (.got stack chain (chain.operand value))
  | none, none, .leftParen => some (.need (.paren chain :: stack) .empty)
  | _, _, _ => none

/-- Reads a token after an operand. -/
def stepGot (stack : List Frame) (chain : OpenChain) (o : Operand) : Token → Option State
  | .dot => some (.access stack chain o)
  | .leftBracket => some (.need (.index chain o :: stack) .empty)
  | .op op => some (.need stack (chain.link o op))
  | .question => some (.need (.consequent (chain.close o) :: stack) .empty)
  | .colon =>
    match settle stack (chain.close o) with
    | (.consequent test :: stack, value) => some (.need (.alternate test value :: stack) .empty)
    | _ => none
  | .rightParen =>
    match settle stack (chain.close o) with
    | (.paren outer :: stack, value) => some (.got stack outer (outer.operand value))
    | _ => none
  | .rightBracket =>
    match settle stack (chain.close o) with
    | (.index outer object :: stack, value) =>
      some (.got stack outer { object with accesses := object.accesses ++ [.index value] })
    | _ => none
  | .pipe =>
    match settle stack (chain.close o) with
    | ([], value) => some (.filter value)
    | _ => none
  | _ => none

def step : State → Token → Option State
  | .need stack chain, t => stepNeed stack chain t
  | .got stack chain o, t => stepGot stack chain o t
  | .access stack chain o, .word name =>
    some (.got stack chain { o with accesses := o.accesses ++ [.member name] })
  | .filter value, .word name => some (.filtered value name)
  | _, _ => none

/-- The tree of a finished reading. -/
def finish : State → Option Expr
  | .got stack chain o =>
    match settle stack (chain.close o) with
    | ([], value) => some value
    | _ => none
  | .filtered value name => some (.filter value name)
  | _ => none

def start : State := .need [] .empty

/-- The tree that the tokens are an expression for. -/
def parse (tokens : List Token) : Option Expr :=
  (tokens.foldlM step start).bind finish

end Stencil.Parser
