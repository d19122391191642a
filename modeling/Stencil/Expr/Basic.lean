import Stencil.Number.Binary64

/-!
# Binding expressions

The trees of the expression language. `filter` and `concat` do not nest in what the reader
returns: a filter stands at the root, and a concatenation only joins the segments of a text.
-/

namespace Stencil

inductive UnaryOp where
  | not
  | neg
  | plus
deriving DecidableEq, Repr

inductive BinaryOp where
  | or
  | and
  | strictEq
  | strictNe
  | eq
  | ne
  | le
  | ge
  | lt
  | gt
  | add
  | sub
  | mul
  | div
  | rem
deriving DecidableEq, Repr

inductive Literal where
  | number (value : Binary64)
  | string (value : String)
  | bool (value : Bool)
  | null
  | undefined
deriving DecidableEq, Repr

inductive Expr where
  | literal (value : Literal)
  /-- A name looked up in the scope object. -/
  | scope (name : String)
  | member (object : Expr) (property : String)
  | index (object key : Expr)
  | unary (op : UnaryOp) (operand : Expr)
  | binary (op : BinaryOp) (left right : Expr)
  | conditional (test consequent alternate : Expr)
  | filter (expression : Expr) (name : String)
  /-- The parts joined as text. -/
  | concat (parts : List Expr)
deriving BEq, Repr

namespace UnaryOp

def symbol : UnaryOp → String
  | .not => "!"
  | .neg => "-"
  | .plus => "+"

end UnaryOp

namespace BinaryOp

def symbol : BinaryOp → String
  | .or => "||"
  | .and => "&&"
  | .strictEq => "==="
  | .strictNe => "!=="
  | .eq => "=="
  | .ne => "!="
  | .le => "<="
  | .ge => ">="
  | .lt => "<"
  | .gt => ">"
  | .add => "+"
  | .sub => "-"
  | .mul => "*"
  | .div => "/"
  | .rem => "%"

/-- How tightly the operator binds; operators of one level group from the left. -/
def level : BinaryOp → Nat
  | .or => 2
  | .and => 3
  | .strictEq | .strictNe | .eq | .ne => 4
  | .le | .ge | .lt | .gt => 5
  | .add | .sub => 6
  | .mul | .div | .rem => 7

end BinaryOp

namespace Expr

/-- How tightly the outermost construct binds, on the scale of `BinaryOp.level`. -/
def level : Expr → Nat
  | .conditional .. => 1
  | .binary op .. => op.level
  | .concat _ => 6
  | .unary .. => 8
  | .literal _ | .scope _ | .member .. | .index .. | .filter .. => 9

/-- What a word that stands for a value means: one of four literals, or a name of the scope. -/
def ofWord (word : String) : Expr :=
  if word = "true" then .literal (.bool true)
  else if word = "false" then .literal (.bool false)
  else if word = "null" then .literal .null
  else if word = "undefined" then .literal .undefined
  else .scope word

end Expr
end Stencil
