import Stencil.Expr.Basic

/-!
# Operator chains

Between brackets an expression is a flat sequence: operands, each with operators before it and
accesses after it, joined by binary operators. The accesses of an operand bind tightest, then the
operators before it; the binary operators group by their ranks, those of one rank from the left.
-/

namespace Stencil

namespace BinaryOp

/-- The operators by how tightly they bind when an expression is read, the loosest first. -/
def ranks : List (List BinaryOp) :=
  [ [.or],
    [.and],
    [.strictEq, .strictNe, .eq, .ne],
    [.le, .ge, .lt, .gt],
    [.add, .sub],
    [.mul, .div, .rem] ]

def rank (op : BinaryOp) : Nat :=
  ranks.findIdx (·.contains op)

/-- The ranks that expressions are read by and the levels that they are written by agree. -/
theorem level_eq_rank_add (op : BinaryOp) : op.level = op.rank + 2 := by
  cases op <;> rfl

theorem rank_le_rank_iff {op op' : BinaryOp} : op.rank ≤ op'.rank ↔ op.level ≤ op'.level := by
  rw [level_eq_rank_add, level_eq_rank_add, Nat.add_le_add_iff_right]

theorem rank_lt_rank_iff {op op' : BinaryOp} : op.rank < op'.rank ↔ op.level < op'.level := by
  rw [level_eq_rank_add, level_eq_rank_add, Nat.add_lt_add_iff_right]

end BinaryOp

/-- An access after an operand. -/
inductive Access where
  | member (property : String)
  | index (key : Expr)

/-- An operand: a primary expression between operators and accesses, both in reading order. -/
structure Operand where
  signs : List UnaryOp
  primary : Expr
  accesses : List Access

/-- Operands joined by binary operators: each operand but the last has the operator that follows
it. -/
structure Chain where
  links : List (Operand × BinaryOp)
  last : Operand

namespace Access

def apply (object : Expr) : Access → Expr
  | .member property => .member object property
  | .index key => .index object key

end Access

namespace Operand

def expr (o : Operand) : Expr :=
  o.signs.foldr Expr.unary (o.accesses.foldl Access.apply o.primary)

end Operand

namespace Chain

/-- Joins `right` with the waiting left operands whose operators are at least of the rank, the
latest first. -/
def reduce (rank : Nat) : List (Expr × BinaryOp) → Expr → List (Expr × BinaryOp) × Expr
  | [], right => ([], right)
  | (left, op) :: waiting, right =>
    if rank ≤ op.rank then reduce rank waiting (.binary op left right)
    else ((left, op) :: waiting, right)

/-- Groups the links one by one. Of the left operands that still wait, the latest first, each
operator binds more tightly than those before it. -/
def group (waiting : List (Expr × BinaryOp)) : List (Expr × BinaryOp) → Expr → Expr
  | [], last => (reduce 0 waiting last).2
  | (operand, op) :: links, last =>
    let (waiting, left) := reduce op.rank waiting operand
    group ((left, op) :: waiting) links last

/-- The tree of a chain. -/
def expr (c : Chain) : Expr :=
  group [] (c.links.map fun (operand, op) => (operand.expr, op)) c.last.expr

end Chain
end Stencil
