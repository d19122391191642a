import Stencil.Expr.Grammar
import Stencil.Text.Blank
import Stencil.Text.Front

/-!
# Matching by ordered choice

The grammar is run with ordered choices and greedy repetitions. Beside the outcome, a run keeps a
trace: the furthest position at which a rule failed, and the rules to be expected there. The trace
is never undone and never decides anything.
-/

namespace Stencil.Grammar

/-- A place in the text: the number of characters before it, and those after it. -/
structure Cursor where
  position : Nat
  rest : List Char
deriving DecidableEq, Repr

/-- The furthest position at which a rule failed, and the rules that failed there. -/
structure Trace where
  furthest : Nat
  attempts : List Rule
deriving DecidableEq, Repr

/-- The place after a match, if there is one, and the trace so far. -/
abbrev Outcome := Option Cursor × Trace

namespace Cursor

def text? (s : String) (c : Cursor) : Option Cursor :=
  (Text.after? s.toList c.rest).map fun rest => ⟨c.position + s.length, rest⟩

def one? (set : CharSet) (c : Cursor) : Option Cursor :=
  match c.rest with
  | [] => none
  | char :: rest => if set.mem char then some ⟨c.position + 1, rest⟩ else none

/-- The place after the blanks that the spacing allows. -/
def gap (spacing : Spacing) (c : Cursor) : Cursor :=
  match spacing with
  | .loose => ⟨c.position + (c.rest.takeWhile Text.isGap).length, c.rest.dropWhile Text.isGap⟩
  | _ => c

end Cursor

namespace Trace

/-- The number of rules that failed at a position, as far as it is the furthest. -/
def countAt (t : Trace) (position : Nat) : Nat :=
  if position = t.furthest then t.attempts.length else 0

/-- Records that a rule failed at a position where `before` rules had failed when it was tried. If
just one rule inside it failed there, that rule stands for it; otherwise it stands for them. -/
def record (t : Trace) (r : Rule) (position before : Nat) : Trace :=
  if t.countAt position = before + 1 then t
  else if position = t.furthest then { t with attempts := t.attempts.take before ++ [r] }
  else if t.furthest < position then ⟨position, [r]⟩
  else t

end Trace

/-- Repeats a step as long as it matches, at most `limit` times. -/
def iterate (step : Cursor → Trace → Outcome) : Nat → Cursor → Trace → Outcome
  | 0, c, t => (some c, t)
  | limit + 1, c, t =>
    match step c t with
    | (some next, t) => iterate step limit next t
    | (none, t) => (some c, t)

/-- Matches a pattern, given how rules are tried. -/
def Pattern.run (attempt : Rule → Cursor → Trace → Outcome) (spacing : Spacing) :
    Pattern → Cursor → Trace → Outcome
  | .atStart, c, t => (if c.position = 0 then some c else none, t)
  | .atEnd, c, t => (if c.rest.isEmpty then some c else none, t)
  | .text s, c, t => (c.text? s, t)
  | .one set, c, t => (c.one? set, t)
  | .rule r, c, t => attempt r c t
  | .seq first second, c, t =>
    match first.run attempt spacing c t with
    | (some next, t) => second.run attempt spacing (next.gap spacing) t
    | (none, t) => (none, t)
  | .choice first second, c, t =>
    match first.run attempt spacing c t with
    | (some next, t) => (some next, t)
    | (none, t) => second.run attempt spacing c t
  | .optional inner, c, t =>
    match inner.run attempt spacing c t with
    | (some next, t) => (some next, t)
    | (none, t) => (some c, t)
  | .star inner, c, t =>
    match inner.run attempt spacing c t with
    | (some next, t) =>
      iterate (fun c t => inner.run attempt spacing (c.gap spacing) t) (next.rest.length + 1) next t
    | (none, t) => (some c, t)
  | .absent inner, c, t =>
    match inner.run attempt spacing c t with
    | (some _, t) => (none, t)
    | (none, t) => (some c, t)

/-- Matches a rule. Rules are nested at most `depth` deep, and inside a sealed rule failures are not
recorded. -/
def Rule.run : Nat → Spacing → Rule → Cursor → Trace → Outcome
  | 0, _, _, _, t => (none, t)
  | depth + 1, outer, r, c, t =>
    let spacing := if r.spacing = .loose then outer else r.spacing
    match r.body.run (Rule.run depth spacing) spacing c t with
    | (some next, after) => (some next, after)
    | (none, after) =>
      (none, if outer = .sealed then after else after.record r c.position (t.countAt c.position))

/-- The run of the whole grammar. Each level of brackets nests three rules and takes a character. -/
def run (source : List Char) : Outcome :=
  Rule.run (4 * source.length + 16) .loose .input ⟨0, source⟩ ⟨0, []⟩

/-- The text is an expression by the grammar. -/
def accepts (source : List Char) : Bool :=
  (run source).1.isSome

end Stencil.Grammar
