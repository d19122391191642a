import Stencil.Expr.Match

/-!
# Reports on malformed expressions

A report shows the line of the furthest failure, marks the place and lists the rules that were
expected there.
-/

namespace Stencil.Grammar

/-- Alternatives as a phrase: `a`, `a or b`, `a, b, or c`. -/
def alternatives : List String → String
  | [] => ""
  | [a] => a
  | [a, b] => a ++ " or " ++ b
  | labels => String.intercalate ", " labels.dropLast ++ ", or " ++ labels.getLastD ""

/-- The line that holds a position, with line ends shown if the position is at one and removed
otherwise. -/
def shownLine (before after : List Char) : List Char :=
  let start := (before.reverse.takeWhile (· != '\n')).reverse
  let line := start ++ after.takeWhile (· != '\n') ++ (after.dropWhile (· != '\n')).take 1
  if after.head? = some '\n' ∨ after.head? = some '\r' then
    line.map fun c => if c = '\r' then '␍' else if c = '\n' then '␊' else c
  else line.filter fun c => c != '\r' && c != '\n'

/-- The report on a failure at a position, where the rules were expected. -/
def report (source : List Char) (t : Trace) : String :=
  let before := source.take t.furthest
  let lineNumber := toString (1 + before.count '\n')
  let offset := (before.reverse.takeWhile (· != '\n')).length
  let line := shownLine before (source.drop t.furthest)
  let mark := (line.take offset).map fun c => if c = '\t' then '\t' else ' '
  let indent := String.ofList (List.replicate lineNumber.length ' ')
  let expected := (Rule.all.filter (t.attempts.contains ·)).map Rule.label
  String.intercalate "\n"
    [ indent ++ "--> " ++ lineNumber ++ ":" ++ toString (1 + offset),
      indent ++ " |",
      lineNumber ++ " | " ++ String.ofList line,
      indent ++ " | " ++ String.ofList mark ++ "^---",
      indent ++ " |",
      indent ++ " = expected " ++ alternatives expected ]

/-- The report on a text that the grammar does not accept. -/
def explain (source : List Char) : String :=
  report source (run source).2

end Stencil.Grammar
