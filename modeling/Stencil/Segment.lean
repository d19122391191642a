import Stencil.Expr.Reader
import Stencil.Span

/-!
# Segments of a text

A text is cut into literal text and bindings. Line feeds are dropped first; a binding may be marked
as evaluated once by a leading star.
-/

namespace Stencil

/-- A binding: the source of its expression, and the span that it was written as. -/
structure Binding where
  value : String
  /-- The value is inserted without escaping. -/
  html : Bool
  /-- The value is inserted once and not followed. -/
  oneTime : Bool
  raw : String
deriving DecidableEq, Repr

inductive Segment where
  | text (value : String)
  | binding (binding : Binding)
deriving DecidableEq, Repr

namespace Segment

/-- The text that the segment was cut from. -/
def source : Segment → String
  | .text value => value
  | .binding b => b.raw

def binding? : Segment → Option Binding
  | .text _ => none
  | .binding b => some b

/-- The expression of a segment; a literal text is a string. -/
def expr : Segment → Except ExpressionError Expr
  | .text value => .ok (.literal (.string value))
  | .binding b => Expr.read b.value

/-- The expression of a whole text: a single segment is taken as it is, several are joined. -/
def merge (segments : List Segment) : Except ExpressionError Expr :=
  (segments.mapM expr).map fun
    | [part] => part
    | parts => .concat parts

end Segment

/-- The star and what follows it in the inside of a span. -/
def oneTimeMark (inner : List Char) : Bool × List Char :=
  match inner with
  | '*' :: rest => (true, rest)
  | _ => (false, inner)

namespace Markers

/-- The trimmed text is the raw opening marker, characters other than a line feed, and the raw
closing marker. -/
def isRawSpan (m : Markers) (cs : List Char) : Bool :=
  match Text.after? m.raw.opener.toList (Text.trimChars cs) with
  | none => false
  | some rest =>
    match Text.before? m.raw.closer.toList rest with
    | none => false
    | some inner => !inner.contains '\n'

/-- The binding that a span is. -/
def binding (m : Markers) (s : Span) : Binding :=
  let source := m.source s
  let mark := oneTimeMark s.inner
  { value := String.ofList (Text.trimChars mark.2)
    html := s.isRaw && m.isRawSpan source
    oneTime := mark.1
    raw := String.ofList source }

def segment (m : Markers) : Piece → Segment
  | .literal chars => .text (String.ofList chars)
  | .span s => .binding (m.binding s)

/-- The segments of a text; an empty text is one empty segment. -/
def scan (m : Markers) (text : String) : List Segment :=
  match m.pieces (text.toList.filter (· != '\n')) with
  | [] => [.text ""]
  | pieces => pieces.map m.segment

/-- The text holds a span. -/
def hasInterpolation (m : Markers) (text : String) : Bool :=
  m.hasSpan text.toList

end Markers
end Stencil
