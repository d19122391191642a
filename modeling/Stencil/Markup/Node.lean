import Stencil.Markup.Event

/-!
# Markup trees

The events are gathered into a forest. A closing tag closes the latest open element with its name
and every element opened after that; without such an element it is ignored. Elements that are still
open at the end are closed there.
-/

namespace Stencil.Markup

inductive Node where
  | element (tag : String) (attrs : List Attribute) (selfClosing : Bool) (children : List Node)
  | text (value : String)
deriving BEq, Repr

namespace Node

/-- A run of text; white space alone counts as one blank. -/
def ofRun (run : String) : Node :=
  .text (if Text.isAllWhite run then " " else run)

def isBlank : Node → Bool
  | .text value => Text.isAllWhite value
  | .element .. => false

end Node

/-- An element whose closing tag is still to come, with its children so far. -/
structure OpenElement where
  tag : String
  attrs : List Attribute
  children : List Node

/-- The open elements, the innermost first, and the finished roots. -/
structure Forest where
  opened : List OpenElement
  roots : List Node

namespace OpenElement

/-- The element, ended by some more children. -/
def close (e : OpenElement) (more : List Node) : Node :=
  .element e.tag e.attrs false (e.children ++ more)

end OpenElement

namespace Forest

def empty : Forest := ⟨[], []⟩

/-- Adds a node to the innermost open element, or to the roots. -/
def push (f : Forest) (n : Node) : Forest :=
  match f.opened with
  | [] => ⟨[], f.roots ++ [n]⟩
  | e :: outer => ⟨{ e with children := e.children ++ [n] } :: outer, f.roots⟩

/-- Closes the open elements up to the first one with the tag. The innermost one ends with
`last`. -/
def closeThrough (tag : String) (roots : List Node) : List OpenElement → List Node → Forest
  | [], last => ⟨[], roots ++ last⟩
  | e :: outer, last =>
    if e.tag = tag then push ⟨outer, roots⟩ (e.close last)
    else closeThrough tag roots outer [e.close last]

/-- Closes all open elements. The innermost one ends with `last`. -/
def closeAll (roots : List Node) : List OpenElement → List Node → List Node
  | [], last => roots ++ last
  | e :: outer, last => closeAll roots outer [e.close last]

def step (f : Forest) : Event → Forest
  | .text run => f.push (.ofRun run)
  | .openTag tag attrs => ⟨⟨tag, attrs, []⟩ :: f.opened, f.roots⟩
  | .selfClosing tag attrs => f.push (.element tag attrs true [])
  | .closeTag tag =>
    if f.opened.any (·.tag = tag) then closeThrough tag f.roots f.opened [] else f

/-- The forest of a sequence of events. -/
def ofEvents (events : List Event) : List Node :=
  let f := events.foldl step empty
  closeAll f.roots f.opened []

end Forest

/-- The number of bytes of a text in UTF-8. -/
def byteLength : List Char → Nat
  | [] => 0
  | c :: cs => c.utf8Size + byteLength cs

/-- A fault and the number of bytes before the place that it is reported at. -/
structure MarkupError where
  offset : Nat
  fault : Fault
deriving DecidableEq, Repr

/-- The forest of a template. White space between the roots is dropped. -/
def parse (source : String) : Except MarkupError (List Node) :=
  let cs := source.toList
  match readEvents cs with
  | .error b => .error ⟨byteLength cs - byteLength b.rest, b.fault⟩
  | .ok events => .ok ((Forest.ofEvents events).filter fun n => !n.isBlank)

end Stencil.Markup
