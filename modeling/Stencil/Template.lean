import Stencil.Directive
import Stencil.Markup.Node

/-!
# Compiled templates

Every directive, bound attribute and text of a template is compiled in document order, the
attributes of an element before its children. The first one that fails is the error.
-/

namespace Stencil

open Markup (Attribute Node MarkupError)

/-- A segment with the code of its binding. -/
structure CompiledSegment where
  segment : Segment
  expression : Option String
deriving DecidableEq, Repr

inductive CompiledNode where
  /-- The attributes are those that are neither directives nor bound. -/
  | element (tag : String) (attrs : List Attribute) (directives : List Descriptor)
      (children : List CompiledNode)
  | text (segments : List CompiledSegment)

/-- Why a template does not compile. -/
inductive TemplateError where
  | markup (error : MarkupError)
  | attribute (tag : String) (cause : DirectiveError)
  | text (source : String) (cause : ExpressionError)
deriving DecidableEq, Repr

namespace TemplateError

def message : TemplateError → String
  | .markup error =>
    "template syntax error at byte " ++ toString error.offset ++ ": " ++ error.fault.message
  | .attribute tag cause => "<" ++ tag ++ "> " ++ cause.message
  | .text source cause => "text `" ++ source ++ "`: " ++ cause.message

end TemplateError

namespace Config

/-- The attribute is a directive or bound. -/
def isDynamic (c : Config) (a : Attribute) : Bool :=
  c.isDirectiveName a.name || c.hasInterpolation (a.value.getD "")

/-- The attributes that stay as they are, and the descriptors of the others. -/
def compileAttributes (c : Config) (tag : String) :
    List Attribute → Except TemplateError (List Attribute × List Descriptor)
  | [] => .ok ([], [])
  | a :: attrs =>
    if c.isDynamic a then
      match c.describe a.name (a.value.getD "") with
      | .error cause => .error (.attribute tag cause)
      | .ok d => (compileAttributes c tag attrs).map fun (rest, ds) => (rest, d :: ds)
    else (compileAttributes c tag attrs).map fun (rest, ds) => (a :: rest, ds)

def compileSegment (c : Config) (s : Segment) : Except ExpressionError CompiledSegment :=
  match s with
  | .text _ => .ok ⟨s, none⟩
  | .binding b => (c.compileExpr b.value).map fun code => ⟨s, some code⟩

def compileText (c : Config) (text : String) : Except TemplateError CompiledNode :=
  match (c.scan text).mapM c.compileSegment with
  | .error cause => .error (.text text cause)
  | .ok segments => .ok (.text segments)

mutual

def compileNode (c : Config) : Node → Except TemplateError CompiledNode
  | .text text => c.compileText text
  | .element tag attrs _ children =>
    match c.compileAttributes tag attrs with
    | .error e => .error e
    | .ok (attrs, directives) => (compileNodes c children).map (.element tag attrs directives)

def compileNodes (c : Config) : List Node → Except TemplateError (List CompiledNode)
  | [] => .ok []
  | n :: ns =>
    match compileNode c n with
    | .error e => .error e
    | .ok compiled => (compileNodes c ns).map (compiled :: ·)

end

/-- Reads and compiles a template. -/
def compileTemplate (c : Config) (source : String) : Except TemplateError (List CompiledNode) :=
  match Markup.parse source with
  | .error e => .error (.markup e)
  | .ok nodes => c.compileNodes nodes

end Config
end Stencil
