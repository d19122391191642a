import Stencil.Config

/-!
# Directives and bound attributes

An attribute is bound if its value holds an interpolation, and is a directive if its name starts
with the prefix: `prefix-kind` or `prefix-kind:arg|arg`. It cannot be both.
-/

namespace Stencil

/-- What an attribute compiles to. -/
structure Descriptor where
  name : String
  value : String
  directive : String
  args : List String
  oneTime : Bool
  html : Bool
  /-- The code of the tree. -/
  expression : String
  tree : Expr
  isInterpolation : Bool

/-- Why an attribute does not compile. -/
inductive DirectiveError where
  | notDirective (name directivePrefix : String)
  | mixed (name value : String)
  | expression (name : String) (cause : ExpressionError)
deriving DecidableEq, Repr

namespace DirectiveError

def message : DirectiveError → String
  | .notDirective name directivePrefix =>
    "attribute `" ++ name ++ "` is not a `" ++ directivePrefix ++ "-` directive"
  | .mixed name value =>
    "directive `" ++ name ++ "` must not contain interpolation, found `" ++ value ++ "`"
  | .expression name cause => "attribute `" ++ name ++ "`: " ++ cause.message

end DirectiveError

/-- The kind and the arguments in the name of a directive. -/
def splitKind (kind : List Char) : String × List String :=
  let directive := String.ofList (kind.takeWhile (· != ':'))
  match kind.dropWhile (· != ':') with
  | [] | [_] => (directive, [])
  | _ :: args => (directive, (args.splitOn '|').map String.ofList)

namespace Config

/-- What follows the prefix in the name of a directive, up to an equals sign. -/
def kind? (c : Config) (name : String) : Option (List Char) :=
  match Text.after? (c.directivePrefix.toList ++ ['-']) name.toList with
  | none => none
  | some rest =>
    match rest.takeWhile (· != '=') with
    | [] => none
    | kind => some kind

def isDirectiveName (c : Config) (name : String) : Bool :=
  (c.kind? name).isSome

def hasInterpolation (c : Config) (text : String) : Bool :=
  c.markers.hasInterpolation text

def scan (c : Config) (text : String) : List Segment :=
  c.markers.scan text

def compileExpr (c : Config) (text : String) : Except ExpressionError String :=
  Expr.compile c.style text

/-- The descriptor of an attribute whose value holds an interpolation. -/
def describeInterpolation (c : Config) (name value : String) : Except DirectiveError Descriptor :=
  let segments := c.scan value
  let bindings := segments.filterMap Segment.binding?
  match Segment.merge segments with
  | .error cause => .error (.expression name cause)
  | .ok tree =>
    .ok
      { name, value, tree
        directive := "bind"
        args := [name]
        oneTime := !bindings.isEmpty && bindings.all (·.oneTime)
        html := bindings.any (·.html)
        expression := tree.code c.style
        isInterpolation := true }

/-- The descriptor of a directive. -/
def describeDirective (c : Config) (name value : String) : Except DirectiveError Descriptor :=
  let mismatch := Except.error (DirectiveError.notDirective name c.directivePrefix)
  match (c.kind? name).map splitKind with
  | none => mismatch
  | some (directive, args) =>
    if directive = "" then mismatch
    else
      match Expr.read value with
      | .error cause => .error (.expression name cause)
      | .ok tree =>
        .ok
          { name, value, directive, args, tree
            oneTime := false
            html := false
            expression := tree.code c.style
            isInterpolation := false }

/-- The descriptor of an attribute. -/
def describe (c : Config) (name value : String) : Except DirectiveError Descriptor :=
  if c.hasInterpolation value then
    if c.isDirectiveName name then .error (.mixed name value)
    else c.describeInterpolation name value
  else c.describeDirective name value

end Config
end Stencil
