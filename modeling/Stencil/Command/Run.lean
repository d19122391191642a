import Stencil.Artifact
import Stencil.Command.Arguments
import Stencil.Command.Files

/-!
# Running commands

A run writes at most one file, and only after everything else has succeeded; what it prints is
printed at the end.
-/

namespace Stencil.Command

/-- Why a command fails. -/
inductive Failure where
  | unreadable (path : String)
  | invalidConfig (path : String) (cause : ConfigError)
  | template (path : String) (cause : TemplateError)
  | attribute (name : String) (cause : DirectiveError)
  | expression (cause : ExpressionError)
  | notCreated (dir : String)
  | notWritten (path : String)
deriving DecidableEq, Repr

namespace Failure

def message : Failure → String
  | .unreadable path => "failed to read " ++ path
  | .invalidConfig path _ => "invalid config " ++ path
  | .template path _ => "failed to compile " ++ path
  | .attribute name _ => "failed to compile attribute " ++ name
  | .expression cause => cause.message
  | .notCreated dir => "failed to create " ++ dir
  | .notWritten path => "failed to write " ++ path

/-- What led to the failure, if the message does not say it. -/
def cause? : Failure → Option String
  | .invalidConfig _ cause => some cause.message
  | .template _ cause => some cause.message
  | .attribute _ cause => some cause.message
  | _ => none

end Failure

/-- The result of a run: exit code and printed text, and the failure behind exit code 1. -/
structure Outcome where
  exitCode : UInt32
  stdout : String
  failure : Option Failure

variable {m : Type → Type} [Monad m] [FileStore m]

/-- The configuration of a file, or the default one. -/
def loadConfig (path : Option String) : ExceptT Failure m Config := do
  match path with
  | none => return Config.default
  | some path =>
    match ← FileStore.readText? path with
    | none => throw (.unreadable path)
    | some source =>
      match Config.read source with
      | .error cause => throw (.invalidConfig path cause)
      | .ok c => return c

/-- Writes a file, in a directory that is created if needed. -/
def save (path text : String) : ExceptT Failure m Unit := do
  let dir := (Path.parent? path).getD ""
  unless dir = "" do
    unless ← FileStore.createDirs dir do
      throw (.notCreated dir)
  unless ← FileStore.writeText path text do
    throw (.notWritten path)

/-- The compiled template of a file, as JSON. -/
def compileFile (c : Config) (input : String) : ExceptT Failure m String := do
  match ← FileStore.readText? input with
  | none => throw (.unreadable input)
  | some source =>
    match c.compileTemplate source with
    | .error cause => throw (.template input cause)
    | .ok nodes => return (Json.array (nodes.map CompiledNode.toJson)).pretty

def orFail {ε α : Type} (f : ε → Failure) : Except ε α → ExceptT Failure m α
  | .ok a => return a
  | .error e => throw (f e)

/-- The text that an action produces. -/
def Action.perform (c : Config) : Action → ExceptT Failure m String
  | .compile input out => do
    let json ← compileFile c input
    match out with
    | none => return json
    | some path => do
      save path json
      return json
  | .expr source tree => do
    let e ← orFail .expression (Expr.read source)
    return if tree then e.toJson.pretty else e.code c.style
  | .text source => return (Json.array ((c.scan source).map Segment.toJson)).pretty
  | .directive name value => do
    let d ← orFail (.attribute name) (c.describe name value)
    return d.toJson.pretty

/-- The text that an action prints: none if it was written to a file. -/
def Action.printed : Action → String → String
  | .compile _ (some _), _ => ""
  | _, output => output ++ "\n"

/-- Loads the configuration, then performs the action. -/
def Invocation.perform (i : Invocation) : ExceptT Failure m String := do
  let c ← loadConfig i.config
  i.action.perform c

/-- Does what is asked for. -/
def answer : Option Request → m Outcome
  | none => return ⟨2, "", none⟩
  | some (.notice text) => return ⟨0, text, none⟩
  | some (.invoke i) => do
    match ← i.perform.run with
    | .error failure => return ⟨1, "", some failure⟩
    | .ok text => return ⟨0, i.action.printed text, none⟩

/-- Runs the program with a reader of its arguments. -/
def runWith (read : List String → Option Request) (args : List String) : m Outcome :=
  answer (read args)

/-- Runs the program on its arguments. -/
def run (args : List String) : m Outcome :=
  runWith Request.parse args

end Stencil.Command
