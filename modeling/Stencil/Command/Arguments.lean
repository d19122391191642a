import Stencil.Command.Help

/-!
# Command-line arguments

    compile INPUT [--out PATH]      expr TEXT [--tree]
    text TEXT                       directive NAME VALUE
    help [COMMAND]

`--config PATH` and `-v`, `--verbose` may stand before or after the name of the command; of two
paths, one on each side, the one after it counts. `--help`, `-h` stand on either side too, and ask
for the page of what they stand behind; `--version`, `-V` stand before the name. `--` ends the
options.

The arguments are read from the left, and the first one that is not used as it should be, or that
asks for a text of the program itself, ends the reading.
-/

namespace Stencil.Command

/-- What a command does. -/
inductive Action where
  | compile (input : String) (out : Option String)
  | expr (source : String) (tree : Bool)
  | text (source : String)
  | directive (name value : String)
deriving DecidableEq, Repr

structure Invocation where
  config : Option String
  action : Action
deriving DecidableEq, Repr

inductive Request where
  /-- A text of the program itself: its version, or a page of help. -/
  | notice (text : String)
  | invoke (invocation : Invocation)
deriving DecidableEq, Repr

/-- An argument by its form. -/
inductive Argument where
  /-- `--`, after which there are no options. -/
  | separator
  /-- `--name` or `--name=value`. -/
  | long (name : String) (value : Option String)
  /-- `-` and letters. -/
  | short (letters : List Char)
  | plain (text : String)
deriving DecidableEq, Repr

def Argument.ofString (s : String) : Argument :=
  match s.toList with
  | ['-', '-'] => .separator
  | '-' :: '-' :: rest =>
    let name := String.ofList (rest.takeWhile (· != '='))
    match rest.dropWhile (· != '=') with
    | [] => .long name none
    | _ :: value => .long name (some (String.ofList value))
  | '-' :: c :: rest => .short (c :: rest)
  | _ => .plain s

/-- Options that take a path. -/
inductive PathOption where
  | config
  | out
deriving DecidableEq, Repr

/-- What the next argument is read as. -/
inductive Expecting where
  | any
  /-- The path of an option. -/
  | path (option : PathOption)
  /-- A value, whatever its form. -/
  | value
  /-- The name of a page of help; without a name, the page is this one. -/
  | topic (topic : Topic)
deriving DecidableEq, Repr

/-- What `--version` prints. -/
def versionText : String := "skein 0.1.0\n"

/-- Why reading stops before the end. -/
inductive Stop where
  | usage
  | notice (text : String)
deriving DecidableEq, Repr

/-- The arguments read so far. -/
structure Scan where
  name : Option CommandName := none
  /-- The path of `--config` before the name of the command. If it may not be given there, this
  counts only once all arguments are read. -/
  outerConfig : Except Stop (Option String) := .ok none
  /-- The path of `--config` on this side of the name of the command. -/
  config : Option String := none
  /-- A path of `--config` that was an argument by itself, before the name of the command: it is
  taken up by the next option or with the name. -/
  held : Option String := none
  out : Option String := none
  tree : Bool := false
  /-- The values after the name of the command. -/
  values : List String := []
  expecting : Expecting := .any

namespace Scan

/-- Sets the path of an option, which may be given once and not empty. -/
def setPath (s : Scan) (option : PathOption) (path : String) : Except Stop Scan :=
  if path = "" then .error .usage
  else
    match option with
    | .config =>
      if s.config.isSome then .error .usage
      else .ok { s with config := some path, expecting := .any }
    | .out =>
      if s.out.isSome then .error .usage
      else .ok { s with out := some path, expecting := .any }

/-- Takes up the path that is held. -/
def settle (s : Scan) : Except Stop Scan :=
  match s.name, s.held with
  | none, some path => { s with held := none }.setPath .config path
  | _, _ => .ok s

/-- The path of an option as an argument by itself. -/
def nextPath (s : Scan) (option : PathOption) (path : String) : Except Stop Scan :=
  match option, s.name with
  | .config, none => .ok { s with held := some path, expecting := .any }
  | _, _ => s.setPath option path

/-- An option with a path, which may follow an equals sign or be the next argument. -/
def pathOption (s : Scan) (option : PathOption) : Option String → Except Stop Scan
  | some path => s.setPath option path
  | none => .ok { s with expecting := .path option }

/-- The page that an option asks for here. -/
def topic (s : Scan) : Topic :=
  match s.name with
  | none => .program
  | some name => .command name

def long (s : Scan) (name : String) (value : Option String) : Except Stop Scan :=
  if name = "config" then s.pathOption .config value
  else if name = "out" ∧ s.name = some .compile then s.pathOption .out value
  else if value.isSome then .error .usage
  else if name = "verbose" then .ok s
  else if name = "tree" ∧ s.name = some .expr ∧ s.tree = false then .ok { s with tree := true }
  else if name = "help" then .error (.notice s.topic.page.text)
  else if name = "version" ∧ s.name = none then .error (.notice versionText)
  else .error .usage

def short (s : Scan) : List Char → Except Stop Scan
  | [] => .ok s
  | 'v' :: letters => s.short letters
  | 'h' :: _ => .error (.notice s.topic.page.text)
  | 'V' :: _ => .error (if s.name = none then .notice versionText else .usage)
  | _ => .error .usage

/-- A value of the command, which takes so many of them; the path of a template is not empty. -/
def value (s : Scan) (name : CommandName) (text : String) : Except Stop Scan :=
  if s.values.length = name.arguments.length ∨ name = .compile ∧ text = "" then .error .usage
  else .ok { s with values := s.values ++ [text] }

/-- A value: the name of the command, or one of its values. -/
def plain (s : Scan) (text : String) : Except Stop Scan :=
  match s.name with
  | some name => s.value name text
  | none =>
    if text = "help" then .ok { s with expecting := .topic .program }
    else
      match CommandName.ofString? text with
      | some name =>
        .ok { s with name := some name, outerConfig := s.settle.map (·.config), config := none }
      | none => .error .usage

def step (s : Scan) (arg : String) : Except Stop Scan :=
  match s.expecting, Argument.ofString arg with
  | .value, _ => if s.name.isSome then s.plain arg else .error .usage
  | .topic .program, _ =>
    match Topic.ofString? arg with
    | some topic => .ok { s with expecting := .topic topic }
    | none => .error .usage
  | .topic _, _ => .error .usage
  | .path option, .plain path => s.nextPath option path
  | .path _, _ => .error .usage
  | .any, .separator => .ok { s with expecting := .value }
  | .any, .long name value => s.settle.bind (·.long name value)
  | .any, .short letters => s.settle.bind (·.short letters)
  | .any, .plain text => s.plain text

/-- The action of the values, which have to be as many as the command takes. -/
def action? (s : Scan) : Option Action :=
  match s.name, s.values with
  | some .compile, [input] => some (.compile input s.out)
  | some .expr, [text] => some (.expr text s.tree)
  | some .text, [text] => some (.text text)
  | some .directive, [name, value] => some (.directive name value)
  | _, _ => none

def finish (s : Scan) : Option Request :=
  match s.expecting, s.outerConfig with
  | .topic topic, _ => some (.notice topic.page.text)
  | .path _, _ | _, .error _ => none
  | _, .ok outer => s.action?.map fun action => .invoke ⟨s.config.or outer, action⟩

end Scan

/-- What the arguments ask for; absent if they are not used as they should. -/
def Request.parse (args : List String) : Option Request :=
  match args.foldlM Scan.step {} with
  | .ok s => s.finish
  | .error (.notice text) => some (.notice text)
  | .error .usage => none

end Stencil.Command
