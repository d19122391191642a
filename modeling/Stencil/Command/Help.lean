/-!
# Help

What the program and its commands are for, how they are used and what may be given to them, as
pages. A page has the purpose, the usage, and tables with a row for each command, argument and
option.
-/

namespace Stencil.Command

/-- Something that is written on the command line, and what it is for. -/
structure Row where
  term : String
  purpose : String
deriving DecidableEq, Repr

structure Page where
  purpose : String
  /-- What follows the name of the program. -/
  usage : String
  /-- Each table has a title. -/
  tables : List (String × List Row)
deriving DecidableEq, Repr

namespace Row

def config : Row :=
  ⟨"    --config <CONFIG>",
    "JSON compiler config (prefix, delimiters, unsafeDelimiters, scope, filterFn)"⟩

def verbose : Row := ⟨"-v, --verbose...", "More logging (-v debug, -vv trace)"⟩

def out : Row := ⟨"    --out <OUT>", "Output file (default: stdout)"⟩

def tree : Row := ⟨"    --tree", "Print the expression tree instead of code"⟩

def help : Row := ⟨"-h, --help", "Print help"⟩

def version : Row := ⟨"-V, --version", "Print version"⟩

/-- The line of a row whose term is filled up to the width. -/
def line (width : Nat) (r : Row) : String :=
  "  " ++ r.term ++ String.ofList (List.replicate (width - r.term.length) ' ') ++ "  " ++ r.purpose
    ++ "\n"

end Row

namespace Page

/-- The lines of a table, with the purposes below each other. -/
def table (title : String) (rows : List Row) : String :=
  let width := (rows.map (·.term.length)).foldl max 0
  "\n" ++ title ++ ":\n" ++ String.join (rows.map (·.line width))

def text (p : Page) : String :=
  p.purpose ++ "\n\nUsage: skein " ++ p.usage ++ "\n"
    ++ String.join (p.tables.map fun (title, rows) => table title rows)

end Page

inductive CommandName where
  | compile
  | expr
  | text
  | directive
deriving DecidableEq, Repr

namespace CommandName

def all : List CommandName := [.compile, .expr, .text, .directive]

def toString : CommandName → String
  | .compile => "compile"
  | .expr => "expr"
  | .text => "text"
  | .directive => "directive"

def ofString? (s : String) : Option CommandName :=
  all.find? (·.toString = s)

def purpose : CommandName → String
  | .compile => "Compile a template file into JSON descriptors"
  | .expr => "Compile a single binding expression"
  | .text => "Split text into literal and binding tokens"
  | .directive => "Compile one attribute into a directive descriptor"

/-- The values of the command, none of which may be left out. -/
def arguments : CommandName → List Row
  | .compile => [⟨"<INPUT>", "Path to the template"⟩]
  | .expr | .text => [⟨"<TEXT>", ""⟩]
  | .directive => [⟨"<NAME>", ""⟩, ⟨"<VALUE>", ""⟩]

/-- The options of this command alone. -/
def options : CommandName → List Row
  | .compile => [.out]
  | .expr => [.tree]
  | .text | .directive => []

end CommandName

/-- What a page is about. -/
inductive Topic where
  | program
  | command (name : CommandName)
  /-- The command that prints pages. -/
  | help
deriving DecidableEq, Repr

namespace Topic

def ofString? (s : String) : Option Topic :=
  if s = "help" then some .help else (CommandName.ofString? s).map .command

def helpPurpose : String := "Print this message or the help of the given subcommand(s)"

def page : Topic → Page
  | .program =>
    let commands := CommandName.all.map fun name => ⟨name.toString, name.purpose⟩
    { purpose := "Skein template compiler"
      usage := "[OPTIONS] <COMMAND>"
      tables :=
        [ ("Commands", commands ++ [⟨"help", helpPurpose⟩]),
          ("Options", [.config, .verbose, .help, .version]) ] }
  | .command name =>
    { purpose := name.purpose
      usage := String.intercalate " "
        (name.toString :: "[OPTIONS]" :: name.arguments.map (·.term))
      tables :=
        [ ("Arguments", name.arguments),
          ("Options", name.options ++ [.config, .verbose, .help]) ] }
  | .help =>
    { purpose := helpPurpose
      usage := "help [COMMAND]..."
      tables := [("Arguments", [⟨"[COMMAND]...", "Print help for the subcommand(s)"⟩])] }

end Topic
end Stencil.Command
