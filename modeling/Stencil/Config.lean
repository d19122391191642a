import Stencil.Json.Reader
import Stencil.Segment

/-!
# Configuration

The names and markers that templates are written with. A configuration is written as a JSON object
with five members; a document may leave members out, or list the values alone in the order of the
members.
-/

namespace Stencil

structure Config where
  /-- The name of a directive starts with this text and a dash. -/
  directivePrefix : String
  delimiters : Delimiters
  rawDelimiters : Delimiters
  scope : String
  filterFn : String
deriving DecidableEq, Repr

/-- A pair of markers, as it is named in messages. -/
inductive MarkerPair where
  | safe
  | raw
deriving DecidableEq, Repr

inductive MarkerSide where
  | opener
  | closer
deriving DecidableEq, Repr

/-- What is wrong with a configuration. -/
inductive ConfigError where
  /-- The document is not the JSON form of a configuration. -/
  | unreadable
  | emptyPrefix
  | invalidPrefix (text : String)
  | emptyMarker (pair : MarkerPair) (side : MarkerSide)
  | indistinctMarkers (pair : Delimiters)
  | emptyScope
  | emptyFilterFn
deriving DecidableEq, Repr

namespace ConfigError

/-- What is said to the user. For an unreadable document the words behind the colon are free: they
are those of whatever reads the JSON. -/
def message : ConfigError → String
  | .unreadable => "invalid config document: not the JSON form of a config"
  | .emptyPrefix => "directive prefix must not be empty"
  | .invalidPrefix text =>
    "directive prefix `" ++ text ++ "` must not contain whitespace or `=`"
  | .emptyMarker pair side =>
    (match pair with | .safe => "safe" | .raw => "unsafe") ++ " delimiters have an empty "
      ++ (match side with | .opener => "open" | .closer => "close") ++ " marker"
  | .indistinctMarkers pair =>
    "safe and unsafe delimiters must differ, both are `" ++ pair.opener ++ "` ... `" ++ pair.closer
      ++ "`"
  | .emptyScope => "scope name must not be empty"
  | .emptyFilterFn => "filter function must not be empty"

end ConfigError

namespace Config

def default : Config where
  directivePrefix := "sk"
  delimiters := ⟨"\x7b\x7b", "\x7d\x7d"⟩
  rawDelimiters := ⟨"\x7b\x7b\x7b", "\x7d\x7d\x7d"⟩
  scope := "_scope"
  filterFn := "_that.applyFilter"

instance : Inhabited Config := ⟨default⟩

def markers (c : Config) : Markers := ⟨c.delimiters, c.rawDelimiters⟩

def style (c : Config) : CodeStyle := ⟨c.scope, c.filterFn⟩

/-- The first rule that a configuration breaks. -/
def fault? (c : Config) : Option ConfigError :=
  if c.directivePrefix = "" then some .emptyPrefix
  else if c.directivePrefix.toList.any fun ch => Text.isWhite ch || ch == '=' then
    some (.invalidPrefix c.directivePrefix)
  else if c.delimiters.opener = "" then some (.emptyMarker .safe .opener)
  else if c.delimiters.closer = "" then some (.emptyMarker .safe .closer)
  else if c.rawDelimiters.opener = "" then some (.emptyMarker .raw .opener)
  else if c.rawDelimiters.closer = "" then some (.emptyMarker .raw .closer)
  else if c.delimiters = c.rawDelimiters then some (.indistinctMarkers c.delimiters)
  else if Text.isAllWhite c.scope then some .emptyScope
  else if Text.isAllWhite c.filterFn then some .emptyFilterFn
  else none

/-- The configuration itself, if it breaks no rule. -/
def checked (c : Config) : Except ConfigError Config :=
  match c.fault? with
  | some fault => .error fault
  | none => .ok c

/-- The names of the members, in order. -/
def keys : List String := ["prefix", "delimiters", "unsafeDelimiters", "scope", "filterFn"]

def toJson (c : Config) : Json :=
  let pair (d : Delimiters) : Json := .array [.string d.opener, .string d.closer]
  .object
    [ ("prefix", .string c.directivePrefix),
      ("delimiters", pair c.delimiters),
      ("unsafeDelimiters", pair c.rawDelimiters),
      ("scope", .string c.scope),
      ("filterFn", .string c.filterFn) ]

/-- The configuration with one member set. -/
def set? (c : Config) (key : String) (value : Json) : Option Config :=
  match value with
  | .string s =>
    if key = "prefix" then some { c with directivePrefix := s }
    else if key = "scope" then some { c with scope := s }
    else if key = "filterFn" then some { c with filterFn := s }
    else none
  | .array [.string opener, .string closer] =>
    if key = "delimiters" then some { c with delimiters := ⟨opener, closer⟩ }
    else if key = "unsafeDelimiters" then some { c with rawDelimiters := ⟨opener, closer⟩ }
    else none
  | _ => none

/-- The default configuration with some members set, each at most once. -/
def ofMembers? (members : List (String × Json)) : Option Config :=
  if (members.map Prod.fst).Nodup then
    members.foldlM (fun c (key, value) => c.set? key value) default
  else none

def ofJson? : Json → Option Config
  | .object members => ofMembers? members
  | .array items => if items.length ≤ keys.length then ofMembers? (keys.zip items) else none
  | _ => none

/-- The configuration of a JSON document. Its rules are checked once the document is read. -/
def read (source : String) : Except ConfigError Config :=
  match (Json.parse? source).bind ofJson? with
  | some c => c.checked
  | none => .error .unreadable

end Config
end Stencil
