/-!
# JSON values

Objects keep their members in order, and numbers are kept as they are written. The two written
forms are the compact one and the indented one.
-/

namespace Stencil

inductive Json where
  | null
  | bool (value : Bool)
  | number (numeral : String)
  | string (value : String)
  | array (items : List Json)
  | object (members : List (String × Json))
deriving BEq, Repr

namespace Json

/-- A character as it stands between double quotes. -/
def escape (c : Char) : List Char :=
  if c = '"' then ['\\', '"']
  else if c = '\\' then ['\\', '\\']
  else if c = '\x08' then ['\\', 'b']
  else if c = '\x0c' then ['\\', 'f']
  else if c = '\n' then ['\\', 'n']
  else if c = '\r' then ['\\', 'r']
  else if c = '\t' then ['\\', 't']
  else if c.toNat < 0x20 then
    '\\' :: 'u' :: '0' :: '0' :: [Nat.digitChar (c.toNat / 16), Nat.digitChar (c.toNat % 16)]
  else [c]

def quote (s : String) : String :=
  String.ofList ('"' :: (s.toList.flatMap escape ++ ['"']))

mutual

/-- The written form without blanks. -/
def compact : Json → String
  | .null => "null"
  | .bool value => if value then "true" else "false"
  | .number numeral => numeral
  | .string value => quote value
  | .array items => "[" ++ String.intercalate "," (compactItems items) ++ "]"
  | .object members => "\x7b" ++ String.intercalate "," (compactMembers members) ++ "\x7d"

def compactItems : List Json → List String
  | [] => []
  | item :: items => compact item :: compactItems items

def compactMembers : List (String × Json) → List String
  | [] => []
  | (key, value) :: members => (quote key ++ ":" ++ compact value) :: compactMembers members

end

/-- The blanks before a line at a depth. -/
def indent (depth : Nat) : String :=
  String.ofList (List.replicate (2 * depth) ' ')

/-- Lines between brackets at a depth; nothing stands between the brackets of an empty value. -/
def block (opener closer : String) (depth : Nat) (lines : List String) : String :=
  match lines with
  | [] => opener ++ closer
  | _ =>
    opener ++ "\n" ++ String.intercalate ",\n" (lines.map (indent (depth + 1) ++ ·)) ++ "\n"
      ++ indent depth ++ closer

mutual

/-- The written form with one item or member a line, at a depth. -/
def prettyAt (depth : Nat) : Json → String
  | .null => "null"
  | .bool value => if value then "true" else "false"
  | .number numeral => numeral
  | .string value => quote value
  | .array items => block "[" "]" depth (prettyItems (depth + 1) items)
  | .object members => block "\x7b" "\x7d" depth (prettyMembers (depth + 1) members)

def prettyItems (depth : Nat) : List Json → List String
  | [] => []
  | item :: items => prettyAt depth item :: prettyItems depth items

def prettyMembers (depth : Nat) : List (String × Json) → List String
  | [] => []
  | (key, value) :: members =>
    (quote key ++ ": " ++ prettyAt depth value) :: prettyMembers depth members

end

/-- The written form with one item or member a line. -/
def pretty (j : Json) : String := prettyAt 0 j

end Json
end Stencil
