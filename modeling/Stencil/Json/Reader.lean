import Stencil.Json.Basic

/-!
# Reading JSON

Strict JSON: no comments, no trailing commas, no raw control characters in strings, no lone
surrogates, and nothing but blanks around the value.
-/

namespace Stencil.Json

def isBlank (c : Char) : Bool :=
  c == ' ' || c == '\t' || c == '\n' || c == '\r'

def skip (cs : List Char) : List Char := cs.dropWhile isBlank

/-- The value of a hexadecimal digit. -/
def hexDigit? (c : Char) : Option Nat :=
  if '0' ≤ c ∧ c ≤ '9' then some (c.toNat - '0'.toNat)
  else if 'a' ≤ c ∧ c ≤ 'f' then some (c.toNat - 'a'.toNat + 10)
  else if 'A' ≤ c ∧ c ≤ 'F' then some (c.toNat - 'A'.toNat + 10)
  else none

def hexFour? (a b c d : Char) : Option Nat := do
  return ((← hexDigit? a) * 16 + (← hexDigit? b)) * 256 + ((← hexDigit? c) * 16 + (← hexDigit? d))

/-- The character of an escape of one letter. -/
def unescape? (c : Char) : Option Char :=
  if c = '"' ∨ c = '\\' ∨ c = '/' then some c
  else if c = 'b' then some '\x08'
  else if c = 'f' then some '\x0c'
  else if c = 'n' then some '\n'
  else if c = 'r' then some '\r'
  else if c = 't' then some '\t'
  else none

def isHighSurrogate (n : Nat) : Bool := 0xD800 ≤ n && n < 0xDC00

def isLowSurrogate (n : Nat) : Bool := 0xDC00 ≤ n && n < 0xE000

/-- The character that four hexadecimal digits stand for, and what follows. A high surrogate needs
a low one after it. -/
def readHex? : List Char → Option (Char × List Char)
  | a :: b :: c :: d :: rest => do
    let n ← hexFour? a b c d
    if isLowSurrogate n then none
    else if isHighSurrogate n then
      match rest with
      | '\\' :: 'u' :: a :: b :: c :: d :: rest =>
        let low ← hexFour? a b c d
        if isLowSurrogate low then
          some (Char.ofNat (0x10000 + (n - 0xD800) * 0x400 + (low - 0xDC00)), rest)
        else none
      | _ => none
    else some (Char.ofNat n, rest)
  | _ => none

/-- The character at the front of the inside of a string, and what follows. -/
def readChar? : List Char → Option (Char × List Char)
  | '\\' :: 'u' :: rest => readHex? rest
  | '\\' :: c :: rest => (unescape? c).map (·, rest)
  | c :: rest => if c.toNat < 0x20 ∨ c = '\\' then none else some (c, rest)
  | [] => none

/-- Reads up to the closing quote, at most `limit` characters. -/
def readString : Nat → List Char → Option (List Char × List Char)
  | 0, _ => none
  | limit + 1, cs =>
    match cs with
    | '"' :: rest => some ([], rest)
    | _ => do
      let (c, rest) ← readChar? cs
      let (text, after) ← readString limit rest
      return (c :: text, after)

def readDigits (cs : List Char) : List Char × List Char :=
  (cs.takeWhile Char.isDigit, cs.dropWhile Char.isDigit)

/-- The whole part of a number: no leading zeros. -/
def readWhole? (cs : List Char) : Option (List Char × List Char) :=
  match cs with
  | '0' :: rest => some (['0'], rest)
  | _ =>
    match readDigits cs with
    | ([], _) => none
    | digits => some digits

/-- A mark and the digits that have to follow it, if the mark is there. -/
def readFraction? (cs : List Char) : Option (List Char × List Char) :=
  match cs with
  | '.' :: rest =>
    match readDigits rest with
    | ([], _) => none
    | (digits, after) => some ('.' :: digits, after)
  | _ => some ([], cs)

def readExponent? (cs : List Char) : Option (List Char × List Char) :=
  match cs with
  | mark :: rest =>
    if mark = 'e' ∨ mark = 'E' then
      let (sign, rest) := match rest with
        | '+' :: rest => (['+'], rest)
        | '-' :: rest => (['-'], rest)
        | _ => ([], rest)
      match readDigits rest with
      | ([], _) => none
      | (digits, after) => some (mark :: (sign ++ digits), after)
    else some ([], cs)
  | [] => some ([], cs)

def readNumber? (cs : List Char) : Option (Json × List Char) := do
  let (sign, rest) := match cs with
    | '-' :: rest => (['-'], rest)
    | _ => ([], cs)
  let (whole, rest) ← readWhole? rest
  let (fraction, rest) ← readFraction? rest
  let (exponent, rest) ← readExponent? rest
  return (.number (String.ofList (sign ++ whole ++ fraction ++ exponent)), rest)

mutual

/-- Reads a value; `limit` bounds the number of nested calls. -/
def readValue : Nat → List Char → Option (Json × List Char)
  | 0, _ => none
  | limit + 1, cs =>
    match skip cs with
    | '"' :: rest => (readString (rest.length + 1) rest).map fun (text, after) =>
        (.string (String.ofList text), after)
    | '[' :: rest =>
      match skip rest with
      | ']' :: after => some (.array [], after)
      | _ => (readItems limit rest).map fun (items, after) => (.array items, after)
    | '\x7b' :: rest =>
      match skip rest with
      | '\x7d' :: after => some (.object [], after)
      | _ => (readMembers limit rest).map fun (members, after) => (.object members, after)
    | 'n' :: 'u' :: 'l' :: 'l' :: rest => some (.null, rest)
    | 't' :: 'r' :: 'u' :: 'e' :: rest => some (.bool true, rest)
    | 'f' :: 'a' :: 'l' :: 's' :: 'e' :: rest => some (.bool false, rest)
    | rest => readNumber? rest

/-- Reads the items of an array and its closing bracket. -/
def readItems : Nat → List Char → Option (List Json × List Char)
  | 0, _ => none
  | limit + 1, cs =>
    match readValue limit cs with
    | none => none
    | some (item, rest) =>
      match skip rest with
      | ']' :: after => some ([item], after)
      | ',' :: rest => (readItems limit rest).map fun (items, after) => (item :: items, after)
      | _ => none

/-- Reads the members of an object and its closing brace. -/
def readMembers : Nat → List Char → Option (List (String × Json) × List Char)
  | 0, _ => none
  | limit + 1, cs =>
    match skip cs with
    | '"' :: rest =>
      match readString (rest.length + 1) rest with
      | none => none
      | some (key, rest) =>
        match skip rest with
        | ':' :: rest =>
          match readValue limit rest with
          | none => none
          | some (value, rest) =>
            let member := (String.ofList key, value)
            match skip rest with
            | '\x7d' :: after => some ([member], after)
            | ',' :: rest =>
              (readMembers limit rest).map fun (members, after) => (member :: members, after)
            | _ => none
        | _ => none
    | _ => none

end

/-- The value that a JSON document stands for. Each nested call but one in two takes a
character. -/
def parse? (source : String) : Option Json :=
  let cs := source.toList
  match readValue (2 * cs.length + 2) cs with
  | some (value, rest) => if (skip rest).isEmpty then some value else none
  | none => none

end Stencil.Json
