/-!
# The grammar of expressions

The grammar as data, character by character. It is the reference that a malformed expression is
explained by: a report names the rules of this grammar. Blanks may stand between the items of a
sequence and between the repetitions of a pattern, except within a rule whose spacing is `compact`
or `sealed`.
-/

namespace Stencil.Grammar

/-- The rules that a report can name, in the order in which it lists them. -/
inductive Rule where
  | endOfInput
  | input
  | filter
  | filterName
  | expression
  | binary
  | paren
  | number
  | string
  | doubleQuoted
  | singleQuoted
  | boolean
  | null
  | undefined
  | identifier
  | notOp
  | negOp
  | plusOp
  | member
  | property
  | index
  | orOp
  | andOp
  | strictEqOp
  | strictNeOp
  | eqOp
  | neOp
  | leOp
  | geOp
  | ltOp
  | gtOp
  | addOp
  | subOp
  | mulOp
  | divOp
  | remOp
deriving DecidableEq, Repr

/-- Sets of characters. -/
inductive CharSet where
  | any
  | digit
  | nameStart
  | nameChar
deriving DecidableEq, Repr

inductive Pattern where
  | atStart
  | atEnd
  | text (s : String)
  | one (set : CharSet)
  | rule (r : Rule)
  | seq (first second : Pattern)
  | choice (first second : Pattern)
  | optional (inner : Pattern)
  | star (inner : Pattern)
  /-- Matches nothing, where `inner` does not match. -/
  | absent (inner : Pattern)
deriving DecidableEq, Repr

/-- Whether blanks may stand between the parts of a rule, and whether its parts are reported. -/
inductive Spacing where
  | loose
  /-- No blanks. -/
  | compact
  /-- No blanks, and a failure is reported for the rule as a whole. -/
  | sealed
deriving DecidableEq, Repr

namespace CharSet

def mem : CharSet → Char → Bool
  | .any, _ => true
  | .digit, c => c.isDigit
  | .nameStart, c => c.isAlpha || c == '_' || c == '$'
  | .nameChar, c => c.isAlphanum || c == '_' || c == '$'

end CharSet

namespace Pattern

/-- The patterns one after the other. -/
def sequence (first : Pattern) : List Pattern → Pattern
  | [] => first
  | next :: rest => .seq first (sequence next rest)

/-- The first of the patterns that matches. -/
def oneOf (first : Pattern) : List Pattern → Pattern
  | [] => first
  | next :: rest => .choice first (oneOf next rest)

def plus (inner : Pattern) : Pattern := .seq inner (.star inner)

def digits : Pattern := plus (.one .digit)

def name : Pattern := .seq (.one .nameStart) (.star (.one .nameChar))

/-- A word that no further name character follows. -/
def keyword (word : Pattern) : Pattern := .seq word (.absent (.one .nameChar))

/-- The characters of a quoted text: escaped characters, and others than the quote. -/
def quotedBody (quote : String) : Pattern :=
  .star (.choice (.seq (.text "\\") (.one .any))
    (.seq (.absent (.choice (.text quote) (.text "\\"))) (.one .any)))

def numeral : Pattern :=
  .seq
    (.choice (.seq digits (.optional (.seq (.text ".") digits))) (.seq (.text ".") digits))
    (.optional (sequence (.choice (.text "e") (.text "E"))
      [.optional (.choice (.text "+") (.text "-")), digits]))

def quoted : Pattern :=
  .choice (sequence (.text "\"") [.rule .doubleQuoted, .text "\""])
    (sequence (.text "'") [.rule .singleQuoted, .text "'"])

def primary : Pattern :=
  oneOf (.rule .number)
    [.rule .string, .rule .boolean, .rule .null, .rule .undefined, .rule .identifier, .rule .paren]

def operand : Pattern :=
  sequence (.star (oneOf (.rule .notOp) [.rule .negOp, .rule .plusOp]))
    [primary, .star (.choice (.rule .member) (.rule .index))]

def binaryOp : Pattern :=
  oneOf (.rule .orOp)
    [.rule .andOp, .rule .strictEqOp, .rule .strictNeOp, .rule .eqOp, .rule .neOp, .rule .leOp,
      .rule .geOp, .rule .ltOp, .rule .gtOp, .rule .addOp, .rule .subOp, .rule .mulOp,
      .rule .divOp, .rule .remOp]

end Pattern

namespace Rule
open Pattern

/-- The body of a rule and its spacing. -/
def body : Rule → Pattern
  | .endOfInput => .atEnd
  | .input => sequence .atStart [.rule .expression, .optional (.rule .filter), .rule .endOfInput]
  | .filter => sequence (.absent (.text "||")) [.text "|", .rule .filterName]
  | .filterName => name
  | .expression =>
    .seq (.rule .binary)
      (.optional (sequence (.text "?") [.rule .expression, .text ":", .rule .expression]))
  | .binary => .seq operand (.star (.seq binaryOp operand))
  | .paren => sequence (.text "(") [.rule .expression, .text ")"]
  | .number => numeral
  | .string => quoted
  | .doubleQuoted => quotedBody "\""
  | .singleQuoted => quotedBody "'"
  | .boolean => keyword (.choice (.text "true") (.text "false"))
  | .null => keyword (.text "null")
  | .undefined => keyword (.text "undefined")
  | .identifier => name
  | .notOp => .text "!"
  | .negOp => .text "-"
  | .plusOp => .text "+"
  | .member => .seq (.text ".") (.rule .property)
  | .property => name
  | .index => sequence (.text "[") [.rule .expression, .text "]"]
  | .orOp => .text "||"
  | .andOp => .text "&&"
  | .strictEqOp => .text "==="
  | .strictNeOp => .text "!=="
  | .eqOp => .text "=="
  | .neOp => .text "!="
  | .leOp => .text "<="
  | .geOp => .text ">="
  | .ltOp => .text "<"
  | .gtOp => .text ">"
  | .addOp => .text "+"
  | .subOp => .text "-"
  | .mulOp => .text "*"
  | .divOp => .text "/"
  | .remOp => .text "%"

def spacing : Rule → Spacing
  | .filterName | .number | .doubleQuoted | .singleQuoted | .boolean | .null | .undefined
  | .identifier | .property => .sealed
  | .string => .compact
  | _ => .loose

/-- The name of a rule in a report. -/
def label : Rule → String
  | .endOfInput => "EOI"
  | .input => "input"
  | .filter => "filter"
  | .filterName => "filter_name"
  | .expression => "expression"
  | .binary => "binary"
  | .paren => "paren"
  | .number => "number"
  | .string => "string"
  | .doubleQuoted => "dq_chars"
  | .singleQuoted => "sq_chars"
  | .boolean => "boolean"
  | .null => "null"
  | .undefined => "undefined"
  | .identifier => "ident"
  | .notOp => "not_op"
  | .negOp => "neg_op"
  | .plusOp => "plus_op"
  | .member => "member"
  | .property => "property"
  | .index => "index"
  | .orOp => "or_op"
  | .andOp => "and_op"
  | .strictEqOp => "strict_eq_op"
  | .strictNeOp => "strict_ne_op"
  | .eqOp => "eq_op"
  | .neOp => "ne_op"
  | .leOp => "le_op"
  | .geOp => "ge_op"
  | .ltOp => "lt_op"
  | .gtOp => "gt_op"
  | .addOp => "add_op"
  | .subOp => "sub_op"
  | .mulOp => "mul_op"
  | .divOp => "div_op"
  | .remOp => "rem_op"

/-- All rules, in the order in which a report lists them. -/
def all : List Rule :=
  [.endOfInput, .input, .filter, .filterName, .expression, .binary, .paren, .number, .string,
    .doubleQuoted, .singleQuoted, .boolean, .null, .undefined, .identifier, .notOp, .negOp,
    .plusOp, .member, .property, .index, .orOp, .andOp, .strictEqOp, .strictNeOp, .eqOp, .neOp,
    .leOp, .geOp, .ltOp, .gtOp, .addOp, .subOp, .mulOp, .divOp, .remOp]

end Rule
end Stencil.Grammar
