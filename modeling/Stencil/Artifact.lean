import Stencil.Template

/-!
# Artifacts as JSON

The JSON forms of expressions, segments, descriptors and compiled templates. Members stand in a
fixed order, and the kind of a value comes first.
-/

namespace Stencil

/-- Numbers of a tree show that they are not integers, and have an exponent outside
`10 ^ -5 … 10 ^ 15`. -/
def treeNumbers : NumberStyle := ⟨.even, some (-5, 15), true⟩

/-- JSON has no form for values that are not finite. -/
def Binary64.toJson (x : Binary64) : Json :=
  if x.isFinite then .number (x.text treeNumbers) else .null

def Literal.toJson : Literal → Json
  | .number value => .object [("type", .string "number"), ("value", value.toJson)]
  | .string value => .object [("type", .string "string"), ("value", .string value)]
  | .bool value => .object [("type", .string "bool"), ("value", .bool value)]
  | .null => .object [("type", .string "null")]
  | .undefined => .object [("type", .string "undefined")]

namespace Expr

mutual

def toJson : Expr → Json
  | .literal value => .object [("kind", .string "literal"), ("value", value.toJson)]
  | .scope name => .object [("kind", .string "scope"), ("name", .string name)]
  | .member object property =>
    .object
      [("kind", .string "member"), ("object", toJson object), ("property", .string property)]
  | .index object key =>
    .object [("kind", .string "index"), ("object", toJson object), ("index", toJson key)]
  | .unary op operand =>
    .object [("kind", .string "unary"), ("op", .string op.symbol), ("operand", toJson operand)]
  | .binary op left right =>
    .object
      [ ("kind", .string "binary"), ("op", .string op.symbol), ("left", toJson left),
        ("right", toJson right) ]
  | .conditional test consequent alternate =>
    .object
      [ ("kind", .string "conditional"), ("test", toJson test),
        ("consequent", toJson consequent), ("alternate", toJson alternate) ]
  | .filter expression name =>
    .object
      [("kind", .string "filter"), ("expression", toJson expression), ("name", .string name)]
  | .concat parts => .object [("kind", .string "concat"), ("parts", .array (toJsonParts parts))]

def toJsonParts : List Expr → List Json
  | [] => []
  | part :: parts => toJson part :: toJsonParts parts

end

end Expr

/-- The members of a segment. -/
def Segment.members : Segment → List (String × Json)
  | .text value => [("type", .string "text"), ("value", .string value)]
  | .binding b =>
    [ ("type", .string "binding"), ("value", .string b.value), ("html", .bool b.html),
      ("oneTime", .bool b.oneTime), ("raw", .string b.raw) ]

def Segment.toJson (s : Segment) : Json := .object s.members

def CompiledSegment.toJson (s : CompiledSegment) : Json :=
  let expression := s.expression.map fun code => ("expression", Json.string code)
  .object (s.segment.members ++ expression.toList)

def Descriptor.toJson (d : Descriptor) : Json :=
  .object
    [ ("name", .string d.name),
      ("value", .string d.value),
      ("directive", .string d.directive),
      ("args", .array (d.args.map .string)),
      ("oneTime", .bool d.oneTime),
      ("html", .bool d.html),
      ("expression", .string d.expression),
      ("tree", d.tree.toJson),
      ("isInterpolation", .bool d.isInterpolation) ]

def Markup.Attribute.toJson (a : Markup.Attribute) : Json :=
  .object [("name", .string a.name), ("value", (a.value.map Json.string).getD .null)]

namespace CompiledNode

mutual

def toJson : CompiledNode → Json
  | .element tag attrs directives children =>
    .object
      [ ("type", .string "element"),
        ("tag", .string tag),
        ("attrs", .array (attrs.map Markup.Attribute.toJson)),
        ("directives", .array (directives.map Descriptor.toJson)),
        ("children", .array (toJsonList children)) ]
  | .text segments =>
    .object [("type", .string "text"), ("tokens", .array (segments.map CompiledSegment.toJson))]

def toJsonList : List CompiledNode → List Json
  | [] => []
  | n :: ns => toJson n :: toJsonList ns

end

end CompiledNode
end Stencil
