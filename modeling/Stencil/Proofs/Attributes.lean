import Stencil.Proofs.DirectiveNames
import Stencil.Proofs.Interpolation
import Stencil.Proofs.Serialization

/-!
# Expressions in quoted attributes

Between double quotes a value is taken as it stands, so that an expression without double quotes
reaches the compiler whole, be it between markers or as the value of a directive. Both descriptors
carry the tree and the code of the expression as it is read alone.
-/

namespace Stencil

namespace Markup

/-- The name of an attribute as it can be written. -/
def isAttributeName (name : String) : Bool :=
  !name.toList.isEmpty && name.toList.all isAttributeChar

variable {name value : String}

theorem isNormal_of_not_mem (hname : isAttributeName name = true) (hvalue : '"' ∉ value.toList) :
    (Attribute.mk name (some value)).isNormal = true := by
  rw [Attribute.isNormal, ← isAttributeName, hname]
  simp [isQuotable, hvalue]

theorem write_of_not_mem (hvalue : '"' ∉ value.toList) :
    (Attribute.mk name (some value)).write Quoting.choose =
      ' ' :: (name.toList ++ '=' :: '"' :: (value.toList ++ ['"'])) := by
  have hdouble : Quoting.choose value = .double := if_pos (by simpa [Quoting.isLegal] using hvalue)
  simp only [Attribute.write, hdouble, Quoting.write]

/-- A normal element that is written is read back as the only root. -/
theorem parse_write_element {tag : String} {attrs : List Attribute} {selfClosing : Bool}
    {children : List Node} (h : (Node.element tag attrs selfClosing children).isNormal = true) :
    parse (String.ofList
      ((Node.element tag attrs selfClosing children).write fun _ => Quoting.choose)) =
      .ok [.element tag attrs selfClosing children] := by
  have hread := Node.readsBack (fun _ _ => Quoting.isLegal_choose) h [] nofun
  have hnil : readEvents [] = .ok [] := by rw [readEvents]
  rw [List.append_nil, hnil] at hread
  have hbuild : Forest.ofEvents (Node.element tag attrs selfClosing children).events =
      [.element tag attrs selfClosing children] := by
    rw [Forest.ofEvents, Forest.foldl_step_events h]
    rfl
  rw [parse, String.toList_ofList, hread]
  simp only [Except.map, List.append_nil, hbuild]
  rfl

end Markup

open Markup (isAttributeName)

namespace Config

variable {c : Config} {name value : String} {tree : Expr}

/-- A directive without arguments. -/
theorem describe_directive {kind : String} (hne : kind ≠ "") (hequals : '=' ∉ kind.toList)
    (hcolon : ':' ∉ kind.toList) (hvalue : c.hasInterpolation value = false)
    (hread : Expr.read value = .ok tree) :
    c.describe (c.directivePrefix ++ "-" ++ kind) value = .ok
      { name := c.directivePrefix ++ "-" ++ kind, value, tree
        directive := kind
        args := []
        oneTime := false
        html := false
        expression := tree.code c.style
        isInterpolation := false } :=
  describe_of_names (names_alone hne hcolon hequals) hvalue hread

theorem hasInterpolation_interpolation {e : String} (hne : e.toList ≠ [])
    (hbraceless : isBraceless e.toList = true) :
    default.hasInterpolation ("\x7b\x7b" ++ e ++ "\x7d\x7d") = true := by
  rw [hasInterpolation, Markers.hasInterpolation, toList_interpolation, Markers.hasSpan,
    span?_interpolation hne hbraceless]
  rfl

/-- An attribute whose value is an expression between markers. -/
theorem describe_interpolation {e : String} (hname : default.isDirectiveName name = false)
    (hread : Expr.read e = .ok tree) (hbraceless : isBraceless e.toList = true) :
    default.describe name ("\x7b\x7b" ++ e ++ "\x7d\x7d") = .ok
      { name, value := "\x7b\x7b" ++ e ++ "\x7d\x7d", tree
        directive := "bind"
        args := [name]
        oneTime := false
        html := false
        expression := tree.code default.style
        isInterpolation := true } := by
  obtain ⟨ch, tail, he, hstar⟩ := Expr.exists_cons_of_read hread
  have hvalue := hasInterpolation_interpolation (by simp [he]) hbraceless
  have hmerge : Segment.merge
      [.binding ⟨Text.trim e, false, false, "\x7b\x7b" ++ e ++ "\x7d\x7d"⟩] = .ok tree := by
    simp only [Segment.merge, List.mapM_cons, List.mapM_nil, Segment.expr, Expr.read_trim, hread]
    rfl
  simp only [describe, hvalue, hname, describeInterpolation,
    scan_interpolation he hstar hbraceless, hmerge, Bool.false_eq_true, if_false, if_true]
  rfl

/-- The source of an element with an expression in a bound attribute and in a directive. -/
def attributePair (name kind e : String) : String :=
  "<p " ++ name ++ "=\"\x7b\x7b" ++ e ++ "\x7d\x7d\" sk-" ++ kind ++ "=\"" ++ e ++ "\"></p>"

theorem parse_attributePair {kind e : String} (hname : isAttributeName name = true)
    (hkind : isAttributeName kind = true) (hquote : '"' ∉ e.toList) :
    Markup.parse (attributePair name kind e) =
      .ok [.element "p" [⟨name, some ("\x7b\x7b" ++ e ++ "\x7d\x7d")⟩, ⟨"sk-" ++ kind, some e⟩]
        false []] := by
  have hvalue : '"' ∉ ("\x7b\x7b" ++ e ++ "\x7d\x7d").toList := by simp [hquote]
  have hdirective : isAttributeName ("sk-" ++ kind) = true := by
    simp only [isAttributeName, Bool.and_eq_true, String.toList_append, List.all_append] at hkind ⊢
    exact ⟨rfl, rfl, hkind.2⟩
  have hnormal : (Markup.Node.element "p" [⟨name, some ("\x7b\x7b" ++ e ++ "\x7d\x7d")⟩,
      ⟨"sk-" ++ kind, some e⟩] false []).isNormal = true := by
    simp only [Markup.Node.isNormal, Markup.Node.isNormalForest, List.all_cons, List.all_nil,
      Markup.isNormal_of_not_mem hname hvalue, Markup.isNormal_of_not_mem hdirective hquote]
    rfl
  have hsource := Markup.parse_write_element hnormal
  simp only [Markup.Node.write, Markup.Attribute.writeFrom, Markup.write_of_not_mem hvalue,
    Markup.write_of_not_mem hquote, Markup.Node.writeFrom] at hsource
  rw [← hsource, ← String.ofList_toList (s := attributePair name kind e)]
  simp [attributePair]

/-- An expression without double quotes compiles alike alone, between markers in a quoted attribute
and as the value of a directive. -/
theorem compileTemplate_attributePair (name kind e : String) (tree : Expr)
    (hread : Expr.read e = .ok tree) (hbraceless : isBraceless e.toList = true)
    (hquote : '"' ∉ e.toList) (hname : isAttributeName name = true)
    (hstatic : default.isDirectiveName name = false) (hkind : isAttributeName kind = true)
    (hcolon : ':' ∉ kind.toList) :
    default.compileTemplate (attributePair name kind e) = .ok [.element "p" []
      [ { name, value := "\x7b\x7b" ++ e ++ "\x7d\x7d", tree
          directive := "bind"
          args := [name]
          oneTime := false
          html := false
          expression := tree.code default.style
          isInterpolation := true },
        { name := "sk-" ++ kind, value := e, tree
          directive := kind
          args := []
          oneTime := false
          html := false
          expression := tree.code default.style
          isInterpolation := false } ] []] ∧
    default.compileExpr e = .ok (tree.code default.style) := by
  have hne : kind ≠ "" := by
    rintro rfl
    cases hkind
  have hequals : '=' ∉ kind.toList := by
    intro hmem
    rw [isAttributeName, Bool.and_eq_true, List.all_eq_true] at hkind
    cases hkind.2 _ hmem
  have hvalue : default.hasInterpolation e = false :=
    Markers.hasSpan_of_not_mem (c := '\x7d') (by decide) (by decide)
      (not_mem_of_isBraceless hbraceless).2.1
  have hbound := describe_interpolation hstatic hread hbraceless
  have hdirective : default.describe ("sk-" ++ kind) e = _ :=
    describe_directive (c := default) hne hequals hcolon hvalue hread
  have hdynamic := isDynamic_of_describe (a := ⟨name, some ("\x7b\x7b" ++ e ++ "\x7d\x7d")⟩) hbound
  have hdynamic' := isDynamic_of_describe (a := ⟨"sk-" ++ kind, some e⟩) hdirective
  constructor
  · rw [compileTemplate, parse_attributePair hname hkind hquote]
    simp only [compileNodes, compileNode, compileAttributes, hdynamic, hdynamic', if_true,
      Option.getD_some, hbound, hdirective]
    rfl
  · rw [compileExpr, Expr.compile, hread]
    rfl

/-- Quotes, slashes and the ends of tags in an expression with a filter. -/
def filteredExpr : String := " a<b ? '>' : c['/>'] | up"

theorem compileTemplate_attributePair_filtered :
    ∃ bound plain, default.compileTemplate (attributePair "title" "if" filteredExpr) =
        .ok [.element "p" [] [bound, plain] []] ∧
      (bound.directive, bound.args) = ("bind", ["title"]) ∧
      (plain.directive, plain.args) = ("if", []) ∧
      default.compileExpr filteredExpr = .ok bound.expression ∧
      default.compileExpr filteredExpr = .ok plain.expression := by
  have hok : (default.compileExpr filteredExpr).isOk = true := by decide +kernel
  cases hcode : default.compileExpr filteredExpr with
  | error e =>
    rw [hcode] at hok
    cases hok
  | ok code =>
    obtain ⟨tree, hread, rfl⟩ := exists_of_compileExpr hcode
    obtain ⟨hcompile, -⟩ := compileTemplate_attributePair "title" "if" filteredExpr tree hread
      (by decide) (by decide) (by decide) (by decide) (by decide) (by decide)
    exact ⟨_, _, hcompile, rfl, rfl, rfl, rfl⟩

end Config
end Stencil
