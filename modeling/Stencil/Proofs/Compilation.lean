import Mathlib.Tactic.SplitIfs
import Stencil.Proofs.Attempts
import Stencil.Template

/-!
# What a successful compilation went through

One statement for each function that compiles a part of a template: what it gave is put together
from what the parts gave, and all of these succeeded.
-/

namespace Stencil

namespace Config

variable {c : Config} {tag : String} {n : Markup.Node} {ns : List Markup.Node}

theorem exists_of_compileExpr {text code : String} (h : c.compileExpr text = .ok code) :
    ∃ e, Expr.read text = .ok e ∧ e.code c.style = code :=
  exists_of_map_ok h

/-- An attribute with a descriptor is bound, and no directive, or is a directive. -/
theorem cases_of_describe {name value : String} {d : Descriptor}
    (h : c.describe name value = .ok d) :
    (c.hasInterpolation value = true ∧ c.isDirectiveName name = false ∧
      c.describeInterpolation name value = .ok d) ∨
    (c.hasInterpolation value = false ∧ c.describeDirective name value = .ok d) := by
  unfold describe at h
  split_ifs at h with hvalue hname
  · exact .inl ⟨hvalue, Bool.eq_false_iff.2 hname, h⟩
  · exact .inr ⟨Bool.eq_false_iff.2 hvalue, h⟩

theorem exists_of_describeInterpolation {name value : String} {d : Descriptor}
    (h : c.describeInterpolation name value = .ok d) :
    ∃ tree, Segment.merge (c.scan value) = .ok tree ∧
      d = { name, value, tree
            directive := "bind"
            args := [name]
            oneTime := !((c.scan value).filterMap Segment.binding?).isEmpty
              && ((c.scan value).filterMap Segment.binding?).all (·.oneTime)
            html := ((c.scan value).filterMap Segment.binding?).any (·.html)
            expression := tree.code c.style
            isInterpolation := true } := by
  unfold describeInterpolation at h
  dsimp only at h
  split at h
  · cases h
  · rename_i tree hmerge
    cases h
    exact ⟨tree, hmerge, rfl⟩

theorem exists_of_describeDirective {name value : String} {d : Descriptor}
    (h : c.describeDirective name value = .ok d) :
    ∃ kind tree, c.kind? name = some kind ∧ (splitKind kind).1 ≠ "" ∧
      Expr.read value = .ok tree ∧
      d = { name, value, tree
            directive := (splitKind kind).1
            args := (splitKind kind).2
            oneTime := false
            html := false
            expression := tree.code c.style
            isInterpolation := false } := by
  unfold describeDirective at h
  dsimp only at h
  split at h
  · cases h
  · rename_i directive args hkind
    obtain ⟨kind, hkind, hsplit⟩ := Option.map_eq_some_iff.1 hkind
    split_ifs at h with hempty
    split at h
    · cases h
    · rename_i tree hread
      cases h
      exact ⟨kind, tree, hkind, by rwa [hsplit], hread, by rw [hsplit]⟩

/-- Only directives and bound attributes have a descriptor. -/
theorem isDynamic_of_describe {a : Markup.Attribute} {d : Descriptor}
    (h : c.describe a.name (a.value.getD "") = .ok d) : c.isDynamic a = true := by
  rw [isDynamic, Bool.or_eq_true]
  rcases cases_of_describe h with ⟨hvalue, -, -⟩ | ⟨-, hdirective⟩
  · exact .inr hvalue
  · obtain ⟨kind, tree, hkind, -⟩ := exists_of_describeDirective hdirective
    rw [isDirectiveName, hkind]
    exact .inl rfl

theorem exists_of_compileAttributes {a : Markup.Attribute} {attrs rest : List Markup.Attribute}
    {ds : List Descriptor} (h : c.compileAttributes tag (a :: attrs) = .ok (rest, ds)) :
    ∃ rest' ds', c.compileAttributes tag attrs = .ok (rest', ds') ∧
      ((c.isDynamic a = false ∧ rest = a :: rest' ∧ ds = ds') ∨
        ∃ d, c.isDynamic a = true ∧ c.describe a.name (a.value.getD "") = .ok d ∧
          rest = rest' ∧ ds = d :: ds') := by
  rw [compileAttributes] at h
  split at h
  · rename_i hdynamic
    split at h
    · cases h
    · rename_i d hd
      obtain ⟨⟨rest', ds'⟩, hattrs, he⟩ := exists_of_map_ok h
      cases he
      exact ⟨_, _, hattrs, .inr ⟨d, hdynamic, hd, rfl, rfl⟩⟩
  · rename_i hstatic
    obtain ⟨⟨rest', ds'⟩, hattrs, he⟩ := exists_of_map_ok h
    cases he
    exact ⟨_, _, hattrs, .inl ⟨Bool.eq_false_iff.2 hstatic, rfl, rfl⟩⟩

/-- The attributes that are neither directives nor bound are kept, in their order. -/
theorem statics_of_compileAttributes {attrs rest : List Markup.Attribute} {ds : List Descriptor}
    (h : c.compileAttributes tag attrs = .ok (rest, ds)) :
    rest = attrs.filter fun a => !c.isDynamic a := by
  induction attrs generalizing rest ds with
  | nil => cases h; rfl
  | cons a attrs ih =>
    obtain ⟨rest', ds', hattrs, ⟨hstatic, rfl, -⟩ | ⟨d, hdynamic, -, rfl, -⟩⟩ :=
      exists_of_compileAttributes h
    · rw [ih hattrs, List.filter_cons_of_pos (by simp [hstatic])]
    · rw [ih hattrs, List.filter_cons_of_neg (by simp [hdynamic])]

theorem exists_of_compileText {text : String} {out : CompiledNode}
    (h : c.compileText text = .ok out) :
    ∃ segments, (c.scan text).mapM c.compileSegment = .ok segments ∧ out = .text segments := by
  unfold compileText at h
  split at h
  · cases h
  · rename_i segments hsegments
    cases h
    exact ⟨segments, hsegments, rfl⟩

theorem exists_of_compileNode {attrs : List Markup.Attribute} {selfClosing : Bool}
    {out : CompiledNode} (h : c.compileNode (.element tag attrs selfClosing ns) = .ok out) :
    ∃ rest ds children, c.compileAttributes tag attrs = .ok (rest, ds) ∧
      c.compileNodes ns = .ok children ∧ out = .element tag rest ds children := by
  rw [compileNode] at h
  split at h
  · cases h
  · rename_i rest ds hattrs
    obtain ⟨children, hchildren, rfl⟩ := exists_of_map_ok h
    exact ⟨rest, ds, children, hattrs, hchildren, rfl⟩

theorem exists_of_compileNodes {out : List CompiledNode} (h : c.compileNodes (n :: ns) = .ok out) :
    ∃ first rest, c.compileNode n = .ok first ∧ c.compileNodes ns = .ok rest ∧
      out = first :: rest := by
  rw [compileNodes] at h
  split at h
  · cases h
  · rename_i first hn
    obtain ⟨rest, hns, rfl⟩ := exists_of_map_ok h
    exact ⟨first, rest, hn, hns, rfl⟩

theorem exists_of_compileTemplate {source : String} {out : List CompiledNode}
    (h : c.compileTemplate source = .ok out) :
    ∃ ns, Markup.parse source = .ok ns ∧ c.compileNodes ns = .ok out := by
  unfold compileTemplate at h
  split at h
  · cases h
  · rename_i ns hparse
    exact ⟨ns, hparse, h⟩

end Config
end Stencil
