import Stencil.Proofs.Correspondence
import Stencil.Proofs.Failures

/-!
# Bound attributes and texts

A bound attribute and a text with the same value go through the same segments. The attribute merges
their expressions into one tree and the text compiles them one by one, but both succeed on the same
values, fail with the error of the same binding, and have the same code for each part.
-/

namespace Stencil

/-- The compiled segment is the part of a merged tree: a literal text is the string of it, and a
binding carries the code of it. -/
def CompiledSegment.IsPart (c : Config) (part : Expr) (s : CompiledSegment) : Prop :=
  match s.segment with
  | .text value => part = .literal (.string value) ∧ s.expression = none
  | .binding b => Expr.read b.value = .ok part ∧ s.expression = some (part.code c.style)

/-- The error is that of the first binding whose expression cannot be read. -/
def Segment.IsFirstFailure (segments : List Segment) (cause : ExpressionError) : Prop :=
  ∃ before b after, segments = before ++ .binding b :: after ∧
    Expr.read b.value = .error cause ∧
    ∀ b', .binding b' ∈ before → ∃ e, Expr.read b'.value = .ok e

namespace Segment

theorem failure?_merge (segments : List Segment) :
    failure? (merge segments) = segments.findSome? fun s => failure? s.expr := by
  rw [merge, failure?_map, failure?_mapM]

theorem isFirstFailure_of_merge {segments : List Segment} {cause : ExpressionError}
    (h : merge segments = .error cause) : IsFirstFailure segments cause := by
  rw [← failure?_eq_some_iff, failure?_merge, List.findSome?_eq_some_iff] at h
  obtain ⟨before, s, after, hsegments, hs, hbefore⟩ := h
  cases s with
  | text value => cases hs
  | binding b =>
    refine ⟨before, b, after, hsegments, failure?_eq_some_iff.1 hs, fun b' hb' => ?_⟩
    exact failure?_eq_none_iff.1 (hbefore _ hb')

end Segment

namespace Config

variable {c : Config} {name value : String}

theorem failure?_describeInterpolation :
    failure? (c.describeInterpolation name value) =
      (failure? (Segment.merge (c.scan value))).map (.expression name) := by
  unfold describeInterpolation
  dsimp only
  cases Segment.merge (c.scan value) <;> rfl

theorem failure?_compileText_eq_merge :
    failure? (c.compileText value) =
      (failure? (Segment.merge (c.scan value))).map (.text value) := by
  have hsegment (s : Segment) : failure? (c.compileSegment s) = failure? s.expr := by
    cases s with
    | text text => rfl
    | binding b => exact (failure?_map _ _).trans (failure?_map _ _)
  rw [failure?_compileText, failure?_mapM, Segment.failure?_merge]
  simp only [hsegment]

theorem isPart_of_compileSegment {s : Segment} {part : Expr} {out : CompiledSegment}
    (hpart : s.expr = .ok part) (hout : c.compileSegment s = .ok out) : out.IsPart c part := by
  cases s with
  | text value =>
    cases hpart
    cases hout
    exact ⟨rfl, rfl⟩
  | binding b =>
    have hread : Expr.read b.value = .ok part := hpart
    obtain ⟨code, hcode, rfl⟩ := exists_of_map_ok hout
    obtain ⟨e, he, rfl⟩ := exists_of_compileExpr hcode
    rw [hread] at he
    cases he
    exact ⟨hread, rfl⟩

/-- The parts of the tree and the compiled segments go together one by one. -/
theorem forall₂_isPart_of_mapM {segments : List Segment} {parts : List Expr}
    {out : List CompiledSegment} (hparts : segments.mapM Segment.expr = .ok parts)
    (hout : segments.mapM c.compileSegment = .ok out) :
    List.Forall₂ (CompiledSegment.IsPart c) parts out := by
  replace hparts := forall₂_of_mapM hparts
  replace hout := forall₂_of_mapM hout
  induction hparts generalizing out with
  | nil =>
    cases hout
    exact .nil
  | cons hpart _ ih =>
    cases hout with
    | cons hsegment hout => exact .cons (isPart_of_compileSegment hpart hsegment) (ih hout)

/-- A bound attribute compiles if a text with its value does. If they fail, both fail with the error
of the first binding that cannot be read. If they succeed, there is one compiled segment for each
segment of the value, and the tree is the part that it stands for, or joins the parts if there is
not exactly one. -/
theorem describe_agrees_compileText (c : Config) (name value : String)
    (hvalue : c.hasInterpolation value = true) (hname : c.isDirectiveName name = false) :
    ((∃ d, c.describe name value = .ok d) ↔ ∃ node, c.compileText value = .ok node) ∧
    (∀ e e', c.describe name value = .error e → c.compileText value = .error e' →
      ∃ cause, e = .expression name cause ∧ e' = .text value cause ∧
        Segment.IsFirstFailure (c.scan value) cause) ∧
    ∀ d node, c.describe name value = .ok d → c.compileText value = .ok node →
      ∃ parts segments, node = .text segments ∧
        segments.map CompiledSegment.segment = c.scan value ∧
        List.Forall₂ (CompiledSegment.IsPart c) parts segments ∧
        ((c.scan value).length = 1 ∧ parts = [d.tree] ∨
          (c.scan value).length ≠ 1 ∧ d.tree = .concat parts) := by
  have hdescribe : c.describe name value = c.describeInterpolation name value := by
    rw [describe, if_pos hvalue, if_neg (by simp [hname])]
  rw [hdescribe]
  refine ⟨?_, fun e e' he he' => ?_, fun d node hd hnode => ?_⟩
  · rw [← failure?_eq_none_iff, ← failure?_eq_none_iff, failure?_describeInterpolation,
      failure?_compileText_eq_merge, Option.map_eq_none_iff, Option.map_eq_none_iff]
  · rw [← failure?_eq_some_iff, failure?_describeInterpolation] at he
    rw [← failure?_eq_some_iff, failure?_compileText_eq_merge] at he'
    obtain ⟨cause, hcause, rfl⟩ := Option.map_eq_some_iff.1 he
    rw [hcause] at he'
    exact ⟨cause, rfl, (Option.some.inj he').symm,
      Segment.isFirstFailure_of_merge (failure?_eq_some_iff.1 hcause)⟩
  · obtain ⟨tree, hmerge, rfl⟩ := exists_of_describeInterpolation hd
    obtain ⟨parts, hparts, rfl⟩ := exists_of_map_ok hmerge
    obtain ⟨segments, hsegments, rfl⟩ := exists_of_compileText hnode
    have hlength : parts.length = (c.scan value).length := (forall₂_of_mapM hparts).length_eq.symm
    refine ⟨parts, segments, rfl, map_segment_of_mapM hsegments,
      forall₂_isPart_of_mapM hparts hsegments, ?_⟩
    rw [← hlength]
    dsimp only
    split
    · exact .inl ⟨rfl, rfl⟩
    · rename_i hmany
      refine .inr ⟨fun hone => ?_, rfl⟩
      obtain ⟨part, hpart⟩ := List.length_eq_one_iff.1 hone
      exact hmany part hpart

/-- A literal text between two bindings, one of them filtered. -/
def joinedValue : String := "\x7b\x7ba\x7d\x7d-\x7b\x7bb|c\x7d\x7d"

/-- The second and the third binding cannot be read. -/
def brokenValue : String := "\x7b\x7ba\x7d\x7d\x7b\x7b \x7d\x7d\x7b\x7b=\x7d\x7d"

theorem describe_agrees_compileText_joined :
    (default.hasInterpolation joinedValue = true ∧ default.hasInterpolation brokenValue = true ∧
      default.isDirectiveName "title" = false) ∧
    (∃ d segments parts, default.describe "title" joinedValue = .ok d ∧
      default.compileText joinedValue = .ok (.text segments) ∧
      List.Forall₂ (CompiledSegment.IsPart default) parts segments ∧ d.tree = .concat parts) ∧
    default.describe "title" brokenValue = .error (.expression "title" .empty) ∧
    default.compileText brokenValue = .error (.text brokenValue .empty) ∧
    Segment.IsFirstFailure (default.scan brokenValue) .empty := by
  have hjoined : default.hasInterpolation joinedValue = true := by decide +kernel
  have hbroken : default.hasInterpolation brokenValue = true := by decide +kernel
  have hname : default.isDirectiveName "title" = false := by decide +kernel
  refine ⟨⟨hjoined, hbroken, hname⟩, ?_, ?_⟩
  · obtain ⟨hiff, -, hparts⟩ := describe_agrees_compileText default "title" _ hjoined hname
    have hok : failure? (default.compileText joinedValue) = none := by decide +kernel
    obtain ⟨node, hnode⟩ := failure?_eq_none_iff.1 hok
    obtain ⟨d, hd⟩ := hiff.2 ⟨node, hnode⟩
    obtain ⟨parts, segments, rfl, -, hpairs, ⟨hone, -⟩ | ⟨-, htree⟩⟩ := hparts d node hd hnode
    · exact absurd hone (by decide +kernel)
    · exact ⟨d, segments, parts, hd, hnode, hpairs, htree⟩
  · obtain ⟨-, hsame, -⟩ := describe_agrees_compileText default "title" _ hbroken hname
    have hd : default.describe "title" brokenValue = .error (.expression "title" .empty) :=
      failure?_eq_some_iff.1 (by decide +kernel)
    have hnode : default.compileText brokenValue = .error (.text brokenValue .empty) :=
      failure?_eq_some_iff.1 (by decide +kernel)
    obtain ⟨cause, heq, -, hfirst⟩ := hsame _ _ hd hnode
    cases heq
    exact ⟨hd, hnode, hfirst⟩

end Config
end Stencil
