import Stencil.Proofs.Compilation
import Stencil.Proofs.Decomposition

/-!
# Detecting interpolations

Whether an attribute is bound is decided on its value as it is, while the segments of a text are
found once its line feeds are dropped. A value that holds a span has a binding among its segments,
but not the other way round: a span that is broken over two lines is found by the second test only.
On a value without line feeds the two tests agree, so that an attribute that is left as it is holds
no binding that a text node would have.
-/

namespace Stencil

open Markup (Attribute Node)

variable {cs : List Char} {m : Markers}

namespace Markers

/-- None of the four markers holds a line feed. -/
def isOneLine (m : Markers) : Bool :=
  [m.safe.opener, m.safe.closer, m.raw.opener, m.raw.closer].all fun s => !s.toList.contains '\n'

theorem isSome_span?_iff :
    (m.span? cs).isSome = true ↔
      ∃ isRaw inner, inner ≠ [] ∧ '\n' ∉ inner ∧ (m.pair isRaw).wrap inner <+: cs := by
  constructor
  · intro h
    obtain ⟨⟨s, rest⟩, hspan⟩ := Option.isSome_iff_exists.1 h
    unfold span? at hspan
    split at hspan
    · rename_i inner after hraw
      obtain ⟨his, hline, -⟩ := Delimiters.inner?_eq_some_iff.1 hraw
      exact ⟨true, inner, his.nonempty, hline, his.front⟩
    · obtain ⟨⟨inner, after⟩, hsafe, -⟩ := Option.map_eq_some_iff.1 hspan
      obtain ⟨his, hline, -⟩ := Delimiters.inner?_eq_some_iff.1 hsafe
      exact ⟨false, inner, his.nonempty, hline, his.front⟩
  · rintro ⟨isRaw, inner, hne, hline, rest, rfl⟩
    obtain ⟨found, hfound⟩ := (m.pair isRaw).exists_inner? hne hline rest
    unfold span?
    split
    · rfl
    · rename_i hraw
      cases isRaw with
      | true => exact absurd (hraw.symm.trans hfound) (by simp)
      | false =>
        have hsafe : m.safe.inner? ((m.pair false).wrap inner ++ rest) = some found := hfound
        rw [hsafe]
        rfl

/-- A span starts in the text if markers of one pair stand in it, on one line and with something
between them. -/
theorem hasSpan_iff :
    m.hasSpan cs = true ↔
      ∃ isRaw inner, inner ≠ [] ∧ '\n' ∉ inner ∧ (m.pair isRaw).wrap inner <:+: cs := by
  induction cs with
  | nil =>
    simp only [hasSpan, Bool.false_eq_true, false_iff, List.infix_nil, not_exists, not_and]
    intro isRaw inner hne _
    exact Delimiters.wrap_ne_nil hne
  | cons c cs ih =>
    rw [hasSpan, Bool.or_eq_true, ih, isSome_span?_iff]
    simp only [List.infix_cons_iff, and_or_left, exists_or]

theorem not_mem_wrap (hm : m.isOneLine = true) (isRaw : Bool) {inner : List Char}
    (hline : '\n' ∉ inner) : '\n' ∉ (m.pair isRaw).wrap inner := by
  simp only [isOneLine, List.all_cons, List.all_nil, Bool.and_true, Bool.and_eq_true,
    Bool.not_eq_true', List.contains_eq_mem, decide_eq_false_iff_not] at hm
  obtain ⟨hopen, hclose, hrawOpen, hrawClose⟩ := hm
  simp only [Delimiters.wrap, List.mem_append, not_or]
  cases isRaw with
  | true => exact ⟨⟨hrawOpen, hline⟩, hrawClose⟩
  | false => exact ⟨⟨hopen, hline⟩, hclose⟩

/-- Dropping line feeds breaks no span. -/
theorem hasSpan_filter (hm : m.isOneLine = true) (h : m.hasSpan cs = true) :
    m.hasSpan (cs.filter (· != '\n')) = true := by
  obtain ⟨isRaw, inner, hne, hline, hinfix⟩ := hasSpan_iff.1 h
  refine hasSpan_iff.2 ⟨isRaw, inner, hne, hline, ?_⟩
  have hwrap : ((m.pair isRaw).wrap inner).filter (· != '\n') = (m.pair isRaw).wrap inner :=
    List.filter_eq_self.2 (Text.bne_of_not_mem (not_mem_wrap hm isRaw hline))
  rw [← hwrap]
  exact hinfix.filter _

end Markers

mutual

/-- The attributes that a compiled node keeps as they are, its own and those of its children. -/
def CompiledNode.statics : CompiledNode → List Attribute
  | .element _ attrs _ children => attrs ++ forestStatics children
  | .text _ => []

def forestStatics : List CompiledNode → List Attribute
  | [] => []
  | node :: nodes => node.statics ++ forestStatics nodes

end

namespace Config

mutual

theorem isDynamic_of_compileNode {c : Config} : (n : Node) → {out : CompiledNode} →
    c.compileNode n = .ok out → ∀ a ∈ out.statics, c.isDynamic a = false
  | .text text, out, h => by
    obtain ⟨segments, -, rfl⟩ := exists_of_compileText h
    simp [CompiledNode.statics]
  | .element tag attrs selfClosing children, out, h => by
    obtain ⟨rest, ds, nodes, hattrs, hchildren, rfl⟩ := exists_of_compileNode h
    rw [CompiledNode.statics, List.forall_mem_append]
    refine ⟨fun a ha => ?_, isDynamic_of_compileNodes children hchildren⟩
    rw [statics_of_compileAttributes hattrs, List.mem_filter] at ha
    simpa using ha.2

theorem isDynamic_of_compileNodes {c : Config} : (ns : List Node) → {out : List CompiledNode} →
    c.compileNodes ns = .ok out → ∀ a ∈ forestStatics out, c.isDynamic a = false
  | [], out, h => by
    cases h
    simp [forestStatics]
  | n :: ns, out, h => by
    obtain ⟨first, rest, hn, hns, rfl⟩ := exists_of_compileNodes h
    rw [forestStatics, List.forall_mem_append]
    exact ⟨isDynamic_of_compileNode n hn, isDynamic_of_compileNodes ns hns⟩

end

/-- A value that holds an interpolation has a binding among its segments. -/
theorem exists_binding_of_hasInterpolation {c : Config} {value : String}
    (hc : c.markers.isOneLine = true) (h : c.hasInterpolation value = true) :
    ∃ b, .binding b ∈ c.scan value := by
  rw [scan, Markers.exists_binding_mem_scan_iff, Markers.hasInterpolation, String.toList_ofList]
  exact Markers.hasSpan_filter hc h

/-- A value that holds an interpolation has a binding among its segments. The converse holds for the
value without its line feeds, and so for a value on one line: an attribute on one line that a
compiled template keeps as it is has no binding that it would have as a text. -/
theorem hasInterpolation_iff_scan (c : Config) (hc : c.markers.isOneLine = true) :
    (∀ value, c.hasInterpolation value = true → ∃ b, .binding b ∈ c.scan value) ∧
    (∀ value, (∃ b, .binding b ∈ c.scan value) ↔
      c.hasInterpolation (String.ofList (value.toList.filter (· != '\n'))) = true) ∧
    (∀ value, '\n' ∉ value.toList →
      (c.hasInterpolation value = true ↔ ∃ b, .binding b ∈ c.scan value)) ∧
    (∀ source nodes, c.compileTemplate source = .ok nodes → ∀ a ∈ forestStatics nodes,
      '\n' ∉ (a.value.getD "").toList → ∀ b, .binding b ∉ c.scan (a.value.getD "")) := by
  have hscan (value : String) : (∃ b, .binding b ∈ c.scan value) ↔
      c.hasInterpolation (String.ofList (value.toList.filter (· != '\n'))) = true :=
    Markers.exists_binding_mem_scan_iff
  have hline (value : String) (h : '\n' ∉ value.toList) :
      c.hasInterpolation value = true ↔ ∃ b, .binding b ∈ c.scan value := by
    have hkeep : value.toList.filter (· != '\n') = value.toList := by
      rw [List.filter_eq_self]
      intro d hd
      exact bne_iff_ne.2 fun heq => h (heq ▸ hd)
    rw [hscan, hkeep, String.ofList_toList]
  refine ⟨fun value h => exists_binding_of_hasInterpolation hc h, hscan, hline, ?_⟩
  intro source nodes hnodes a ha hvalue b hb
  obtain ⟨ns, -, hns⟩ := exists_of_compileTemplate hnodes
  have hstatic := isDynamic_of_compileNodes ns hns a ha
  rw [isDynamic, Bool.or_eq_false_iff] at hstatic
  rw [(hline _ hvalue).2 ⟨b, hb⟩] at hstatic
  cases hstatic.2

theorem hasInterpolation_iff_scan_default :
    default.markers.isOneLine = true ∧
    (default.hasInterpolation "\x7b\x7b\n\x7d\x7d \x7b\x7ba\x7d\x7d" = true ∧
      ∃ b, .binding b ∈ default.scan "\x7b\x7b\n\x7d\x7d \x7b\x7ba\x7d\x7d") ∧
    ¬ ∃ b, .binding b ∈ default.scan "\x7b\x7b\x7d\x7d a" := by
  have hc : default.markers.isOneLine = true := by decide
  have hfound : default.hasInterpolation "\x7b\x7b\n\x7d\x7d \x7b\x7ba\x7d\x7d" = true := by
    decide
  refine ⟨hc, ⟨hfound, (hasInterpolation_iff_scan default hc).1 _ hfound⟩, ?_⟩
  rw [← (hasInterpolation_iff_scan default hc).2.2.1 _ (by decide)]
  decide

/-- A span that is broken over two lines: the text has a binding, but the attribute with the same
value is kept as it is. -/
theorem hasInterpolation_broken_span :
    default.hasInterpolation "\x7b\x7ba\nb\x7d\x7d" = false ∧
    default.scan "\x7b\x7ba\nb\x7d\x7d" =
      [.binding ⟨"ab", false, false, "\x7b\x7bab\x7d\x7d"⟩] ∧
    default.compileAttributes "p" [⟨"title", some "\x7b\x7ba\nb\x7d\x7d"⟩] =
      .ok ([⟨"title", some "\x7b\x7ba\nb\x7d\x7d"⟩], []) := by
  have hstatic : default.isDynamic ⟨"title", some "\x7b\x7ba\nb\x7d\x7d"⟩ = false := by
    decide +kernel
  refine ⟨by decide, by decide +kernel, ?_⟩
  simp only [compileAttributes, hstatic]
  rfl

end Config
end Stencil
