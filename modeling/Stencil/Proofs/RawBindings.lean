import Stencil.Directive
import Stencil.Proofs.Decomposition
import Stencil.Proofs.Text

/-!
# Raw bindings

A binding is inserted without escaping if its span was found by the raw pair of markers and the
span, trimmed, still starts and ends with them. Trimming takes nothing off a span unless the opening
marker starts with a blank or the closing one ends with a blank. Markers that are tight in this
sense make every span of the raw pair a raw binding; with others no binding is raw at all, whatever
it was written with.
-/

namespace Stencil

open Segment (joined)

namespace Delimiters

variable {d : Delimiters} {inner : List Char}

/-- The opening marker does not start with a blank, and the closing one does not end with one. -/
def isTight (d : Delimiters) : Bool :=
  d.opener.toList.head?.all (!Text.isWhite ·) && d.closer.toList.getLast?.all (!Text.isWhite ·)

theorem head?_wrap (hopen : d.opener ≠ "") : (d.wrap inner).head? = d.opener.toList.head? := by
  rw [wrap, List.append_assoc, List.head?_append_of_ne_nil]
  simpa using hopen

theorem getLast?_wrap (hclose : d.closer ≠ "") :
    (d.wrap inner).getLast? = d.closer.toList.getLast? := by
  rw [wrap, List.getLast?_append_of_ne_nil]
  simpa using hclose

/-- Trimming takes nothing off a span if the markers are tight. -/
theorem trimmed_wrap (h : d.isTight = true) (hopen : d.opener ≠ "") (hclose : d.closer ≠ "") :
    Text.Trimmed (d.wrap inner) := by
  rw [isTight, Bool.and_eq_true] at h
  constructor
  · obtain ⟨c, cs, hc⟩ := List.exists_cons_of_ne_nil (l := d.opener.toList) (by simpa using hopen)
    rw [head?_wrap hopen]
    simp_all
  · rw [getLast?_wrap hclose]
    obtain ⟨c, hc⟩ := Option.isSome_iff_exists.1
      (List.getLast?_isSome (l := d.closer.toList) |>.2 (by simpa using hclose))
    simp_all

end Delimiters

namespace Markers

variable {m : Markers} {cs : List Char}

/-- A text that trimming makes a span of the raw pair shows that the pair is tight. -/
theorem isTight_of_isRawSpan (h : m.isRawSpan cs = true) (hopen : m.raw.opener ≠ "")
    (hclose : m.raw.closer ≠ "") : m.raw.isTight = true := by
  unfold isRawSpan at h
  split at h
  · cases h
  · rename_i rest hafter
    split at h
    · cases h
    · rename_i inner hbefore
      have heq : m.raw.wrap inner = Text.trimChars cs := by
        rw [Delimiters.wrap, List.append_assoc, Text.before?_eq_some_iff.1 hbefore,
          Text.append_eq_of_after? hafter]
      have hne : Text.trimChars cs ≠ [] := by
        rw [← heq]
        simpa [Delimiters.wrap] using fun h => absurd h hopen
      obtain ⟨⟨c, hc, hwhite⟩, ⟨e, he, hwhite'⟩⟩ := Text.trimmed_trimChars hne
      rw [← heq, Delimiters.head?_wrap hopen] at hc
      rw [← heq, Delimiters.getLast?_wrap hclose] at he
      simp_all [Delimiters.isTight]

/-- A span of the raw pair is taken for one exactly if the pair is tight. -/
theorem isRawSpan_wrap {inner : List Char} (hopen : m.raw.opener ≠ "") (hclose : m.raw.closer ≠ "")
    (hline : '\n' ∉ inner) : m.isRawSpan (m.raw.wrap inner) = true ↔ m.raw.isTight = true := by
  constructor
  · intro h
    exact isTight_of_isRawSpan h hopen hclose
  · intro h
    have hafter : Text.after? m.raw.opener.toList (m.raw.wrap inner)
        = some (inner ++ m.raw.closer.toList) := by
      rw [Delimiters.wrap, List.append_assoc, Text.after?_append]
    have hbefore : Text.before? m.raw.closer.toList (inner ++ m.raw.closer.toList) = some inner :=
      Text.before?_eq_some_iff.2 rfl
    rw [isRawSpan, (Delimiters.trimmed_wrap h hopen hclose).trimChars_eq]
    simp [hafter, hbefore, hline]

theorem exists_of_push {c : Char} {pieces front back : List Piece} {s : Span}
    (h : Piece.push c pieces = front ++ .span s :: back) :
    ∃ front', pieces = front' ++ .span s :: back := by
  cases front with
  | nil =>
    unfold Piece.push at h
    split at h <;> cases h
  | cons p front =>
    unfold Piece.push at h
    split at h
    · rename_i chars pieces
      exact ⟨.literal chars :: front, congrArg (.literal chars :: ·) (List.cons.inj h).2⟩
    · exact ⟨front, (List.cons.inj h).2⟩

/-- A span among the pieces of a text is the one that starts there. -/
theorem span?_of_pieces {front back : List Piece} {s : Span}
    (h : m.pieces cs = front ++ .span s :: back) :
    m.span? (m.source s ++ joined (back.map m.segment)) =
      some (s, joined (back.map m.segment)) := by
  induction hn : cs.length using Nat.strongRecOn generalizing cs front with
  | ind n ih =>
    cases hspan : m.span? cs with
    | some found =>
      obtain ⟨first, rest⟩ := found
      have hlt := length_span?_lt hspan
      rw [pieces_span hspan] at h
      cases front with
      | nil =>
        cases h
        rw [joined_pieces, ← eq_of_span? hspan, hspan]
      | cons p front => exact ih _ (hn ▸ hlt) (List.cons.inj h).2 rfl
    | none =>
      cases cs with
      | nil => simp [pieces_nil hspan] at h
      | cons c rest =>
        rw [pieces_literal hspan] at h
        obtain ⟨front', hrest⟩ := exists_of_push h
        exact ih _ (by simp [← hn]) hrest rfl

/-- A binding is what the span that starts where it stands says. -/
theorem exists_of_scan {text : String} {before after : List Segment} {b : Binding}
    (h : m.scan text = before ++ .binding b :: after) :
    ∃ s, m.span? (b.raw.toList ++ joined after) = some (s, joined after) ∧ b = m.binding s := by
  by_cases hnil : text.toList.filter (· != '\n') = []
  · rw [scan_of_eq_nil hnil] at h
    simp [List.cons_eq_append_iff] at h
  · rw [scan_of_ne_nil hnil] at h
    obtain ⟨front, tail, hpieces, -, htail⟩ := List.map_eq_append_iff.1 h
    obtain ⟨p, back, rfl, hb, rfl⟩ := List.map_eq_cons_iff.1 htail
    cases p with
    | literal chars => cases hb
    | span s =>
      cases hb
      refine ⟨s, ?_, rfl⟩
      rw [(isOf_binding m s).raw]
      exact span?_of_pieces hpieces

theorem not_mem_of_scan {text : String} {before after : List Segment} {b : Binding}
    (h : m.scan text = before ++ .binding b :: after) : '\n' ∉ b.raw.toList ++ joined after := by
  have hjoined :
      joined before ++ (b.raw.toList ++ joined after) = text.toList.filter (· != '\n') := by
    rw [← joined_scan m, h]
    simp [joined, Segment.source]
  intro hmem
  have hline : '\n' ∈ text.toList.filter (· != '\n') :=
    hjoined ▸ List.mem_append_right (joined before) hmem
  simp at hline

/-- The raw mark of a binding: its span is one of the raw pair, and the pair is tight. -/
theorem html_binding_iff {s : Span} (hopen : m.raw.opener ≠ "") (hclose : m.raw.closer ≠ "")
    (hline : '\n' ∉ s.inner) :
    (m.binding s).html = true ↔ s.isRaw = true ∧ m.raw.isTight = true := by
  obtain ⟨isRaw, inner⟩ := s
  cases isRaw with
  | false => simp [binding]
  | true =>
    have hraw := isRawSpan_wrap hopen hclose hline
    simpa [binding, source, pair] using hraw

end Markers

namespace Config

theorem ne_empty_of_fault? {c : Config} (h : c.fault? = none) :
    c.rawDelimiters.opener ≠ "" ∧ c.rawDelimiters.closer ≠ "" := by
  unfold fault? at h
  split_ifs at h with _ _ _ _ hopen hclose
  exact ⟨hopen, hclose⟩

/-- One span starts where a binding stands, and the binding is what this span says. It is raw
exactly if the raw pair of markers found the span and is tight. -/
theorem html_iff_isRaw {c : Config} (hc : c.fault? = none) {text : String}
    {before after : List Segment} {b : Binding} (h : c.scan text = before ++ .binding b :: after) :
    ∃ s, (∀ s', c.markers.IsSpan (b.raw.toList ++ joined after) s' ↔ s' = s) ∧
      b.IsOf c.markers s ∧
      (b.html = true ↔ s.isRaw = true ∧ c.rawDelimiters.isTight = true) := by
  obtain ⟨hopen, hclose⟩ := ne_empty_of_fault? hc
  have hline := Markers.not_mem_of_scan h
  obtain ⟨s, hspan, rfl⟩ := Markers.exists_of_scan h
  have his := Markers.isOf_binding c.markers s
  refine ⟨s, fun s' => ⟨?_, ?_⟩, his, ?_⟩
  · intro hs'
    obtain ⟨rest, hrest⟩ := hs'.span.front
    have hspan' := (Markers.span?_eq_some_iff hline).2 ⟨hs', hrest.symm⟩
    rw [hspan] at hspan'
    cases hspan'
    rfl
  · rintro rfl
    exact ((Markers.span?_eq_some_iff hline).1 hspan).1
  · refine Markers.html_binding_iff hopen hclose fun hmem => hline ?_
    rw [his.raw]
    simp [Markers.source, Delimiters.wrap, hmem]

theorem html_iff_isRaw_default :
    default.fault? = none ∧
    default.scan "a \x7b\x7b\x7b b \x7d\x7d\x7d" =
      [.text "a "] ++ .binding ⟨"b", true, false, "\x7b\x7b\x7b b \x7d\x7d\x7d"⟩ :: [] ∧
    ∃ s, (∀ s', default.markers.IsSpan
        ("\x7b\x7b\x7b b \x7d\x7d\x7d".toList ++ joined []) s' ↔ s' = s) ∧
      Binding.IsOf ⟨"b", true, false, "\x7b\x7b\x7b b \x7d\x7d\x7d"⟩ default.markers s ∧
      s.isRaw = true := by
  have hc : default.fault? = none := by decide
  have hscan : default.scan "a \x7b\x7b\x7b b \x7d\x7d\x7d" =
      [.text "a "] ++ .binding ⟨"b", true, false, "\x7b\x7b\x7b b \x7d\x7d\x7d"⟩ :: [] := by
    decide +kernel
  obtain ⟨s, hunique, hof, hhtml⟩ := html_iff_isRaw hc hscan
  exact ⟨hc, hscan, s, hunique, hof, (hhtml.1 rfl).1⟩

/-- A raw pair whose opening marker starts with a blank is allowed, but what it marks is not raw. -/
theorem html_blank_marker :
    let c : Config := { default with rawDelimiters := ⟨" \x7b\x7b\x7b", "\x7d\x7d\x7d"⟩ }
    c.fault? = none ∧
    c.scan "x \x7b\x7b\x7ba\x7d\x7d\x7d" =
      [.text "x", .binding ⟨"a", false, false, " \x7b\x7b\x7ba\x7d\x7d\x7d"⟩] ∧
    c.markers.IsSpan " \x7b\x7b\x7ba\x7d\x7d\x7d".toList ⟨true, ['a']⟩ := by
  intro c
  have hspan : c.markers.span? " \x7b\x7b\x7ba\x7d\x7d\x7d".toList = some (⟨true, ['a']⟩, []) := by
    decide
  exact ⟨by decide, by decide +kernel, ((Markers.span?_eq_some_iff (by decide)).1 hspan).1⟩

end Config
end Stencil
