import Stencil.Proofs.Interpolation
import Stencil.Proofs.RawBindings

/-!
# Scanning what was written

A list of segments is written by putting literal texts down as they are and each binding between its
markers. The openers of the two pairs share their first braces, as the closers do, and a literal may
start with closing braces right after a binding; still every seam is found again, so that a text
that was written from plain segments is scanned into these segments.
-/

namespace Stencil

namespace Binding

/-- What is written between the markers. -/
def inner (b : Binding) : List Char :=
  if b.oneTime then '*' :: b.value.toList else b.value.toList

/-- The value is not empty, trimmed and without braces and line feeds, and does not start with a
star that would be taken for a mark. -/
structure IsPlain (b : Binding) : Prop where
  nonempty : b.value ≠ ""
  trimmed : Text.trim b.value = b.value
  braceless : isBraceless b.value.toList = true
  unmarked : b.oneTime = false → b.value.toList.head? ≠ some '*'

variable {b : Binding}

theorem inner_ne_nil (h : b.IsPlain) : b.inner ≠ [] := by
  unfold inner
  split
  · simp
  · simpa using h.nonempty

theorem isBraceless_inner (h : b.IsPlain) : isBraceless b.inner = true := by
  unfold inner
  split
  · simpa [isBraceless] using h.braceless
  · exact h.braceless

/-- The mark is read off the inside, and the value is left. -/
theorem oneTimeMark_inner (h : b.IsPlain) :
    oneTimeMark b.inner = (b.oneTime, b.value.toList) := by
  unfold inner oneTimeMark
  cases htime : b.oneTime with
  | true => rfl
  | false =>
    rw [if_neg (by simp)]
    split
    · rename_i rest heq
      exact absurd (by rw [heq]; rfl) (h.unmarked htime)
    · rfl

end Binding

namespace Segment

/-- A literal text is plain if it is not empty and holds no opening brace and no line feed. -/
def IsPlain : Segment → Prop
  | .text value => value ≠ "" ∧ '\x7b' ∉ value.toList ∧ '\n' ∉ value.toList
  | .binding b => b.IsPlain

def write (m : Markers) : Segment → List Char
  | .text value => value.toList
  | .binding b => (m.pair b.html).wrap b.inner

/-- The segment with what is written for a binding as its source. -/
def sourced (m : Markers) : Segment → Segment
  | .text value => .text value
  | .binding b => .binding { b with raw := String.ofList ((m.pair b.html).wrap b.inner) }

/-- The piece of a text that the segment is cut from. -/
def piece : Segment → Piece
  | .text value => .literal value.toList
  | .binding b => .span ⟨b.html, b.inner⟩

theorem isText_segment_piece (m : Markers) (s : Segment) :
    (m.segment s.piece).isText = s.isText := by
  cases s <;> rfl

end Segment

namespace Config

variable {b : Binding} {s : Segment} {segments : List Segment}

theorem binding_inner (h : b.IsPlain) :
    default.markers.binding ⟨b.html, b.inner⟩ =
      { b with raw := String.ofList ((default.markers.pair b.html).wrap b.inner) } := by
  have hline := (not_mem_of_isBraceless (Binding.isBraceless_inner h)).2.2
  have hmark := Binding.oneTimeMark_inner h
  have hvalue : String.ofList (Text.trimChars b.value.toList) = b.value := h.trimmed
  have htight : default.markers.raw.isTight = true := by decide
  have hhtml : (default.markers.binding ⟨b.html, b.inner⟩).html = b.html := by
    rw [Bool.eq_iff_iff, Markers.html_binding_iff (by decide) (by decide) hline]
    simp [htight]
  rw [Markers.binding] at hhtml ⊢
  simp only [hmark, hvalue] at hhtml ⊢
  rw [hhtml]
  rfl

theorem segment_piece (h : s.IsPlain) :
    default.markers.segment s.piece = s.sourced default.markers := by
  cases s with
  | text value => rw [Segment.piece, Markers.segment, String.ofList_toList, Segment.sourced]
  | binding b => rw [Segment.piece, Markers.segment, binding_inner h, Segment.sourced]

/-- A span starts with a brace. -/
theorem span?_of_ne {c : Char} (hc : c ≠ '\x7b') (rest : List Char) :
    default.markers.span? (c :: rest) = none := by
  cases h : default.markers.span? (c :: rest) with
  | none => rfl
  | some found =>
    obtain ⟨⟨isRaw, inner⟩, after⟩ := found
    have hhead := congrArg List.head? (Markers.eq_of_span? h)
    cases isRaw <;>
      simp [Markers.source, Markers.pair, Delimiters.wrap, markers, default, hc] at hhead

theorem not_mem_write (h : s.IsPlain) : '\n' ∉ s.write default.markers := by
  cases s with
  | text value => exact h.2.2
  | binding b =>
    have hline := (not_mem_of_isBraceless (Binding.isBraceless_inner h)).2.2
    cases hhtml : b.html <;>
      simp [Segment.write, Markers.pair, Delimiters.wrap, markers, default, hline, hhtml]

/-- By induction on the segments: a binding is the span that starts where it was written, whatever
follows, and a literal text ends where a span starts or the text ends. -/
theorem pieces_write (h : ∀ s ∈ segments, s.IsPlain)
    (hapart : segments.IsChain fun s s' => ¬(s.isText = true ∧ s'.isText = true)) :
    default.markers.pieces (segments.flatMap (Segment.write default.markers)) =
      segments.map Segment.piece := by
  induction segments with
  | nil => rw [List.flatMap_nil, Markers.pieces_nil Markers.span?_nil, List.map_nil]
  | cons s after ih =>
    rw [List.forall_mem_cons] at h
    rw [List.isChain_cons] at hapart
    have ih := ih h.2 hapart.2
    rw [List.flatMap_cons, List.map_cons, ← ih]
    cases s with
    | text value =>
      obtain ⟨hne, hbrace, -⟩ := h.1
      rw [Segment.write, Segment.piece]
      refine Markers.pieces_of_forall_none (by simpa using hne) ?_ ?_
      · intro front back hsplit hback
        obtain ⟨c, back, rfl⟩ := List.exists_cons_of_ne_nil hback
        refine span?_of_ne ?_ _
        rintro rfl
        exact hbrace (by simp [hsplit])
      · intro p hp
        rw [ih, List.head?_map] at hp
        obtain ⟨next, hnext, rfl⟩ := Option.map_eq_some_iff.1 hp
        rw [Segment.isText_segment_piece]
        simpa [Segment.isText] using hapart.1 next hnext
    | binding b =>
      exact Markers.pieces_span (span?_source (Binding.inner_ne_nil h.1)
        (Binding.isBraceless_inner h.1) _)

/-- With the default markers, a text that is written from plain segments, no two literals side by
side, is scanned into these segments, each binding with what was written for it. -/
theorem scan_write (c : Config) (hc : c.markers = default.markers) (segments : List Segment)
    (hne : segments ≠ []) (hplain : ∀ s ∈ segments, s.IsPlain)
    (hapart : segments.IsChain fun s s' => ¬(s.isText = true ∧ s'.isText = true)) :
    c.scan (String.ofList (segments.flatMap (Segment.write c.markers))) =
      segments.map (Segment.sourced c.markers) := by
  have hpieces := pieces_write hplain hapart
  have hline : '\n' ∉ segments.flatMap (Segment.write default.markers) := by
    intro hmem
    obtain ⟨s, hs, hline⟩ := List.mem_flatMap.1 hmem
    exact not_mem_write (hplain s hs) hline
  rw [← String.toList_ofList (l := segments.flatMap (Segment.write default.markers))]
    at hpieces hline
  rw [scan, hc, Markers.scan_eq_map hline hpieces (by simpa using hne), List.map_map]
  exact List.map_congr_left fun s hs => segment_piece (hplain s hs)

/-- A literal that starts with closing braces between bindings of both pairs, one right after the
other, and a value that starts with a star behind the mark. -/
def seamSegments : List Segment :=
  [.binding ⟨"a", false, false, ""⟩, .text "\x7d\x7d\x7d b", .binding ⟨"*c", true, true, ""⟩,
    .binding ⟨"d e", false, true, ""⟩, .text "\x7d"]

theorem scan_write_seams :
    default.scan ("\x7b\x7ba\x7d\x7d\x7d\x7d\x7d b\x7b\x7b\x7b**c\x7d\x7d\x7d"
        ++ "\x7b\x7b*d e\x7d\x7d\x7d") =
      [.binding ⟨"a", false, false, "\x7b\x7ba\x7d\x7d"⟩, .text "\x7d\x7d\x7d b",
        .binding ⟨"*c", true, true, "\x7b\x7b\x7b**c\x7d\x7d\x7d"⟩,
        .binding ⟨"d e", false, true, "\x7b\x7b*d e\x7d\x7d"⟩, .text "\x7d"] := by
  have hplain : ∀ s ∈ seamSegments, s.IsPlain := by
    simp only [seamSegments, List.forall_mem_cons]
    exact ⟨⟨by decide, by decide, by decide, by decide⟩, ⟨by decide, by decide, by decide⟩,
      ⟨by decide, by decide, by decide, by decide⟩, ⟨by decide, by decide, by decide, by decide⟩,
      ⟨by decide, by decide, by decide⟩, by simp⟩
  have hapart : seamSegments.IsChain fun s s' => ¬(s.isText = true ∧ s'.isText = true) := by
    simp [seamSegments, Segment.isText]
  exact scan_write default rfl seamSegments (by simp [seamSegments]) hplain hapart

end Config
end Stencil
