import Mathlib.Data.List.Chain
import Stencil.Proofs.Spans

/-!
# The decomposition of a text

A span is described apart from its reader: the opening marker, at least one character and the
closing marker, with as few characters between the markers as possible. A text without line feeds
has exactly one decomposition into such spans and the literal text between them, where a span is
taken wherever one starts and the raw pair goes first. The segments of a text are this
decomposition, for all markers, also empty and equal ones.
-/

namespace Stencil

variable {closer inner rest cs : List Char} {m : Markers}

theorem ne_nil_of_readInner (h : readInner closer cs = some (inner, rest)) : inner ≠ [] := by
  fun_induction readInner closer cs generalizing inner with
  | case1 => cases h
  | case2 => cases h
  | case3 c tail hc after hafter =>
    cases h
    simp
  | case4 c tail hc hafter ih =>
    obtain ⟨⟨i, a⟩, -, he⟩ := Option.map_eq_some_iff.1 h
    cases he
    simp

theorem not_mem_of_readInner (h : readInner closer cs = some (inner, rest)) : '\n' ∉ inner := by
  fun_induction readInner closer cs generalizing inner with
  | case1 => cases h
  | case2 => cases h
  | case3 c tail hc after hafter =>
    cases h
    simpa using Ne.symm hc
  | case4 c tail hc hafter ih =>
    obtain ⟨⟨i, a⟩, hread, he⟩ := Option.map_eq_some_iff.1 h
    cases he
    simpa using ⟨Ne.symm hc, ih hread⟩

/-- No shorter inside is followed by the closing marker. -/
theorem length_le_of_readInner (h : readInner closer cs = some (inner, rest)) {other : List Char}
    (hne : other ≠ []) (hother : other ++ closer <+: cs) : inner.length ≤ other.length := by
  fun_induction readInner closer cs generalizing inner other with
  | case1 => cases h
  | case2 => cases h
  | case3 c tail hc after hafter =>
    cases h
    exact List.length_pos_of_ne_nil hne
  | case4 c tail hc hafter ih =>
    obtain ⟨⟨i, a⟩, hread, he⟩ := Option.map_eq_some_iff.1 h
    cases he
    obtain ⟨d, other, rfl⟩ := List.exists_cons_of_ne_nil hne
    have htail : other ++ closer <+: tail := (List.cons_prefix_cons.1 hother).2
    by_cases hnil : other = []
    · -- the closing marker would follow the first character
      obtain ⟨after, hafter'⟩ := htail
      rw [hnil, List.nil_append] at hafter'
      rw [Text.after?_eq_some_iff.2 hafter'] at hafter
      cases hafter
    · exact Nat.succ_le_succ (ih hread hnil htail)

theorem exists_readInner (hne : inner ≠ []) (hline : '\n' ∉ inner) (closer rest : List Char) :
    ∃ found, readInner closer (inner ++ (closer ++ rest)) = some found := by
  induction inner with
  | nil => exact absurd rfl hne
  | cons c inner ih =>
    rw [List.mem_cons, not_or] at hline
    rw [List.cons_append, readInner, if_neg (Ne.symm hline.1)]
    cases hafter : Text.after? closer (inner ++ (closer ++ rest)) with
    | some after => exact ⟨_, rfl⟩
    | none =>
      have hnil : inner ≠ [] := by
        rintro rfl
        rw [List.nil_append, Text.after?_append] at hafter
        cases hafter
      obtain ⟨found, hfound⟩ := ih hnil hline.2
      exact ⟨_, by rw [hfound]; rfl⟩

namespace Delimiters

variable {d : Delimiters}

/-- At the front of the text stand the opening marker, `inner` and the closing marker, and no
smaller number of characters between the markers would do. -/
structure IsSpan (d : Delimiters) (cs inner : List Char) : Prop where
  nonempty : inner ≠ []
  front : d.wrap inner <+: cs
  least : ∀ other, other ≠ [] → d.wrap other <+: cs → inner.length ≤ other.length

theorem wrap_prefix_iff {tail : List Char} :
    d.wrap inner <+: d.opener.toList ++ tail ↔ inner ++ d.closer.toList <+: tail := by
  rw [wrap, List.append_assoc, List.prefix_append_right_inj]

theorem wrap_ne_nil (hne : inner ≠ []) : d.wrap inner ≠ [] := by
  simp [wrap, hne]

/-- The reader of spans finds the span at the front if it holds no line feed. -/
theorem inner?_eq_some_iff :
    d.inner? cs = some (inner, rest) ↔
      d.IsSpan cs inner ∧ '\n' ∉ inner ∧ cs = d.wrap inner ++ rest := by
  constructor
  · intro h
    have heq := eq_of_inner? h
    obtain ⟨tail, hopen, hread⟩ := Option.bind_eq_some_iff.1 h
    refine ⟨⟨ne_nil_of_readInner hread, ⟨rest, heq.symm⟩, fun other hne hother => ?_⟩,
      not_mem_of_readInner hread, heq⟩
    rw [← Text.append_eq_of_after? hopen, wrap_prefix_iff] at hother
    exact length_le_of_readInner hread hne hother
  · rintro ⟨hspan, hline, rfl⟩
    obtain ⟨⟨found, after⟩, hread⟩ := exists_readInner hspan.nonempty hline d.closer.toList rest
    have hfound : d.inner? (d.wrap inner ++ rest) = some (found, after) := by
      rw [inner?, wrap, List.append_assoc, List.append_assoc, Text.after?_append]
      exact hread
    -- both insides are as short as possible, so they are the same part of the text
    have hle : found.length ≤ inner.length :=
      length_le_of_readInner hread hspan.nonempty ⟨rest, by rw [List.append_assoc]⟩
    have hge : inner.length ≤ found.length :=
      hspan.least found (ne_nil_of_readInner hread) ⟨after, (eq_of_inner? hfound).symm⟩
    have heq : inner ++ (d.closer.toList ++ rest) = found ++ (d.closer.toList ++ after) :=
      eq_of_readInner hread
    obtain ⟨rfl, htail⟩ := List.append_inj heq (Nat.le_antisymm hge hle)
    obtain rfl := List.append_cancel_left htail
    exact hfound

/-- A closing marker somewhere after the opening one, on the same line, makes a span. -/
theorem exists_inner? (hne : inner ≠ []) (hline : '\n' ∉ inner) (rest : List Char) :
    ∃ found, d.inner? (d.wrap inner ++ rest) = some found := by
  obtain ⟨found, hread⟩ := exists_readInner hne hline d.closer.toList rest
  refine ⟨found, ?_⟩
  rw [inner?, wrap, List.append_assoc, List.append_assoc, Text.after?_append]
  exact hread

theorem inner?_nil : d.inner? [] = none := by
  cases h : d.inner? [] with
  | none => rfl
  | some found => exact absurd (length_inner?_lt h) (Nat.not_lt_zero _)

theorem inner?_eq_none_iff (hline : '\n' ∉ cs) :
    d.inner? cs = none ↔ ∀ inner, ¬ d.IsSpan cs inner := by
  constructor
  · intro hnone inner hspan
    obtain ⟨rest, rfl⟩ := hspan.front
    have hinner : '\n' ∉ inner := fun hmem => hline (by simp [wrap, hmem])
    rw [inner?_eq_some_iff.2 ⟨hspan, hinner, rfl⟩] at hnone
    cases hnone
  · intro hnone
    cases h : d.inner? cs with
    | none => rfl
    | some found => exact absurd (inner?_eq_some_iff.1 h).1 (hnone _)

end Delimiters

namespace Markers

/-- The span at the front of a text: one of the raw pair, or else one of the safe pair. -/
structure IsSpan (m : Markers) (cs : List Char) (s : Span) : Prop where
  span : (m.pair s.isRaw).IsSpan cs s.inner
  rawFirst : s.isRaw = false → ∀ inner, ¬ m.raw.IsSpan cs inner

theorem span?_nil : m.span? [] = none := by
  rw [span?, Delimiters.inner?_nil, Delimiters.inner?_nil]
  rfl

theorem span?_eq_some_iff (hline : '\n' ∉ cs) {s : Span} :
    m.span? cs = some (s, rest) ↔ m.IsSpan cs s ∧ cs = m.source s ++ rest := by
  constructor
  · intro h
    refine ⟨?_, eq_of_span? h⟩
    unfold span? at h
    split at h
    · rename_i hraw
      cases h
      exact ⟨(Delimiters.inner?_eq_some_iff.1 hraw).1, fun hfalse => by cases hfalse⟩
    · rename_i hraw
      obtain ⟨⟨inner, after⟩, hsafe, he⟩ := Option.map_eq_some_iff.1 h
      cases he
      exact ⟨(Delimiters.inner?_eq_some_iff.1 hsafe).1,
        fun _ => (Delimiters.inner?_eq_none_iff hline).1 hraw⟩
  · rintro ⟨⟨hspan, hfirst⟩, heq⟩
    obtain ⟨isRaw, inner⟩ := s
    have hinner : '\n' ∉ inner := fun hmem => hline (by simp [heq, source, Delimiters.wrap, hmem])
    have hread := Delimiters.inner?_eq_some_iff.2 ⟨hspan, hinner, heq⟩
    cases isRaw with
    | true =>
      have hraw : m.raw.inner? cs = some (inner, rest) := hread
      rw [span?, hraw]
    | false =>
      have hsafe : m.safe.inner? cs = some (inner, rest) := hread
      rw [span?, (Delimiters.inner?_eq_none_iff hline).2 (hfirst rfl), hsafe]
      rfl

theorem span?_eq_none_iff (hline : '\n' ∉ cs) :
    m.span? cs = none ↔ ∀ inner, ¬ m.raw.IsSpan cs inner ∧ ¬ m.safe.IsSpan cs inner := by
  rw [forall_and, ← Delimiters.inner?_eq_none_iff hline, ← Delimiters.inner?_eq_none_iff hline,
    span?]
  cases m.raw.inner? cs with
  | none => simp
  | some found => simp

end Markers

namespace Segment

/-- The characters that the segments were cut from. -/
def joined (segments : List Segment) : List Char :=
  segments.flatMap fun s => s.source.toList

/-- The segment with the raw mark of a binding taken off. -/
def unmarked : Segment → Segment
  | .text value => .text value
  | .binding b => .binding { b with html := false }

def isText : Segment → Bool
  | .text _ => true
  | .binding _ => false

theorem joined_cons (s : Segment) (segments : List Segment) :
    joined (s :: segments) = s.source.toList ++ joined segments :=
  rfl

theorem isText_unmarked (s : Segment) : s.unmarked.isText = s.isText := by
  cases s <;> rfl

theorem source_unmarked (s : Segment) : s.unmarked.source = s.source := by
  cases s <;> rfl

theorem unmarked_eq_text_iff {s : Segment} {value : String} :
    s.unmarked = .text value ↔ s = .text value := by
  cases s <;> simp [unmarked]

theorem joined_unmarked (segments : List Segment) :
    joined (segments.map unmarked) = joined segments := by
  rw [joined, List.flatMap_map]
  simp only [source_unmarked, joined]

end Segment

open Segment (joined)

/-- The binding is what the span says: its source is the span, and its value is the trimmed inside
without the star that marks it as evaluated once. -/
structure Binding.IsOf (b : Binding) (m : Markers) (s : Span) : Prop where
  raw : b.raw.toList = m.source s
  oneTime : b.oneTime = true ↔ s.inner.head? = some '*'
  value : b.value.toList =
    Text.trimChars (if s.inner.head? = some '*' then s.inner.tail else s.inner)

namespace Markers

/-- A way to cut a text, described by its laws and not by how it is found. -/
structure Decomposes (m : Markers) (text : List Char) (segments : List Segment) : Prop where
  nonempty : segments ≠ []
  sources : joined segments = text
  /-- No two literal texts stand side by side. -/
  apart : segments.IsChain fun s s' => ¬(s.isText = true ∧ s'.isText = true)
  full : text ≠ [] → ∀ value, .text value ∈ segments → value ≠ ""
  /-- No span starts inside a literal text. -/
  literal : ∀ before value after, segments = before ++ .text value :: after →
    ∀ front back, value.toList = front ++ back → back ≠ [] →
      ∀ inner, ¬ m.raw.IsSpan (back ++ joined after) inner ∧
        ¬ m.safe.IsSpan (back ++ joined after) inner
  /-- A binding is the span that starts where it does. -/
  bound : ∀ before b after, segments = before ++ .binding b :: after →
    ∃ s, m.IsSpan (b.raw.toList ++ joined after) s ∧ b.IsOf m s

/-- The same laws along the list: each segment is right where it stands, before the others. -/
inductive Tiles (m : Markers) : List Segment → Prop
  | nil : Tiles m []
  | text {value : String} {after : List Segment} : value ≠ "" →
      (∀ front back, value.toList = front ++ back → back ≠ [] →
        ∀ inner, ¬ m.raw.IsSpan (back ++ joined after) inner ∧
          ¬ m.safe.IsSpan (back ++ joined after) inner) →
      (∀ s ∈ after.head?, s.isText = false) → Tiles m after → Tiles m (.text value :: after)
  | binding {b : Binding} {s : Span} {after : List Segment} :
      m.IsSpan (b.raw.toList ++ joined after) s → b.IsOf m s → Tiles m after →
      Tiles m (.binding b :: after)

variable {segments : List Segment} {text : List Char}

theorem source_ne_nil {s : Span} (h : m.IsSpan cs s) : m.source s ≠ [] :=
  Delimiters.wrap_ne_nil h.span.nonempty

theorem Tiles.source_ne_nil (h : m.Tiles segments) : ∀ s ∈ segments, s.source.toList ≠ [] := by
  induction h with
  | nil => simp
  | text hvalue _ _ _ ih =>
    refine List.forall_mem_cons.2 ⟨?_, ih⟩
    simpa [Segment.source] using hvalue
  | binding hspan hb _ ih =>
    refine List.forall_mem_cons.2 ⟨?_, ih⟩
    rw [Segment.source, hb.raw]
    exact Markers.source_ne_nil hspan

theorem Tiles.apart (h : m.Tiles segments) :
    segments.IsChain fun s s' => ¬(s.isText = true ∧ s'.isText = true) := by
  induction h with
  | nil => exact .nil
  | text _ _ hhead _ ih => exact ih.cons fun s hs hboth => by simp [hhead s hs] at hboth
  | binding _ _ _ ih => exact ih.cons fun s _ hboth => by simp [Segment.isText] at hboth

theorem Tiles.suffix {before after : List Segment} (h : m.Tiles (before ++ after)) :
    m.Tiles after := by
  induction before with
  | nil => exact h
  | cons s before ih =>
    cases h with
    | text _ _ _ htail => exact ih htail
    | binding _ _ htail => exact ih htail

theorem Tiles.decomposes (h : m.Tiles segments) (hne : segments ≠ []) :
    m.Decomposes (joined segments) segments where
  nonempty := hne
  sources := rfl
  apart := h.apart
  full _ value hmem hempty := h.source_ne_nil _ hmem (by simp [Segment.source, hempty])
  literal before value after heq := by
    rw [heq] at h
    cases h.suffix with
    | text _ hliteral _ _ => exact hliteral
  bound before b after heq := by
    rw [heq] at h
    cases h.suffix with
    | binding hspan hb _ => exact ⟨_, hspan, hb⟩

theorem Decomposes.tiles (h : m.Decomposes text segments) (hne : text ≠ []) :
    m.Tiles segments := by
  have hfull := h.full hne
  have happart := h.apart
  have hliteral := h.literal
  have hbound := h.bound
  clear h hne
  induction segments with
  | nil => exact .nil
  | cons s after ih =>
    rw [List.isChain_cons] at happart
    have htail : m.Tiles after :=
      ih (fun value hmem => hfull value (List.mem_cons_of_mem s hmem)) happart.2
        (fun before value rest heq => hliteral (s :: before) value rest (by rw [heq]; rfl))
        (fun before b rest heq => hbound (s :: before) b rest (by rw [heq]; rfl))
    cases s with
    | text value =>
      refine .text (hfull value (by simp)) (hliteral [] value after rfl) (fun s hs => ?_) htail
      have := happart.1 s hs
      simpa [Segment.isText] using this
    | binding b =>
      obtain ⟨s, hspan, hb⟩ := hbound [] b after rfl
      exact .binding hspan hb htail

/-- An empty text has one decomposition, an empty literal. -/
theorem decomposes_nil_iff : m.Decomposes [] segments ↔ segments = [.text ""] := by
  constructor
  · intro h
    have hbinding (b : Binding) : .binding b ∉ segments := by
      intro hmem
      obtain ⟨before, after, heq⟩ := List.append_of_mem hmem
      obtain ⟨s, hspan, hb⟩ := h.bound before b after heq
      have hjoined := h.sources
      simp only [heq, joined, List.flatMap_append, List.flatMap_cons,
        List.append_eq_nil_iff] at hjoined
      exact source_ne_nil hspan (hb.raw.symm.trans hjoined.2.1)
    obtain ⟨s, after, rfl⟩ := List.exists_cons_of_ne_nil h.nonempty
    cases s with
    | binding b => exact absurd (List.mem_cons_self) (hbinding b)
    | text value =>
      have hvalue : value = "" := by
        simpa [Segment.source] using (List.append_eq_nil_iff.1 h.sources).1
      cases after with
      | nil => rw [hvalue]
      | cons s after =>
        have happart := (List.isChain_cons.1 h.apart).1 s rfl
        cases s with
        | text other => exact absurd ⟨rfl, rfl⟩ happart
        | binding b => exact absurd (by simp) (hbinding b)
  · rintro rfl
    refine ⟨by simp, rfl, .singleton _, fun h => absurd rfl h, ?_, ?_⟩
    · intro before value after heq front back hsplit hback
      obtain ⟨-, ⟨⟩, rfl⟩ | ⟨_, -, hnil⟩ := List.cons_eq_append_iff.1 heq
      all_goals simp_all
    · intro before b after heq
      simp [List.cons_eq_append_iff] at heq

/-- A text other than the empty one is decomposed segment by segment. -/
theorem decomposes_iff_tiles (hne : text ≠ []) :
    m.Decomposes text segments ↔ m.Tiles segments ∧ joined segments = text := by
  constructor
  · intro h
    exact ⟨h.tiles hne, h.sources⟩
  · rintro ⟨htiles, rfl⟩
    refine htiles.decomposes ?_
    rintro rfl
    exact hne rfl

theorem isOf_binding (m : Markers) (s : Span) : (m.binding s).IsOf m s := by
  obtain ⟨isRaw, inner⟩ := s
  cases inner with
  | nil => exact ⟨by simp [binding], by simp [binding, oneTimeMark], by simp [binding, oneTimeMark]⟩
  | cons c inner =>
    by_cases hc : c = '*'
    · subst hc
      exact ⟨by simp [binding], by simp [binding, oneTimeMark], by simp [binding, oneTimeMark]⟩
    · exact ⟨by simp [binding], by simp [binding, oneTimeMark, hc],
        by simp [binding, oneTimeMark, hc]⟩

/-- All but the raw mark of a binding is settled by its span. -/
theorem unmarked_eq_of_isOf {b b' : Binding} {s : Span} (h : b.IsOf m s) (h' : b'.IsOf m s) :
    (Segment.binding b).unmarked = (Segment.binding b').unmarked := by
  obtain ⟨value, html, oneTime, raw⟩ := b
  obtain ⟨value', html', oneTime', raw'⟩ := b'
  have hvalue : value = value' := String.toList_inj.1 (h.value.trans h'.value.symm)
  have hraw : raw = raw' := String.toList_inj.1 (h.raw.trans h'.raw.symm)
  have htime : oneTime = oneTime' := Bool.eq_iff_iff.2 (h.oneTime.trans h'.oneTime.symm)
  rw [hvalue, hraw, htime]
  rfl

theorem joined_segment_span (s : Span) (pieces : List Piece) :
    joined ((Piece.span s :: pieces).map m.segment) =
      m.source s ++ joined (pieces.map m.segment) := by
  simp [joined, segment, Segment.source, binding]

theorem joined_segment_push (c : Char) (pieces : List Piece) :
    joined ((Piece.push c pieces).map m.segment) = c :: joined (pieces.map m.segment) := by
  unfold Piece.push
  split <;> simp [joined, segment, Segment.source]

/-- The pieces of a text are the text. -/
theorem joined_pieces (m : Markers) (cs : List Char) :
    joined ((m.pieces cs).map m.segment) = cs := by
  induction hn : cs.length using Nat.strongRecOn generalizing cs with
  | ind n ih =>
    cases hspan : m.span? cs with
    | some found =>
      obtain ⟨s, rest⟩ := found
      have hlt := length_span?_lt hspan
      rw [pieces_span hspan, joined_segment_span, ih _ (hn ▸ hlt) rest rfl]
      exact (eq_of_span? hspan).symm
    | none =>
      cases cs with
      | nil => rw [pieces_nil hspan]; rfl
      | cons c rest =>
        rw [pieces_literal hspan, joined_segment_push, ih _ (by simp [← hn]) rest rfl]

theorem Tiles.single {c : Char} {after : List Segment}
    (hnone : ∀ inner, ¬ m.raw.IsSpan (c :: joined after) inner ∧
      ¬ m.safe.IsSpan (c :: joined after) inner)
    (hhead : ∀ s ∈ after.head?, s.isText = false) (h : m.Tiles after) :
    m.Tiles (.text (String.ofList [c]) :: after) := by
  refine .text (by simp) (fun front back hsplit hback => ?_) hhead h
  rw [String.toList_ofList] at hsplit
  cases front with
  | nil =>
    rw [← List.nil_append back, ← hsplit]
    exact hnone
  | cons d front =>
    exact absurd (List.append_eq_nil_iff.1 (List.cons.inj hsplit).2.symm).2 hback

theorem Tiles.extend {c : Char} {chars : List Char} {after : List Segment}
    (hnone : ∀ inner, ¬ m.raw.IsSpan (c :: (chars ++ joined after)) inner ∧
      ¬ m.safe.IsSpan (c :: (chars ++ joined after)) inner)
    (h : m.Tiles (.text (String.ofList chars) :: after)) :
    m.Tiles (.text (String.ofList (c :: chars)) :: after) := by
  cases h with
  | text _ hliteral hhead htail =>
    refine .text (by simp) (fun front back hsplit hback => ?_) hhead htail
    rw [String.toList_ofList] at hsplit
    -- the new position is the first one, the others were inside the literal before
    cases front with
    | nil =>
      rw [← List.nil_append back, ← hsplit]
      exact hnone
    | cons d front =>
      refine hliteral front back ?_ hback
      rw [String.toList_ofList]
      exact (List.cons.inj hsplit).2

theorem Tiles.push {c : Char} {pieces : List Piece}
    (hnone : ∀ inner, ¬ m.raw.IsSpan (c :: joined (pieces.map m.segment)) inner ∧
      ¬ m.safe.IsSpan (c :: joined (pieces.map m.segment)) inner)
    (h : m.Tiles (pieces.map m.segment)) : m.Tiles ((Piece.push c pieces).map m.segment) := by
  cases pieces with
  | nil => exact Tiles.single hnone (by simp) h
  | cons p pieces =>
    cases p with
    | literal chars =>
      refine Tiles.extend ?_ h
      simpa [joined, segment, Segment.source] using hnone
    | span s => exact Tiles.single hnone (by simp [segment, Segment.isText]) h

/-- The pieces of a text obey the laws of a decomposition. -/
theorem tiles_pieces (hline : '\n' ∉ cs) : m.Tiles ((m.pieces cs).map m.segment) := by
  induction hn : cs.length using Nat.strongRecOn generalizing cs with
  | ind n ih =>
    cases hspan : m.span? cs with
    | some found =>
      obtain ⟨s, rest⟩ := found
      have hlt := length_span?_lt hspan
      obtain ⟨his, heq⟩ := (span?_eq_some_iff hline).1 hspan
      have hrest : '\n' ∉ rest := fun hmem => hline (by simp [heq, hmem])
      have hb := isOf_binding m s
      rw [pieces_span hspan, List.map_cons]
      refine .binding ?_ hb (ih _ (hn ▸ hlt) hrest rfl)
      rwa [hb.raw, joined_pieces, ← heq]
    | none =>
      cases cs with
      | nil =>
        rw [pieces_nil hspan]
        exact .nil
      | cons c rest =>
        have hrest : '\n' ∉ rest := fun hmem => hline (List.mem_cons_of_mem c hmem)
        rw [pieces_literal hspan]
        refine Tiles.push ?_ (ih _ (by simp [← hn]) hrest rfl)
        rw [joined_pieces]
        exact (span?_eq_none_iff hline).1 hspan

/-- Characters at which no span starts are one literal, up to the next span. -/
theorem pieces_of_forall_none {chars : List Char} (hne : chars ≠ [])
    (hnone : ∀ front back, chars = front ++ back → back ≠ [] → m.span? (back ++ rest) = none)
    (hrest : ∀ p ∈ (m.pieces rest).head?, (m.segment p).isText = false) :
    m.pieces (chars ++ rest) = .literal chars :: m.pieces rest := by
  induction chars with
  | nil => exact absurd rfl hne
  | cons c chars ih =>
    have hfirst : m.span? (c :: (chars ++ rest)) = none := hnone [] (c :: chars) rfl (by simp)
    rw [List.cons_append, pieces_literal hfirst]
    cases chars with
    | nil =>
      rw [List.nil_append]
      cases hp : m.pieces rest with
      | nil => rfl
      | cons p pieces =>
        rw [hp] at hrest
        cases p with
        | literal chars => exact absurd (hrest _ rfl) (by simp [segment, Segment.isText])
        | span s => rfl
    | cons d chars =>
      rw [ih (by simp) fun front back heq => hnone (c :: front) back (by rw [heq]; rfl)]
      rfl

/-- The laws say nothing about the raw marks. -/
theorem tiles_unmarked_iff : m.Tiles (segments.map Segment.unmarked) ↔ m.Tiles segments := by
  induction segments with
  | nil => rfl
  | cons s after ih =>
    have hhead : (∀ s ∈ (after.map Segment.unmarked).head?, s.isText = false) ↔
        ∀ s ∈ after.head?, s.isText = false := by
      cases after with
      | nil => rfl
      | cons s after => simp [Segment.isText_unmarked]
    cases s with
    | text value =>
      constructor
      · rintro (_ | ⟨hvalue, hliteral, hnext, htail⟩)
        rw [Segment.joined_unmarked] at hliteral
        exact .text hvalue hliteral (hhead.1 hnext) (ih.1 htail)
      · rintro (_ | ⟨hvalue, hliteral, hnext, htail⟩)
        rw [← Segment.joined_unmarked] at hliteral
        exact .text hvalue hliteral (hhead.2 hnext) (ih.2 htail)
    | binding b =>
      constructor
      · rintro (_ | _ | ⟨hspan, hb, htail⟩)
        rw [Segment.joined_unmarked] at hspan
        exact .binding hspan ⟨hb.raw, hb.oneTime, hb.value⟩ (ih.1 htail)
      · rintro (_ | _ | ⟨hspan, hb, htail⟩)
        rw [← Segment.joined_unmarked] at hspan
        exact .binding hspan ⟨hb.raw, hb.oneTime, hb.value⟩ (ih.2 htail)

/-- Segments that obey the laws are the pieces of the text that they were cut from. -/
theorem Tiles.unmarked_eq (h : m.Tiles segments) (hline : '\n' ∉ joined segments) :
    segments.map Segment.unmarked =
      ((m.pieces (joined segments)).map m.segment).map Segment.unmarked := by
  induction h with
  | nil => rw [joined, List.flatMap_nil, pieces_nil span?_nil]; rfl
  | @text value after hvalue hliteral hhead _ ih =>
    rw [Segment.joined_cons, List.mem_append, not_or] at hline
    have ih := ih hline.2
    have hrest : ∀ p ∈ (m.pieces (joined after)).head?, (m.segment p).isText = false := by
      intro p hp
      have hmap := congrArg List.head? ih
      rw [List.head?_map, List.head?_map, List.head?_map, hp] at hmap
      obtain ⟨s, hs, heq⟩ := Option.map_eq_some_iff.1 hmap
      rw [← Segment.isText_unmarked, ← heq, Segment.isText_unmarked]
      exact hhead s hs
    have hnone : ∀ front back, value.toList = front ++ back → back ≠ [] →
        m.span? (back ++ joined after) = none := by
      intro front back hsplit hback
      refine (span?_eq_none_iff ?_).2 (hliteral front back hsplit hback)
      rw [List.mem_append, not_or]
      exact ⟨fun hmem => hline.1 (by simp [Segment.source, hsplit, hmem]), hline.2⟩
    have hpieces : m.pieces (value.toList ++ joined after) =
        .literal value.toList :: m.pieces (joined after) :=
      pieces_of_forall_none (by simpa using hvalue) hnone hrest
    rw [Segment.joined_cons, Segment.source, hpieces, List.map_cons, List.map_cons, List.map_cons,
      ih, segment, String.ofList_toList]
  | @binding b s after hspan hb _ ih =>
    have hjoined : joined (.binding b :: after) = b.raw.toList ++ joined after := rfl
    rw [hjoined] at hline
    have heq : m.span? (b.raw.toList ++ joined after) = some (s, joined after) :=
      (span?_eq_some_iff hline).2 ⟨hspan, by rw [hb.raw]⟩
    have ih := ih fun hmem => hline (List.mem_append_right _ hmem)
    rw [hjoined, pieces_span heq, List.map_cons, List.map_cons, List.map_cons, ih, segment,
      unmarked_eq_of_isOf hb (isOf_binding m s)]

theorem scan_of_ne_nil {text : String} (hne : text.toList.filter (· != '\n') ≠ []) :
    m.scan text = (m.pieces (text.toList.filter (· != '\n'))).map m.segment := by
  rw [scan]
  split
  · rename_i hnil
    have hjoined := joined_pieces m (text.toList.filter (· != '\n'))
    rw [hnil] at hjoined
    exact absurd hjoined.symm hne
  · rfl

theorem scan_of_eq_nil {text : String} (hnil : text.toList.filter (· != '\n') = []) :
    m.scan text = [.text ""] := by
  rw [scan, hnil, pieces_nil span?_nil]

/-- The segments of a text are the text without its line feeds. -/
theorem joined_scan (m : Markers) (text : String) :
    joined (m.scan text) = text.toList.filter (· != '\n') := by
  by_cases hnil : text.toList.filter (· != '\n') = []
  · rw [scan_of_eq_nil hnil, hnil]
    rfl
  · rw [scan_of_ne_nil hnil, joined_pieces]

theorem span_mem_push_iff {c : Char} {s : Span} {pieces : List Piece} :
    .span s ∈ Piece.push c pieces ↔ .span s ∈ pieces := by
  unfold Piece.push
  split <;> simp

/-- A text has a span among its pieces if one starts anywhere in it. -/
theorem exists_span_mem_pieces_iff : (∃ s, .span s ∈ m.pieces cs) ↔ m.hasSpan cs = true := by
  induction hn : cs.length using Nat.strongRecOn generalizing cs with
  | ind n ih =>
    cases cs with
    | nil => simp [pieces_nil span?_nil, hasSpan]
    | cons c rest =>
      rw [hasSpan, Bool.or_eq_true]
      cases hspan : m.span? (c :: rest) with
      | some found =>
        obtain ⟨s, after⟩ := found
        rw [pieces_span hspan]
        simp only [Option.isSome_some, true_or, iff_true]
        exact ⟨s, by simp⟩
      | none =>
        rw [pieces_literal hspan]
        simp only [span_mem_push_iff, Option.isSome_none, Bool.false_eq_true, false_or]
        exact ih _ (by simp [← hn]) rfl

/-- The segments of a text hold a binding if a span starts in the text without its line feeds. -/
theorem exists_binding_mem_scan_iff {text : String} :
    (∃ b, .binding b ∈ m.scan text) ↔
      m.hasInterpolation (String.ofList (text.toList.filter (· != '\n'))) = true := by
  rw [hasInterpolation, String.toList_ofList, ← exists_span_mem_pieces_iff]
  by_cases hnil : text.toList.filter (· != '\n') = []
  · rw [scan_of_eq_nil hnil, hnil, pieces_nil span?_nil]
    simp
  · rw [scan_of_ne_nil hnil]
    constructor
    · rintro ⟨b, hb⟩
      obtain ⟨p, hp, hseg⟩ := List.mem_map.1 hb
      cases p with
      | literal chars => cases hseg
      | span s => exact ⟨s, hp⟩
    · rintro ⟨s, hs⟩
      exact ⟨m.binding s, List.mem_map.2 ⟨_, hs, rfl⟩⟩

/-- The segments of a text are its only decomposition, up to the raw marks of bindings: cut at the
leftmost spans, the raw pair first, each span as short as possible. There is a binding among them
exactly if the text without its line feeds holds a span. -/
theorem decomposes_iff_scan (m : Markers) (text : String) :
    (∀ segments, m.Decomposes (text.toList.filter (· != '\n')) segments ↔
      segments.map Segment.unmarked = (m.scan text).map Segment.unmarked) ∧
    ((∃ b, .binding b ∈ m.scan text) ↔
      m.hasInterpolation (String.ofList (text.toList.filter (· != '\n'))) = true) := by
  refine ⟨fun segments => ?_, exists_binding_mem_scan_iff⟩
  have hline : '\n' ∉ text.toList.filter (· != '\n') := by simp
  by_cases hnil : text.toList.filter (· != '\n') = []
  · rw [hnil, decomposes_nil_iff, scan_of_eq_nil hnil]
    have hempty : [Segment.text ""].map Segment.unmarked = [.text ""] := rfl
    simp [hempty, List.map_eq_singleton_iff, Segment.unmarked_eq_text_iff]
  · rw [decomposes_iff_tiles hnil, scan_of_ne_nil hnil]
    constructor
    · rintro ⟨htiles, hjoined⟩
      rw [← hjoined] at hline ⊢
      exact htiles.unmarked_eq hline
    · intro h
      have hpieces := joined_pieces m (text.toList.filter (· != '\n'))
      rw [← tiles_unmarked_iff, ← Segment.joined_unmarked, h, tiles_unmarked_iff,
        Segment.joined_unmarked]
      exact ⟨tiles_pieces hline, hpieces⟩

end Markers
end Stencil
