import Stencil.Text.Front

/-!
# Marked spans

A span is an opening marker, at least one character other than a line feed, and the closing marker
that comes first. Two pairs of markers are in use; where both open a span the raw pair is taken.
-/

namespace Stencil

/-- A pair of markers. -/
structure Delimiters where
  opener : String
  closer : String
deriving DecidableEq, Repr

/-- The markers of escaped and of raw bindings. -/
structure Markers where
  safe : Delimiters
  raw : Delimiters
deriving DecidableEq, Repr

/-- A span of a text: the pair of markers that it was found by, and what stands between them. -/
structure Span where
  isRaw : Bool
  inner : List Char
deriving DecidableEq, Repr

/-- Reads up to the first closing marker that at least one character precedes; no line feed may
come before it. -/
def readInner (closer : List Char) : List Char → Option (List Char × List Char)
  | [] => none
  | c :: rest =>
    if c = '\n' then none
    else
      match Text.after? closer rest with
      | some after => some ([c], after)
      | none => (readInner closer rest).map fun (inner, after) => (c :: inner, after)

namespace Delimiters

/-- The inside of the span at the front, and what follows the span. -/
def inner? (d : Delimiters) (cs : List Char) : Option (List Char × List Char) :=
  (Text.after? d.opener.toList cs).bind (readInner d.closer.toList)

/-- The text of a span. -/
def wrap (d : Delimiters) (inner : List Char) : List Char :=
  d.opener.toList ++ inner ++ d.closer.toList

end Delimiters

namespace Markers

def pair (m : Markers) (isRaw : Bool) : Delimiters :=
  if isRaw then m.raw else m.safe

/-- The text of a span. -/
def source (m : Markers) (s : Span) : List Char :=
  (m.pair s.isRaw).wrap s.inner

/-- The span at the front, and what follows it. -/
def span? (m : Markers) (cs : List Char) : Option (Span × List Char) :=
  match m.raw.inner? cs with
  | some (inner, rest) => some (⟨true, inner⟩, rest)
  | none => (m.safe.inner? cs).map fun (inner, rest) => (⟨false, inner⟩, rest)

/-- A span starts somewhere in the text. -/
def hasSpan (m : Markers) : List Char → Bool
  | [] => false
  | c :: rest => (m.span? (c :: rest)).isSome || m.hasSpan rest

end Markers

/-- A piece of a text: literal characters, or a span. -/
inductive Piece where
  | literal (chars : List Char)
  | span (span : Span)
deriving DecidableEq, Repr

namespace Piece

/-- Puts a literal character in front. -/
def push (c : Char) : List Piece → List Piece
  | .literal chars :: pieces => .literal (c :: chars) :: pieces
  | pieces => .literal [c] :: pieces

end Piece

theorem length_readInner_lt {closer cs inner rest : List Char}
    (h : readInner closer cs = some (inner, rest)) : rest.length < cs.length := by
  fun_induction readInner closer cs generalizing inner with
  | case1 => simp at h
  | case2 => simp at h
  | case3 c tail _ after hp =>
    cases h
    exact Nat.lt_succ_of_le (Text.length_le_of_after? hp)
  | case4 c tail _ _ ih =>
    obtain ⟨⟨i, a⟩, hr, he⟩ := Option.map_eq_some_iff.1 h
    cases he
    exact Nat.lt_succ_of_lt (ih hr)

theorem Delimiters.length_inner?_lt {d : Delimiters} {cs inner rest : List Char}
    (h : d.inner? cs = some (inner, rest)) : rest.length < cs.length := by
  obtain ⟨after, hp, hr⟩ := Option.bind_eq_some_iff.1 h
  exact Nat.lt_of_lt_of_le (length_readInner_lt hr) (Text.length_le_of_after? hp)

theorem Markers.length_span?_lt {m : Markers} {cs rest : List Char} {s : Span}
    (h : m.span? cs = some (s, rest)) : rest.length < cs.length := by
  unfold Markers.span? at h
  split at h
  · rename_i hr
    cases h
    exact Delimiters.length_inner?_lt hr
  · obtain ⟨⟨i, r⟩, hs, he⟩ := Option.map_eq_some_iff.1 h
    cases he
    exact Delimiters.length_inner?_lt hs

/-- The spans of a text from the left, and the literal characters between them. -/
def Markers.pieces (m : Markers) (cs : List Char) : List Piece :=
  match h : m.span? cs with
  | some (s, rest) =>
    have := Markers.length_span?_lt h
    .span s :: m.pieces rest
  | none =>
    match cs with
    | [] => []
    | c :: rest => Piece.push c (m.pieces rest)
termination_by cs.length

end Stencil
