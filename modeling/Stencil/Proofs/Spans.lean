import Stencil.Proofs.Text
import Stencil.Segment

/-!
# Spans of a text

What the reader of a span takes from the front of a text, and the pieces of texts that hold no span
or are one.
-/

namespace Stencil

variable {closer inner rest cs : List Char} {m : Markers}

theorem eq_of_readInner (h : readInner closer cs = some (inner, rest)) :
    cs = inner ++ (closer ++ rest) := by
  fun_induction readInner closer cs generalizing inner with
  | case1 => cases h
  | case2 => cases h
  | case3 c tail _ after hafter =>
    cases h
    rw [← Text.append_eq_of_after? hafter]
    rfl
  | case4 c tail _ _ ih =>
    obtain ⟨⟨i, a⟩, hread, he⟩ := Option.map_eq_some_iff.1 h
    cases he
    rw [ih hread]
    rfl

/-- The span ends at the first closing marker; a text without its first character holds none. -/
theorem readInner_append {c : Char} {closer : List Char} (hne : inner ≠ [])
    (hinner : ∀ d ∈ inner, d ≠ c ∧ d ≠ '\n') (rest : List Char) :
    readInner (c :: closer) (inner ++ (c :: closer ++ rest)) = some (inner, rest) := by
  induction inner with
  | nil => exact absurd rfl hne
  | cons d inner ih =>
    rw [List.forall_mem_cons] at hinner
    rw [List.cons_append, readInner, if_neg hinner.1.2]
    cases inner with
    | nil => rw [List.nil_append, Text.after?_append]
    | cons d' inner =>
      have hafter : Text.after? (c :: closer) (d' :: inner ++ (c :: closer ++ rest)) = none := by
        rw [List.cons_append, Text.after?, if_neg (hinner.2 d' (by simp)).1.symm]
      rw [hafter, ih (by simp) hinner.2]
      rfl

theorem Delimiters.eq_of_inner? {d : Delimiters} (h : d.inner? cs = some (inner, rest)) :
    cs = d.wrap inner ++ rest := by
  obtain ⟨tail, hopen, hread⟩ := Option.bind_eq_some_iff.1 h
  rw [← Text.append_eq_of_after? hopen, eq_of_readInner hread, Delimiters.wrap]
  simp only [List.append_assoc]

theorem Delimiters.ofList_wrap (d : Delimiters) (text : String) :
    String.ofList (d.wrap text.toList) = d.opener ++ text ++ d.closer := by
  simp only [Delimiters.wrap, String.ofList_append, String.ofList_toList]

namespace Markers

theorem eq_of_span? {s : Span} (h : m.span? cs = some (s, rest)) : cs = m.source s ++ rest := by
  unfold span? at h
  split at h
  · rename_i hraw
    cases h
    exact Delimiters.eq_of_inner? hraw
  · obtain ⟨⟨inner, after⟩, hsafe, he⟩ := Option.map_eq_some_iff.1 h
    cases he
    exact Delimiters.eq_of_inner? hsafe

/-- Without a character that both closing markers hold there is no span. -/
theorem hasSpan_of_not_mem {c : Char} (hsafe : c ∈ m.safe.closer.toList)
    (hraw : c ∈ m.raw.closer.toList) (hcs : c ∉ cs) : m.hasSpan cs = false := by
  have hnone (tail : List Char) (htail : c ∉ tail) : m.span? tail = none := by
    cases h : m.span? tail with
    | none => rfl
    | some found =>
      have hsource : c ∈ m.source found.1 := by
        unfold source pair
        split <;> simp [Delimiters.wrap, hsafe, hraw]
      exact absurd (eq_of_span? h ▸ List.mem_append_left _ hsource) htail
  induction cs with
  | nil => rfl
  | cons d cs ih =>
    rw [hasSpan, hnone _ hcs, ih fun h => hcs (List.mem_cons_of_mem d h)]
    rfl

theorem pieces_span {s : Span} (h : m.span? cs = some (s, rest)) :
    m.pieces cs = .span s :: m.pieces rest := by
  rw [pieces]
  split
  · rename_i heq
    rw [h] at heq
    cases heq
    rfl
  · rename_i heq
    rw [h] at heq
    cases heq

theorem pieces_literal {c : Char} (h : m.span? (c :: cs) = none) :
    m.pieces (c :: cs) = Piece.push c (m.pieces cs) := by
  rw [pieces]
  split
  · rename_i heq
    rw [h] at heq
    cases heq
  · rfl

theorem pieces_nil (h : m.span? [] = none) : m.pieces [] = [] := by
  rw [pieces]
  split
  · rename_i heq
    rw [h] at heq
    cases heq
  · rfl

/-- A text without spans is one literal. -/
theorem pieces_of_hasSpan (hne : cs ≠ []) (hnil : m.span? [] = none) (h : m.hasSpan cs = false) :
    m.pieces cs = [.literal cs] := by
  induction cs with
  | nil => exact absurd rfl hne
  | cons c cs ih =>
    rw [hasSpan, Bool.or_eq_false_iff, Option.isSome_eq_false_iff, Option.isNone_iff_eq_none] at h
    rw [pieces_literal h.1]
    cases cs with
    | nil => rw [pieces_nil hnil]; rfl
    | cons d cs => rw [ih (by simp) h.2]; rfl

theorem scan_eq_map {text : String} {pieces : List Piece} (h : '\n' ∉ text.toList)
    (hpieces : m.pieces text.toList = pieces) (hne : pieces ≠ []) :
    m.scan text = pieces.map m.segment := by
  have hkeep : text.toList.filter (· != '\n') = text.toList :=
    List.filter_eq_self.2 (Text.bne_of_not_mem h)
  rw [scan, hkeep, hpieces]
  split
  · exact absurd rfl hne
  · rfl

end Markers
end Stencil
