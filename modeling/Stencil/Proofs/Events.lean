import Stencil.Markup.Event
import Stencil.Proofs.Attempts
import Stencil.Proofs.Text

/-!
# Reading events from the front

What is read from the front of a text whatever follows it: a run of text, if a tag, a comment or the
end follows, and a tag or a comment without any condition.
-/

namespace Stencil.Markup

def startsMarkup (cs : List Char) : Bool :=
  startsTag cs || startsComment cs

/-- Text in which no tag and no comment starts. -/
def isRun : List Char → Bool
  | [] => true
  | c :: cs => !startsMarkup (c :: cs) && isRun cs

/-- A character that makes no tag or comment start before it. -/
def isInert (c : Char) : Bool :=
  !(c.isAlpha || c == '/' || c == '!' || c == '-')

/-- The end of the text, or the start of a tag or a comment. -/
def Sealed (cs : List Char) : Prop :=
  cs = [] ∨ startsMarkup cs = true

variable {c : Char} {cs ds rest tag : List Char}

theorem exists_cons_of_startsMarkup (h : startsMarkup cs = true) : ∃ tail, cs = '<' :: tail := by
  unfold startsMarkup startsTag startsComment at h
  split at h
  · exact ⟨_, rfl⟩
  · split at h
    · exact ⟨_, rfl⟩
    · simp at h

theorem isInert_of_sealed (h : Sealed rest) : ∀ d ∈ rest.head?, isInert d = true := by
  intro d hd
  rcases h with rfl | h
  · cases hd
  · obtain ⟨tail, rfl⟩ := exists_cons_of_startsMarkup h
    cases hd
    rfl

theorem startsTag_iff :
    startsTag cs = true ↔ ∃ d tail, cs = '<' :: d :: tail ∧ (d.isAlpha || d == '/') = true := by
  constructor
  · intro h
    unfold startsTag at h
    split at h
    · exact ⟨_, _, rfl, h⟩
    · cases h
  · rintro ⟨d, tail, rfl, hd⟩
    exact hd

theorem startsComment_iff :
    startsComment cs = true ↔ ∃ tail, cs = '<' :: '!' :: '-' :: '-' :: tail := by
  constructor
  · intro h
    unfold startsComment at h
    split at h
    · exact ⟨_, rfl⟩
    · cases h
  · rintro ⟨tail, rfl⟩
    rfl

theorem startsMarkup_of_append (h : startsMarkup cs = true) (rest : List Char) :
    startsMarkup (cs ++ rest) = true := by
  rw [startsMarkup, Bool.or_eq_true, startsTag_iff, startsComment_iff] at h ⊢
  rcases h with ⟨d, tail, rfl, hd⟩ | ⟨tail, rfl⟩
  · exact .inl ⟨d, tail ++ rest, rfl, hd⟩
  · exact .inr ⟨tail ++ rest, rfl⟩

/-- What follows does not matter unless it completes the start of a tag or a comment. -/
theorem startsMarkup_append (c : Char) (cs : List Char)
    (hrest : ∀ d ∈ rest.head?, isInert d = true) :
    startsMarkup (c :: cs ++ rest) = startsMarkup (c :: cs) := by
  refine Bool.eq_iff_iff.2 ⟨fun h => ?_, fun h => startsMarkup_of_append h rest⟩
  have hout : ∀ d tail, rest = d :: tail → d.isAlpha = false ∧ d ≠ '/' ∧ d ≠ '!' ∧ d ≠ '-' := by
    rintro d tail rfl
    simpa [isInert, and_assoc] using hrest d rfl
  rw [startsMarkup, Bool.or_eq_true, startsTag_iff, startsComment_iff] at h ⊢
  rcases h with ⟨d, tail, heq, hd⟩ | ⟨tail, heq⟩
  · rw [List.cons_append, List.cons.injEq] at heq
    obtain ⟨rfl, heq⟩ := heq
    rcases cs with _ | ⟨c₁, cs⟩
    · obtain ⟨halpha, hslash, -⟩ := hout d tail heq
      simp [halpha, hslash] at hd
    · rw [List.cons_append, List.cons.injEq] at heq
      exact .inl ⟨c₁, cs, rfl, heq.1 ▸ hd⟩
  · -- the seam may fall after any character of the start of a comment
    rcases cs with _ | ⟨c₁, _ | ⟨c₂, _ | ⟨c₃, cs⟩⟩⟩ <;>
      simp only [List.cons_append, List.nil_append, List.cons.injEq] at heq
    · exact absurd rfl (hout _ _ heq.2).2.2.1
    · exact absurd rfl (hout _ _ heq.2.2).2.2.2
    · exact absurd rfl (hout _ _ heq.2.2.2).2.2.2
    · obtain ⟨rfl, rfl, rfl, rfl, -⟩ := heq
      exact .inr ⟨cs, rfl⟩

theorem isRun_append (hds : ∀ d ∈ ds.head?, isInert d = true) :
    isRun (cs ++ ds) = (isRun cs && isRun ds) := by
  induction cs with
  | nil => simp [isRun]
  | cons c cs ih =>
    have hhead := startsMarkup_append c cs hds
    rw [List.cons_append] at hhead ⊢
    rw [isRun, isRun, hhead, ih, Bool.and_assoc]

theorem textRun_of_sealed (h : Sealed rest) : textRun rest = ([], rest) := by
  rcases h with rfl | h
  · rfl
  · cases rest with
    | nil => rfl
    | cons c rest => exact if_pos h

theorem textRun_append (hcs : isRun cs = true) (hrest : Sealed rest) :
    textRun (cs ++ rest) = (cs, rest) := by
  induction cs with
  | nil => exact textRun_of_sealed hrest
  | cons c cs ih =>
    rw [isRun, Bool.and_eq_true, Bool.not_eq_true'] at hcs
    have hhead := startsMarkup_append c cs (isInert_of_sealed hrest)
    rw [hcs.1, List.cons_append] at hhead
    have hstart : ¬(startsTag (c :: (cs ++ rest)) || startsComment (c :: (cs ++ rest))) = true := by
      rw [← startsMarkup, hhead]
      decide
    rw [List.cons_append, textRun, if_neg hstart, ih hcs.2]

theorem readEvents_cons {event : Option Event} (h : readEvent c cs = .ok (event, rest)) :
    readEvents (c :: cs) = (readEvents rest).map (event.toList ++ ·) := by
  rw [readEvents]
  split
  · rename_i herror
    rw [h] at herror
    cases herror
  · rename_i hok
    rw [h] at hok
    cases hok
    rfl

theorem readEvents_text (hne : cs ≠ []) (hcs : isRun cs = true) (hrest : Sealed rest) :
    readEvents (cs ++ rest) = (readEvents rest).map (.text (String.ofList cs) :: ·) := by
  cases cs with
  | nil => exact absurd rfl hne
  | cons c cs =>
    rw [isRun, Bool.and_eq_true, Bool.not_eq_true'] at hcs
    have hhead := startsMarkup_append c cs (isInert_of_sealed hrest)
    rw [hcs.1, startsMarkup, Bool.or_eq_false_iff] at hhead
    have hevent : readEvent c (cs ++ rest) =
        .ok (some (.text (String.ofList (c :: cs))), rest) := by
      rw [List.cons_append] at hhead
      simp only [readEvent, hhead, textRun_append hcs.2 hrest, Bool.false_eq_true, if_false]
    exact readEvents_cons hevent

theorem readEvents_comment :
    readEvents ('<' :: '!' :: '-' :: '-' :: '-' :: '-' :: '>' :: rest) = readEvents rest := by
  have hevent : readEvent '<' ('!' :: '-' :: '-' :: '-' :: '-' :: '>' :: rest) = .ok (none, rest) :=
    rfl
  rw [readEvents_cons hevent]
  cases readEvents rest <;> rfl

theorem readEvents_tag {event : Event} (hcs : startsTag ('<' :: cs) = true)
    (h : readTag ('<' :: cs) = .ok (event, rest)) :
    readEvents ('<' :: cs) = (readEvents rest).map (event :: ·) := by
  have hcomment : startsComment ('<' :: cs) = false := by
    refine Bool.eq_false_iff.2 fun hcomment => ?_
    obtain ⟨tail, heq⟩ := startsComment_iff.1 hcomment
    simp [heq, startsTag] at hcs
  have hevent : readEvent '<' cs = .ok (some event, rest) := by
    simp only [readEvent, hcomment, hcs, h, Bool.false_eq_true, if_false, if_true]
  exact readEvents_cons hevent

theorem readEvents_closeTag (htag : ∀ d ∈ tag, isTagChar d = true) :
    readEvents ('<' :: '/' :: (tag ++ '>' :: rest)) =
      (readEvents rest).map (.closeTag (String.ofList tag) :: ·) := by
  have hstop : ∀ d ∈ ('>' :: rest).head?, isTagChar d = false := by
    rintro d ⟨⟩
    rfl
  have hread : readTag ('<' :: '/' :: (tag ++ '>' :: rest)) =
      .ok (.closeTag (String.ofList tag), rest) := by
    rw [readTag, Text.takeWhile_append_of_stop htag hstop, Text.dropWhile_append_of_stop htag hstop]
    rfl
  exact readEvents_tag rfl hread

/-- The name of an element: a letter, and then characters of names. -/
def isTagName : List Char → Bool
  | [] => false
  | c :: cs => c.isAlpha && cs.all isTagChar

theorem mem_of_isTagName (h : isTagName tag = true) : ∀ d ∈ tag, isTagChar d = true := by
  cases tag with
  | nil => cases h
  | cons c cs =>
    rw [isTagName, Bool.and_eq_true, List.all_eq_true] at h
    refine List.forall_mem_cons.2 ⟨?_, h.2⟩
    simp [isTagChar, Char.isAlphanum, h.1]

theorem startsTag_of_isTagName (h : isTagName tag = true) (rest : List Char) :
    startsTag ('<' :: (tag ++ rest)) = true := by
  cases tag with
  | nil => cases h
  | cons c cs =>
    rw [isTagName, Bool.and_eq_true] at h
    simp [startsTag, h.1]

/-- The event of a tag that is not a closing one. -/
def tagEvent (tag : String) (attrs : List Attribute) (closes : Bool) : Event :=
  if closes then .selfClosing tag attrs else .openTag tag attrs

theorem readEvents_openTag {after : List Char} {attrs : List Attribute} {closes : Bool}
    (htag : isTagName tag = true) (hafter : ∀ d ∈ after.head?, isTagChar d = false)
    (h : ∀ b, readAttributes b after = .ok (attrs, closes, rest)) :
    readEvents ('<' :: (tag ++ after)) =
      (readEvents rest).map (tagEvent (String.ofList tag) attrs closes :: ·) := by
  have hname := mem_of_isTagName htag
  have hread : readTag ('<' :: (tag ++ after)) =
      .ok (tagEvent (String.ofList tag) attrs closes, rest) := by
    unfold readTag
    split
    · rename_i d tail heq
      -- a name starts with a letter, not with a slash
      cases tag with
      | nil => cases htag
      | cons c cs =>
        simp only [List.cons_append, List.cons.injEq] at heq
        obtain ⟨-, rfl, -⟩ := heq
        cases htag
    · simp only [List.drop_succ_cons, List.drop_zero, Text.takeWhile_append_of_stop hname hafter,
        Text.dropWhile_append_of_stop hname hafter, h]
      cases closes <;> rfl
  exact readEvents_tag (startsTag_of_isTagName htag after) hread

/-- The branches of `readAttributes` by the first character that is not blank. -/
theorem readAttributes_eq (b : Break) (cs : List Char) :
    readAttributes b cs = match skipBlanks cs with
      | [] => .error b
      | '/' :: rest => .ok ([], true, skipEnd (skipBlanks rest))
      | '>' :: rest => .ok ([], false, rest)
      | c :: rest =>
        if isAttributeChar c then
          match readAttribute (c :: rest) with
          | .error e => .error e
          | .ok (a, after) =>
            (readAttributes b after).map fun (attrs, ending) => (a :: attrs, ending)
        else readAttributes b rest := by
  rw [readAttributes]
  split <;> rename_i hs <;> simp only [hs]
  split
  · split <;> rename_i ha <;> simp only [ha]
  · rfl

theorem readAttributes_nil (b : Break) : readAttributes b [] = .error b := by
  rw [readAttributes_eq]
  rfl

theorem skipBlanks_eq (h : ∀ d ∈ cs.head?, Text.isTagBlank d = false) : skipBlanks cs = cs :=
  Text.dropWhile_of_stop h

theorem skipBlanks_cons (h : Text.isTagBlank c = true) (cs : List Char) :
    skipBlanks (c :: cs) = skipBlanks cs :=
  List.dropWhile_cons_of_pos h

theorem readAttributes_blank (b : Break) (h : Text.isTagBlank c = true) (cs : List Char) :
    readAttributes b (c :: cs) = readAttributes b cs := by
  rw [readAttributes_eq, readAttributes_eq b cs, skipBlanks_cons h]

theorem readAttributes_skipBlanks (b : Break) (cs : List Char) :
    readAttributes b (skipBlanks cs) = readAttributes b cs := by
  have hskip : skipBlanks (skipBlanks cs) = skipBlanks cs := skipBlanks_eq (Text.head?_dropWhile cs)
  rw [readAttributes_eq, readAttributes_eq b cs, hskip]

theorem readAttributes_end (b : Break) (rest : List Char) :
    readAttributes b ('>' :: rest) = .ok ([], false, rest) := by
  rw [readAttributes_eq]
  rfl

theorem readAttributes_selfClosing (b : Break) (rest : List Char) :
    readAttributes b ('/' :: '>' :: rest) = .ok ([], true, rest) := by
  rw [readAttributes_eq]
  rfl

theorem isTagBlank_of_isAttributeChar (h : isAttributeChar c = true) :
    Text.isTagBlank c = false := by
  simp only [isAttributeChar, Bool.not_eq_true', Bool.or_eq_false_iff] at h
  exact h.1.1.1.1.1.1

/-- An attribute is put before those that are read after it. -/
theorem readAttributes_cons {b : Break} {a : Attribute} {after : List Char}
    (hc : isAttributeChar c = true) (h : readAttribute (c :: cs) = .ok (a, after)) :
    readAttributes b (c :: cs) =
      (readAttributes b after).map fun (attrs, ending) => (a :: attrs, ending) := by
  have hblank : skipBlanks (c :: cs) = c :: cs := by
    refine skipBlanks_eq ?_
    rintro d ⟨⟩
    exact isTagBlank_of_isAttributeChar hc
  rw [readAttributes_eq, hblank]
  split
  · rename_i heq
    cases heq
  · rename_i heq
    cases heq
    cases hc
  · rename_i heq
    cases heq
    cases hc
  · rename_i heq
    cases heq
    rw [if_pos hc, h]

end Stencil.Markup
