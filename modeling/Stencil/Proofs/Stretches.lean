import Stencil.Proofs.Events

/-!
# The stretches of a text

What a reader leaves behind is the end of what it was given, unchanged. The events of a text are
therefore read from stretches of it that follow each other and leave nothing out: a run of text is
its own stretch, a tag is one that starts with its name, and the stretches of comments are read as
no event.
-/

namespace Stencil.Markup

/-- The characters that an event can be read from. -/
def Event.IsWritten (chars : List Char) : Event → Prop
  | .text run => chars = run.toList ∧ chars ≠ [] ∧ isRun chars = true
  | .openTag tag _ => '<' :: tag.toList <+: chars
  | .selfClosing tag _ => '<' :: tag.toList <+: chars
  | .closeTag tag => '<' :: '/' :: tag.toList <+: chars

/-- The text is made of the stretches of the events, in their order, and of comments. -/
inductive Covers : List Char → List Event → Prop
  | nil : Covers [] []
  | comment {body rest : List Char} {events : List Event} : Covers rest events →
      Covers ("<!--".toList ++ (body ++ ("-->".toList ++ rest))) events
  | event {chars rest : List Char} {event : Event} {events : List Event} :
      event.IsWritten chars → Covers rest events → Covers (chars ++ rest) (event :: events)

variable {c : Char} {cs rest : List Char}

theorem isRun_textRun (cs : List Char) : isRun (textRun cs).1 = true := by
  fun_induction textRun cs with
  | case1 => rfl
  | case2 => rfl
  | case3 c rest hstart ih =>
    have hbefore : startsMarkup (c :: (textRun rest).1) = false := by
      refine Bool.eq_false_iff.2 fun hbefore => hstart ?_
      have := startsMarkup_of_append hbefore (textRun rest).2
      rwa [List.cons_append, textRun_append_eq] at this
    rw [isRun, hbefore, ih]
    rfl

theorem exists_append_of_suffix {more : List Char} (front : List Char) (h : rest <:+ more) :
    ∃ chars, front ++ more = chars ++ rest ∧ front <+: chars := by
  obtain ⟨middle, rfl⟩ := h
  exact ⟨front ++ middle, (List.append_assoc ..).symm, List.prefix_append _ _⟩

theorem exists_of_readTag {event : Event} (h : readTag ('<' :: cs) = .ok (event, rest)) :
    ∃ chars, '<' :: cs = chars ++ rest ∧ event.IsWritten chars := by
  have hname (cs : List Char) : cs = cs.takeWhile isTagChar ++ cs.dropWhile isTagChar :=
    List.takeWhile_append_dropWhile.symm
  unfold readTag at h
  split at h
  · rename_i d tail heq
    cases h
    obtain ⟨rfl, rfl⟩ := List.cons.inj heq
    have hend := (suffix_skipEnd _).trans (suffix_skipBlanks (tail.dropWhile isTagChar))
    obtain ⟨chars, hchars, hfront⟩ :=
      exists_append_of_suffix ('<' :: '/' :: tail.takeWhile isTagChar) hend
    refine ⟨chars, ?_, ?_⟩
    · rw [← hchars, List.cons_append, List.cons_append, ← hname]
    · rwa [Event.IsWritten, String.toList_ofList]
  · have hattrs {attrs : List Attribute} {closes : Bool} {b : Break}
        (h : readAttributes b (cs.dropWhile isTagChar) = .ok (attrs, closes, rest)) :
        ∃ chars, '<' :: cs = chars ++ rest ∧ '<' :: cs.takeWhile isTagChar <+: chars := by
      obtain ⟨chars, hchars, hfront⟩ :=
        exists_append_of_suffix ('<' :: cs.takeWhile isTagChar) (suffix_readAttributes h)
      exact ⟨chars, by rw [← hchars, List.cons_append, ← hname], hfront⟩
    dsimp only [List.drop] at h
    split at h
    · cases h
    · rename_i hread
      cases h
      simpa [Event.IsWritten] using hattrs hread
    · rename_i hread
      cases h
      simpa [Event.IsWritten] using hattrs hread

/-- An event is read from the front of the text, and a comment leaves none. -/
theorem exists_of_readEvent {found : Option Event} (h : readEvent c cs = .ok (found, rest)) :
    (∃ body, found = none ∧ c :: cs = "<!--".toList ++ (body ++ ("-->".toList ++ rest))) ∨
      ∃ event chars, found = some event ∧ c :: cs = chars ++ rest ∧ event.IsWritten chars := by
  unfold readEvent at h
  split at h
  · rename_i hcomment
    split at h
    · cases h
    · rename_i hafter
      cases h
      obtain ⟨tail, heq⟩ := startsComment_iff.1 hcomment
      obtain ⟨rfl, rfl⟩ := List.cons.inj heq
      obtain ⟨body, hbody⟩ := exists_of_afterComment hafter
      exact .inl ⟨body, rfl, congrArg ("<!--".toList ++ ·) hbody⟩
  · split at h
    · rename_i htag
      obtain ⟨d, tail, heq, -⟩ := startsTag_iff.1 htag
      obtain ⟨rfl, -⟩ := List.cons.inj heq
      split at h
      · cases h
      · rename_i event _ hread
        cases h
        obtain ⟨chars, hchars, hwritten⟩ := exists_of_readTag hread
        exact .inr ⟨event, chars, rfl, hchars, hwritten⟩
    · rename_i hcomment htag
      cases h
      have happend := textRun_append_eq (c :: cs)
      have hrun := isRun_textRun (c :: cs)
      rw [textRun, if_neg (by simp [hcomment, htag])] at happend hrun
      exact .inr ⟨_, _, rfl, happend.symm, (String.toList_ofList).symm, by simp, hrun⟩

theorem covers_of_readEvents {events : List Event} (h : readEvents cs = .ok events) :
    Covers cs events := by
  fun_induction readEvents cs generalizing events with
  | case1 =>
    cases h
    exact .nil
  | case2 => cases h
  | case3 c tail found rest hread hlt ih =>
    obtain ⟨later, hrest, rfl⟩ := exists_of_map_ok h
    rcases exists_of_readEvent hread with ⟨body, rfl, heq⟩ | ⟨event, chars, rfl, heq, hwritten⟩
    · rw [heq]
      exact .comment (ih hrest)
    · rw [heq]
      exact .event hwritten (ih hrest)

end Stencil.Markup
