import Stencil.Markup.Node
import Stencil.Proofs.NormalForm
import Stencil.Proofs.Stretches

/-!
# Early ends

A template cannot be read only if it ends too early. The fault names the construct that was left
open and the place where it starts. What stands before that place is read in the same way whatever
is added to the text, so that a few characters that end the construct make the template readable: no
text is refused for what it already holds.
-/

namespace Stencil.Markup

/-- What a message says of the text at its place: the construct that it names starts there and is
left open. -/
inductive LeftOpen : String → List Char → Prop
  | comment {body : List Char} : ¬ "-->".toList <:+: body →
      LeftOpen "unterminated comment" ("<!--".toList ++ body)
  | tag {name : String} {rest : List Char} : isTagName name.toList = true →
      (∀ d ∈ rest.head?, isTagChar d = false) →
      LeftOpen ("unterminated <" ++ name ++ "> tag") ('<' :: (name.toList ++ rest))
  | value {quote : Char} {body : List Char} : quote = '"' ∨ quote = '\'' → quote ∉ body →
      LeftOpen "unterminated attribute value" (quote :: body)
  | missingValue : LeftOpen "missing attribute value" []

namespace Break

/-- The break is reported at a place of the text where what it names is left open. -/
structure IsIn (e : Break) (cs : List Char) : Prop where
  suffix : e.rest <:+ cs
  leftOpen : LeftOpen e.fault.message e.rest

/-- The characters that end what was left open. -/
def closing (e : Break) : List Char :=
  match e.fault with
  | .comment => "-->".toList
  | .tag _ => ['>']
  | .value => e.rest.take 1 ++ ['>']
  | .missingValue => ['>']

end Break

variable {b b' e : Break} {c : Char} {cs rest more : List Char}

theorem prefix_commentEnd_iff :
    "-->".toList <+: cs ↔ ∃ after, cs = '-' :: '-' :: '>' :: after := by
  constructor
  · rintro ⟨after, rfl⟩
    exact ⟨after, rfl⟩
  · rintro ⟨after, rfl⟩
    exact ⟨after, rfl⟩

/-- No end of a comment starts before a seam if none does without what is added, and what is added
does not complete one. -/
theorem afterComment_cons_append (h : ∀ after, c = '-' → cs = '-' :: '>' :: after → False)
    (hseam : cs.length < 2 → ¬ "-->".toList <+: c :: (cs ++ more)) :
    afterComment (c :: cs ++ more) = afterComment (cs ++ more) := by
  rw [List.cons_append, afterComment]
  rintro after rfl hafter
  rcases cs with _ | ⟨d, _ | ⟨d', tail⟩⟩
  · exact hseam (by simp) (prefix_commentEnd_iff.2 ⟨after, by rw [hafter]⟩)
  · exact hseam (by simp) (prefix_commentEnd_iff.2 ⟨after, by rw [hafter]⟩)
  · simp only [List.cons_append, List.cons.injEq] at hafter
    obtain ⟨rfl, rfl, -⟩ := hafter
    exact h tail rfl rfl

theorem afterComment_append (h : afterComment cs = some rest) (more : List Char) :
    afterComment (cs ++ more) = some (rest ++ more) := by
  fun_induction afterComment cs with
  | case1 => cases h
  | case2 tail =>
    cases h
    rfl
  | case3 c tail hstart ih =>
    rw [afterComment_cons_append hstart, ih h]
    intro hshort
    obtain ⟨body, rfl⟩ := exists_of_afterComment h
    simp only [List.length_append, List.length_cons] at hshort
    omega

theorem afterComment_closing (h : afterComment cs = none) :
    afterComment (cs ++ "-->".toList) = some [] := by
  fun_induction afterComment cs with
  | case1 => rfl
  | case2 => cases h
  | case3 c tail hstart ih =>
    rw [afterComment_cons_append hstart, ih h]
    intro hshort
    rw [prefix_commentEnd_iff]
    rcases tail with _ | ⟨d, _ | ⟨d', tail⟩⟩
    · simp
    · simp
    · simp only [List.length_cons] at hshort
      omega

theorem not_infix_of_afterComment (h : afterComment cs = none) : ¬ "-->".toList <:+: cs := by
  fun_induction afterComment cs with
  | case1 => simp
  | case2 => cases h
  | case3 c tail hstart ih =>
    rw [List.infix_cons_iff, prefix_commentEnd_iff, not_or]
    refine ⟨?_, ih h⟩
    rintro ⟨after, hafter⟩
    cases hafter
    exact hstart after rfl rfl

/-! A reader that leaves something behind gives the same answer if more is added, and leaves that
behind as well. Where it reads to the end, the end of a tag must come next. -/

theorem readValue_append {value : String} (h : readValue cs = .ok (value, rest))
    (hmore : rest = [] → ∀ d ∈ more.head?, d = '>') :
    readValue (cs ++ more) = .ok (value, rest ++ more) := by
  cases cs with
  | nil => cases h
  | cons c tail =>
    rw [List.cons_append, readValue]
    rw [readValue] at h
    split at h
    · rename_i hquote
      rw [if_pos hquote]
      split at h
      · cases h
      · rename_i d after hdrop
        cases h
        have hstop : tail.dropWhile (· != c) = [] → ∀ d ∈ more.head?, (d != c) = false := by
          simp [hdrop]
        rw [Text.takeWhile_append_of_rest hstop, Text.dropWhile_append_of_rest hstop, hdrop]
        rfl
    · rename_i hquote
      rw [if_neg hquote]
      cases h
      have hstop : (c :: tail).dropWhile isBareChar = [] →
          ∀ d ∈ more.head?, isBareChar d = false := by
        intro hrest d hd
        rw [hmore hrest d hd]
        rfl
      have htake := Text.takeWhile_append_of_rest hstop
      have hdrop := Text.dropWhile_append_of_rest hstop
      rw [List.cons_append] at htake hdrop
      exact congrArg Except.ok (Prod.ext (congrArg String.ofList htake) hdrop)

/-- A list is scanned for blanks as before if it holds something else, or a `>` follows. -/
theorem skipBlanks_append (hmore : skipBlanks cs = [] → ∀ d ∈ more.head?, d = '>') :
    skipBlanks (cs ++ more) = skipBlanks cs ++ more := by
  refine Text.dropWhile_append_of_rest fun hrest d hd => ?_
  rw [hmore hrest d hd]
  rfl

/-- The name of an attribute, and what follows the blanks after it. -/
theorem attributeName_append (cs more : List Char)
    (hmore : skipBlanks (cs.dropWhile isAttributeChar) = [] → ∀ d ∈ more.head?, d = '>') :
    (cs ++ more).takeWhile isAttributeChar = cs.takeWhile isAttributeChar ∧
      skipBlanks ((cs ++ more).dropWhile isAttributeChar) =
        skipBlanks (cs.dropWhile isAttributeChar) ++ more := by
  have hstop : cs.dropWhile isAttributeChar = [] → ∀ d ∈ more.head?, isAttributeChar d = false := by
    intro hrest d hd
    rw [hmore (by rw [hrest]; rfl) d hd]
    rfl
  refine ⟨Text.takeWhile_append_of_rest hstop, ?_⟩
  rw [Text.dropWhile_append_of_rest hstop, skipBlanks_append hmore]

theorem skipBlanks_ne_nil_of_readValue {value : String}
    (h : readValue (skipBlanks cs) = .ok (value, rest)) : skipBlanks cs ≠ [] := by
  intro hnil
  rw [hnil] at h
  cases h

theorem readAttribute_append {a : Attribute} (h : readAttribute cs = .ok (a, rest))
    (more : List Char) (hmore : rest = [] → ∀ d ∈ more.head?, d = '>') :
    readAttribute (cs ++ more) = .ok (a, rest ++ more) := by
  unfold readAttribute at h ⊢
  dsimp only at h ⊢
  split at h
  · rename_i tail hskip
    obtain ⟨htake, hdrop⟩ := attributeName_append cs more (by simp [hskip])
    rw [htake, hdrop, hskip]
    split at h
    · cases h
    · rename_i value after hvalue
      cases h
      have hblanks : skipBlanks (tail ++ more) = skipBlanks tail ++ more :=
        skipBlanks_append fun hnil => absurd hnil (skipBlanks_ne_nil_of_readValue hvalue)
      simp only [List.cons_append, hblanks, readValue_append hvalue hmore]
  · rename_i hequals
    cases h
    obtain ⟨htake, hdrop⟩ := attributeName_append cs more hmore
    rw [htake, hdrop]
    split
    · rename_i tail heq
      -- the equals sign would be the first character of the rest or of what is added
      cases hskip : skipBlanks (cs.dropWhile isAttributeChar) with
      | nil =>
        rw [hskip, List.nil_append] at heq
        have := hmore hskip '=' (by rw [heq]; rfl)
        cases this
      | cons d tail' =>
        rw [hskip, List.cons_append, List.cons.injEq] at heq
        exact absurd (by rw [hskip, heq.1]) (hequals tail')
    · rfl

theorem readAttributes_skip (hc : isAttributeChar c = false) (hslash : c ≠ '/') (hend : c ≠ '>')
    (b : Break) (cs : List Char) : readAttributes b (c :: cs) = readAttributes b cs := by
  cases hblank : Text.isTagBlank c with
  | true => exact readAttributes_blank b hblank cs
  | false =>
    have hskip : skipBlanks (c :: cs) = c :: cs := skipBlanks_eq (by simpa using hblank)
    rw [readAttributes_eq, hskip]
    split
    · rename_i heq
      cases heq
    · rename_i heq
      exact absurd (List.cons.inj heq).1 hslash
    · rename_i heq
      exact absurd (List.cons.inj heq).1 hend
    · rename_i heq
      cases heq
      rw [if_neg (by simp [hc])]

theorem readAttributes_slash (b : Break) (cs : List Char) :
    readAttributes b ('/' :: cs) = .ok ([], true, skipEnd (skipBlanks cs)) := by
  rw [readAttributes_eq]
  rfl

theorem skipEnd_append (h : cs ≠ []) : skipEnd (cs ++ more) = skipEnd cs ++ more := by
  obtain ⟨c, tail, rfl⟩ := List.exists_cons_of_ne_nil h
  rw [List.cons_append]
  unfold skipEnd
  by_cases hc : c = '>'
  · subst hc
    rfl
  · simp [hc]

/-- The end of a tag and the blanks before it. -/
theorem skipEnd_skipBlanks_append (h : skipEnd (skipBlanks cs) ≠ []) :
    skipEnd (skipBlanks (cs ++ more)) = skipEnd (skipBlanks cs) ++ more := by
  have hblanks : skipBlanks cs ≠ [] := by
    intro hnil
    exact h (by rw [hnil]; rfl)
  rw [skipBlanks_append fun hnil => absurd hnil hblanks, skipEnd_append hblanks]

theorem readAttributes_of_skipBlanks {tail : List Char} (h : skipBlanks cs = c :: tail) :
    readAttributes b (cs ++ more) = readAttributes b (c :: (tail ++ more)) := by
  rw [← List.cons_append, ← h, ← skipBlanks_append (by simp [h]), readAttributes_skipBlanks]

theorem readAttributes_append {attrs : List Attribute} {closes : Bool}
    (h : readAttributes b cs = .ok (attrs, closes, rest)) (hne : rest ≠ []) :
    readAttributes b' (cs ++ more) = .ok (attrs, closes, rest ++ more) := by
  fun_induction readAttributes b cs generalizing attrs closes with
  | case1 => cases h
  | case2 cs tail hs =>
    cases h
    rw [readAttributes_of_skipBlanks hs, readAttributes_slash, skipEnd_skipBlanks_append hne]
  | case3 cs tail hs =>
    cases h
    rw [readAttributes_of_skipBlanks hs, readAttributes_end]
  | case4 => cases h
  | case5 cs c tail _ _ hs _ hc a after ha _ ih =>
    cases hlater : readAttributes b after with
    | error e =>
      rw [hlater] at h
      cases h
    | ok found =>
      obtain ⟨later, closes', rest'⟩ := found
      rw [hlater] at h
      cases h
      have hafter : after ≠ [] := by
        rintro rfl
        exact hne (List.suffix_nil.1 (suffix_readAttributes hlater))
      have hread := readAttribute_append ha more fun hnil => absurd hnil hafter
      rw [List.cons_append] at hread
      rw [readAttributes_of_skipBlanks hs, readAttributes_cons hc hread, ih hlater]
      rfl
  | case6 cs c tail hslash hend hs _ hc _ ih =>
    rw [readAttributes_of_skipBlanks hs, readAttributes_skip (Bool.eq_false_iff.2 hc) hslash hend,
      ih h]

/-! What a reader left open is reported where it starts, and is ended by the closing. -/

theorem cases_of_readValue (h : readValue cs = .error e) :
    (cs = [] ∧ e = ⟨.missingValue, []⟩) ∨
      ∃ quote body, cs = quote :: body ∧ (quote = '"' ∨ quote = '\'') ∧ quote ∉ body ∧
        e = ⟨.value, quote :: body⟩ := by
  unfold readValue at h
  split at h
  · cases h
    exact .inl ⟨rfl, rfl⟩
  · rename_i c tail
    split at h
    · rename_i hquote
      split at h
      · rename_i hdrop
        cases h
        refine .inr ⟨c, tail, rfl, hquote, fun hmem => ?_, rfl⟩
        simpa using List.dropWhile_eq_nil_iff.1 hdrop c hmem
      · cases h
    · cases h

/-- A value that is not there, or that has no closing quote, ends before the `>` of the closing. -/
theorem readValue_closing (h : readValue cs = .error e) :
    e.IsIn cs ∧ ∃ value, readValue (cs ++ e.closing) = .ok (value, ['>']) := by
  rcases cases_of_readValue h with ⟨rfl, rfl⟩ | ⟨quote, body, rfl, hquote, hbody, rfl⟩
  · exact ⟨⟨List.suffix_rfl, .missingValue⟩, "", rfl⟩
  · have hread : readValue (quote :: (body ++ quote :: ['>'])) = .ok (String.ofList body, ['>']) :=
      readValue_quoted hquote hbody
    exact ⟨⟨List.suffix_rfl, .value hquote hbody⟩, _, hread⟩

theorem Break.IsIn.mono (h : e.IsIn cs) (hcs : cs <:+ more) : e.IsIn more :=
  ⟨h.suffix.trans hcs, h.leftOpen⟩

theorem readAttribute_closing (h : readAttribute cs = .error e) :
    e.IsIn cs ∧ ∃ a, readAttribute (cs ++ e.closing) = .ok (a, ['>']) := by
  unfold readAttribute at h
  dsimp only at h
  split at h
  · rename_i tail hskip
    split at h
    · rename_i hvalue
      cases h
      obtain ⟨hin, value, hclosed⟩ := readValue_closing hvalue
      obtain ⟨htake, hdrop⟩ := attributeName_append cs e.closing (by simp [hskip])
      have hblanks : skipBlanks (tail ++ e.closing) = skipBlanks tail ++ e.closing := by
        refine skipBlanks_append fun hnil => ?_
        rw [hnil] at hvalue
        cases hvalue
        rintro d ⟨⟩
        rfl
      constructor
      · have htail : '=' :: tail <:+ cs :=
          hskip ▸ (suffix_skipBlanks _).trans (List.dropWhile_suffix _)
        exact hin.mono ((suffix_skipBlanks tail).trans ((List.suffix_cons '=' tail).trans htail))
      · refine ⟨⟨String.ofList (cs.takeWhile isAttributeChar), some value⟩, ?_⟩
        unfold readAttribute
        dsimp only
        rw [htake, hdrop, hskip]
        simp only [List.cons_append, hblanks, hclosed]
    · cases h
  · cases h

/-- By induction on the attributes that were read: the one that was left open is ended, or the tag
is ended after them. -/
theorem readAttributes_closing (hb : b.closing = ['>']) (h : readAttributes b cs = .error e) :
    (e = b ∨ e.IsIn cs) ∧
      ∃ attrs, ∀ b', readAttributes b' (cs ++ e.closing) = .ok (attrs, false, []) := by
  fun_induction readAttributes b cs with
  | case1 cs hs =>
    cases h
    refine ⟨.inl rfl, [], fun b' => ?_⟩
    rw [hb, ← readAttributes_skipBlanks, skipBlanks_append, hs, List.nil_append, readAttributes_end]
    rintro - d ⟨⟩
    rfl
  | case2 => cases h
  | case3 => cases h
  | case4 cs c tail _ _ hs _ hc _ ha =>
    cases h
    obtain ⟨hin, a, hread⟩ := readAttribute_closing ha
    refine ⟨.inr (hin.mono (hs ▸ suffix_skipBlanks cs)), [a], fun b' => ?_⟩
    rw [List.cons_append] at hread
    rw [readAttributes_of_skipBlanks hs, readAttributes_cons hc hread, readAttributes_end]
    rfl
  | case5 cs c tail _ _ hs _ hc a after ha _ ih =>
    have hlater := error_of_map h
    obtain ⟨hin, attrs, hclosed⟩ := ih hlater
    have hread := readAttribute_append ha e.closing fun hnil => by
      -- nothing was left to read, so that the tag itself was left open
      rw [hnil, readAttributes_nil] at hlater
      cases hlater
      rw [hb]
      rintro d ⟨⟩
      rfl
    have hsuffix : after <:+ cs :=
      (suffix_readAttribute hc ha).trans
        ((List.suffix_cons c tail).trans (hs ▸ suffix_skipBlanks cs))
    refine ⟨hin.imp_right fun hin => hin.mono hsuffix, a :: attrs, fun b' => ?_⟩
    rw [List.cons_append] at hread
    rw [readAttributes_of_skipBlanks hs, readAttributes_cons hc hread, hclosed]
    rfl
  | case6 cs c tail hslash hend hs _ hc _ ih =>
    obtain ⟨hin, attrs, hclosed⟩ := ih h
    have hsuffix : tail <:+ cs := (List.suffix_cons c tail).trans (hs ▸ suffix_skipBlanks cs)
    refine ⟨hin.imp_right fun hin => hin.mono hsuffix, attrs, fun b' => ?_⟩
    rw [readAttributes_of_skipBlanks hs, readAttributes_skip (Bool.eq_false_iff.2 hc) hslash hend,
      hclosed]

/-! Tags, events and whole texts. -/

theorem readTag_eq {d : Char} (hd : d ≠ '/') (c : Char) (cs : List Char) :
    readTag (c :: d :: cs) =
      (readAttributes ⟨.tag (String.ofList ((d :: cs).takeWhile isTagChar)), c :: d :: cs⟩
        ((d :: cs).dropWhile isTagChar)).map fun (attrs, closes, rest) =>
          (tagEvent (String.ofList ((d :: cs).takeWhile isTagChar)) attrs closes, rest) := by
  unfold readTag
  split
  · rename_i heq
    cases heq
    exact absurd rfl hd
  · dsimp only [List.drop]
    split
    · rename_i hread
      rw [hread]
      rfl
    · rename_i hread
      rw [hread]
      rfl
    · rename_i hread
      rw [hread]
      rfl

/-- The name of a tag is read as before if something follows it, or a `>` is added. -/
theorem readEvents_openTag_append {d : Char} {attrs : List Attribute} {closes : Bool}
    (hstart : startsTag ('<' :: d :: cs) = true) (hd : d ≠ '/')
    (hmore : (d :: cs).dropWhile isTagChar = [] → ∀ x ∈ more.head?, x = '>')
    (h : ∀ b, readAttributes b ((d :: cs).dropWhile isTagChar ++ more) =
      .ok (attrs, closes, rest)) :
    readEvents ('<' :: d :: cs ++ more) = (readEvents rest).map
      (tagEvent (String.ofList ((d :: cs).takeWhile isTagChar)) attrs closes :: ·) := by
  have hafter : ∀ x ∈ ((d :: cs).dropWhile isTagChar ++ more).head?, isTagChar x = false := by
    refine Text.head?_dropWhile_append fun hnil x hx => ?_
    rw [hmore hnil x hx]
    rfl
  have hread := readEvents_openTag (isTagName_takeWhile hstart hd) hafter h
  rwa [← List.append_assoc, List.takeWhile_append_dropWhile] at hread

theorem readEvents_tag_append {event : Event} (hstart : startsTag ('<' :: cs) = true)
    (h : readTag ('<' :: cs) = .ok (event, rest)) (hne : rest ≠ []) (more : List Char) :
    readEvents ('<' :: cs ++ more) = (readEvents (rest ++ more)).map (event :: ·) := by
  obtain ⟨d, tail, heq, -⟩ := startsTag_iff.1 hstart
  cases heq
  by_cases hd : d = '/'
  · subst hd
    cases h
    have hname : tail.dropWhile isTagChar ≠ [] := by
      intro hnil
      exact hne (by rw [hnil]; rfl)
    have hread : readTag ('<' :: '/' :: (tail ++ more)) =
        .ok (.closeTag (String.ofList (tail.takeWhile isTagChar)),
          skipEnd (skipBlanks (tail.dropWhile isTagChar)) ++ more) := by
      rw [readTag, Text.takeWhile_append_of_rest fun hnil => absurd hnil hname,
        Text.dropWhile_append_of_rest fun hnil => absurd hnil hname, skipEnd_skipBlanks_append hne]
    exact readEvents_tag rfl hread
  · rw [readTag_eq hd] at h
    obtain ⟨⟨attrs, closes, rest'⟩, hattrs, heq⟩ := exists_of_map_ok h
    cases heq
    refine readEvents_openTag_append hstart hd (fun hnil => ?_) fun b =>
      readAttributes_append hattrs hne
    rw [hnil, readAttributes_nil] at hattrs
    cases hattrs

theorem sealed_textRun (cs : List Char) : Sealed (textRun cs).2 := by
  fun_induction textRun cs with
  | case1 => exact .inl rfl
  | case2 c tail hstart => exact .inr hstart
  | case3 c tail _ ih => exact ih

theorem readEvent_comment (h : afterComment cs = some rest) :
    readEvent '<' ('!' :: '-' :: '-' :: cs) = .ok (none, rest) := by
  simp [readEvent, startsComment, h]

/-- The step: an event that is not the last one is read in the same way if more is added. -/
theorem readEvents_append {event : Option Event} (h : readEvent c cs = .ok (event, rest))
    (hne : rest ≠ []) (more : List Char) :
    readEvents (c :: cs ++ more) = (readEvents (rest ++ more)).map (event.toList ++ ·) := by
  unfold readEvent at h
  split at h
  · rename_i hcomment
    obtain ⟨tail, heq⟩ := startsComment_iff.1 hcomment
    cases heq
    split at h
    · cases h
    · rename_i hafter
      cases h
      exact readEvents_cons (readEvent_comment (afterComment_append hafter more))
  · split at h
    · rename_i hstart
      split at h
      · cases h
      · rename_i hread
        cases h
        obtain ⟨d, tail, heq, -⟩ := startsTag_iff.1 hstart
        cases heq
        exact readEvents_tag_append hstart hread hne more
    · rename_i hcomment htag
      cases h
      have hrun := isRun_textRun (c :: cs)
      rw [textRun, if_neg (by simp [hcomment, htag])] at hrun
      have hsealed : Sealed ((textRun cs).2 ++ more) :=
        .inr (startsMarkup_of_append ((sealed_textRun cs).resolve_left hne) more)
      have hread := readEvents_text (List.cons_ne_nil c _) hrun hsealed
      rwa [List.cons_append, ← List.append_assoc, textRun_append_eq] at hread

theorem readTag_closing (hstart : startsTag ('<' :: cs) = true)
    (h : readTag ('<' :: cs) = .error e) :
    e.IsIn ('<' :: cs) ∧ ∃ events, readEvents ('<' :: cs ++ e.closing) = .ok events := by
  obtain ⟨d, tail, heq, -⟩ := startsTag_iff.1 hstart
  cases heq
  have hd : d ≠ '/' := by
    rintro rfl
    cases h
  rw [readTag_eq hd] at h
  have hattrs := error_of_map h
  obtain ⟨hin, attrs, hclosed⟩ := readAttributes_closing rfl hattrs
  constructor
  · rcases hin with rfl | hin
    · refine ⟨List.suffix_rfl, ?_⟩
      have hname : isTagName (String.ofList ((d :: tail).takeWhile isTagChar)).toList = true := by
        rw [String.toList_ofList]
        exact isTagName_takeWhile hstart hd
      have hopen := LeftOpen.tag hname (Text.head?_dropWhile (d :: tail))
      rwa [String.toList_ofList, List.takeWhile_append_dropWhile] at hopen
    · exact hin.mono ((List.dropWhile_suffix _).trans (List.suffix_cons _ _))
  · have hread := readEvents_openTag_append hstart hd (fun hnil => ?_) hclosed
    · rw [readEvents] at hread
      exact ⟨_, hread⟩
    · rw [hnil, readAttributes_nil] at hattrs
      cases hattrs
      rintro x ⟨⟩
      rfl

/-- What is left open at the front of a text. -/
theorem readEvent_closing (h : readEvent c cs = .error e) :
    e.IsIn (c :: cs) ∧ ∃ events, readEvents (c :: cs ++ e.closing) = .ok events := by
  unfold readEvent at h
  split at h
  · rename_i hcomment
    obtain ⟨tail, heq⟩ := startsComment_iff.1 hcomment
    cases heq
    split at h
    · rename_i hafter
      cases h
      refine ⟨⟨List.suffix_rfl, .comment (not_infix_of_afterComment hafter)⟩, [], ?_⟩
      refine (readEvents_cons (readEvent_comment (afterComment_closing hafter))).trans ?_
      rw [readEvents]
      rfl
    · cases h
  · split at h
    · rename_i hstart
      obtain ⟨d, tail, heq, -⟩ := startsTag_iff.1 hstart
      cases heq
      split at h
      · rename_i hread
        cases h
        exact readTag_closing hstart hread
      · cases h
    · cases h

theorem suffix_readEvent {event : Option Event} (h : readEvent c cs = .ok (event, rest)) :
    rest <:+ c :: cs := by
  rcases exists_of_readEvent h with ⟨body, -, heq⟩ | ⟨-, chars, -, heq, -⟩
  · rw [heq, ← List.append_assoc, ← List.append_assoc]
    exact List.suffix_append _ rest
  · rw [heq]
    exact List.suffix_append chars rest

/-- The run: what was read before the open construct is read again, and then the construct. -/
theorem readEvents_closing (h : readEvents cs = .error e) :
    e.IsIn cs ∧ ∃ events, readEvents (cs ++ e.closing) = .ok events := by
  fun_induction readEvents cs with
  | case1 => cases h
  | case2 c tail e' hread =>
    cases h
    exact readEvent_closing hread
  | case3 c tail event rest hread _ ih =>
    have hrest := error_of_map h
    have hne : rest ≠ [] := by
      rintro rfl
      rw [readEvents] at hrest
      cases hrest
    obtain ⟨hin, events, hclosed⟩ := ih hrest
    refine ⟨hin.mono (suffix_readEvent hread), event.toList ++ events, ?_⟩
    rw [readEvents_append hread hne, hclosed]
    rfl

theorem byteLength_append (cs ds : List Char) :
    byteLength (cs ++ ds) = byteLength cs + byteLength ds := by
  induction cs with
  | nil => rw [List.nil_append, byteLength, Nat.zero_add]
  | cons c cs ih => rw [List.cons_append, byteLength, byteLength, ih, Nat.add_assoc]

theorem byteLength_eq (cs : List Char) : byteLength cs = (String.ofList cs).utf8ByteSize := by
  induction cs with
  | nil => rfl
  | cons c cs ih => simp [byteLength, ih]

/-- A template that cannot be read ends before the construct that the message names is closed. The
construct starts after as many bytes as the error says, and some text can be added after which the
template is read. -/
theorem ends_early_of_parse (source : String) (e : MarkupError) (h : parse source = .error e) :
    (∃ before after, source = before ++ after ∧ before.utf8ByteSize = e.offset ∧
      LeftOpen e.fault.message after.toList) ∧
    ∃ more nodes, parse (source ++ more) = .ok nodes := by
  unfold parse at h
  dsimp only at h
  split at h
  · rename_i b hread
    cases h
    obtain ⟨⟨⟨before, hbefore⟩, hopen⟩, events, hclosed⟩ := readEvents_closing hread
    constructor
    · refine ⟨String.ofList before, String.ofList b.rest, ?_, ?_, ?_⟩
      · rw [← String.ofList_append, hbefore, String.ofList_toList]
      · rw [← byteLength_eq, ← hbefore, byteLength_append, Nat.add_sub_cancel]
      · rwa [String.toList_ofList]
    · refine ⟨String.ofList b.closing, (Forest.ofEvents events).filter fun n => !n.isBlank, ?_⟩
      rw [parse, String.toList_append, String.toList_ofList, hclosed]
  · cases h

/-- Characters of two and three bytes, a whole element and a text before a value whose quote is not
closed; the value holds the start of a comment. -/
def openValueSource : String :=
  "é<b x=1>—</b> <i y='<!-- >"

theorem ends_early_of_parse_value :
    parse openValueSource = .error ⟨22, .value⟩ ∧
      (∃ before after, openValueSource = before ++ after ∧ before.utf8ByteSize = 22 ∧
        LeftOpen "unterminated attribute value" after.toList) ∧
      ∃ more nodes, parse (openValueSource ++ more) = .ok nodes := by
  have hread : readEvents openValueSource.toList = .error ⟨.value, "'<!-- >".toList⟩ := by
    decide +kernel
  have hparse : parse openValueSource = .error ⟨22, .value⟩ := by
    rw [parse, hread]
    rfl
  exact ⟨hparse, ends_early_of_parse openValueSource _ hparse⟩

end Stencil.Markup
