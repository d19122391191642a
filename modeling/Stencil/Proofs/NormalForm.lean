import Stencil.Proofs.Nesting

/-!
# What is read is normal

Whatever a template holds, the forest that is read from it is normal: stray quotes and slashes,
tags that are left open and white space leave no trace in names, values and texts. Each reader gives
normal parts, so that every event is normal, and each event keeps the forest normal.
-/

namespace Stencil.Markup

variable {b : Break} {c : Char} {cs rest : List Char}

/-- A value is read from between quotes that it does not hold, or from a stretch without blanks and
`>` that starts with no quote. -/
theorem isQuotable_of_readValue {value : String} (h : readValue cs = .ok (value, rest)) :
    isQuotable value.toList = true := by
  unfold readValue at h
  split at h
  · cases h
  · rename_i c tail
    split at h
    · rename_i hquote
      split at h
      · cases h
      · cases h
        have hmem : c ∉ tail.takeWhile (· != c) := fun hmem => by
          simpa using List.mem_takeWhile_imp hmem
        rcases hquote with rfl | rfl <;> simp [isQuotable, hmem]
    · rename_i hquote
      cases h
      have hall : ((c :: tail).takeWhile isBareChar).all isBareChar = true := List.all_takeWhile
      have hstart : startsQuoted ((c :: tail).takeWhile isBareChar) = false := by
        rw [List.takeWhile_cons]
        split
        · simpa [startsQuoted] using hquote
        · rfl
      rw [isQuotable, String.toList_ofList, Bool.or_eq_true, Bool.and_eq_true, Bool.not_eq_true']
      exact .inr ⟨hall, hstart⟩

theorem isNormal_of_readAttribute {a : Attribute} (hc : isAttributeChar c = true)
    (h : readAttribute (c :: cs) = .ok (a, rest)) : a.isNormal = true := by
  have hne : (c :: cs).takeWhile isAttributeChar ≠ [] := by
    rw [List.takeWhile_cons_of_pos hc]
    exact List.cons_ne_nil _ _
  have hall : ((c :: cs).takeWhile isAttributeChar).all isAttributeChar = true := List.all_takeWhile
  unfold readAttribute at h
  dsimp only at h
  split at h
  · split at h
    · cases h
    · rename_i hvalue
      cases h
      simp [Attribute.isNormal, hne, hall, isQuotable_of_readValue hvalue]
  · cases h
    simp [Attribute.isNormal, hne, hall]

theorem isNormal_of_readAttributes {attrs : List Attribute} {closes : Bool}
    (h : readAttributes b cs = .ok (attrs, closes, rest)) : ∀ a ∈ attrs, a.isNormal = true := by
  fun_induction readAttributes b cs generalizing attrs closes with
  | case1 => cases h
  | case2 => cases h; simp
  | case3 => cases h; simp
  | case4 => cases h
  | case5 cs c tail _ _ _ _ hc a after ha _ ih =>
    obtain ⟨⟨later, closes', rest'⟩, hlater, heq⟩ := exists_of_map_ok h
    cases heq
    exact List.forall_mem_cons.2 ⟨isNormal_of_readAttribute hc ha, ih hlater⟩
  | case6 _ _ _ _ _ _ _ _ _ ih => exact ih h

/-- An event that brings a normal node, but for white space, or that brings none. -/
def Event.isNormal : Event → Bool
  | .text run => !run.toList.isEmpty && isRun run.toList
  | .openTag tag attrs | .selfClosing tag attrs =>
    isTagName tag.toList && attrs.all Attribute.isNormal
  | .closeTag _ => true

/-- A tag that is no closing one starts with a letter. -/
theorem isTagName_takeWhile {d : Char} (hstart : startsTag (c :: d :: cs) = true) (hd : d ≠ '/') :
    isTagName ((d :: cs).takeWhile isTagChar) = true := by
  obtain ⟨d', tail, heq, halpha⟩ := startsTag_iff.1 hstart
  cases heq
  have halpha : d.isAlpha = true := by simpa [hd] using halpha
  have hchar : isTagChar d = true := by simp [isTagChar, Char.isAlphanum, halpha]
  rw [List.takeWhile_cons_of_pos hchar, isTagName, halpha, Bool.true_and]
  exact List.all_takeWhile

theorem isNormal_of_readTag {event : Event} (hstart : startsTag (c :: cs) = true)
    (h : readTag (c :: cs) = .ok (event, rest)) : event.isNormal = true := by
  unfold readTag at h
  split at h
  · cases h
    rfl
  · rename_i hslash
    dsimp only [List.drop] at h
    have htag : isTagName (cs.takeWhile isTagChar) = true := by
      cases cs with
      | nil => simp [startsTag] at hstart
      | cons d cs =>
        refine isTagName_takeWhile hstart ?_
        rintro rfl
        exact hslash c cs rfl
    have hevent {attrs : List Attribute} {closes : Bool} {r : List Char} {b : Break}
        (h : readAttributes b (cs.dropWhile isTagChar) = .ok (attrs, closes, r)) :
        (isTagName (String.ofList (cs.takeWhile isTagChar)).toList
          && attrs.all Attribute.isNormal) = true := by
      rw [String.toList_ofList, htag, Bool.true_and]
      exact List.all_eq_true.2 (isNormal_of_readAttributes h)
    split at h
    · cases h
    · rename_i hread
      cases h
      exact hevent hread
    · rename_i hread
      cases h
      exact hevent hread

theorem isNormal_of_readEvent {found : Option Event} (h : readEvent c cs = .ok (found, rest)) :
    ∀ event ∈ found, event.isNormal = true := by
  unfold readEvent at h
  split at h
  · split at h <;> cases h
    simp
  · split at h
    · rename_i hstart
      split at h
      · cases h
      · rename_i hread
        cases h
        simpa using isNormal_of_readTag hstart hread
    · rename_i hcomment htag
      cases h
      have hrun := isRun_textRun (c :: cs)
      rw [textRun, if_neg (by simp [hcomment, htag])] at hrun
      simpa [Event.isNormal] using hrun

theorem isNormal_of_readEvents {events : List Event} (h : readEvents cs = .ok events) :
    ∀ event ∈ events, event.isNormal = true := by
  fun_induction readEvents cs generalizing events with
  | case1 => cases h; simp
  | case2 => cases h
  | case3 c tail found rest hread _ ih =>
    obtain ⟨later, hrest, rfl⟩ := exists_of_map_ok h
    rw [List.forall_mem_append]
    exact ⟨by simpa using isNormal_of_readEvent hread, ih hrest⟩

theorem Node.isNormal_ofRun {run : String} (h : (Event.text run).isNormal = true) :
    (Node.ofRun run).isNormal = true := by
  rw [Event.isNormal, Bool.and_eq_true] at h
  rw [Node.ofRun]
  split
  · decide
  · rename_i hwhite
    simp [Node.isNormal, h, hwhite]

theorem Node.isNormal_element_iff {tag : String} {attrs : List Attribute} {selfClosing : Bool}
    {children : List Node} :
    (element tag attrs selfClosing children).isNormal = true ↔
      (isTagName tag.toList && attrs.all Attribute.isNormal) = true ∧
        (selfClosing = true → children = []) ∧ ∀ n ∈ children, n.isNormal = true := by
  cases selfClosing <;> simp [Node.isNormal, Node.isNormalForest_iff, and_assoc]

/-- Children are added to an element one by one. -/
theorem OpenElement.isNormal_close_iff {e : OpenElement} {more : List Node} :
    (e.close more).isNormal = true ↔
      (e.close []).isNormal = true ∧ ∀ n ∈ more, n.isNormal = true := by
  simp only [close, Node.isNormal_element_iff, List.append_nil, List.forall_mem_append]
  tauto

namespace Forest

variable {f : Forest}

theorem forall_closeAll_iff {roots last : List Node} {opened : List OpenElement} :
    (∀ n ∈ closeAll roots opened last, n.isNormal = true) ↔
      (∀ n ∈ roots, n.isNormal = true) ∧ (∀ e ∈ opened, (e.close []).isNormal = true) ∧
        ∀ n ∈ last, n.isNormal = true := by
  induction opened generalizing last with
  | nil =>
    rw [closeAll, List.forall_mem_append]
    simp
  | cons e outer ih =>
    rw [closeAll, ih, List.forall_mem_singleton, OpenElement.isNormal_close_iff,
      List.forall_mem_cons]
    tauto

/-- The nodes are normal, as they would be if the text ended here. -/
def IsNormal (f : Forest) : Prop :=
  ∀ n ∈ f.nodes, n.isNormal = true

theorem IsNormal.push {n : Node} (hf : f.IsNormal) (hn : n.isNormal = true) :
    (f.push n).IsNormal := by
  rw [IsNormal, nodes, forall_closeAll_iff] at hf
  rw [IsNormal, nodes_push, forall_closeAll_iff]
  exact ⟨hf.1, hf.2.1, by simpa using hn⟩

theorem IsNormal.step {event : Event} (hf : f.IsNormal) (hevent : event.isNormal = true) :
    (f.step event).IsNormal := by
  cases event with
  | text run => exact hf.push (Node.isNormal_ofRun hevent)
  | selfClosing tag attrs =>
    exact hf.push (Node.isNormal_element_iff.2 ⟨hevent, fun _ => rfl, by simp⟩)
  | openTag tag attrs =>
    rw [IsNormal, nodes, forall_closeAll_iff] at hf ⊢
    refine ⟨hf.1, List.forall_mem_cons.2 ⟨?_, hf.2.1⟩, by simp⟩
    exact Node.isNormal_element_iff.2 ⟨hevent, by simp, by simp⟩
  | closeTag tag =>
    rw [IsNormal, nodes_closeTag]
    exact hf

theorem IsNormal.foldl {events : List Event} (hf : f.IsNormal)
    (hevents : ∀ event ∈ events, event.isNormal = true) :
    (events.foldl Forest.step f).IsNormal := by
  induction events generalizing f with
  | nil => exact hf
  | cons event events ih =>
    rw [List.forall_mem_cons] at hevents
    exact ih (hf.step hevents.1) hevents.2

end Forest

/-- A template that can be read, however it is written, is read as a normal forest. -/
theorem isNormal_of_parse (source : String) (ns : List Node) (h : parse source = .ok ns) :
    isNormal ns = true := by
  unfold parse at h
  dsimp only at h
  split at h
  · cases h
  · rename_i events hevents
    cases h
    have hempty : Forest.empty.IsNormal := by
      simp [Forest.IsNormal, Forest.nodes, Forest.empty, Forest.closeAll]
    have hforest : ∀ n ∈ Forest.ofEvents events, n.isNormal = true :=
      hempty.foldl (isNormal_of_readEvents hevents)
    rw [isNormal, Bool.and_eq_true, Node.isNormalForest_iff]
    refine ⟨fun n hn => hforest n (List.mem_of_mem_filter hn), ?_⟩
    exact List.all_eq_true.2 fun n hn => (List.mem_filter.1 hn).2

/-- White space around the root, a quote and a slash in the middle of tags, values in two forms, a
text that almost holds a tag and a comment, and closing tags that do not end. -/
def untidySource : String :=
  "\t<a \"x='1\"' y=2'<z>3 < 4 <!- <5<i / j><b> \n </ k </a<!---->\n"

def untidyForest : List Node :=
  [.element "a" [⟨"x", some "1\""⟩, ⟨"y", some "2'<z"⟩] false
    [.text "3 < 4 <!- <5", .element "i" [] true [], .text "j>",
      .element "b" [] false [.text " ", .text "k "]]]

theorem isNormal_of_parse_untidy :
    parse untidySource = .ok untidyForest ∧ isNormal untidyForest = true := by
  have hevents : readEvents untidySource.toList =
      .ok [.text "\t", .openTag "a" [⟨"x", some "1\""⟩, ⟨"y", some "2'<z"⟩],
        .text "3 < 4 <!- <5", .selfClosing "i" [], .text "j>", .openTag "b" [], .text " \n ",
        .closeTag "", .text "k ", .closeTag "a", .text "\n"] := by
    decide +kernel
  have hparse : parse untidySource = .ok untidyForest := by
    rw [parse, hevents]
    rfl
  exact ⟨hparse, isNormal_of_parse untidySource untidyForest hparse⟩

end Stencil.Markup
