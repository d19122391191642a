import Stencil.Markup.Node
import Stencil.Proofs.Events

/-!
# Written forests are read back

A forest is written with a quoting chosen for each value, at each of its places by itself. The
normal forests are those that reading can give back: names and values that can be written, texts that hold no tag and no comment, and no
white space but single blanks between elements. Reading what is written gives the events of the
forest, and these build the forest again.
-/

namespace Stencil.Markup

/-- How the value of an attribute is written. -/
inductive Quoting where
  | double
  | single
  /-- Without quotes, and ended by a blank. -/
  | bare
deriving DecidableEq, Repr

def isBareChar (c : Char) : Bool :=
  !Text.isTagBlank c && c != '>'

def startsQuoted (value : List Char) : Bool :=
  value.head? == some '"' || value.head? == some '\''

/-- There is a way to write the value. The empty value is written between quotes. -/
def isQuotable (value : List Char) : Bool :=
  !value.contains '"' || !value.contains '\'' || value.all isBareChar && !startsQuoted value

namespace Quoting

/-- The value can be written in this way: it does not hold the quotes that it stands between.
Without quotes it is not empty, holds neither a blank nor `>`, and does not start with a quote. -/
def isLegal (value : List Char) : Quoting → Bool
  | .double => !value.contains '"'
  | .single => !value.contains '\''
  | .bare => !value.isEmpty && value.all isBareChar && !startsQuoted value

def write (value : List Char) : Quoting → List Char
  | .double => '"' :: (value ++ ['"'])
  | .single => '\'' :: (value ++ ['\''])
  | .bare => value ++ [' ']

end Quoting

namespace Attribute

def isNormal (a : Attribute) : Bool :=
  !a.name.toList.isEmpty && a.name.toList.all isAttributeChar
    && a.value.all fun value => isQuotable value.toList

def write (quoting : String → Quoting) (a : Attribute) : List Char :=
  ' ' :: (a.name.toList ++
    match a.value with
    | none => []
    | some value => '=' :: (quoting value).write value.toList)

/-- Attributes that stand from a position on. -/
def writeFrom (quoting : List Nat → String → Quoting) (position : Nat) :
    List Attribute → List Char
  | [] => []
  | a :: attrs => a.write (quoting [position]) ++ writeFrom quoting (position + 1) attrs

end Attribute

/-- Every value that can be written is written in a legal way, wherever it stands. A place is given
by the positions of the nodes that lead to the attribute, the outermost first, and its own position;
so one value may be written in different ways at different places. -/
def IsLegal (quoting : List Nat → String → Quoting) : Prop :=
  ∀ place value, isQuotable value.toList = true →
    (quoting place value).isLegal value.toList = true

namespace Node

def isText : Node → Bool
  | .text _ => true
  | .element .. => false

mutual

def isNormal : Node → Bool
  | .text value =>
    !value.toList.isEmpty && isRun value.toList && (!Text.isAllWhite value || value == " ")
  | .element tag attrs selfClosing children =>
    isTagName tag.toList && attrs.all Attribute.isNormal && (!selfClosing || children.isEmpty)
      && isNormalForest children

def isNormalForest : List Node → Bool
  | [] => true
  | n :: ns => isNormal n && isNormalForest ns

end

mutual

def write (quoting : List Nat → String → Quoting) : Node → List Char
  | .text value => value.toList
  | .element tag attrs true _ =>
    '<' :: (tag.toList ++ (Attribute.writeFrom quoting 0 attrs ++ ['/', '>']))
  | .element tag attrs false children =>
    '<' :: (tag.toList ++ (Attribute.writeFrom quoting 0 attrs ++ '>' ::
      (writeFrom quoting 0 children ++ '<' :: '/' :: (tag.toList ++ ['>']))))

/-- Nodes that stand from a position on. Texts that stand next to each other are kept apart by an
empty comment. -/
def writeFrom (quoting : List Nat → String → Quoting) (position : Nat) : List Node → List Char
  | [] => []
  | n :: ns =>
    write (fun place => quoting (position :: place)) n
      ++ (if n.isText && ns.head?.any isText then "<!---->".toList else [])
      ++ writeFrom quoting (position + 1) ns

end

end Node

def serialize (quoting : List Nat → String → Quoting) (ns : List Node) : String :=
  String.ofList (Node.writeFrom quoting 0 ns)

variable {b : Break} {name cs rest more : List Char} {quoting : List Nat → String → Quoting}

/-- What may follow an attribute: it neither makes the name longer nor gives it a value. -/
structure EndsAttribute (more : List Char) : Prop where
  stop : ∀ d ∈ more.head?, isAttributeChar d = false
  equals : ∀ d ∈ (skipBlanks more).head?, d ≠ '='

theorem readAttribute_none (hname : ∀ d ∈ name, isAttributeChar d = true)
    (hmore : EndsAttribute more) :
    readAttribute (name ++ more) = .ok (⟨String.ofList name, none⟩, skipBlanks more) := by
  rw [readAttribute, Text.takeWhile_append_of_stop hname hmore.stop,
    Text.dropWhile_append_of_stop hname hmore.stop]
  split
  · rename_i heq
    exact absurd rfl (hmore.equals '=' (by rw [heq]; rfl))
  · rfl

theorem readAttribute_value {value : String} (hname : ∀ d ∈ name, isAttributeChar d = true)
    (h : readValue (skipBlanks cs) = .ok (value, rest)) :
    readAttribute (name ++ '=' :: cs) = .ok (⟨String.ofList name, some value⟩, rest) := by
  have hstop : ∀ d ∈ ('=' :: cs).head?, isAttributeChar d = false := by
    rintro d ⟨⟩
    rfl
  have hskip : skipBlanks ('=' :: cs) = '=' :: cs := rfl
  rw [readAttribute, Text.takeWhile_append_of_stop hname hstop,
    Text.dropWhile_append_of_stop hname hstop, hskip]
  simp only [h]

theorem readValue_quoted {quote : Char} {value : List Char} (hquote : quote = '"' ∨ quote = '\'')
    (hvalue : quote ∉ value) :
    readValue (quote :: (value ++ quote :: rest)) = .ok (String.ofList value, rest) := by
  have hin := Text.bne_of_not_mem hvalue
  have hstop : ∀ d ∈ (quote :: rest).head?, (d != quote) = false := by
    rintro d ⟨⟩
    simp
  rw [readValue, if_pos hquote, Text.takeWhile_append_of_stop hin hstop,
    Text.dropWhile_append_of_stop hin hstop]

theorem readValue_bare {value : List Char} (hne : value ≠ [])
    (hvalue : ∀ d ∈ value, isBareChar d = true) (hquote : startsQuoted value = false) :
    readValue (value ++ ' ' :: rest) = .ok (String.ofList value, ' ' :: rest) := by
  have hstop : ∀ d ∈ (' ' :: rest).head?, isBareChar d = false := by
    rintro d ⟨⟩
    rfl
  have htake := Text.takeWhile_append_of_stop hvalue hstop
  have hdrop := Text.dropWhile_append_of_stop hvalue hstop
  cases value with
  | nil => exact absurd rfl hne
  | cons c value =>
    have hc : ¬(c = '"' ∨ c = '\'') := by simpa [startsQuoted] using hquote
    rw [List.cons_append] at htake hdrop ⊢
    have hread : readValue (c :: (value ++ ' ' :: rest)) =
        .ok (String.ofList ((c :: (value ++ ' ' :: rest)).takeWhile isBareChar),
          (c :: (value ++ ' ' :: rest)).dropWhile isBareChar) := by
      rw [readValue, if_neg hc]
      rfl
    rw [hread, htake, hdrop]

/-- A value that is written without quotes leaves the blank behind. -/
theorem readValue_write {q : Quoting} {value : List Char} (h : q.isLegal value = true)
    (rest : List Char) :
    ∃ after, readValue (skipBlanks (q.write value ++ rest)) = .ok (String.ofList value, after) ∧
      (after = rest ∨ after = ' ' :: rest) := by
  cases q with
  | double =>
    refine ⟨rest, ?_, .inl rfl⟩
    have hskip : skipBlanks (Quoting.double.write value ++ rest) =
        '"' :: (value ++ '"' :: rest) := by
      rw [Quoting.write, List.cons_append, List.append_assoc]
      rfl
    rw [hskip]
    exact readValue_quoted (.inl rfl) (by simpa [Quoting.isLegal] using h)
  | single =>
    refine ⟨rest, ?_, .inl rfl⟩
    have hskip : skipBlanks (Quoting.single.write value ++ rest) =
        '\'' :: (value ++ '\'' :: rest) := by
      rw [Quoting.write, List.cons_append, List.append_assoc]
      rfl
    rw [hskip]
    exact readValue_quoted (.inr rfl) (by simpa [Quoting.isLegal] using h)
  | bare =>
    simp only [Quoting.isLegal, Bool.and_eq_true, Bool.not_eq_true', List.all_eq_true,
      List.isEmpty_eq_false_iff] at h
    obtain ⟨⟨hne, hall⟩, hquote⟩ := h
    refine ⟨' ' :: rest, ?_, .inr rfl⟩
    have hskip : skipBlanks (Quoting.bare.write value ++ rest) = value ++ ' ' :: rest := by
      rw [Quoting.write, List.append_assoc]
      refine skipBlanks_eq ?_
      intro d hd
      rw [List.head?_append_of_ne_nil _ hne] at hd
      have hbare := hall d (List.mem_of_mem_head? hd)
      simpa [isBareChar] using (Bool.and_eq_true_iff.1 hbare).1
    rw [hskip]
    exact readValue_bare hne hall hquote

theorem readAttributes_write {a : Attribute} (hlegal : IsLegal quoting) (place : List Nat)
    (ha : a.isNormal = true) (hmore : EndsAttribute more) :
    readAttributes b (a.write (quoting place) ++ more) =
      (readAttributes b more).map fun (attrs, ending) => (a :: attrs, ending) := by
  obtain ⟨name, value⟩ := a
  simp only [Attribute.isNormal, Bool.and_eq_true, Bool.not_eq_true', List.all_eq_true,
    List.isEmpty_eq_false_iff] at ha
  obtain ⟨⟨hne, hname⟩, hvalue⟩ := ha
  obtain ⟨c, tail, hc⟩ := List.exists_cons_of_ne_nil hne
  have hchar : isAttributeChar c = true := hname c (by simp [hc])
  rw [Attribute.write, List.cons_append, readAttributes_blank b rfl, List.append_assoc]
  cases value with
  | none =>
    have hread := readAttribute_none hname hmore
    rw [String.ofList_toList, hc, List.cons_append] at hread
    dsimp only
    rw [List.nil_append, hc, List.cons_append, readAttributes_cons hchar hread,
      readAttributes_skipBlanks]
  | some value =>
    have hquoting := hlegal place value (by simpa using hvalue)
    obtain ⟨after, hafter, hrest⟩ := readValue_write hquoting more
    have hread := readAttribute_value hname hafter
    rw [String.ofList_toList, String.ofList_toList, hc, List.cons_append] at hread
    dsimp only
    rw [List.cons_append, hc, List.cons_append, readAttributes_cons hchar hread]
    rcases hrest with rfl | rfl
    · rfl
    · rw [readAttributes_blank b rfl]

theorem endsAttribute_end (h : ∃ d ∈ more.head?, d = '>' ∨ d = '/') : EndsAttribute more := by
  obtain ⟨d, hd, h⟩ := h
  obtain ⟨tail, rfl⟩ := List.head?_eq_some_iff.1 hd
  constructor
  · rintro _ ⟨⟩
    rcases h with rfl | rfl <;> rfl
  · rcases h with rfl | rfl <;> rintro _ ⟨⟩ <;> decide

theorem endsAttribute_write {a : Attribute} (ha : a.isNormal = true) (choice : String → Quoting)
    (more : List Char) : EndsAttribute (a.write choice ++ more) := by
  simp only [Attribute.isNormal, Bool.and_eq_true, Bool.not_eq_true', List.all_eq_true,
    List.isEmpty_eq_false_iff] at ha
  obtain ⟨c, tail, hc⟩ := List.exists_cons_of_ne_nil ha.1.1
  have hchar : isAttributeChar c = true := ha.1.2 c (by simp [hc])
  constructor
  · rintro _ ⟨⟩
    rfl
  · rw [Attribute.write, List.cons_append, skipBlanks_cons rfl, hc, List.cons_append,
      List.cons_append, skipBlanks_eq]
    · rintro _ ⟨⟩ rfl
      cases hchar
    · rintro _ ⟨⟩
      exact isTagBlank_of_isAttributeChar hchar

theorem readAttributes_writeFrom (position : Nat) {attrs : List Attribute} {closes : Bool}
    (hlegal : IsLegal quoting) (hattrs : ∀ a ∈ attrs, a.isNormal = true)
    (hmore : ∃ d ∈ more.head?, d = '>' ∨ d = '/')
    (h : readAttributes b more = .ok ([], closes, rest)) :
    readAttributes b (Attribute.writeFrom quoting position attrs ++ more) =
      .ok (attrs, closes, rest) := by
  induction attrs generalizing position with
  | nil => exact h
  | cons a attrs ih =>
    rw [List.forall_mem_cons] at hattrs
    have hends : EndsAttribute (Attribute.writeFrom quoting (position + 1) attrs ++ more) := by
      cases attrs with
      | nil => exact endsAttribute_end hmore
      | cons a' attrs =>
        rw [Attribute.writeFrom, List.append_assoc]
        exact endsAttribute_write (hattrs.2 a' (by simp)) _ _
    rw [Attribute.writeFrom, List.append_assoc, readAttributes_write hlegal _ hattrs.1 hends,
      ih _ hattrs.2]
    rfl

namespace Node

/-- Induction over nodes; the children of an element come with one hypothesis each. -/
@[induction_eliminator]
theorem inductionOn {motive : Node → Prop}
    (element : ∀ tag attrs selfClosing children, (∀ n ∈ children, motive n) →
      motive (.element tag attrs selfClosing children))
    (text : ∀ value, motive (.text value)) (n : Node) : motive n :=
  @Node.rec motive (fun children => ∀ n ∈ children, motive n) element text (by simp)
    (fun _ _ hn hns => List.forall_mem_cons.2 ⟨hn, hns⟩) n

theorem isNormalForest_iff {ns : List Node} :
    isNormalForest ns = true ↔ ∀ n ∈ ns, n.isNormal = true := by
  induction ns with
  | nil => simp [isNormalForest]
  | cons n ns ih => rw [isNormalForest, Bool.and_eq_true, ih, List.forall_mem_cons]

mutual

/-- The events that a node is read as. -/
def events : Node → List Event
  | .text value => [.text value]
  | .element tag attrs true _ => [.selfClosing tag attrs]
  | .element tag attrs false children =>
    .openTag tag attrs :: (forestEvents children ++ [.closeTag tag])

def forestEvents : List Node → List Event
  | [] => []
  | n :: ns => events n ++ forestEvents ns

end

/-- What is written for the node is read as its events; a text must be followed by markup. -/
def ReadsBack (quoting : List Nat → String → Quoting) (n : Node) : Prop :=
  ∀ rest, (n.isText = true → Sealed rest) →
    readEvents (n.write quoting ++ rest) = (readEvents rest).map (n.events ++ ·)

theorem readsBack_text {value : String} (h : (text value).isNormal = true) :
    ReadsBack quoting (.text value) := by
  intro rest hrest
  simp only [isNormal, Bool.and_eq_true, Bool.not_eq_true', List.isEmpty_eq_false_iff] at h
  rw [write, readEvents_text h.1.1 h.1.2 (hrest rfl), String.ofList_toList]
  rfl

theorem exists_write_element (quoting : List Nat → String → Quoting) (tag : String)
    (attrs : List Attribute) (selfClosing : Bool) (children : List Node) :
    ∃ more, (element tag attrs selfClosing children).write quoting =
      '<' :: (tag.toList ++ more) := by
  cases selfClosing with
  | true => exact ⟨_, by rw [write]⟩
  | false => exact ⟨_, by rw [write]⟩

theorem sealed_writeFrom (position : Nat) {ns : List Node}
    (hns : ∀ n ∈ ns, n.isNormal = true) (htext : ns.head?.any isText = false) (hrest : Sealed rest) :
    Sealed (writeFrom quoting position ns ++ rest) := by
  cases ns with
  | nil => exact hrest
  | cons n ns =>
    cases n with
    | text value => cases htext
    | element tag attrs selfClosing children =>
      have htag := hns _ (List.mem_cons_self ..)
      simp only [isNormal, Bool.and_eq_true] at htag
      obtain ⟨more, hmore⟩ := exists_write_element (fun place => quoting (position :: place)) tag
        attrs selfClosing children
      right
      rw [writeFrom, hmore, startsMarkup]
      simp only [List.cons_append, List.append_assoc, startsTag_of_isTagName htag.1.1.1,
        Bool.true_or]

theorem readEvents_writeFrom (position : Nat) {ns : List Node}
    (hback : ∀ n ∈ ns, ∀ position, ReadsBack (fun place => quoting (position :: place)) n)
    (hns : ∀ n ∈ ns, n.isNormal = true) (hrest : Sealed rest) :
    readEvents (writeFrom quoting position ns ++ rest) =
      (readEvents rest).map (forestEvents ns ++ ·) := by
  induction ns generalizing position with
  | nil =>
    rw [writeFrom, List.nil_append]
    cases readEvents rest <;> rfl
  | cons n ns ih =>
    rw [List.forall_mem_cons] at hback
    have htail := ih (position + 1) hback.2 (List.forall_mem_cons.1 hns).2
    have hread : readEvents (writeFrom quoting position (n :: ns) ++ rest)
        = (readEvents (writeFrom quoting (position + 1) ns ++ rest)).map (n.events ++ ·) := by
      rw [writeFrom, List.append_assoc, List.append_assoc]
      split
      · -- two texts: the comment between them leaves no event
        have hcomment : readEvents ("<!---->".toList ++ (writeFrom quoting (position + 1) ns ++ rest))
            = readEvents (writeFrom quoting (position + 1) ns ++ rest) := readEvents_comment
        rw [hback.1 position _ fun _ => .inr rfl, hcomment]
      · rename_i hseparate
        refine hback.1 position _ fun htext => ?_
        rw [htext, Bool.true_and, Bool.not_eq_true] at hseparate
        exact sealed_writeFrom _ (List.forall_mem_cons.1 hns).2 hseparate hrest
    rw [hread, htail, forestEvents]
    cases readEvents rest <;> simp [Except.map]

theorem isTagChar_of_writeFrom (position : Nat) {attrs : List Attribute}
    (hmore : ∃ d ∈ more.head?, d = '>' ∨ d = '/') :
    ∀ d ∈ (Attribute.writeFrom quoting position attrs ++ more).head?, isTagChar d = false := by
  cases attrs with
  | nil =>
    obtain ⟨d, hd, h⟩ := hmore
    intro d' hd'
    obtain rfl : d = d' := Option.some.inj (hd.symm.trans hd')
    rcases h with rfl | rfl <;> rfl
  | cons a attrs =>
    rintro d ⟨⟩
    rfl

theorem readsBack_element {tag : String} {attrs : List Attribute} {selfClosing : Bool}
    {children : List Node} (hlegal : IsLegal quoting)
    (h : (element tag attrs selfClosing children).isNormal = true)
    (hback : ∀ n ∈ children, ∀ position, ReadsBack (fun place => quoting (position :: place)) n) :
    ReadsBack quoting (.element tag attrs selfClosing children) := by
  intro rest _
  simp only [isNormal, Bool.and_eq_true, List.all_eq_true, isNormalForest_iff] at h
  obtain ⟨⟨⟨htag, hattrs⟩, -⟩, hchildren⟩ := h
  cases selfClosing with
  | true =>
    have hends : ∃ d ∈ ('/' :: '>' :: rest).head?, d = '>' ∨ d = '/' := ⟨'/', rfl, .inr rfl⟩
    have hread := readEvents_openTag htag (isTagChar_of_writeFrom 0 hends) fun b =>
      readAttributes_writeFrom 0 hlegal hattrs hends (readAttributes_selfClosing b rest)
    rw [String.ofList_toList] at hread
    simp only [write, List.cons_append, List.append_assoc, List.nil_append, hread, events]
    rfl
  | false =>
    have hclose : readEvents ('<' :: '/' :: (tag.toList ++ '>' :: rest)) = _ :=
      readEvents_closeTag (mem_of_isTagName htag)
    have hinner := readEvents_writeFrom 0 hback hchildren
      (.inr rfl : Sealed ('<' :: '/' :: (tag.toList ++ '>' :: rest)))
    have hends (more : List Char) : ∃ d ∈ ('>' :: more).head?, d = '>' ∨ d = '/' :=
      ⟨'>', rfl, .inl rfl⟩
    have hopen := readEvents_openTag htag (isTagChar_of_writeFrom 0 (hends _)) fun b =>
      readAttributes_writeFrom 0 hlegal hattrs (hends _) (readAttributes_end b
        (writeFrom quoting 0 children ++ '<' :: '/' :: (tag.toList ++ '>' :: rest)))
    rw [String.ofList_toList] at hclose hopen
    simp only [write, List.cons_append, List.append_assoc, List.nil_append, hopen, hinner, hclose,
      events]
    cases readEvents rest <;> simp [Except.map, tagEvent]

theorem readsBack {n : Node} (hlegal : IsLegal quoting) (h : n.isNormal = true) :
    ReadsBack quoting n := by
  induction n generalizing quoting with
  | text value => exact readsBack_text h
  | element tag attrs selfClosing children ih =>
    refine readsBack_element hlegal h fun n hn position => ih n hn ?_ ?_
    · exact fun place => hlegal (position :: place)
    · simp only [isNormal, Bool.and_eq_true, isNormalForest_iff] at h
      exact h.2 n hn

end Node

namespace Forest

theorem foldl_push_opened (e : OpenElement) (outer : List OpenElement) (roots ns : List Node) :
    ns.foldl push ⟨e :: outer, roots⟩ =
      ⟨{ e with children := e.children ++ ns } :: outer, roots⟩ := by
  induction ns generalizing e with
  | nil => simp
  | cons n ns ih =>
    have hpush : push ⟨e :: outer, roots⟩ n =
        ⟨{ e with children := e.children ++ [n] } :: outer, roots⟩ := rfl
    rw [List.foldl_cons, hpush, ih]
    simp

theorem foldl_push_roots (roots ns : List Node) :
    ns.foldl push ⟨[], roots⟩ = ⟨[], roots ++ ns⟩ := by
  induction ns generalizing roots with
  | nil => simp
  | cons n ns ih =>
    have hpush : push ⟨[], roots⟩ n = ⟨[], roots ++ [n]⟩ := rfl
    rw [List.foldl_cons, hpush, ih]
    simp

theorem foldl_step_forestEvents {ns : List Node}
    (hns : ∀ n ∈ ns, ∀ f, n.events.foldl step f = f.push n) (f : Forest) :
    (Node.forestEvents ns).foldl step f = ns.foldl push f := by
  induction ns generalizing f with
  | nil => rfl
  | cons n ns ih =>
    rw [List.forall_mem_cons] at hns
    rw [Node.forestEvents, List.foldl_append, hns.1, ih hns.2, List.foldl_cons]

/-- The events of a node put the node into the forest. -/
theorem foldl_step_events {n : Node} (h : n.isNormal = true) (f : Forest) :
    n.events.foldl step f = f.push n := by
  induction n generalizing f with
  | text value =>
    simp only [Node.isNormal, Bool.and_eq_true, Bool.or_eq_true, Bool.not_eq_true', beq_iff_eq] at h
    have hrun : Node.ofRun value = .text value := by
      rcases h.2 with hwhite | rfl
      · rw [Node.ofRun, hwhite]
        rfl
      · simp [Node.ofRun]
    rw [Node.events, List.foldl_cons, List.foldl_nil, step, hrun]
  | element tag attrs selfClosing children ih =>
    simp only [Node.isNormal, Bool.and_eq_true, Node.isNormalForest_iff] at h
    have hchildren := foldl_step_forestEvents fun n hn => ih n hn (h.2 n hn)
    cases selfClosing with
    | true =>
      have hnone : children = [] := by simpa using h.1.2
      rw [Node.events, List.foldl_cons, List.foldl_nil, step, hnone]
    | false =>
      have hopen : step f (.openTag tag attrs) = ⟨⟨tag, attrs, []⟩ :: f.opened, f.roots⟩ := rfl
      have hclose (e : OpenElement) (htag : e.tag = tag) :
          step ⟨e :: f.opened, f.roots⟩ (.closeTag tag) = f.push (e.close []) := by
        simp [step, closeThrough, htag]
      rw [Node.events, List.foldl_cons, hopen, List.foldl_append, hchildren, foldl_push_opened,
        List.foldl_cons, List.foldl_nil, hclose _ rfl, OpenElement.close]
      simp

end Forest

/-- A forest that reading can give: the roots are not white space. -/
def isNormal (ns : List Node) : Bool :=
  Node.isNormalForest ns && ns.all fun n => !n.isBlank

/-- What is written for a normal forest is read as this forest, whichever legal quoting is chosen
for its values, at each place by itself. -/
theorem parse_serialize (quoting : List Nat → String → Quoting) (hlegal : IsLegal quoting)
    (ns : List Node) (hns : isNormal ns = true) : parse (serialize quoting ns) = .ok ns := by
  rw [isNormal, Bool.and_eq_true, Node.isNormalForest_iff] at hns
  obtain ⟨hnormal, hroots⟩ := hns
  have hback (n : Node) (hn : n ∈ ns) (position : Nat) :
      n.ReadsBack fun place => quoting (position :: place) :=
    Node.readsBack (fun place => hlegal (position :: place)) (hnormal n hn)
  have hread := Node.readEvents_writeFrom 0 hback hnormal (.inl rfl : Sealed [])
  have hnil : readEvents [] = .ok [] := by rw [readEvents]
  rw [List.append_nil, hnil] at hread
  have hbuild : Forest.ofEvents (Node.forestEvents ns) = ns := by
    have hsteps := Forest.foldl_step_forestEvents
      (fun n hn => Forest.foldl_step_events (hnormal n hn)) .empty
    rw [Forest.ofEvents, hsteps, Forest.empty, Forest.foldl_push_roots]
    simp [Forest.closeAll]
  have hkeep : ns.filter (fun n => !n.isBlank) = ns :=
    List.filter_eq_self.2 (List.all_eq_true.1 hroots)
  rw [parse, serialize, String.toList_ofList, hread]
  simp only [Except.map, List.append_nil, hbuild, hkeep]

namespace Quoting

/-- Double quotes where they are legal, else single ones, else none. -/
def choose (value : String) : Quoting :=
  if Quoting.double.isLegal value.toList then .double
  else if Quoting.single.isLegal value.toList then .single
  else .bare

theorem isLegal_choose {value : String} (hvalue : isQuotable value.toList = true) :
    (choose value).isLegal value.toList = true := by
  unfold choose
  split_ifs with hdouble hsingle
  · exact hdouble
  · exact hsingle
  · -- a value with both quotes in it is not empty
    simp only [isLegal, Bool.not_eq_true', Bool.not_eq_false] at hdouble hsingle
    simp only [isQuotable, hdouble, hsingle, Bool.not_true, Bool.false_or] at hvalue
    have hne : value.toList ≠ [] := by
      intro hnil
      simp [hnil] at hdouble
    simp [isLegal, hne, Bool.and_eq_true_iff.1 hvalue]

/-- The quoting that is wished for at a place if it is legal there, else the chosen one. -/
def prefer (wish : List Nat → Quoting) (place : List Nat) (value : String) : Quoting :=
  if (wish place).isLegal value.toList then wish place else choose value

end Quoting

theorem isLegal_prefer (wish : List Nat → Quoting) : IsLegal (Quoting.prefer wish) := by
  intro place value hvalue
  unfold Quoting.prefer
  split_ifs with hwish
  · exact hwish
  · exact Quoting.isLegal_choose hvalue

/-- Nested elements with one tag, a text that ends in `<`, two texts side by side, and all forms of
attributes, three of them with one value. -/
def nestedForest : List Node :=
  [.element "p" [⟨"a", none⟩, ⟨"b", some "x\"y"⟩, ⟨"c", some "z\"'"⟩, ⟨"d", some "v"⟩,
      ⟨"e", some "v"⟩, ⟨"f", some "v"⟩] false
    [.text "1 <", .text "b", .element "p" [] false [.text " "],
      .element "br" [⟨"k", some ""⟩] true []]]

/-- The value of three attributes is written in three ways. -/
theorem parse_serialize_nested :
    isNormal nestedForest = true ∧
    parse "<p a b='x\"y' c=z\"'  d=\"v\" e='v' f=v >1 <<!---->b<p> </p><br k=\"\"/></p>" =
      .ok nestedForest := by
  let wish (place : List Nat) : Quoting :=
    if place = [0, 4] then .single else if place = [0, 5] then .bare else .double
  have hnormal : isNormal nestedForest = true := by decide +kernel
  have hwritten : serialize (Quoting.prefer wish) nestedForest
      = "<p a b='x\"y' c=z\"'  d=\"v\" e='v' f=v >1 <<!---->b<p> </p><br k=\"\"/></p>" := by
    decide +kernel
  refine ⟨hnormal, ?_⟩
  rw [← hwritten]
  exact parse_serialize (Quoting.prefer wish) (isLegal_prefer wish) nestedForest hnormal

end Stencil.Markup
