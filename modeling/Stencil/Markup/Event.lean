import Stencil.Text.Blank

/-!
# Markup events

A template is read as a sequence of events: runs of text, opening, self-closing and closing tags.
Comments leave no event. Reading is lenient and fails only where the text ends too early; a fault
carries the rest of the text from the construct that was left open.
-/

namespace Stencil.Markup

/-- An attribute of a tag; the value is absent if no equals sign follows the name. -/
structure Attribute where
  name : String
  value : Option String
deriving DecidableEq, Repr

inductive Event where
  | text (run : String)
  | openTag (tag : String) (attrs : List Attribute)
  | selfClosing (tag : String) (attrs : List Attribute)
  | closeTag (tag : String)
deriving DecidableEq, Repr

/-- A construct that the end of the text left open. -/
inductive Fault where
  | comment
  | tag (name : String)
  | value
  | missingValue
deriving DecidableEq, Repr

/-- A fault, and the text from the place that it is reported at. -/
structure Break where
  fault : Fault
  rest : List Char
deriving DecidableEq, Repr

def Fault.message : Fault → String
  | .comment => "unterminated comment"
  | .tag name => "unterminated <" ++ name ++ "> tag"
  | .value => "unterminated attribute value"
  | .missingValue => "missing attribute value"

/-- The characters of a tag's name. -/
def isTagChar (c : Char) : Bool :=
  c.isAlphanum || c == '_' || c == '-' || c == ':'

/-- The characters of an attribute's name. -/
def isAttributeChar (c : Char) : Bool :=
  !(Text.isTagBlank c || c == '=' || c == '>' || c == '/' || c == '"' || c == '\'' || c == '<')

/-- A tag starts here: `<` before a letter or a slash. -/
def startsTag : List Char → Bool
  | '<' :: c :: _ => c.isAlpha || c == '/'
  | _ => false

def startsComment : List Char → Bool
  | '<' :: '!' :: '-' :: '-' :: _ => true
  | _ => false

/-- The characters up to the next tag or comment, and the text from there. -/
def textRun : List Char → List Char × List Char
  | [] => ([], [])
  | c :: rest =>
    if startsTag (c :: rest) || startsComment (c :: rest) then ([], c :: rest)
    else (c :: (textRun rest).1, (textRun rest).2)

/-- The text after the first end of a comment. -/
def afterComment : List Char → Option (List Char)
  | [] => none
  | '-' :: '-' :: '>' :: rest => some rest
  | _ :: rest => afterComment rest

def skipBlanks (cs : List Char) : List Char := cs.dropWhile Text.isTagBlank

/-- The text after a `>`, if one stands at the front. -/
def skipEnd : List Char → List Char
  | '>' :: rest => rest
  | rest => rest

/-- Reads the value of an attribute: between quotes, or up to a blank or the end of the tag. -/
def readValue : List Char → Except Break (String × List Char)
  | [] => .error ⟨.missingValue, []⟩
  | c :: rest =>
    if c = '"' ∨ c = '\'' then
      match rest.dropWhile (· != c) with
      | [] => .error ⟨.value, c :: rest⟩
      | _ :: after => .ok (String.ofList (rest.takeWhile (· != c)), after)
    else
      let inValue (c : Char) : Bool := !Text.isTagBlank c && c != '>'
      .ok (String.ofList ((c :: rest).takeWhile inValue), (c :: rest).dropWhile inValue)

/-- Reads a name and, after an equals sign, a value. -/
def readAttribute (cs : List Char) : Except Break (Attribute × List Char) :=
  let name := String.ofList (cs.takeWhile isAttributeChar)
  match skipBlanks (cs.dropWhile isAttributeChar) with
  | '=' :: rest =>
    match readValue (skipBlanks rest) with
    | .error b => .error b
    | .ok (value, after) => .ok (⟨name, some value⟩, after)
  | rest => .ok (⟨name, none⟩, rest)

theorem suffix_skipBlanks (cs : List Char) : skipBlanks cs <:+ cs :=
  List.dropWhile_suffix _

theorem suffix_skipEnd (cs : List Char) : skipEnd cs <:+ cs := by
  unfold skipEnd
  split
  · exact List.suffix_cons _ _
  · exact List.suffix_rfl

theorem suffix_readValue {cs rest : List Char} {value : String}
    (h : readValue cs = .ok (value, rest)) : rest <:+ cs := by
  unfold readValue at h
  split at h
  · cases h
  · rename_i c tail
    split at h
    · split at h
      · cases h
      · rename_i d _ hd
        cases h
        have hafter : d :: rest <:+ tail := hd ▸ List.dropWhile_suffix _
        exact ((List.suffix_cons d rest).trans hafter).trans (List.suffix_cons c tail)
    · cases h
      exact List.dropWhile_suffix _

theorem suffix_readAttribute {c : Char} {cs rest : List Char} {a : Attribute}
    (hc : isAttributeChar c = true) (h : readAttribute (c :: cs) = .ok (a, rest)) :
    rest <:+ cs := by
  have hname : skipBlanks ((c :: cs).dropWhile isAttributeChar) <:+ cs := by
    rw [List.dropWhile_cons_of_pos hc]
    exact (suffix_skipBlanks _).trans (List.dropWhile_suffix _)
  unfold readAttribute at h
  dsimp only at h
  split at h
  · rename_i tail heq
    rw [heq] at hname
    split at h
    · cases h
    · rename_i value after hvalue
      cases h
      have htail := (suffix_readValue hvalue).trans (suffix_skipBlanks tail)
      exact (htail.trans (List.suffix_cons '=' tail)).trans hname
  · cases h
    exact hname

theorem length_skipBlanks_le (cs : List Char) : (skipBlanks cs).length ≤ cs.length :=
  (suffix_skipBlanks cs).length_le

theorem length_readAttribute_lt {c : Char} {cs rest : List Char} {a : Attribute}
    (hc : isAttributeChar c = true) (h : readAttribute (c :: cs) = .ok (a, rest)) :
    rest.length < (c :: cs).length :=
  Nat.lt_succ_of_le (suffix_readAttribute hc h).length_le

/-- Reads the attributes of a tag and its end: the attributes, whether the tag closes itself, and
what follows. Characters that start neither an attribute nor the end are skipped. -/
def readAttributes (unterminated : Break) (cs : List Char) :
    Except Break (List Attribute × Bool × List Char) :=
  match hs : skipBlanks cs with
  | [] => .error unterminated
  | '/' :: rest => .ok ([], true, skipEnd (skipBlanks rest))
  | '>' :: rest => .ok ([], false, rest)
  | c :: rest =>
    have hle : (c :: rest).length ≤ cs.length := hs ▸ length_skipBlanks_le cs
    if hc : isAttributeChar c = true then
      match ha : readAttribute (c :: rest) with
      | .error b => .error b
      | .ok (a, after) =>
        have := Nat.lt_of_lt_of_le (length_readAttribute_lt hc ha) hle
        (readAttributes unterminated after).map fun (attrs, ending) => (a :: attrs, ending)
    else
      have := Nat.lt_of_lt_of_le (Nat.lt_succ_self rest.length) hle
      readAttributes unterminated rest
termination_by cs.length

/-- Reads a tag, from its `<` on. -/
def readTag (cs : List Char) : Except Break (Event × List Char) :=
  match cs with
  | _ :: '/' :: rest =>
    .ok (.closeTag (String.ofList (rest.takeWhile isTagChar)),
      skipEnd (skipBlanks (rest.dropWhile isTagChar)))
  | _ =>
    let rest := cs.drop 1
    let tag := String.ofList (rest.takeWhile isTagChar)
    match readAttributes ⟨.tag tag, cs⟩ (rest.dropWhile isTagChar) with
    | .error b => .error b
    | .ok (attrs, true, after) => .ok (.selfClosing tag attrs, after)
    | .ok (attrs, false, after) => .ok (.openTag tag attrs, after)

/-- Reads the event at the front of a text that is not empty; a comment gives none. -/
def readEvent (c : Char) (cs : List Char) : Except Break (Option Event × List Char) :=
  if startsComment (c :: cs) then
    match afterComment (cs.drop 3) with
    | none => .error ⟨.comment, c :: cs⟩
    | some rest => .ok (none, rest)
  else if startsTag (c :: cs) then
    match readTag (c :: cs) with
    | .error b => .error b
    | .ok (event, rest) => .ok (some event, rest)
  else .ok (some (.text (String.ofList (c :: (textRun cs).1))), (textRun cs).2)

theorem textRun_append_eq (cs : List Char) : (textRun cs).1 ++ (textRun cs).2 = cs := by
  fun_induction textRun cs with
  | case1 => rfl
  | case2 => rfl
  | case3 c rest _ ih => rw [List.cons_append, ih]

theorem exists_of_afterComment {cs rest : List Char} (h : afterComment cs = some rest) :
    ∃ body, cs = body ++ '-' :: '-' :: '>' :: rest := by
  fun_induction afterComment cs with
  | case1 => cases h
  | case2 =>
    cases h
    exact ⟨[], rfl⟩
  | case3 c tail _ ih =>
    obtain ⟨body, hbody⟩ := ih h
    exact ⟨c :: body, by rw [hbody]; rfl⟩

theorem suffix_readAttributes {b : Break} {cs rest : List Char} {attrs : List Attribute}
    {closes : Bool} (h : readAttributes b cs = .ok (attrs, closes, rest)) : rest <:+ cs := by
  fun_induction readAttributes b cs generalizing attrs closes with
  | case1 => cases h
  | case2 cs tail hs =>
    cases h
    have hblanks : '/' :: tail <:+ cs := hs ▸ suffix_skipBlanks cs
    have hend := (suffix_skipEnd (skipBlanks tail)).trans (suffix_skipBlanks tail)
    exact (hend.trans (List.suffix_cons '/' tail)).trans hblanks
  | case3 cs tail hs =>
    cases h
    exact (List.suffix_cons '>' rest).trans (hs ▸ suffix_skipBlanks cs)
  | case4 => cases h
  | case5 cs c tail _ _ hs hle hc a after ha hlt ih =>
    match hr : readAttributes b after with
    | .error e => rw [hr] at h; cases h
    | .ok (as, cl, r) =>
      rw [hr] at h
      cases h
      have htail := (ih hr).trans (suffix_readAttribute hc ha)
      exact (htail.trans (List.suffix_cons c tail)).trans (hs ▸ suffix_skipBlanks cs)
  | case6 cs c tail _ _ hs hle hc hlt ih =>
    exact ((ih h).trans (List.suffix_cons c tail)).trans (hs ▸ suffix_skipBlanks cs)

theorem suffix_readTag {c : Char} {cs rest : List Char} {e : Event}
    (h : readTag (c :: cs) = .ok (e, rest)) : rest <:+ cs := by
  unfold readTag at h
  split at h
  · rename_i d tail heq
    cases h
    obtain ⟨-, rfl⟩ := List.cons.inj heq
    have hname := (suffix_skipBlanks _).trans (List.dropWhile_suffix (l := tail) isTagChar)
    exact ((suffix_skipEnd _).trans hname).trans (List.suffix_cons '/' tail)
  · dsimp only [List.drop] at h
    split at h
    · cases h
    · rename_i hr
      cases h
      exact (suffix_readAttributes hr).trans (List.dropWhile_suffix _)
    · rename_i hr
      cases h
      exact (suffix_readAttributes hr).trans (List.dropWhile_suffix _)

theorem length_readEvent_lt {c : Char} {cs rest : List Char} {e : Option Event}
    (h : readEvent c cs = .ok (e, rest)) : rest.length < (c :: cs).length := by
  unfold readEvent at h
  split at h
  · split at h
    · cases h
    · rename_i hr
      cases h
      obtain ⟨body, hbody⟩ := exists_of_afterComment hr
      have := congrArg List.length hbody
      simp only [List.length_drop, List.length_append, List.length_cons] at this ⊢
      omega
  · split at h
    · split at h
      · cases h
      · rename_i hr
        cases h
        exact Nat.lt_succ_of_le (suffix_readTag hr).length_le
    · cases h
      have := congrArg List.length (textRun_append_eq cs)
      simp only [List.length_append, List.length_cons] at this ⊢
      omega

/-- The events of a text. -/
def readEvents (cs : List Char) : Except Break (List Event) :=
  match cs with
  | [] => .ok []
  | c :: tail =>
    match h : readEvent c tail with
    | .error b => .error b
    | .ok (event, rest) =>
      have := length_readEvent_lt h
      (readEvents rest).map (event.toList ++ ·)
termination_by cs.length
decreasing_by exact this

end Stencil.Markup
