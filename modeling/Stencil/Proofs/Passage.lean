import Stencil.Proofs.Boundaries
import Stencil.Proofs.DoubledSigns

/-!
# The search behind an expression

The search for forbidden operators is a run of modes: at each character it looks at most one
character ahead, and what it remembers is the mode. Over a text that is read it finds nothing, it
ends outside quoted text, and the last character of such a text is none that it looks ahead from. So
it goes on behind the text as if it started there, with that character before it.
-/

namespace Stencil

namespace ForbiddenOp

open Token (Laid Spells)

variable {m : Mode} {c : Char} {cs rest : List Char}

/-- What is found at a character, given the one that follows. -/
def Mode.look? : Mode → Char → Option Char → Option ForbiddenOp
  | .code previous, c, following =>
    match examine previous c following.toList with
    | .error op => some op
    | .ok _ => none
  | .equals, c, following =>
    if c = '=' then none
    else
      match examine (some '=') c following.toList with
      | .error op => some op
      | .ok _ => none
  | .text _, _, _ | .escape _, _, _ => none

/-- The mode after a character. -/
def Mode.next : Mode → Char → Mode
  | .code _, c | .equals, c =>
    if c = '"' ∨ c = '\'' then .text c else if c = '=' then .equals else .code (some c)
  | .text quote, c =>
    if c = '\\' then .escape quote else if c = quote then .code (some c) else .text quote
  | .escape quote, _ => .text quote

/-- The mode after a text. -/
def Mode.after (m : Mode) (cs : List Char) : Mode := cs.foldl Mode.next m

theorem examine_head? (previous : Option Char) (c : Char) (rest : List Char) :
    examine previous c rest.head?.toList = examine previous c rest := by
  cases rest <;> rfl

theorem eq_next_of_examine {previous : Option Char} (h : examine previous c rest = .ok m) :
    m = (Mode.code previous).next c := by
  unfold examine at h
  rw [Mode.next]
  split_ifs at h ⊢ <;> cases h <;> rfl

theorem search_eq_or (m : Mode) (c : Char) (rest : List Char) :
    search m (c :: rest) = (m.look? c rest.head?).or (search (m.next c) rest) := by
  cases m with
  | code previous =>
    rw [search, Mode.look?, examine_head?]
    cases h : examine previous c rest with
    | error op => rfl
    | ok mode => rw [eq_next_of_examine h]; rfl
  | equals =>
    rw [search, Mode.look?, examine_head?]
    split
    · rename_i hc
      simp [Mode.next, hc]
    · cases h : examine (some '=') c rest with
      | error op => rfl
      | ok mode => rw [eq_next_of_examine h]; rfl
  | text quote =>
    rw [search, Mode.look?, Mode.next]
    split_ifs <;> rfl
  | escape quote => rfl

/-- The characters at which the search finds something only by what follows. -/
def isWatched (c : Char) : Bool := c == '+' || c == '-' || c == '='

theorem look?_eq_none (hc : isWatched c = false) (following : Option Char) :
    m.look? c following = none := by
  simp only [isWatched, Bool.or_eq_false_iff, beq_eq_false_iff_ne] at hc
  obtain ⟨⟨hplus, hminus⟩, hequals⟩ := hc
  have hok (previous : Option Char) : ∃ mode, examine previous c following.toList = .ok mode := by
    unfold examine
    split_ifs <;> simp_all
  cases m with
  | code previous =>
    obtain ⟨mode, hmode⟩ := hok previous
    rw [Mode.look?, hmode]
  | equals =>
    obtain ⟨mode, hmode⟩ := hok (some '=')
    rw [Mode.look?, if_neg hequals, hmode]
  | text | escape => rfl

/-- The search goes on behind a text in which it finds nothing. -/
theorem search_append (h : search m cs = none) (hlast : ∀ c ∈ cs.getLast?, isWatched c = false)
    (rest : List Char) : search m (cs ++ rest) = search (m.after cs) rest := by
  induction cs generalizing m with
  | nil => rfl
  | cons c cs ih =>
    rw [search_eq_or, Option.or_eq_none_iff] at h
    -- only the last character has another one behind it than before
    have hlook : m.look? c (cs ++ rest).head? = none := by
      cases cs with
      | nil => exact look?_eq_none (hlast c rfl) _
      | cons d cs => exact h.1
    rw [List.cons_append, search_eq_or, hlook, Option.none_or, ih h.2 fun d hd => hlast d ?_]
    · rfl
    · rw [List.getLast?_cons, hd]
      rfl

/-- The mode is outside quoted text. -/
def Mode.isOutside : Mode → Bool
  | .code _ | .equals => true
  | .text _ | .escape _ => false

theorem Mode.after_append (m : Mode) (cs ds : List Char) :
    m.after (cs ++ ds) = (m.after cs).after ds :=
  List.foldl_append

theorem isOutside_next (hm : m.isOutside = true) (hc : ¬(c = '"' ∨ c = '\'')) :
    (m.next c).isOutside = true := by
  cases m with
  | code | equals =>
    rw [Mode.next, if_neg hc]
    split_ifs <;> rfl
  | text | escape => cases hm

theorem isOutside_after_of_forall (hm : m.isOutside = true)
    (hcs : ∀ c ∈ cs, ¬(c = '"' ∨ c = '\'')) : (m.after cs).isOutside = true := by
  induction cs generalizing m with
  | nil => exact hm
  | cons c cs ih =>
    rw [List.forall_mem_cons] at hcs
    exact ih (isOutside_next hm hcs.1) hcs.2

/-- The mode leaves a quotation where its reader does. -/
theorem after_text {quote : Char} {body text : List Char}
    (h : Text.Quoted.readBody quote body = some (text, [])) :
    (Mode.text quote).after body = .code (some quote) := by
  fun_induction Text.Quoted.readBody quote body generalizing text with
  | case1 => cases h
  | case2 => cases h
  | case3 c tail ih =>
    obtain ⟨⟨t, a⟩, hread, heq⟩ := Option.map_eq_some_iff.1 h
    cases heq
    exact ih hread
  | case4 tail hnil hcons =>
    cases h
    rw [Mode.after, List.foldl_cons, Mode.next, if_neg (Text.Quoted.ne_backslash hnil hcons),
      if_pos rfl, List.foldl_nil]
  | case5 c tail hnil hcons hc ih =>
    obtain ⟨⟨t, a⟩, hread, heq⟩ := Option.map_eq_some_iff.1 h
    cases heq
    rw [Mode.after, List.foldl_cons, Mode.next, if_neg (Text.Quoted.ne_backslash hnil hcons),
      if_neg hc]
    exact ih hread

theorem isOutside_after_string {value : String} {s : List Char} (hm : m.isOutside = true)
    (hs : Spells (.string value) s) : (m.after s).isOutside = true := by
  cases hs with
  | @string quote body text hquote hbody =>
    have hnext : m.next quote = .text quote := by
      cases m with
      | code | equals => rw [Mode.next, if_pos hquote]
      | text | escape => cases hm
    rw [Mode.after, List.foldl_cons, hnext]
    change ((Mode.text quote).after body).isOutside = true
    rw [after_text hbody]
    rfl
  | fixed hs => cases hs

/-- Behind whole tokens the search is outside quoted text. -/
theorem isOutside_after {ts : List Token} {view : List (Option Char)} (h : Laid cs ts view)
    (hm : m.isOutside = true) : (m.after cs).isOutside = true := by
  induction h generalizing m with
  | nil => exact hm
  | blank hc _ ih =>
    refine ih (isOutside_next hm ?_)
    rintro (rfl | rfl) <;> exact absurd hc (by decide)
  | string hs _ ih =>
    rw [Mode.after_append]
    exact ih (isOutside_after_string hm hs)
  | token ht hs _ ih =>
    rw [Mode.after_append]
    exact ih (isOutside_after_of_forall hm (hs.not_quote ht))

theorem next_eq_code (h : (m.next c).isOutside = true) (hc : c ≠ '=') :
    m.next c = .code (some c) := by
  cases m with
  | code | equals =>
    rw [Mode.next] at h ⊢
    split_ifs at h ⊢
    · cases h
    · rfl
  | text quote =>
    rw [Mode.next] at h ⊢
    split_ifs at h ⊢
    · cases h
    · rfl
    · cases h
  | escape => cases h

/-- What stands before tokens does not matter to the search. -/
theorem search_eq_find? {ts : List Token} (h : Token.lex cs = some ts) (previous : Option Char) :
    search (.code previous) cs = find? cs := by
  have hagrees := agrees_of_laid (Token.laid_of_lex h)
  exact (hagrees.code previous).trans (hagrees.code none).symm

/-- Behind tokens the search goes on with the last character before it. -/
theorem search_append_of_lex {ts : List Token} (hlex : Token.lex cs = some ts)
    (hfind : find? cs = none) (hc : c ∈ cs.getLast?) (hwatched : isWatched c = false)
    (previous : Option Char) (rest : List Char) :
    search (.code previous) (cs ++ rest) = search (.code (some c)) rest := by
  have hnone : search (.code previous) cs = none := (search_eq_find? hlex previous).trans hfind
  obtain ⟨front, rfl⟩ := List.getLast?_eq_some_iff.1 hc
  have hequals : c ≠ '=' := by
    rintro rfl
    cases hwatched
  have houtside := isOutside_after (Token.laid_of_lex hlex) (m := .code previous) rfl
  rw [search_append hnone (by simpa using hwatched)]
  rw [Mode.after_append] at houtside ⊢
  exact congrArg (search · rest) (next_eq_code houtside hequals)

end ForbiddenOp
end Stencil
