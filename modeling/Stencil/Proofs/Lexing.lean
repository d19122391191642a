import Stencil.Expr.Forbidden
import Stencil.Proofs.Numerals
import Stencil.Proofs.Trees

/-!
# Written tokens

`Written cs ts` says that the characters `cs` are the tokens `ts`, one after the other with blanks
between them where the writer likes, and that no token runs into the next one. Such characters are
split into these tokens, and no forbidden operator is found in them.
-/

namespace Stencil.Token

/-- The spelling of a token that has only one. -/
def fixed? : Token → Option String
  | .op operator => some operator.symbol
  | .bang => some "!"
  | .dot => some "."
  | .question => some "?"
  | .colon => some ":"
  | .pipe => some "|"
  | .leftParen => some "("
  | .rightParen => some ")"
  | .leftBracket => some "["
  | .rightBracket => some "]"
  | .word _ | .number _ | .string _ => none

/-- The characters that a token is written with; a string has many spellings. -/
inductive Spells : Token → List Char → Prop
  | word {name : String} : isName name.toList = true → Spells (.word name) name.toList
  | number {n : Numeral} : n.WellFormed → Spells (.number n) n.chars
  | string {quote : Char} {body text : List Char} : quote = '"' ∨ quote = '\'' →
      Text.Quoted.readBody quote body = some (text, []) →
      Spells (.string (String.ofList text)) (quote :: body)
  | fixed {t : Token} {s : String} : t.fixed? = some s → Spells t s.toList

/-- The characters that must not follow a token directly: they would make it another token, or a
forbidden operator. -/
def isExtendedBy : Token → Char → Bool
  | .word _, c => isNameChar c
  | .number _, c => Numeral.isContinuation c
  | .dot, c => c.isDigit
  | .pipe, c => c == '|'
  | .bang, c => c == '='
  | .op .add, c => c == '+'
  | .op .sub, c => c == '-'
  | .op .strictEq, c | .op .strictNe, c | .op .eq, c | .op .ne, c | .op .le, c | .op .ge, c
  | .op .lt, c | .op .gt, c => c == '='
  | _, _ => false

/-- The characters that would make an operator or a bracket another token. -/
def isJoinedBy : Token → Char → Bool
  | .dot, c => c.isDigit
  | .pipe, c => c == '|'
  | .bang, c | .op .eq, c | .op .ne, c | .op .lt, c | .op .gt, c => c == '='
  | _, _ => false

theorem isJoinedBy_of_isExtendedBy {t : Token} {c : Char} (h : t.isExtendedBy c = false) :
    t.isJoinedBy c = false := by
  cases t with
  | op operator => cases operator <;> first | rfl | exact h
  | dot | pipe | bang => exact h
  | _ => rfl

/-- Tokens with blanks between them, none of which runs into the next one. -/
inductive Written : List Char → List Token → Prop
  | nil : Written [] []
  | blank {c : Char} {cs : List Char} {ts : List Token} : Text.isGap c = true → Written cs ts →
      Written (c :: cs) ts
  | token {t : Token} {s cs : List Char} {ts : List Token} : Spells t s →
      (∀ c ∈ cs.head?, t.isExtendedBy c = false) → Written cs ts → Written (s ++ cs) (t :: ts)

variable {rest : List Char}

theorem isWhite_of_isNameChar {c : Char} (h : isNameChar c = true) : Text.isWhite c = false := by
  simp only [isNameChar, Bool.or_eq_true, beq_iff_eq] at h
  rcases h with (h | rfl) | rfl
  · exact Text.isWhite_of_isAlphanum h
  · decide
  · decide

theorem isNameStart_of_isDigit {c : Char} (h : c.isDigit = true) : isNameStart c = false := by
  simp only [isNameStart, Text.isAlpha_of_isDigit h, Bool.false_or, Bool.or_eq_false_iff,
    beq_eq_false_iff_ne]
  constructor <;> rintro rfl <;> simp at h

/-- No name starts with a digit. -/
theorem isDigit_of_isName {cs : List Char} (h : isName cs = true) :
    ∀ c ∈ cs.head?, c.isDigit = false := by
  obtain ⟨c, tail, rfl, hstart, -⟩ := exists_cons_of_isName h
  rintro d ⟨⟩
  refine Bool.eq_false_iff.2 fun hdigit => ?_
  simp [isNameStart_of_isDigit hdigit] at hstart

theorem isNameStart_of_numeral {c : Char} (h : c.isDigit = true ∨ c = '.') :
    isNameStart c = false ∧ c ≠ '"' ∧ c ≠ '\'' := by
  rcases h with h | rfl
  · refine ⟨isNameStart_of_isDigit h, ?_, ?_⟩ <;> rintro rfl <;> simp at h
  · decide

/-- An operator or a bracket is read back where nothing follows that makes it another token. -/
theorem symbol?_fixed {t : Token} {s : String} (ht : t.fixed? = some s)
    (hrest : ∀ c ∈ rest.head?, t.isJoinedBy c = false) :
    symbol? (s.toList ++ rest) = some (t, rest) := by
  cases t with
  | op operator =>
    cases ht
    cases operator with
    | eq | ne | lt | gt =>
      -- an equals sign would make these longer
      cases rest with
      | nil => rfl
      | cons d tail =>
        have hd : d ≠ '=' := by simpa [isJoinedBy] using hrest d rfl
        simp [BinaryOp.symbol, symbol?, hd]
    | _ => rfl
  | bang | pipe =>
    cases ht
    cases rest with
    | nil => rfl
    | cons d tail =>
      have hd := hrest d rfl
      simp only [isJoinedBy, beq_eq_false_iff_ne] at hd
      simp [symbol?, hd]
  | dot | question | colon | leftParen | rightParen | leftBracket | rightBracket =>
    cases ht
    rfl
  | word | number | string => cases ht

theorem read?_eq_none {c : Char} (hdigit : c.isDigit = false) (hdot : c ≠ '.') :
    Numeral.read? (c :: rest) = none := by
  have hfraction : Numeral.readFraction (c :: rest) = ([], c :: rest) := by
    unfold Numeral.readFraction
    split
    · rename_i heq
      cases heq
      contradiction
    · rfl
  simp [Numeral.read?, hdigit, hfraction]

/-- A point that no digit follows is no numeral. -/
theorem read?_point (hrest : ∀ c ∈ rest.head?, c.isDigit = false) :
    Numeral.read? ('.' :: rest) = none := by
  simp [Numeral.read?, Numeral.readFraction, Text.takeWhile_of_stop hrest]

/-- A character that starts no name, no quoted text and no numeral starts an operator or bracket. -/
theorem next?_eq_symbol? {c : Char} (hstart : isNameStart c = false) (hquote : c ≠ '"' ∧ c ≠ '\'')
    (hread : Numeral.read? (c :: rest) = none) : next? (c :: rest) = symbol? (c :: rest) := by
  rw [next?, if_neg (by simp [hstart]), if_neg (by simp [hquote]), hread]

theorem exists_cons_of_fixed {t : Token} {s : String} (ht : t.fixed? = some s) :
    ∃ c cs, s.toList = c :: cs ∧ isNameStart c = false ∧ (c ≠ '"' ∧ c ≠ '\'') ∧
      c.isDigit = false ∧ (c = '.' → t = .dot ∧ cs = []) ∧ Text.isWhite c = false := by
  cases t with
  | op operator =>
    cases ht
    cases operator <;> exact ⟨_, _, rfl, by decide⟩
  | bang | dot | question | colon | pipe | leftParen | rightParen | leftBracket | rightBracket =>
    cases ht
    exact ⟨_, _, rfl, by decide⟩
  | word | number | string => cases ht

theorem next?_fixed {t : Token} {s : String} (ht : t.fixed? = some s)
    (hrest : ∀ c ∈ rest.head?, t.isJoinedBy c = false) :
    next? (s.toList ++ rest) = some (t, rest) := by
  have hsymbol := symbol?_fixed ht hrest
  obtain ⟨c, cs, hcs, hstart, hquote, hdigit, hpoint, -⟩ := exists_cons_of_fixed ht
  rw [hcs, List.cons_append] at hsymbol ⊢
  refine (next?_eq_symbol? hstart hquote ?_).trans hsymbol
  by_cases hdot : c = '.'
  · obtain ⟨rfl, rfl⟩ := hpoint hdot
    rw [hdot]
    exact read?_point hrest
  · exact read?_eq_none hdigit hdot

theorem next?_number {n : Numeral} (hn : n.WellFormed) (hrest : Numeral.Ends rest) :
    next? (n.chars ++ rest) = some (.number n, rest) := by
  have hread := Numeral.read?_append hn hrest
  obtain ⟨c, cs, hchars, hc⟩ := hn.exists_chars_cons
  obtain ⟨hstart, hquote⟩ := isNameStart_of_numeral hc
  rw [hchars, List.cons_append] at hread ⊢
  rw [next?, if_neg (by simp [hstart]), if_neg (by simp [hquote]), hread]

theorem next?_of_spells {t : Token} {s : List Char} (hs : Spells t s)
    (hrest : ∀ c ∈ rest.head?, t.isExtendedBy c = false) : next? (s ++ rest) = some (t, rest) := by
  cases hs with
  | @word name hname =>
    obtain ⟨c, cs, hcs, hstart, hall⟩ := exists_cons_of_isName hname
    rw [hcs, List.forall_mem_cons] at hall
    rw [hcs, List.cons_append, next?, if_pos hstart, Text.takeWhile_append_of_stop hall.2 hrest,
      Text.dropWhile_append_of_stop hall.2 hrest, ← hcs, String.ofList_toList]
  | number hn => exact next?_number hn (Numeral.ends_of_stop hrest)
  | @string quote body text hq hbody =>
    have hstart : isNameStart quote = false := by rcases hq with rfl | rfl <;> decide
    rw [List.cons_append, next?, if_neg (by simp [hstart]), if_pos hq,
      Text.Quoted.readBody_append rest hbody]
    rfl
  | fixed ht => exact next?_fixed ht fun c hc => isJoinedBy_of_isExtendedBy (hrest c hc)

theorem lex_eq (cs : List Char) :
    lex cs = match cs.dropWhile Text.isGap with
      | [] => some []
      | c :: rest => (next? (c :: rest)).bind fun (t, after) => (lex after).map (t :: ·) := by
  rw [lex]
  split
  · rename_i h
    simp only [h]
  · rename_i c rest h
    simp only [h]
    split
    · rename_i ht
      rw [ht]
      rfl
    · rename_i ht
      rw [ht]
      rfl

theorem lex_blank {c : Char} (hc : Text.isGap c = true) (cs : List Char) :
    lex (c :: cs) = lex cs := by
  rw [lex_eq, lex_eq cs, List.dropWhile_cons_of_pos hc]

theorem lex_token {c : Char} {cs : List Char} {t : Token} (hc : Text.isGap c = false)
    (ht : next? (c :: cs) = some (t, rest)) : lex (c :: cs) = (lex rest).map (t :: ·) := by
  rw [lex_eq, List.dropWhile_cons_of_neg (by simp [hc])]
  simp only [ht]
  rfl

/-- A token starts with a character that is not white. -/
theorem Spells.exists_cons {t : Token} {s : List Char} (hs : Spells t s) :
    ∃ c cs, s = c :: cs ∧ Text.isWhite c = false := by
  cases hs with
  | @word name hname =>
    obtain ⟨c, cs, hcs, hstart, -⟩ := exists_cons_of_isName hname
    exact ⟨c, cs, hcs, isWhite_of_isNameChar (isNameChar_of_isNameStart hstart)⟩
  | number hn =>
    obtain ⟨c, cs, hchars, hc⟩ := hn.exists_chars_cons
    refine ⟨c, cs, hchars, ?_⟩
    rcases hc with hc | rfl
    · exact Text.isWhite_of_isAlphanum (by simp [Char.isAlphanum, hc])
    · decide
  | @string quote body text hq hbody =>
    exact ⟨quote, body, rfl, by rcases hq with rfl | rfl <;> decide⟩
  | fixed ht =>
    obtain ⟨c, cs, hcs, -, -, -, -, hwhite⟩ := exists_cons_of_fixed ht
    exact ⟨c, cs, hcs, hwhite⟩

/-- Written tokens are split where they were joined. -/
theorem lex_of_written {cs : List Char} {ts : List Token} (h : Written cs ts) :
    lex cs = some ts := by
  induction h with
  | nil => rw [lex_eq]; rfl
  | blank hc _ ih => rw [lex_blank hc, ih]
  | @token t s cs ts hs hstop _ ih =>
    obtain ⟨c, tail, rfl, hc⟩ := hs.exists_cons
    have hnext := next?_of_spells hs hstop
    rw [List.cons_append] at hnext ⊢
    rw [lex_token (Text.isGap_of_isWhite hc) hnext, ih]
    rfl

end Stencil.Token

namespace Stencil.ForbiddenOp

/-- From outside quoted text the search runs over `cs` and finds nothing before `rest`. -/
def Passes (cs rest : List Char) : Prop :=
  ∀ prev, ∃ next, search (.code prev) (cs ++ rest) = search (.code next) rest

/-- The characters that the search passes by, whatever stands next to them. -/
def isQuiet (c : Char) : Bool :=
  !(c == '"' || c == '\'' || c == '=' || c == '+' || c == '-')

variable {rest : List Char}

theorem Passes.append {cs ds : List Char} (hcs : Passes cs (ds ++ rest)) (hds : Passes ds rest) :
    Passes (cs ++ ds) rest := by
  intro prev
  obtain ⟨mid, hmid⟩ := hcs prev
  obtain ⟨next, hnext⟩ := hds mid
  exact ⟨next, by rw [List.append_assoc, hmid, hnext]⟩

theorem passes_nil : Passes [] rest := fun prev => ⟨prev, rfl⟩

theorem passes_single {c : Char} (hquote : ¬(c = '"' ∨ c = '\'')) (heq : c ≠ '=')
    (hplus : c = '+' → rest.head? ≠ some '+') (hminus : c = '-' → rest.head? ≠ some '-') :
    Passes [c] rest := by
  intro prev
  refine ⟨some c, ?_⟩
  rw [List.singleton_append, search, examine, if_neg hquote, if_neg fun h => hplus h.1 h.2,
    if_neg fun h => hminus h.1 h.2, if_neg heq]

theorem passes_quiet {cs : List Char} (hcs : ∀ c ∈ cs, isQuiet c = true) : Passes cs rest := by
  induction cs with
  | nil => exact passes_nil
  | cons c cs ih =>
    have hc := hcs c (by simp)
    simp only [isQuiet, Bool.not_eq_true', Bool.or_eq_false_iff, beq_eq_false_iff_ne] at hc
    have hsingle : Passes [c] (cs ++ rest) :=
      passes_single (by tauto) (by tauto) (by tauto) (by tauto)
    exact hsingle.append (ih fun d hd => hcs d (by simp [hd]))

theorem search_equals (hrest : ∀ c ∈ rest.head?, c ≠ '=') :
    search .equals rest = search (.code (some '=')) rest := by
  cases rest with
  | nil => simp [search]
  | cons c rest => simp [search, hrest c rfl]

/-- The search leaves a quotation where its reader does. -/
theorem search_text {quote : Char} {body text : List Char}
    (h : Text.Quoted.readBody quote body = some (text, [])) :
    search (.text quote) (body ++ rest) = search (.code (some quote)) rest := by
  fun_induction Text.Quoted.readBody quote body generalizing text with
  | case1 => cases h
  | case2 => cases h
  | case3 c tail ih =>
    obtain ⟨⟨t, a⟩, hr, he⟩ := Option.map_eq_some_iff.1 h
    cases he
    rw [List.cons_append, List.cons_append, search, if_pos rfl, search, ih hr]
  | case4 tail hnil hcons =>
    cases h
    rw [List.cons_append, search, if_neg (Text.Quoted.ne_backslash hnil hcons), if_pos rfl,
      List.nil_append]
  | case5 c tail hnil hcons hc ih =>
    obtain ⟨⟨t, a⟩, hr, he⟩ := Option.map_eq_some_iff.1 h
    cases he
    rw [List.cons_append, search, if_neg (Text.Quoted.ne_backslash hnil hcons), if_neg hc, ih hr]

theorem isQuiet_of_isNameChar {c : Char} (h : Token.isNameChar c = true) : isQuiet c = true := by
  simp only [isQuiet, Bool.not_eq_true', Bool.or_eq_false_iff, beq_eq_false_iff_ne]
  refine ⟨⟨⟨⟨?_, ?_⟩, ?_⟩, ?_⟩, ?_⟩ <;> rintro rfl <;> revert h <;> decide

theorem isQuiet_of_isDigit {c : Char} (h : c.isDigit = true) : isQuiet c = true :=
  isQuiet_of_isNameChar (by simp [Token.isNameChar, Char.isAlphanum, h])

theorem passes_exponent {e : ExponentPart} (he : e.WellFormed) : Passes e.chars rest := by
  obtain ⟨hmark, hsign, hne, hdigits⟩ := he
  have hds : Passes e.digits rest := passes_quiet fun c hc => isQuiet_of_isDigit (hdigits c hc)
  have hfirst : ∀ c ∈ (e.digits ++ rest).head?, c.isDigit = true := by
    obtain ⟨d, ds, hd⟩ := List.exists_cons_of_ne_nil hne
    rw [hd]
    rintro c ⟨⟩
    exact hdigits d (by simp [hd])
  have hsigned : Passes (e.sign.toList ++ e.digits) rest := by
    refine Passes.append ?_ hds
    cases hs : e.sign with
    | none => exact passes_nil
    | some s =>
      -- a sign is followed by a digit and so is not doubled
      apply passes_single
      · rcases hsign s hs with rfl | rfl <;> decide
      · rcases hsign s hs with rfl | rfl <;> decide
      · exact fun _ h => absurd (hfirst _ h) (by decide)
      · exact fun _ h => absurd (hfirst _ h) (by decide)
  have hmarked : Passes [e.mark] (e.sign.toList ++ e.digits ++ rest) :=
    passes_quiet (by rcases hmark with h | h <;> simp [h, isQuiet])
  exact hmarked.append hsigned

theorem passes_number {n : Numeral} (hn : n.WellFormed) : Passes n.chars rest := by
  rw [Numeral.chars_eq]
  refine Passes.append ?_ (Passes.append ?_ ?_)
  · exact passes_quiet fun c hc => isQuiet_of_isDigit (hn.whole c hc)
  · apply passes_quiet
    split
    · simp
    · rw [List.forall_mem_cons]
      exact ⟨by decide, fun c hc => isQuiet_of_isDigit (hn.fraction c hc)⟩
  · cases he : n.exponent with
    | none => exact passes_nil
    | some e => exact passes_exponent (hn.exponent e he)

theorem passes_word {name : String} (hname : Token.isName name.toList = true) :
    Passes name.toList rest := by
  obtain ⟨-, -, -, -, hall⟩ := Token.exists_cons_of_isName hname
  exact passes_quiet fun d hd => isQuiet_of_isNameChar (hall d hd)

theorem passes_string {quote : Char} {body text : List Char} (hq : quote = '"' ∨ quote = '\'')
    (h : Text.Quoted.readBody quote body = some (text, [])) : Passes (quote :: body) rest := by
  intro prev
  refine ⟨some quote, ?_⟩
  rw [List.cons_append, search, examine, if_pos hq]
  exact search_text h

/-- Every operator and bracket passes: an equals sign in one belongs to a comparison. -/
theorem passes_fixed {t : Token} {s : String} (ht : t.fixed? = some s)
    (hrest : ∀ c ∈ rest.head?, t.isExtendedBy c = false) : Passes s.toList rest := by
  cases t with
  | op operator =>
    cases ht
    cases operator with
    | or | and | lt | gt | mul | div | rem => exact passes_quiet (List.all_eq_true.1 (by decide))
    | add =>
      change Passes ['+'] rest
      exact passes_single (by decide) (by decide)
        (fun _ h => by simpa [Token.isExtendedBy] using hrest '+' h) (by simp)
    | sub =>
      change Passes ['-'] rest
      exact passes_single (by decide) (by decide) (by simp)
        (fun _ h => by simpa [Token.isExtendedBy] using hrest '-' h)
    | strictEq | strictNe | eq | ne | le | ge =>
      have hne : ∀ c ∈ rest.head?, c ≠ '=' := fun c hc => by
        simpa [Token.isExtendedBy] using hrest c hc
      intro prev
      refine ⟨some '=', ?_⟩
      rw [← search_equals hne]
      simp [BinaryOp.symbol, search, examine, isComparison]
  | bang | dot | question | colon | pipe | leftParen | rightParen | leftBracket | rightBracket =>
    cases ht
    exact passes_quiet (List.all_eq_true.1 (by decide))
  | word | number | string => cases ht

theorem passes_spells {t : Token} {s : List Char} (hs : Token.Spells t s)
    (hrest : ∀ c ∈ rest.head?, t.isExtendedBy c = false) : Passes s rest := by
  cases hs with
  | word hname => exact passes_word hname
  | number hn => exact passes_number hn
  | string hq hbody => exact passes_string hq hbody
  | fixed ht => exact passes_fixed ht hrest

/-- Written tokens hold no forbidden operator. -/
theorem find?_of_written {cs : List Char} {ts : List Token} (h : Token.Written cs ts) :
    find? cs = none := by
  have hsearch (prev : Option Char) : search (.code prev) cs = none := by
    induction h generalizing prev with
    | nil => rw [search]
    | @blank c cs ts hc _ ih =>
      have hquiet : Passes [c] cs := by
        apply passes_quiet
        rw [List.forall_mem_singleton]
        simp only [Text.isGap, Bool.or_eq_true, beq_iff_eq] at hc
        rcases hc with ((rfl | rfl) | rfl) | rfl <;> decide
      obtain ⟨next, hnext⟩ := hquiet prev
      exact hnext.trans (ih next)
    | token hs hstop _ ih =>
      obtain ⟨next, hnext⟩ := passes_spells hs hstop prev
      exact hnext.trans (ih next)
  exact hsearch none

end Stencil.ForbiddenOp
