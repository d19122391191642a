import Stencil.Proofs.Lexicon
import Stencil.Proofs.Range

/-!
# The layout of a text

Whatever the readers of names, numerals and quoted texts take from the front of a text are the
characters of what they read. So a text that splits into tokens is these tokens, one after the
other, each written in one of its spellings, with blanks between them.
-/

namespace Stencil

variable {cs rest : List Char}

/-- A reader of quoted text stops right after the quotation. -/
theorem Text.Quoted.exists_of_readBody {quote : Char} {text : List Char}
    (h : readBody quote cs = some (text, rest)) :
    ∃ body, cs = body ++ rest ∧ readBody quote body = some (text, []) := by
  fun_induction readBody quote cs generalizing text with
  | case1 => cases h
  | case2 => cases h
  | case3 c tail ih =>
    obtain ⟨⟨text', rest'⟩, hread, heq⟩ := Option.map_eq_some_iff.1 h
    cases heq
    obtain ⟨body, rfl, hbody⟩ := ih hread
    exact ⟨'\\' :: c :: body, rfl, by rw [readBody, hbody]; rfl⟩
  | case4 tail hnil hcons =>
    cases h
    refine ⟨[quote], rfl, ?_⟩
    rw [readBody_cons (ne_backslash hnil hcons), if_pos rfl]
  | case5 c tail hnil hcons hc ih =>
    obtain ⟨⟨text', rest'⟩, hread, heq⟩ := Option.map_eq_some_iff.1 h
    cases heq
    obtain ⟨body, rfl, hbody⟩ := ih hread
    refine ⟨c :: body, rfl, ?_⟩
    rw [readBody_cons (ne_backslash hnil hcons), if_neg hc, hbody]
    rfl

namespace Numeral

theorem eq_of_readFraction (cs : List Char) :
    (∀ c ∈ (readFraction cs).1, c.isDigit = true) ∧
      cs = (if (readFraction cs).1.isEmpty then [] else '.' :: (readFraction cs).1)
        ++ (readFraction cs).2 := by
  unfold readFraction
  split
  · rename_i tail
    split
    · simp
    · rename_i hne
      have hnonempty : (tail.takeWhile Char.isDigit).isEmpty = false := by
        simpa using hne
      refine ⟨fun c hc => List.mem_takeWhile_imp hc, ?_⟩
      simp [hnonempty, List.takeWhile_append_dropWhile]
  · simp

theorem eq_of_readSign (cs : List Char) :
    (∀ s ∈ (readSign cs).1, s = '+' ∨ s = '-') ∧
      cs = (readSign cs).1.toList ++ (readSign cs).2 := by
  unfold readSign
  split <;> simp

theorem eq_of_readExponent (cs : List Char) :
    (∀ e ∈ (readExponent cs).1, e.WellFormed) ∧
      cs = ((readExponent cs).1.map ExponentPart.chars).getD [] ++ (readExponent cs).2 := by
  unfold readExponent
  split
  · rename_i mark tail
    split
    · rename_i hmark
      obtain ⟨hsign, hrest⟩ := eq_of_readSign tail
      dsimp only
      split
      · simp
      · rename_i hne
        refine ⟨?_, ?_⟩
        · rintro _ ⟨⟩
          exact ⟨hmark, hsign, hne, fun c hc => List.mem_takeWhile_imp hc⟩
        · simp [ExponentPart.chars, List.takeWhile_append_dropWhile, ← hrest]
    · simp
  · simp

/-- A numeral is read from its own characters. -/
theorem eq_of_read? {n : Numeral} (h : read? cs = some (n, rest)) :
    n.WellFormed ∧ cs = n.chars ++ rest := by
  obtain ⟨hfraction, hpoint⟩ := eq_of_readFraction (cs.dropWhile Char.isDigit)
  obtain ⟨hexponent, hend⟩ := eq_of_readExponent (readFraction (cs.dropWhile Char.isDigit)).2
  unfold read? at h
  dsimp only at h
  split at h
  · cases h
  · rename_i hne
    cases h
    refine ⟨⟨fun c hc => List.mem_takeWhile_imp hc, hfraction, ?_, hexponent⟩, ?_⟩
    · rw [Bool.and_eq_true, List.isEmpty_iff, List.isEmpty_iff, not_and_or] at hne
      exact hne
    · rw [chars_eq, List.append_assoc, List.append_assoc, ← hend, ← hpoint,
        List.takeWhile_append_dropWhile]

end Numeral

namespace Token

variable {t : Token} {ts : List Token}

/-- What is read as a token is one of its spellings. -/
theorem exists_spells_of_next? (h : next? cs = some (t, rest)) :
    ∃ s, Spells t s ∧ cs = s ++ rest := by
  cases front_of_next? h with
  | word =>
    refine ⟨_, .word (isName_of_next? h), ?_⟩
    rw [String.toList_ofList, List.cons_append, List.takeWhile_append_dropWhile]
  | string hquote hbody =>
    obtain ⟨body, rfl, hread⟩ := Text.Quoted.exists_of_readBody hbody
    exact ⟨_, .string hquote hread, rfl⟩
  | number hread =>
    obtain ⟨hn, heq⟩ := Numeral.eq_of_read? hread
    exact ⟨_, .number hn, heq⟩
  | fixed hs => exact ⟨_, .fixed hs, rfl⟩

/-- The text as it looks from outside its quotations: each of them is one place without a
character. -/
def outside : List Char → List (Option Char)
  | [] => []
  | c :: cs =>
    if c = '"' ∨ c = '\'' then
      match hbody : Text.Quoted.readBody c cs with
      | some (_, rest) =>
        have : rest.length < cs.length + 1 :=
          Nat.lt_succ_of_le (Text.Quoted.length_readBody_le hbody)
        none :: outside rest
      | none => some c :: outside cs
    else some c :: outside cs
termination_by cs => cs.length

/-- The characters are the tokens, in this order and with blanks between them. From outside, a
string is one place and all else is the characters that it is written with. -/
inductive Laid : List Char → List Token → List (Option Char) → Prop
  | nil : Laid [] [] []
  | blank {c : Char} {cs : List Char} {ts : List Token} {view : List (Option Char)} :
      Text.isGap c = true → Laid cs ts view → Laid (c :: cs) ts (some c :: view)
  | string {value : String} {s cs : List Char} {ts : List Token} {view : List (Option Char)} :
      Spells (.string value) s → Laid cs ts view →
      Laid (s ++ cs) (.string value :: ts) (none :: view)
  | token {t : Token} {s cs : List Char} {ts : List Token} {view : List (Option Char)} :
      (∀ value, t ≠ .string value) → Spells t s → Laid cs ts view →
      Laid (s ++ cs) (t :: ts) (s.map some ++ view)

theorem outside_cons {c : Char} (hc : ¬(c = '"' ∨ c = '\'')) (cs : List Char) :
    outside (c :: cs) = some c :: outside cs := by
  rw [outside, if_neg hc]

theorem outside_append {s : List Char} (hs : ∀ c ∈ s, ¬(c = '"' ∨ c = '\'')) (cs : List Char) :
    outside (s ++ cs) = s.map some ++ outside cs := by
  induction s with
  | nil => rfl
  | cons c s ih =>
    rw [List.forall_mem_cons] at hs
    rw [List.cons_append, outside_cons hs.1, ih hs.2]
    rfl

theorem outside_string {value : String} {s : List Char} (hs : Spells (.string value) s)
    (cs : List Char) : outside (s ++ cs) = none :: outside cs := by
  cases hs with
  | @string quote body text hq hbody =>
    rw [List.cons_append, outside, if_pos hq]
    split
    · rename_i rest hread
      rw [Text.Quoted.readBody_append cs hbody] at hread
      cases hread
      rfl
    · rename_i hread
      rw [Text.Quoted.readBody_append cs hbody] at hread
      cases hread
  | fixed hs => cases hs

/-- The characters of words and numerals. -/
def isLiteralChar (c : Char) : Bool :=
  isNameChar c || c == '.' || c == '+' || c == '-'

theorem isLiteralChar_of_isNameChar {c : Char} (h : isNameChar c = true) :
    isLiteralChar c = true := by
  simp [isLiteralChar, h]

theorem isLiteralChar_of_isDigit {c : Char} (h : c.isDigit = true) : isLiteralChar c = true :=
  isLiteralChar_of_isNameChar (by simp [isNameChar, Char.isAlphanum, h])

theorem isLiteralChar_exponent {e : ExponentPart} (he : e.WellFormed) :
    ∀ c ∈ e.chars, isLiteralChar c = true := by
  obtain ⟨hmark, hsign, -, hdigits⟩ := he
  rw [ExponentPart.chars, List.forall_mem_cons, List.forall_mem_append]
  refine ⟨?_, ?_, fun c hc => isLiteralChar_of_isDigit (hdigits c hc)⟩
  · rcases hmark with h | h <;> rw [h] <;> decide
  · intro c hc
    rcases hsign c (Option.mem_toList.1 hc) with rfl | rfl <;> decide

theorem isLiteralChar_number {n : Numeral} (hn : n.WellFormed) :
    ∀ c ∈ n.chars, isLiteralChar c = true := by
  rw [Numeral.chars_eq, List.forall_mem_append, List.forall_mem_append]
  refine ⟨fun c hc => isLiteralChar_of_isDigit (hn.whole c hc), ?_, ?_⟩
  · split
    · simp
    · rw [List.forall_mem_cons]
      exact ⟨by decide, fun c hc => isLiteralChar_of_isDigit (hn.fraction c hc)⟩
  · cases he : n.exponent with
    | none => simp
    | some e => exact isLiteralChar_exponent (hn.exponent e he)

/-- What is no string is a word or a numeral, or is written in one way only. -/
theorem Spells.cases_of_ne_string {s : List Char} (hs : Spells t s)
    (ht : ∀ value, t ≠ .string value) :
    (∀ c ∈ s, isLiteralChar c = true) ∨
      ∃ text : String, t.fixed? = some text ∧ s = text.toList := by
  cases hs with
  | word hname =>
    obtain ⟨-, -, -, -, hall⟩ := exists_cons_of_isName hname
    exact .inl fun c hc => isLiteralChar_of_isNameChar (hall c hc)
  | number hn => exact .inl (isLiteralChar_number hn)
  | string => exact absurd rfl (ht _)
  | fixed hs => exact .inr ⟨_, hs, rfl⟩

theorem isLiteralChar_ne {c d : Char} (hc : isLiteralChar c = true) (hd : isLiteralChar d = false) :
    c ≠ d := by
  rintro rfl
  rw [hd] at hc
  cases hc

theorem fixed?_not_quote {text : String} (ht : t.fixed? = some text) :
    ∀ c ∈ text.toList, ¬(c = '"' ∨ c = '\'') := by
  have hall : text.toList.all (fun c => c != '"' && c != '\'') = true := by
    cases t with
    | op operator =>
      cases ht
      cases operator <;> decide
    | bang | dot | question | colon | pipe | leftParen | rightParen | leftBracket | rightBracket =>
      cases ht
      decide
    | word | number | string => cases ht
  intro c hc
  simpa using List.all_eq_true.1 hall c hc

/-- Only a string is written with quotes. -/
theorem Spells.not_quote {s : List Char} (hs : Spells t s) (ht : ∀ value, t ≠ .string value) :
    ∀ c ∈ s, ¬(c = '"' ∨ c = '\'') := by
  rcases hs.cases_of_ne_string ht with hliteral | ⟨text, hfixed, rfl⟩
  · intro c hc
    have hc := hliteral c hc
    exact not_or.2 ⟨isLiteralChar_ne hc (by decide), isLiteralChar_ne hc (by decide)⟩
  · exact fixed?_not_quote hfixed

theorem laid_of_dropWhile
    (h : Laid (cs.dropWhile Text.isGap) ts (outside (cs.dropWhile Text.isGap))) :
    Laid cs ts (outside cs) := by
  induction cs with
  | nil => exact h
  | cons c cs ih =>
    by_cases hc : Text.isGap c = true
    · have hquote : ¬(c = '"' ∨ c = '\'') := by
        rintro (rfl | rfl) <;> exact absurd hc (by decide)
      rw [List.dropWhile_cons_of_pos hc] at h
      rw [outside_cons hquote]
      exact .blank hc (ih h)
    · rwa [List.dropWhile_cons_of_neg hc] at h

theorem laid_token {s : List Char} (hs : Spells t s) (h : Laid cs ts (outside cs)) :
    Laid (s ++ cs) (t :: ts) (outside (s ++ cs)) := by
  by_cases ht : ∃ value, t = .string value
  · obtain ⟨value, rfl⟩ := ht
    rw [outside_string hs]
    exact .string hs h
  · rw [not_exists] at ht
    rw [outside_append (hs.not_quote ht)]
    exact .token ht hs h

/-- A text that splits into tokens is these tokens, laid out with blanks. -/
theorem laid_of_lex (h : lex cs = some ts) : Laid cs ts (outside cs) := by
  induction ts generalizing cs with
  | nil =>
    apply laid_of_dropWhile
    rw [dropWhile_of_lex_nil h, outside]
    exact .nil
  | cons t ts ih =>
    obtain ⟨rest, hnext, hrest⟩ := exists_next?_of_lex h
    obtain ⟨s, hs, heq⟩ := exists_spells_of_next? hnext
    apply laid_of_dropWhile
    rw [heq]
    exact laid_token hs (ih hrest)

end Token
end Stencil
