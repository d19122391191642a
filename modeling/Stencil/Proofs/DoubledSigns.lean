import Stencil.Proofs.Derivability
import Stencil.Proofs.Layout

/-!
# Doubled signs

The search for forbidden operators goes by characters and knows no tokens. On a text that splits
into tokens it still respects them: it steps over strings as their reader does, it takes every
equals sign for a part of a comparison, and all that it finds are two equal signs in a row. So the
texts that are read are those of the grammar without such a pair and without a number that is too
large.
-/

namespace Stencil

namespace ForbiddenOp

open Token (Laid Spells isLiteralChar outside)

variable {cs s : List Char} {view : List (Option Char)} {x : Option Char} {c : Char}

def isSign (c : Char) : Bool := c == '+' || c == '-'

/-- Outside quotations a sign stands right before an equal one. -/
def HasDouble (view : List (Option Char)) : Prop :=
  ∃ c, isSign c = true ∧ [some c, some c] <:+: view

/-- The sign `x` if the same one follows. -/
def doubleAt? : Option Char → List (Option Char) → Option Char
  | some c, view => if isSign c = true ∧ view.head? = some (some c) then some c else none
  | none, _ => none

/-- The first sign that stands before an equal one. -/
def firstDouble? : List (Option Char) → Option Char
  | [] => none
  | x :: view => (doubleAt? x view).or (firstDouble? view)

/-- The operator that two equal signs make. -/
def ofDouble (c : Char) : ForbiddenOp := if c = '+' then .increment else .decrement

theorem doubleAt?_eq_some_iff :
    doubleAt? x view = some c ↔ isSign c = true ∧ some c = x ∧ view.head? = some (some c) := by
  cases x with
  | none => simp [doubleAt?]
  | some d =>
    simp only [doubleAt?, Option.ite_none_right_eq_some, Option.some.injEq]
    constructor
    · rintro ⟨⟨hsign, hnext⟩, rfl⟩
      exact ⟨hsign, rfl, hnext⟩
    · rintro ⟨hsign, rfl, hnext⟩
      exact ⟨⟨hsign, hnext⟩, rfl⟩

/-- Only the next place matters. -/
theorem doubleAt?_append (front back : List (Option Char)) (y : Option Char) :
    doubleAt? x (front ++ y :: back) = doubleAt? x (front ++ [y]) := by
  cases x with
  | none => rfl
  | some d => cases front <;> rfl

theorem hasDouble_cons :
    HasDouble (x :: view) ↔ (∃ c, doubleAt? x view = some c) ∨ HasDouble view := by
  simp only [HasDouble, List.infix_cons_iff, and_or_left, exists_or, doubleAt?_eq_some_iff,
    List.cons_prefix_cons, List.singleton_prefix_iff_head?_eq_some]

theorem firstDouble?_eq_none_iff : firstDouble? view = none ↔ ¬ HasDouble view := by
  induction view with
  | nil => simp [firstDouble?, HasDouble]
  | cons x view ih =>
    rw [firstDouble?, Option.or_eq_none_iff, ih, hasDouble_cons, not_or, not_exists,
      Option.eq_none_iff_forall_ne_some]

/-- What stands before the first doubled sign, and the sign itself, hold no other one. -/
theorem firstDouble?_eq_some_iff :
    firstDouble? view = some c ↔ isSign c = true ∧ ∃ front back,
      view = front ++ some c :: some c :: back ∧ ¬ HasDouble (front ++ [some c]) := by
  constructor
  · intro h
    induction view with
    | nil => cases h
    | cons x view ih =>
      rw [firstDouble?, Option.or_eq_some_iff] at h
      rcases h with hat | ⟨hat, hlater⟩
      · obtain ⟨hsign, rfl, hnext⟩ := doubleAt?_eq_some_iff.1 hat
        obtain ⟨back, rfl⟩ := List.head?_eq_some_iff.1 hnext
        refine ⟨hsign, [], back, rfl, ?_⟩
        simp [HasDouble, List.infix_cons_iff]
      · obtain ⟨hsign, front, back, rfl, hfront⟩ := ih hlater
        refine ⟨hsign, x :: front, back, rfl, ?_⟩
        rw [doubleAt?_append] at hat
        rw [List.cons_append, hasDouble_cons, not_or, hat]
        exact ⟨by simp, hfront⟩
  · rintro ⟨hsign, front, back, rfl, hfront⟩
    induction front with
    | nil => simp [firstDouble?, doubleAt?, hsign]
    | cons x front ih =>
      rw [List.cons_append, hasDouble_cons, not_or, not_exists,
        ← Option.eq_none_iff_forall_ne_some] at hfront
      rw [List.cons_append, firstDouble?, doubleAt?_append, hfront.1, Option.none_or,
        ih hfront.2]

/-- The search of the characters and the look at them from outside agree: they start with the same
sign, and the search finds the first doubled sign, also after an equals sign. -/
structure Agrees (cs : List Char) (view : List (Option Char)) : Prop where
  head : ∀ c, isSign c = true → (view.head? = some (some c) ↔ cs.head? = some c)
  code : ∀ prev, search (.code prev) cs = (firstDouble? view).map ofDouble
  equals : search .equals cs = (firstDouble? view).map ofDouble

theorem agrees_nil : Agrees [] [] where
  head := by simp
  code prev := by simp [search, firstDouble?]
  equals := by simp [search, firstDouble?]

theorem search_cons (prev : Option Char) (hquote : ¬(c = '"' ∨ c = '\'')) (heq : c ≠ '=')
    (h : ∀ d, isSign d = true → (view.head? = some (some d) ↔ cs.head? = some d)) :
    search (.code prev) (c :: cs) =
      ((doubleAt? (some c) view).map ofDouble).or (search (.code (some c)) cs) := by
  rw [search, examine, if_neg hquote]
  by_cases hplus : c = '+'
  · subst hplus
    by_cases hnext : cs.head? = some '+'
    · simp [doubleAt?, ofDouble, isSign, hnext, (h '+' rfl).2 hnext]
    · simp [doubleAt?, hnext, mt (h '+' rfl).1 hnext]
  · by_cases hminus : c = '-'
    · subst hminus
      by_cases hnext : cs.head? = some '-'
      · simp [doubleAt?, ofDouble, isSign, hnext, (h '-' rfl).2 hnext]
      · simp [doubleAt?, hnext, mt (h '-' rfl).1 hnext]
    · simp [doubleAt?, isSign, hplus, hminus, heq]

theorem Agrees.cons (hquote : ¬(c = '"' ∨ c = '\'')) (heq : c ≠ '=') (h : Agrees cs view) :
    Agrees (c :: cs) (some c :: view) := by
  have hcode (prev : Option Char) :
      search (.code prev) (c :: cs) = (firstDouble? (some c :: view)).map ofDouble := by
    rw [search_cons prev hquote heq h.head, h.code, firstDouble?, Option.map_or]
  refine ⟨by simp, hcode, ?_⟩
  rw [search_equals (by simpa using heq), hcode]

theorem Agrees.append (hs : ∀ c ∈ s, ¬(c = '"' ∨ c = '\'') ∧ c ≠ '=') (h : Agrees cs view) :
    Agrees (s ++ cs) (s.map some ++ view) := by
  induction s with
  | nil => exact h
  | cons c s ih =>
    rw [List.forall_mem_cons] at hs
    exact .cons hs.1.1 hs.1.2 (ih hs.2)

theorem Agrees.string {value : String} (hs : Spells (.string value) s) (h : Agrees cs view) :
    Agrees (s ++ cs) (none :: view) := by
  cases hs with
  | @string quote body text hq hbody =>
    have hcode (prev : Option Char) :
        search (.code prev) (quote :: body ++ cs) = (firstDouble? view).map ofDouble := by
      obtain ⟨next, hnext⟩ := passes_string hq hbody prev
      exact hnext.trans (h.code next)
    have hne (c : Char) (hc : isSign c = true) : quote ≠ c := by
      rintro rfl
      rcases hq with rfl | rfl <;> cases hc
    refine ⟨fun c hc => by simpa using hne c hc, hcode, ?_⟩
    rw [search_equals (by rcases hq with rfl | rfl <;> simp)]
    exact hcode _
  | fixed hs => cases hs

/-- The equals signs of a comparison are passed by. -/
theorem Agrees.comparison {op : BinaryOp} (hop : '=' ∈ op.symbol.toList) (h : Agrees cs view) :
    Agrees (op.symbol.toList ++ cs) (op.symbol.toList.map some ++ view) := by
  cases op with
  | strictEq | strictNe | eq | ne | le | ge =>
    refine ⟨?_, fun prev => ?_, ?_⟩
    · simp [BinaryOp.symbol]
    · simp [BinaryOp.symbol, search, examine, isComparison, firstDouble?, doubleAt?, isSign,
        h.equals]
    · simp [BinaryOp.symbol, search, examine, isComparison, firstDouble?, doubleAt?, isSign,
        h.equals]
  | _ => exact absurd hop (by decide)

/-- An operator or a bracket with an equals sign is a comparison. -/
theorem exists_of_equals_mem {t : Token} {text : String} (ht : t.fixed? = some text)
    (hmem : '=' ∈ text.toList) : ∃ op : BinaryOp, text = op.symbol := by
  cases t with
  | op operator =>
    cases ht
    exact ⟨operator, rfl⟩
  | bang | dot | question | colon | pipe | leftParen | rightParen | leftBracket | rightBracket =>
    cases ht
    exact absurd hmem (by decide)
  | word | number | string => cases ht

theorem Agrees.token {t : Token} (ht : ∀ value, t ≠ .string value) (hs : Spells t s)
    (h : Agrees cs view) : Agrees (s ++ cs) (s.map some ++ view) := by
  rcases hs.cases_of_ne_string ht with hliteral | ⟨text, hfixed, rfl⟩
  · exact h.append fun c hc =>
      ⟨hs.not_quote ht c hc, Token.isLiteralChar_ne (hliteral c hc) (by decide)⟩
  · by_cases hmem : '=' ∈ text.toList
    · obtain ⟨op, rfl⟩ := exists_of_equals_mem hfixed hmem
      exact h.comparison hmem
    · exact h.append fun c hc => ⟨hs.not_quote ht c hc, fun heq => hmem (heq ▸ hc)⟩

theorem agrees_of_laid {ts : List Token} (h : Laid cs ts view) : Agrees cs view := by
  induction h with
  | nil => exact agrees_nil
  | blank hc _ ih =>
    refine ih.cons ?_ ?_
    · rintro (rfl | rfl) <;> exact absurd hc (by decide)
    · rintro rfl
      exact absurd hc (by decide)
  | string hs _ ih => exact ih.string hs
  | token ht hs _ ih => exact ih.token ht hs

/-- In a text that splits into tokens the search finds the first doubled sign outside strings. -/
theorem find?_of_lex {ts : List Token} (h : Token.lex cs = some ts) :
    find? cs = (firstDouble? (outside cs)).map ofDouble :=
  (agrees_of_laid (Token.laid_of_lex h)).code none

theorem eq_ofDouble_iff {op : ForbiddenOp} (hc : isSign c = true) :
    op = ofDouble c ↔ op.symbol = String.ofList [c, c] := by
  simp only [isSign, Bool.or_eq_true, beq_iff_eq] at hc
  constructor
  · rintro rfl
    rcases hc with rfl | rfl <;> rfl
  · intro h
    have hchars : op.symbol.toList = [c, c] := by rw [h, String.toList_ofList]
    cases op with
    | increment =>
      cases hchars
      rfl
    | decrement =>
      cases hchars
      rfl
    | assign => cases hchars
    | assignWith operator =>
      rw [symbol, String.toList_ofList] at hchars
      cases hchars
      rcases hc with hc | hc <;> cases hc

theorem find?_eq_none_iff {ts : List Token} (h : Token.lex cs = some ts) :
    find? cs = none ↔ ¬ HasDouble (outside cs) := by
  rw [find?_of_lex h, Option.map_eq_none_iff, firstDouble?_eq_none_iff]

theorem find?_eq_some_iff {ts : List Token} (h : Token.lex cs = some ts) (op : ForbiddenOp) :
    find? cs = some op ↔ ∃ sign front back, isSign sign = true ∧
      op.symbol = String.ofList [sign, sign] ∧
      outside cs = front ++ some sign :: some sign :: back ∧
      ¬ HasDouble (front ++ [some sign]) := by
  rw [find?_of_lex h, Option.map_eq_some_iff]
  constructor
  · rintro ⟨sign, hfirst, rfl⟩
    obtain ⟨hsign, front, back, hview, hfront⟩ := firstDouble?_eq_some_iff.1 hfirst
    exact ⟨sign, front, back, hsign, (eq_ofDouble_iff hsign).1 rfl, hview, hfront⟩
  · rintro ⟨sign, front, back, hsign, hop, hview, hfront⟩
    exact ⟨sign, firstDouble?_eq_some_iff.2 ⟨hsign, front, back, hview, hfront⟩,
      ((eq_ofDouble_iff hsign).2 hop).symm⟩

end ForbiddenOp

namespace Expr

variable {source : List Char} {ts : List Token} {e : Expr}

theorem exists_isInput_of_accepts (h : Grammar.accepts source = true) :
    ∃ ts e, Token.lex source = some ts ∧ Parser.IsInput ts e :=
  Grammar.exists_isInput_of_derivable (Grammar.derivable_of_accepts h)

/-- Once the tokens are an expression, a forbidden operator and a number out of range are all that
can be wrong. -/
theorem readChars_of_isInput (hlex : Token.lex source = some ts) (he : Parser.IsInput ts e) :
    readChars source = match ForbiddenOp.find? source with
      | some op => .error (.forbidden op (String.ofList source))
      | none => match ts.findSome? overflow? with
        | some n => .error (.overflow (String.ofList n.chars))
        | none => .ok e := by
  have hne : source ≠ [] := by
    rintro rfl
    rw [Token.lex_eq] at hlex
    cases hlex
    cases he.parse_eq
  rw [readChars, if_neg (by simpa using hne), hlex]
  simp only [he.parse_eq]
  cases ForbiddenOp.find? source with
  | some op => rfl
  | none => cases ts.findSome? overflow? <;> rfl

theorem findSome?_overflow?_eq_none_iff :
    ts.findSome? overflow? = none ↔ ∀ n, .number n ∈ ts → n.value.isFinite = true := by
  rw [List.findSome?_eq_none_iff]
  constructor
  · intro h n hn
    simpa [overflow?] using h _ hn
  · intro h t ht
    cases t with
    | number n => simp [overflow?, h n ht]
    | _ => rfl

theorem exists_of_findSome?_overflow? {n : Numeral} (h : ts.findSome? overflow? = some n) :
    .number n ∈ ts ∧ n.value.isFinite = false := by
  obtain ⟨t, ht, hn⟩ := List.exists_of_findSome?_eq_some h
  cases t with
  | number m =>
    obtain ⟨hm, heq⟩ := Option.ite_none_left_eq_some.1 hn
    cases heq
    exact ⟨ht, Bool.eq_false_iff.2 hm⟩
  | _ => cases hn

/-- A text is read if its tokens are an expression with no forbidden operator and with all numbers
in range. -/
theorem readChars_eq_ok_iff :
    readChars source = .ok e ↔ ∃ ts, Token.lex source = some ts ∧ Parser.IsInput ts e ∧
      ForbiddenOp.find? source = none ∧ ∀ n, .number n ∈ ts → n.value.isFinite = true := by
  constructor
  · intro h
    obtain ⟨hfind, ts, hlex, hparse, hrange⟩ := exists_of_readChars h
    exact ⟨ts, hlex, Parser.parse_eq_some_iff.1 hparse, hfind,
      findSome?_overflow?_eq_none_iff.1 hrange⟩
  · rintro ⟨ts, hlex, he, hfind, hrange⟩
    rw [readChars_of_isInput hlex he, hfind, findSome?_overflow?_eq_none_iff.2 hrange]

theorem exists_of_readChars_error {err : ExpressionError} (hlex : Token.lex source = some ts)
    (he : Parser.IsInput ts e) (hfind : ForbiddenOp.find? source = none)
    (h : readChars source = .error err) :
    ∃ n, .number n ∈ ts ∧ n.value.isFinite = false ∧
      err = .overflow (String.ofList n.chars) := by
  rw [readChars_of_isInput hlex he, hfind] at h
  dsimp only at h
  split at h
  · rename_i n hoverflow
    cases h
    obtain ⟨hn, hrange⟩ := exists_of_findSome?_overflow? hoverflow
    exact ⟨n, hn, hrange, rfl⟩
  · cases h

/-- The search refuses an expression of the grammar only for a doubled sign outside strings, under
the name of the first one. A text is read exactly if it is an expression of the grammar with no
doubled sign and with no number out of range, and nothing but such a number is wrong with it once
the search has found nothing. -/
theorem find?_iff_hasDouble :
    (∀ source, Grammar.accepts source = true →
      ∃ ts, Token.lex source = some ts ∧ Token.Laid source ts (Token.outside source) ∧
        (ForbiddenOp.find? source = none ↔ ¬ ForbiddenOp.HasDouble (Token.outside source)) ∧
        ∀ op, ForbiddenOp.find? source = some op ↔ ∃ sign front back,
          ForbiddenOp.isSign sign = true ∧ op.symbol = String.ofList [sign, sign] ∧
          Token.outside source = front ++ some sign :: some sign :: back ∧
          ¬ ForbiddenOp.HasDouble (front ++ [some sign])) ∧
    ∀ text source, source = Text.trimChars text.toList →
      ((∃ e, read text = .ok e) ↔ Grammar.accepts source = true ∧
        ¬ ForbiddenOp.HasDouble (Token.outside source) ∧
        ∀ ts, Token.lex source = some ts → ∀ n, .number n ∈ ts → n.value.isFinite = true) ∧
      (Grammar.accepts source = true → ForbiddenOp.find? source = none →
        ∀ err, read text = .error err → ∃ ts n, Token.lex source = some ts ∧ .number n ∈ ts ∧
          n.value.isFinite = false ∧ err = .overflow (String.ofList n.chars)) := by
  refine ⟨fun source hsource => ?_, ?_⟩
  · obtain ⟨ts, e, hlex, -⟩ := exists_isInput_of_accepts hsource
    exact ⟨ts, hlex, Token.laid_of_lex hlex, ForbiddenOp.find?_eq_none_iff hlex,
      ForbiddenOp.find?_eq_some_iff hlex⟩
  rintro text source rfl
  refine ⟨⟨?_, ?_⟩, ?_⟩
  · rintro ⟨e, hread⟩
    obtain ⟨ts, hlex, he, hfind, hrange⟩ := readChars_eq_ok_iff.1 hread
    refine ⟨Grammar.accepts_of_isInput hlex he, (ForbiddenOp.find?_eq_none_iff hlex).1 hfind, ?_⟩
    intro us hus
    cases hlex.symm.trans hus
    exact hrange
  · rintro ⟨haccepts, hdouble, hrange⟩
    obtain ⟨ts, e, hlex, he⟩ := exists_isInput_of_accepts haccepts
    have hfind := (ForbiddenOp.find?_eq_none_iff hlex).2 hdouble
    exact ⟨e, readChars_eq_ok_iff.2 ⟨ts, hlex, he, hfind, hrange ts hlex⟩⟩
  · intro haccepts hfind err hread
    obtain ⟨ts, e, hlex, he⟩ := exists_isInput_of_accepts haccepts
    obtain ⟨n, hn⟩ := exists_of_readChars_error hlex he hfind hread
    exact ⟨ts, n, hlex, hn⟩

theorem find?_iff_hasDouble_joined :
    (Grammar.accepts "'--'!==a++b".toList = true ∧
      ∃ sign front back, ForbiddenOp.isSign sign = true ∧
        ForbiddenOp.increment.symbol = String.ofList [sign, sign] ∧
        Token.outside "'--'!==a++b".toList = front ++ some sign :: some sign :: back ∧
        ¬ ForbiddenOp.HasDouble (front ++ [some sign])) ∧
    Grammar.accepts "1e999".toList = true ∧
      ForbiddenOp.find? "1e999".toList = none ∧
      read " 1e999 " = .error (.overflow "1e999") ∧
      ∃ ts n, Token.lex "1e999".toList = some ts ∧ .number n ∈ ts ∧ n.value.isFinite = false ∧
        .overflow "1e999" = ExpressionError.overflow (String.ofList n.chars) := by
  have hjoined : Grammar.accepts "'--'!==a++b".toList = true := by decide +kernel
  have hlarge : Grammar.accepts "1e999".toList = true := by decide +kernel
  have hread : read " 1e999 " = .error (.overflow "1e999") := by
    with_unfolding_all rfl
  obtain ⟨ts, -, -, -, hfind⟩ := find?_iff_hasDouble.1 _ hjoined
  refine ⟨⟨hjoined, (hfind .increment).1 (by decide)⟩, hlarge, by decide, hread, ?_⟩
  exact (find?_iff_hasDouble.2 " 1e999 " _ (by decide)).2 hlarge (by decide) _ hread

end Expr
end Stencil
