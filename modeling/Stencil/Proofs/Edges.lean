import Stencil.Proofs.Passage

/-!
# How an expression starts and ends

Whatever its rule, a derivable sequence of tokens starts with a token that opens an operand, ends
with one that closes an operand, and holds no pipe. For a text that is read this fixes the first and
the last character, and so how the search for forbidden operators meets what stands around it.
-/

namespace Stencil

namespace Token

/-- An expression can start with the token. -/
def opens : Token → Bool
  | .word _ | .number _ | .string _ | .bang | .leftParen => true
  | .op operator => operator == .add || operator == .sub
  | _ => false

/-- An expression can end with the token. -/
def closes : Token → Bool
  | .word _ | .number _ | .string _ | .rightParen | .rightBracket => true
  | _ => false

/-- The characters that an expression can end with. -/
def isFinal (c : Char) : Bool :=
  isNameChar c || c == '"' || c == '\'' || c == ')' || c == ']'

end Token

/-- A numeral ends with a digit. -/
theorem Numeral.WellFormed.exists_isDigit {n : Numeral} (hn : n.WellFormed) :
    ∃ c ∈ n.chars.getLast?, c.isDigit = true := by
  have hdigits {ds : List Char} (front : List Char) (hne : ds ≠ [])
      (hds : ∀ c ∈ ds, c.isDigit = true) : ∃ c ∈ (front ++ ds).getLast?, c.isDigit = true := by
    refine ⟨ds.getLast hne, ?_, hds _ (List.getLast_mem hne)⟩
    rw [List.getLast?_append_of_ne_nil _ hne, List.getLast?_eq_some_getLast hne]
    rfl
  rw [chars_eq]
  cases he : n.exponent with
  | some e =>
    obtain ⟨-, -, hne, hds⟩ := hn.exponent e he
    simpa [ExponentPart.chars] using hdigits (n.whole ++
      ((if n.fraction.isEmpty then [] else '.' :: n.fraction) ++ e.mark :: e.sign.toList)) hne hds
  | none =>
    by_cases hfraction : n.fraction = []
    · simpa [hfraction] using hdigits [] (hn.nonempty.resolve_right (not_not.2 hfraction)) hn.whole
    · simpa [hfraction] using hdigits (n.whole ++ ['.']) hfraction hn.fraction

namespace Token

variable {t : Token} {s : List Char}

theorem isFinal_of_isNameChar {c : Char} (h : isNameChar c = true) : isFinal c = true := by
  simp [isFinal, h]

theorem Spells.exists_isFinal (hs : Spells t s) (ht : t.closes = true) :
    ∃ c ∈ s.getLast?, isFinal c = true := by
  cases hs with
  | word hname =>
    obtain ⟨c, tail, hcons, -, hall⟩ := exists_cons_of_isName hname
    have hne := List.ne_nil_of_mem (hcons ▸ List.mem_cons_self)
    exact ⟨_, List.getLast?_eq_some_getLast hne,
      isFinal_of_isNameChar (hall _ (List.getLast_mem hne))⟩
  | number hn =>
    obtain ⟨c, hc, hdigit⟩ := hn.exists_isDigit
    exact ⟨c, hc, isFinal_of_isNameChar (by simp [isNameChar, Char.isAlphanum, hdigit])⟩
  | @string quote body text hquote hbody =>
    refine ⟨quote, ?_, by rcases hquote with rfl | rfl <;> rfl⟩
    rw [List.getLast?_cons, Text.Quoted.getLast?_of_readBody hbody]
    rfl
  | fixed hfixed =>
    cases t with
    | rightParen | rightBracket =>
      cases hfixed
      exact ⟨_, rfl, by decide⟩
    | word | number | string => cases hfixed
    | _ => cases ht

end Token

/-- Blanks at the end of a trimmed text are none. -/
theorem Text.Trimmed.eq_nil_of_isGap {cs blanks : List Char} (h : Trimmed (cs ++ blanks))
    (hblanks : ∀ b ∈ blanks, isGap b = true) : blanks = [] := by
  by_contra hne
  obtain ⟨c, hc, hwhite⟩ := h.last
  rw [List.getLast?_append_of_ne_nil _ hne] at hc
  have hgap := hblanks c (List.mem_of_getLast? hc)
  rw [isGap_of_isWhite hwhite] at hgap
  cases hgap

namespace Parser

variable {t : Token} {ts us vs : List Token} {e : Expr}

/-- The tokens start and end like an expression, and none of them is a pipe. -/
structure Edged (ts : List Token) : Prop where
  head : ∃ t ∈ ts.head?, t.opens = true
  last : ∃ t ∈ ts.getLast?, t.closes = true
  pipe : Token.pipe ∉ ts

theorem Edged.ne_nil (h : Edged ts) : ts ≠ [] := by
  rintro rfl
  simpa using h.head

theorem edged_atom {value : Expr} (h : atom? t = some value) : Edged [t] := by
  cases t with
  | word | number | string => exact ⟨⟨_, rfl, rfl⟩, ⟨_, rfl, rfl⟩, by simp⟩
  | _ => cases h

theorem edged_cons (ht : t.opens = true) (hlast : ∃ u ∈ ts.getLast?, u.closes = true)
    (hpipe : Token.pipe ∉ ts) : Edged (t :: ts) := by
  obtain ⟨u, hu, hcloses⟩ := hlast
  refine ⟨⟨t, rfl, ht⟩, ⟨u, by rw [List.getLast?_cons, hu]; rfl, hcloses⟩, ?_⟩
  rw [List.mem_cons, not_or]
  refine ⟨?_, hpipe⟩
  rintro rfl
  cases ht

theorem Edged.append (h : Edged ts) (hlast : ∃ u ∈ us.getLast?, u.closes = true)
    (hpipe : Token.pipe ∉ us) : Edged (ts ++ us) := by
  obtain ⟨t, ht, hopens⟩ := h.head
  obtain ⟨u, hu, hcloses⟩ := hlast
  refine ⟨⟨t, ?_, hopens⟩, ⟨u, ?_, hcloses⟩, ?_⟩
  · rw [List.head?_append, ht]
    rfl
  · rw [List.getLast?_append, hu]
    rfl
  · rw [List.mem_append, not_or]
    exact ⟨h.pipe, hpipe⟩

theorem edged_paren (h : Edged ts) : Edged (.leftParen :: (ts ++ [.rightParen])) :=
  edged_cons rfl ⟨.rightParen, List.getLast?_concat, rfl⟩ (by simp [h.pipe])

theorem edged_sign {op : UnaryOp} (hsign : sign? t = some op) (h : Edged ts) :
    Edged (t :: ts) := by
  refine edged_cons ?_ h.last h.pipe
  cases t with
  | bang => rfl
  | op operator => cases operator <;> first | rfl | cases hsign
  | _ => cases hsign

theorem Edged.member (h : Edged ts) (name : String) : Edged (ts ++ [.dot, .word name]) :=
  h.append ⟨.word name, rfl, rfl⟩ (by simp)

theorem Edged.index (h : Edged ts) (hkey : Edged us) :
    Edged (ts ++ .leftBracket :: (us ++ [.rightBracket])) :=
  h.append ⟨.rightBracket, by rw [← List.cons_append]; exact List.getLast?_concat, rfl⟩
    (by simp [hkey.pipe])

/-- Two expressions with a token between them. -/
theorem Edged.join (h : Edged ts) (ht : t ≠ .pipe) (h' : Edged us) : Edged (ts ++ t :: us) := by
  obtain ⟨u, hu, hcloses⟩ := h'.last
  refine h.append ⟨u, by rw [List.getLast?_cons, hu]; rfl, hcloses⟩ ?_
  rw [List.mem_cons, not_or]
  exact ⟨ht.symm, h'.pipe⟩

theorem IsExpr.edged (h : IsExpr ts e) : Edged ts :=
  -- one case for each rule, in the order of the three relations
  @IsExpr.rec (fun ts _ _ => Edged ts) (fun ts _ _ => Edged ts) (fun ts _ _ => Edged ts)
    (fun _ => edged_atom) (fun _ => edged_paren) (fun name _ ho => ho.member name)
    (fun _ _ => Edged.index) (fun hsign _ => edged_sign hsign) (fun _ => id)
    (fun _ _ _ hc => hc.join (by simp)) (fun _ => id)
    (fun _ _ _ hc hus hvs => hc.join (by simp) (hus.join (by simp) hvs)) ts e h

/-- A filter may stand at the end. -/
theorem IsInput.edges (h : IsInput ts e) :
    (∃ t ∈ ts.head?, t.opens = true) ∧ ∃ t ∈ ts.getLast?, t.closes = true := by
  cases h with
  | plain he => exact ⟨he.edged.head, he.edged.last⟩
  | filter name he =>
    obtain ⟨t, ht, hopens⟩ := he.edged.head
    refine ⟨⟨t, ?_, hopens⟩, ⟨.word name, by simp, rfl⟩⟩
    rw [List.head?_append, ht]
    rfl

end Parser

namespace Expr

open ForbiddenOp (find? search isWatched)

variable {cs : List Char} {ts : List Token} {e : Expr}

/-- Characters that are these tokens, without a forbidden operator and with all numbers in range. -/
structure Clean (cs : List Char) (ts : List Token) : Prop where
  lex : Token.lex cs = some ts
  find : find? cs = none
  inRange : ∀ n, .number n ∈ ts → n.value.isFinite = true

/-- A trimmed text and the tokens that it is read as `e` from. -/
structure IsRead (cs : List Char) (ts : List Token) (e : Expr) : Prop extends Clean cs ts where
  trimmed : Text.Trimmed cs
  isInput : Parser.IsInput ts e

theorem exists_isRead_of_readChars (h : readChars (Text.trimChars cs) = .ok e) :
    ∃ ts, IsRead (Text.trimChars cs) ts e := by
  obtain ⟨ts, hlex, he, hfind, hrange⟩ := readChars_eq_ok_iff.1 h
  refine ⟨ts, ⟨hlex, hfind, hrange⟩, Text.trimmed_trimChars ?_, he⟩
  intro hnil
  rw [hnil] at h
  cases h

theorem IsRead.readChars_eq (h : IsRead cs ts e) : readChars (Text.trimChars cs) = .ok e := by
  rw [h.trimmed.trimChars_eq]
  exact readChars_eq_ok_iff.2 ⟨ts, h.lex, h.isInput, h.find, h.inRange⟩

theorem exists_isRead {text : String} (htrim : Text.trim text = text) (h : read text = .ok e) :
    ∃ ts, IsRead text.toList ts e := by
  have hchars : Text.trimChars text.toList = text.toList := by
    rw [← String.toList_ofList (l := Text.trimChars text.toList)]
    exact congrArg String.toList htrim
  obtain ⟨ts, hread⟩ := exists_isRead_of_readChars h
  exact ⟨ts, hchars ▸ hread⟩

/-- An expression does not start with an equals sign. -/
theorem IsRead.head_ne (h : IsRead cs ts e) : ∀ c ∈ cs.head?, c ≠ '=' := by
  obtain ⟨t, ht, hopens⟩ := h.isInput.edges.1
  obtain ⟨us, rfl⟩ := List.head?_eq_some_iff.1 ht
  obtain ⟨rest, hfront, -⟩ := Token.exists_front_of_lex h.lex
  obtain ⟨c, hc, hwhite⟩ := h.trimmed.head
  rw [Text.dropWhile_of_stop fun d hd => ?_] at hfront
  · refine hfront.head_ne (by decide) fun s hs => ?_
    cases t with
    | bang | leftParen =>
      cases hs
      decide
    | op operator =>
      cases hs
      cases operator with
      | add | sub => decide
      | _ => cases hopens
    | word | number | string => cases hs
    | _ => cases hopens
  · cases hc.symm.trans hd
    exact Text.isGap_of_isWhite hwhite

theorem IsRead.last (h : IsRead cs ts e) : ∃ c ∈ cs.getLast?, Token.isFinal c = true := by
  obtain ⟨t, ht, hcloses⟩ := h.isInput.edges.2
  obtain ⟨us, rfl⟩ := List.getLast?_eq_some_iff.1 ht
  obtain ⟨front, back, rfl, -, hback, -⟩ := Token.exists_append_of_lex h.lex
  obtain ⟨blanks, s, rest, rfl, -, hs, -, hrest⟩ := Token.exists_of_lex_cons hback
  have htrimmed := h.trimmed
  rw [← List.append_assoc, ← List.append_assoc] at htrimmed
  obtain rfl := htrimmed.eq_nil_of_isGap (Token.lex_eq_nil_iff.1 hrest)
  obtain ⟨c, hc, hfinal⟩ := hs.exists_isFinal hcloses
  refine ⟨c, ?_, hfinal⟩
  rw [List.append_nil, List.getLast?_append, List.getLast?_append, Option.mem_def.1 hc]
  rfl

theorem isWatched_of_isFinal {c : Char} (h : Token.isFinal c = true) : isWatched c = false := by
  simp only [isWatched, Bool.or_eq_false_iff, beq_eq_false_iff_ne]
  refine ⟨⟨?_, ?_⟩, ?_⟩ <;> rintro rfl <;> revert h <;> decide

/-- The search goes on behind a text that is read, with its last character before it. -/
theorem IsRead.search_append (h : IsRead cs ts e) (previous : Option Char) (rest : List Char) :
    ∃ c, Token.isFinal c = true ∧
      search (.code previous) (cs ++ rest) = search (.code (some c)) rest := by
  obtain ⟨c, hc, hfinal⟩ := h.last
  exact ⟨c, hfinal, ForbiddenOp.search_append_of_lex h.lex h.find hc (isWatched_of_isFinal hfinal)
    previous rest⟩

end Expr
end Stencil
