import Stencil.Proofs.Edges

/-!
# Expressions inside expressions

A text that is read keeps its tokens wherever a bracket, a blank or another sign sets it apart from
what follows, and the search for forbidden operators stays silent on the whole. Brackets give its
tree the highest level, so it may stand at any place of a larger expression. So reading is
compositional: the tree of a compound text is put together from the trees of its parts.
-/

namespace Stencil

theorem Parser.IsInput.isExpr {ts : List Token} {e : Expr} (h : IsInput ts e)
    (he : ∀ inner name, e ≠ .filter inner name) : IsExpr ts e := by
  cases h with
  | plain he => exact he
  | filter name _ => exact absurd rfl (he _ name)

/-- An expression in brackets may stand at any place. -/
theorem Parser.IsExpr.stands_paren {ts : List Token} {e : Expr} {level : Nat} (h : IsExpr ts e)
    (hlevel : level ≤ 9) : Stands level (.leftParen :: (ts ++ [.rightParen])) e :=
  (Stands.whole h le_rfl).paren.mono hlevel

theorem Token.isJoinedBy_of_closes {t : Token} (h : t.closes = true) (c : Char) :
    t.isJoinedBy c = false := by
  cases t with
  | word | number | string | rightParen | rightBracket => rfl
  | _ => cases h

namespace Expr

open ForbiddenOp (search)
open Token (Spells isLiteralChar)

variable {cs ds rest s : List Char} {t : Token} {ts us vs : List Token} {e f g : Expr}

namespace Clean

theorem search_eq_none (h : Clean cs ts) (previous : Option Char) :
    search (.code previous) cs = none :=
  (ForbiddenOp.search_eq_find? h.lex previous).trans h.find

theorem nil : Clean [] [] :=
  ⟨Token.lex_eq_nil_iff.2 (by simp), rfl, by simp⟩

theorem blank {b : Char} (hb : Text.isGap b = true) (h : Clean rest ts) : Clean (b :: rest) ts := by
  have hb' : ForbiddenOp.isQuiet b = true :=
    Token.forall_isGap (P := fun c => ForbiddenOp.isQuiet c = true) (by decide) b hb
  have hquiet : ForbiddenOp.Passes [b] rest := ForbiddenOp.passes_quiet (by simpa using hb')
  refine ⟨(Token.lex_blank hb rest).trans h.lex, ?_, h.inRange⟩
  obtain ⟨next, hnext⟩ := hquiet none
  exact hnext.trans (h.search_eq_none next)

theorem blanks {blanks : List Char} (hblanks : ∀ b ∈ blanks, Text.isGap b = true)
    (h : Clean rest ts) : Clean (blanks ++ rest) ts := by
  induction blanks with
  | nil => exact h
  | cons b blanks ih =>
    rw [List.forall_mem_cons] at hblanks
    exact (ih hblanks.2).blank hblanks.1

/-- A token may stand before what does not extend it. -/
theorem cons (hs : Spells t s) (hrange : overflow? t = none)
    (hstop : ∀ c ∈ rest.head?, t.isExtendedBy c = false) (h : Clean rest ts) :
    Clean (s ++ rest) (t :: ts) := by
  refine ⟨?_, ?_, ?_⟩
  · exact Token.lexes_of_spells hs (Token.next?_of_spells hs hstop) ts h.lex
  · obtain ⟨next, hnext⟩ := ForbiddenOp.passes_spells hs hstop none
    exact hnext.trans (h.search_eq_none next)
  · intro n hn
    rcases List.mem_cons.1 hn with rfl | hn
    · simpa [overflow?] using hrange
    · exact h.inRange n hn

theorem fixed {text : String} (ht : t.fixed? = some text)
    (hstop : ∀ c ∈ rest.head?, t.isExtendedBy c = false) (h : Clean rest ts) :
    Clean (text.toList ++ rest) (t :: ts) :=
  h.cons (.fixed ht) (Token.overflow?_fixed ht) hstop

theorem word {name : String} (hname : Token.isName name.toList = true) :
    Clean name.toList [.word name] := by
  simpa using nil.cons (.word hname) rfl (by simp)

end Clean

/-- A text that is read may stand before anything that does not go on with a name or a numeral. -/
theorem IsRead.append (h : IsRead cs ts e) (hrest : Clean rest us)
    (hhead : ∀ d ∈ rest.head?, isLiteralChar d = false) : Clean (cs ++ rest) (ts ++ us) := by
  refine ⟨?_, ?_, ?_⟩
  · cases rest with
    | nil =>
      cases Clean.nil.lex.symm.trans hrest.lex
      simpa using h.lex
    | cons d rest =>
      -- what closes an operand makes no other token with a sign behind it
      obtain ⟨t, ht, hcloses⟩ := h.isInput.edges.2
      refine Token.lex_append h.lex (Token.severs_cons (hhead d rfl) _) (fun u hu => ?_) hrest.lex
      cases ht.symm.trans hu
      exact Token.isJoinedBy_of_closes hcloses d
  · obtain ⟨c, -, hsearch⟩ := h.search_append none rest
    exact hsearch.trans (hrest.search_eq_none (some c))
  · intro n hn
    rcases List.mem_append.1 hn with hn | hn
    · exact h.inRange n hn
    · exact hrest.inRange n hn

/-- Brackets set a text that is read apart from whatever follows. -/
theorem IsRead.enclosed (h : IsRead cs ts e) (hrest : Clean rest us) :
    Clean ('(' :: (cs ++ ')' :: rest)) (.leftParen :: (ts ++ .rightParen :: us)) := by
  have hclose : Clean (")".toList ++ rest) (.rightParen :: us) := .fixed rfl (fun _ _ => rfl) hrest
  have hinner : Clean (cs ++ ')' :: rest) (ts ++ .rightParen :: us) :=
    h.append hclose (by rintro d ⟨⟩; decide)
  exact hinner.fixed (t := .leftParen) rfl (fun _ _ => rfl)

/-- A trimmed text that stands for `e` also inside a larger expression. -/
def IsPart (text : String) (e : Expr) : Prop :=
  ∃ ts, IsRead text.toList ts e ∧ Parser.IsExpr ts e

theorem isPart_of_read {text : String} (htrim : Text.trim text = text) (h : read text = .ok e)
    (he : ∀ inner name, e ≠ .filter inner name) : IsPart text e := by
  obtain ⟨ts, hread⟩ := exists_isRead htrim h
  exact ⟨ts, hread, hread.isInput.isExpr he⟩

theorem isPart_of_clean {text : String} (htrimmed : Text.Trimmed text.toList)
    (hclean : Clean text.toList ts) (he : Parser.IsExpr ts e) : IsPart text e :=
  ⟨ts, ⟨hclean, htrimmed, .plain he⟩, he⟩

namespace IsPart

variable {text text' text'' : String}

theorem read_eq (h : IsPart text e) : read text = .ok e := by
  obtain ⟨ts, hread, -⟩ := h
  exact hread.readChars_eq

theorem trimmed_bracket (mid : List Char) (h : Text.Trimmed rest) :
    Text.Trimmed ('(' :: (mid ++ rest)) := by
  have hopen : Text.Trimmed ['('] := .singleton (by decide)
  exact hopen.append mid h

theorem paren (h : IsPart text e) : IsPart ("(" ++ text ++ ")") e := by
  obtain ⟨ts, hread, he⟩ := h
  refine isPart_of_clean ?_ ?_ (he.stands_paren le_rfl).isExpr
  · simpa using trimmed_bracket text.toList (.singleton (c := ')') (by decide))
  · simpa using hread.enclosed .nil

theorem binary (op : BinaryOp) (h : IsPart text e) (h' : IsPart text' f) :
    IsPart ("(" ++ text ++ ")" ++ op.symbol ++ "(" ++ text' ++ ")") (.binary op e f) := by
  obtain ⟨ts, hread, he⟩ := h
  obtain ⟨us, hread', hf⟩ := h'
  have hop : Clean (op.symbol.toList ++ '(' :: (text'.toList ++ [')']))
      (.op op :: .leftParen :: (us ++ [.rightParen])) := by
    refine .fixed rfl ?_ (hread'.enclosed .nil)
    rintro c ⟨⟩
    cases op <;> rfl
  have hlevel := op.level_bounds.2
  have hleft := he.stands_paren (show op.level ≤ 9 by omega)
  have hright := hf.stands_paren (show op.level + 1 ≤ 9 by omega)
  refine isPart_of_clean ?_ ?_ (hleft.binary hright).isExpr
  · simpa using trimmed_bracket (text.toList ++ ')' :: (op.symbol.toList ++ '(' :: text'.toList))
      (.singleton (c := ')') (by decide))
  · simpa using hread.enclosed hop

theorem unary (op : UnaryOp) (h : IsPart text e) :
    IsPart (op.symbol ++ "(" ++ text ++ ")") (.unary op e) := by
  obtain ⟨ts, hread, he⟩ := h
  obtain ⟨t, hfixed, hsign, hstop⟩ : ∃ t : Token, t.fixed? = some op.symbol ∧
      Parser.sign? t = some op ∧ t.isExtendedBy '(' = false := by
    cases op with
    | not => exact ⟨.bang, rfl, rfl, rfl⟩
    | neg => exact ⟨.op .sub, rfl, rfl, rfl⟩
    | plus => exact ⟨.op .add, rfl, rfl, rfl⟩
  refine isPart_of_clean ?_ ?_ ((he.stands_paren (by omega)).unary hsign).isExpr
  · simpa using (Token.trimmed_fixed hfixed).append ('(' :: text.toList)
      (.singleton (c := ')') (by decide))
  · have hclean := (hread.enclosed .nil).fixed hfixed (by rintro c ⟨⟩; exact hstop)
    simpa using hclean

theorem member (h : IsPart text e) {name : String} (hname : Token.isName name.toList = true) :
    IsPart ("(" ++ text ++ ")." ++ name) (.member e name) := by
  obtain ⟨ts, hread, he⟩ := h
  have hdot : Clean (".".toList ++ name.toList) [.dot, .word name] :=
    .fixed rfl (Token.isDigit_of_isName hname) (.word hname)
  refine isPart_of_clean ?_ ?_ ((he.stands_paren le_rfl).member name).isExpr
  · simpa using trimmed_bracket (text.toList ++ [')', '.']) (Token.trimmed_of_isName hname)
  · simpa using hread.enclosed hdot

theorem index (h : IsPart text e) (h' : IsPart text' f) :
    IsPart ("(" ++ text ++ ")[" ++ text' ++ "]") (.index e f) := by
  obtain ⟨ts, hread, he⟩ := h
  obtain ⟨us, hread', hf⟩ := h'
  have hclose : Clean ("]".toList ++ []) [.rightBracket] := .fixed rfl (by simp) .nil
  have hkey : Clean ("[".toList ++ (text'.toList ++ "]".toList))
      (.leftBracket :: (us ++ [.rightBracket])) :=
    .fixed rfl (fun _ _ => rfl) (hread'.append hclose (by rintro d ⟨⟩; decide))
  refine isPart_of_clean ?_ ?_ ((he.stands_paren le_rfl).index (.whole hf le_rfl)).isExpr
  · simpa using trimmed_bracket (text.toList ++ ')' :: '[' :: text'.toList)
      (.singleton (c := ']') (by decide))
  · simpa using hread.enclosed hkey

theorem conditional (h : IsPart text e) (h' : IsPart text' f) (h'' : IsPart text'' g) :
    IsPart ("(" ++ text ++ ") ? " ++ text' ++ " : " ++ text'') (.conditional e f g) := by
  obtain ⟨ts, hread, he⟩ := h
  obtain ⟨us, hread', hf⟩ := h'
  obtain ⟨vs, hread'', hg⟩ := h''
  have hcolon : Clean (":".toList ++ ' ' :: text''.toList) (.colon :: vs) :=
    .fixed rfl (fun _ _ => rfl) (hread''.toClean.blank rfl)
  have hquestion : Clean ("?".toList ++ ' ' :: (text'.toList ++ ' ' :: ':' :: ' ' :: text''.toList))
      (.question :: (us ++ .colon :: vs)) := by
    refine .fixed rfl (fun _ _ => rfl) (.blank rfl (hread'.append (hcolon.blank rfl) ?_))
    rintro d ⟨⟩
    decide
  have htest := he.stands_paren (show 2 ≤ 9 by omega)
  refine isPart_of_clean ?_ ?_
    (htest.conditional (.whole hf le_rfl) (.whole hg le_rfl)).isExpr
  · simpa using trimmed_bracket (text.toList ++ ") ? ".toList ++ text'.toList ++ " : ".toList)
      hread''.trimmed
  · simpa using hread.enclosed (hquestion.blank (b := ' ') rfl)

end IsPart

/-- Reading is compositional. Bracketed operands and the parts of brackets and conditionals keep
their trees, whatever the texts are, as long as none of them holds a filter. -/
theorem read_composite (text text' text'' : String) (e f g : Expr)
    (htext : Text.trim text = text) (he : read text = .ok e)
    (hplain : ∀ inner name, e ≠ .filter inner name)
    (htext' : Text.trim text' = text') (hf : read text' = .ok f)
    (hplain' : ∀ inner name, f ≠ .filter inner name)
    (htext'' : Text.trim text'' = text'') (hg : read text'' = .ok g)
    (hplain'' : ∀ inner name, g ≠ .filter inner name) :
    read ("(" ++ text ++ ")") = .ok e ∧
    (∀ op : BinaryOp, read ("(" ++ text ++ ")" ++ op.symbol ++ "(" ++ text' ++ ")") =
      .ok (.binary op e f)) ∧
    (∀ op : UnaryOp, read (op.symbol ++ "(" ++ text ++ ")") = .ok (.unary op e)) ∧
    (∀ name : String, Token.isName name.toList = true →
      read ("(" ++ text ++ ")." ++ name) = .ok (.member e name)) ∧
    read ("(" ++ text ++ ")[" ++ text' ++ "]") = .ok (.index e f) ∧
    read ("(" ++ text ++ ") ? " ++ text' ++ " : " ++ text'') = .ok (.conditional e f g) := by
  have h := isPart_of_read htext he hplain
  have h' := isPart_of_read htext' hf hplain'
  have h'' := isPart_of_read htext'' hg hplain''
  exact ⟨h.paren.read_eq, fun op => (h.binary op h').read_eq, fun op => (h.unary op).read_eq,
    fun _ hname => (h.member hname).read_eq, (h.index h').read_eq, (h.conditional h' h'').read_eq⟩

theorem read_composite_nested :
    read "a ? ')' : b" =
      .ok (.conditional (.scope "a") (.literal (.string ")")) (.scope "b")) ∧
    read "-c || d" = .ok (.binary .or (.unary .neg (.scope "c")) (.scope "d")) ∧
    read "(a ? ')' : b)&&(-c || d)" = .ok (.binary .and
      (.conditional (.scope "a") (.literal (.string ")")) (.scope "b"))
      (.binary .or (.unary .neg (.scope "c")) (.scope "d"))) ∧
    read "(a ? ')' : b).null" = .ok (.member
      (.conditional (.scope "a") (.literal (.string ")")) (.scope "b")) "null") ∧
    read "(a ? ')' : b) ? -c || d : a ? ')' : b" = .ok (.conditional
      (.conditional (.scope "a") (.literal (.string ")")) (.scope "b"))
      (.binary .or (.unary .neg (.scope "c")) (.scope "d"))
      (.conditional (.scope "a") (.literal (.string ")")) (.scope "b"))) := by
  have htest : read "a ? ')' : b" =
      .ok (.conditional (.scope "a") (.literal (.string ")")) (.scope "b")) := by
    with_unfolding_all rfl
  have hor : read "-c || d" = .ok (.binary .or (.unary .neg (.scope "c")) (.scope "d")) := by
    with_unfolding_all rfl
  obtain ⟨-, hbinary, -, hmember, -, hconditional⟩ := read_composite _ _ _ _ _ _ (by decide) htest
    (by simp) (by decide) hor (by simp) (by decide) htest (by simp)
  exact ⟨htest, hor, hbinary .and, hmember "null" (by decide), hconditional⟩

end Expr
end Stencil
