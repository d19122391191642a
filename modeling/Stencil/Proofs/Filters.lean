import Stencil.Proofs.Composition

/-!
# Filters

A filter is attached by a single pipe behind an expression. Cut at this pipe, the text in front
reads alone as the tree that it has in place, and behind stands a name. Seen from outside its
quotations, an expression has pipes only side by side, as operators, so a text that is read has a
single pipe exactly if it is a filter, and then no other one.
-/

namespace Stencil

/-- In a text of two parts a character stands in the first or in the second one. -/
theorem exists_mid_of_append {α : Type} {v w front back : List α} {x : α}
    (h : v ++ w = front ++ x :: back) :
    (∃ mid, v = front ++ x :: mid ∧ back = mid ++ w) ∨
      ∃ mid, front = v ++ mid ∧ w = mid ++ x :: back := by
  rcases List.append_eq_append_iff.1 h with ⟨mid, hfront, hw⟩ | ⟨mid, hv, hback⟩
  · exact .inr ⟨mid, hfront, hw⟩
  · cases mid with
    | nil => exact .inr ⟨[], by simpa using hv.symm, hback.symm⟩
    | cons y mid =>
      cases hback
      exact .inl ⟨mid, hv, rfl⟩

namespace Token

variable {cs : List Char} {t : Token} {ts : List Token} {view front back : List (Option Char)}

theorem outside_append_of_laid (h : Laid cs ts view) (rest : List Char) :
    outside (cs ++ rest) = view ++ outside rest := by
  induction h with
  | nil => rfl
  | blank hc _ ih =>
    have hquote := forall_isGap (P := fun c => ¬(c = '"' ∨ c = '\'')) (by decide) _ hc
    rw [List.cons_append, outside_cons hquote, ih]
    rfl
  | string hs _ ih =>
    rw [List.append_assoc, outside_string hs, ih]
    rfl
  | token ht hs _ ih =>
    rw [List.append_assoc, outside_append (hs.not_quote ht), ih, List.append_assoc]

theorem eq_nil_of_outside (h : outside cs = []) : cs = [] := by
  cases cs with
  | nil => rfl
  | cons c cs =>
    rw [outside] at h
    split at h
    · split at h <;> cases h
    · cases h

theorem getLast?_of_outside_cons {c d : Char} (ih : ∀ d, (outside cs).getLast? = some (some d) →
    cs.getLast? = some d) (h : (some c :: outside cs).getLast? = some (some d)) :
    (c :: cs).getLast? = some d := by
  rw [List.getLast?_cons] at h
  cases hlast : (outside cs).getLast? with
  | none =>
    rw [hlast] at h
    cases h
    rw [eq_nil_of_outside (List.getLast?_eq_none_iff.1 hlast)]
    rfl
  | some place =>
    rw [hlast] at h
    cases h
    rw [List.getLast?_cons, ih d hlast]
    rfl

/-- What stands at the end of the view stands at the end of the text. -/
theorem getLast?_of_outside {d : Char} (h : (outside cs).getLast? = some (some d)) :
    cs.getLast? = some d := by
  fun_induction outside cs generalizing d with
  | case1 => cases h
  | case2 c cs hquote text rest hbody hlt ih =>
    obtain ⟨body, rfl, -⟩ := Text.Quoted.exists_of_readBody hbody
    have hrest : (outside rest).getLast? = some (some d) := by
      rw [List.getLast?_cons] at h
      cases hlast : (outside rest).getLast? with
      | none =>
        rw [hlast] at h
        cases h
      | some place =>
        rw [hlast] at h
        exact h
    rw [← List.cons_append, List.getLast?_append, ih hrest]
    rfl
  | case3 c cs hquote hbody ih => exact getLast?_of_outside_cons (fun _ => ih) h
  | case4 c cs hquote ih => exact getLast?_of_outside_cons (fun _ => ih) h

end Token

/-- The view has a pipe between these two parts, and no other one right next to it. -/
structure LonePipe (view front back : List (Option Char)) : Prop where
  eq : view = front ++ some '|' :: back
  before : front.getLast? ≠ some (some '|')
  behind : back.head? ≠ some (some '|')

/-- All pipes of the view stand side by side. -/
def Paired (view : List (Option Char)) : Prop := ∀ front back, ¬ LonePipe view front back

namespace Paired

variable {v w front back : List (Option Char)}

theorem of_not_mem (h : some '|' ∉ v) : Paired v := by
  rintro front back ⟨rfl, -, -⟩
  simp at h

theorem append (hv : Paired v) (hw : Paired w) : Paired (v ++ w) := by
  rintro front back ⟨heq, hbefore, hbehind⟩
  rcases exists_mid_of_append heq with ⟨mid, hfirst, rfl⟩ | ⟨mid, rfl, hsecond⟩
  · refine hv front mid ⟨hfirst, hbefore, fun hmid => hbehind ?_⟩
    rw [List.head?_append, hmid]
    rfl
  · refine hw mid back ⟨hsecond, fun hmid => hbefore ?_, hbehind⟩
    rw [List.getLast?_append, hmid]
    rfl

/-- A pipe between paired ones and a part without pipes is the only one that is not paired. -/
theorem eq_of_lonePipe {v' w' : List (Option Char)} (hv : Paired v) (hw : some '|' ∉ w)
    (h : LonePipe (v ++ some '|' :: w) v' w') : v' = v ∧ w' = w := by
  -- the other pipe stands among the paired ones, is this one, or stands behind it
  rcases exists_mid_of_append h.eq with ⟨mid, hfirst, hback⟩ | ⟨mid, hfront, hsecond⟩
  · refine absurd ⟨hfirst, h.before, fun hmid => h.behind ?_⟩ (hv v' mid)
    rw [hback, List.head?_append, hmid]
    rfl
  · cases mid with
    | nil =>
      cases hsecond
      exact ⟨by simpa using hfront, rfl⟩
    | cons place mid =>
      cases hsecond
      simp at hw

end Paired

namespace Token

variable {cs s : List Char} {t : Token} {ts : List Token} {view : List (Option Char)}

/-- Of the operators and brackets, only the pipe is written with a single pipe. -/
theorem paired_fixed {text : String} (ht : t.fixed? = some text) (hne : t ≠ .pipe) :
    Paired (text.toList.map some) := by
  cases t with
  | op operator =>
    cases ht
    cases operator with
    | or =>
      rintro front back ⟨heq, hbefore, hbehind⟩
      rcases front with _ | ⟨place, _ | ⟨place', front⟩⟩
      · cases heq
        exact hbehind rfl
      · cases heq
        exact hbefore rfl
      · simp [BinaryOp.symbol] at heq
    | _ => exact .of_not_mem (by decide)
  | word | number | string => cases ht
  | pipe => exact absurd rfl hne
  | _ =>
    cases ht
    exact .of_not_mem (by decide)

theorem paired_laid (h : Laid cs ts view) (hpipe : .pipe ∉ ts) : Paired view := by
  induction h with
  | nil => exact .of_not_mem (by simp)
  | blank hc _ ih =>
    refine Paired.append (v := [_]) (.of_not_mem ?_) (ih hpipe)
    have hne := forall_isGap (P := fun c => '|' ≠ c) (by decide) _ hc
    simpa using hne
  | string hs _ ih =>
    rw [List.mem_cons, not_or] at hpipe
    exact Paired.append (v := [none]) (.of_not_mem (by simp)) (ih hpipe.2)
  | token ht hs _ ih =>
    rw [List.mem_cons, not_or] at hpipe
    refine Paired.append ?_ (ih hpipe.2)
    rcases hs.cases_of_ne_string ht with hliteral | ⟨text, hfixed, rfl⟩
    · refine .of_not_mem fun hmem => ?_
      obtain ⟨c, hc, heq⟩ := List.mem_map.1 hmem
      cases heq
      exact isLiteralChar_ne (hliteral _ hc) (by decide) rfl
    · exact paired_fixed hfixed (Ne.symm hpipe.1)

end Token

theorem ForbiddenOp.HasDouble.mono {view view' : List (Option Char)} (h : HasDouble view)
    (hview : view <:+: view') : HasDouble view' := by
  obtain ⟨c, hsign, hinfix⟩ := h
  exact ⟨c, hsign, hinfix.trans hview⟩

theorem Parser.IsExpr.plain {ts : List Token} {e : Expr} (h : IsExpr ts e)
    (hts : ∀ t ∈ ts, IsSound t) : e.Plain := by
  -- with a filter behind it the expression is the inner tree of a readable one
  have hfilter : ∀ t ∈ ts ++ [.pipe, .word "_"], IsSound t := by
    rw [List.forall_mem_append]
    refine ⟨hts, ?_⟩
    simp only [List.forall_mem_cons, List.not_mem_nil, false_implies, implies_true, and_true]
    refine ⟨⟨by simp, rfl⟩, ⟨?_, rfl⟩⟩
    rintro _ ⟨⟩
    decide
  cases readable_of_parse hfilter (IsInput.filter "_" h).parse_eq with
  | plain hplain => cases hplain
  | filter he _ => exact he

namespace Expr

open Token (isLiteralChar outside)

variable {cs blanks blanks' : List Char} {ts us : List Token} {e : Expr} {name : String}

theorem IsRead.isSound (h : IsRead cs ts e) : ∀ t ∈ ts, Parser.IsSound t := by
  intro t ht
  refine ⟨?_, ?_⟩
  · rintro name rfl
    exact Token.isName_of_lex h.lex ht
  · cases t with
    | number n => simpa [overflow?] using h.inRange n ht
    | _ => rfl

theorem Plain.ne_filter (h : e.Plain) (inner : Expr) (name : String) : e ≠ .filter inner name := by
  rintro rfl
  cases h

/-- Apart from its filter, a text that is read is an expression. -/
theorem IsRead.cases (h : IsRead cs ts e) :
    (Parser.IsExpr ts e ∧ ∀ inner name, e ≠ .filter inner name) ∨
      ∃ us inner name, ts = us ++ [.pipe, .word name] ∧ e = .filter inner name ∧
        Parser.IsExpr us inner ∧ ∀ inner' name', inner ≠ .filter inner' name' := by
  have hsound := h.isSound
  cases h.isInput with
  | plain he => exact .inl ⟨he, (he.plain hsound).ne_filter⟩
  | filter name he =>
    refine .inr ⟨_, _, name, rfl, rfl, he, (he.plain fun t ht => hsound t ?_).ne_filter⟩
    simp [ht]

/-- Behind the pipe of a filter stands neither a pipe nor a quote. -/
theorem not_pipe_or_quote (hname : Token.isName name.toList = true)
    (hblanks : ∀ b ∈ blanks, Text.isGap b = true) :
    ∀ c ∈ blanks ++ name.toList, c ≠ '|' ∧ ¬(c = '"' ∨ c = '\'') := by
  rw [List.forall_mem_append]
  refine ⟨fun b hb => Token.forall_isGap (P := fun c => c ≠ '|' ∧ ¬(c = '"' ∨ c = '\''))
    (by decide) b (hblanks b hb), fun c hc => ?_⟩
  obtain ⟨-, -, -, -, hall⟩ := Token.exists_cons_of_isName hname
  have hliteral := Token.isLiteralChar_of_isNameChar (hall c hc)
  exact ⟨Token.isLiteralChar_ne hliteral (by decide), not_or.2
    ⟨Token.isLiteralChar_ne hliteral (by decide), Token.isLiteralChar_ne hliteral (by decide)⟩⟩

theorem IsRead.append_blanks {rest : List Char} (h : IsRead cs ts e)
    (hblanks : ∀ b ∈ blanks, Text.isGap b = true) (hrest : Clean rest us)
    (hhead : ∀ d ∈ rest.head?, isLiteralChar d = false) :
    Clean (cs ++ (blanks ++ rest)) (ts ++ us) := by
  refine h.append (hrest.blanks hblanks) ?_
  cases blanks with
  | nil => exact hhead
  | cons b blanks =>
    rintro d ⟨⟩
    exact Token.forall_isGap (P := fun c => isLiteralChar c = false) (by decide) _
      (hblanks b List.mem_cons_self)

/-- A text that is read may be followed by a filter. -/
theorem IsRead.append_filter (h : IsRead cs ts e) (hname : Token.isName name.toList = true)
    (hblanks : ∀ b ∈ blanks, Text.isGap b = true)
    (hblanks' : ∀ b ∈ blanks', Text.isGap b = true) :
    Clean (cs ++ (blanks ++ '|' :: (blanks' ++ name.toList))) (ts ++ [.pipe, .word name]) := by
  have hpipe : Clean ("|".toList ++ (blanks' ++ name.toList)) [.pipe, .word name] := by
    refine .fixed rfl (fun c hc => ?_) ((Clean.word hname).blanks hblanks')
    have hne := (not_pipe_or_quote hname hblanks' c (List.mem_of_mem_head? hc)).1
    simpa [Token.isExtendedBy] using hne
  exact h.append_blanks hblanks hpipe (by rintro d ⟨⟩; decide)

/-- An expression at the front of a text that is read, up to a place between tokens, is read
alone. -/
theorem IsRead.front {front back : List Char} {vs : List Token} {f : Expr}
    (h : IsRead (front ++ back) (us ++ vs) e) (hlex : Token.lex front = some us)
    (hlast : ∀ c ∈ front.getLast?, Text.isWhite c = false) (hf : Parser.IsExpr us f) :
    IsRead front us f := by
  have hne : front ≠ [] := by
    rintro rfl
    cases Clean.nil.lex.symm.trans hlex
    exact hf.edged.ne_nil rfl
  have htrimmed : Text.Trimmed front := by
    obtain ⟨c, hc, hwhite⟩ := h.trimmed.head
    rw [List.head?_append_of_ne_nil _ hne] at hc
    have hend := List.getLast?_eq_some_getLast hne
    exact ⟨⟨c, hc, hwhite⟩, ⟨_, hend, hlast _ hend⟩⟩
  have hfind : ForbiddenOp.find? front = none := by
    rw [ForbiddenOp.find?_eq_none_iff hlex]
    intro hdouble
    refine (ForbiddenOp.find?_eq_none_iff h.lex).1 h.find (hdouble.mono ?_)
    rw [Token.outside_append_of_laid (Token.laid_of_lex hlex)]
    exact (List.prefix_append _ _).isInfix
  exact ⟨⟨hlex, hfind, fun n hn => h.inRange n (by simp [hn])⟩, htrimmed, .plain hf⟩

/-- The text of a filter, cut at its pipe: what stands in front is read alone as the inner tree. -/
theorem IsRead.exists_cut (h : IsRead cs (us ++ [.pipe, .word name]) (.filter e name))
    (he : Parser.IsExpr us e) :
    ∃ front blanks blanks', cs = front ++ (blanks ++ '|' :: (blanks' ++ name.toList)) ∧
      IsRead front us e ∧ Token.isName name.toList = true ∧
      (∀ b ∈ blanks, Text.isGap b = true) ∧ ∀ b ∈ blanks', Text.isGap b = true := by
  obtain ⟨front, back, rfl, hfront, hback, hlast⟩ := Token.exists_append_of_lex h.lex
  have hread := h.front hfront hlast he
  obtain ⟨blanks, s, rest, rfl, hblanks, hs, -, hrest⟩ := Token.exists_of_lex_cons hback
  obtain ⟨blanks', s', rest', rfl, hblanks', hs', -, hrest'⟩ := Token.exists_of_lex_cons hrest
  have htrimmed := h.trimmed
  simp only [← List.append_assoc] at htrimmed
  obtain rfl := htrimmed.eq_nil_of_isGap (Token.lex_eq_nil_iff.1 hrest')
  cases hs with
  | fixed hpipe =>
    cases hpipe
    cases hs' with
    | word hname => exact ⟨front, blanks, blanks', by simp, hread, hname, hblanks, hblanks'⟩
    | fixed hword => cases hword

/-- Its pipe is the only single one of a filter. -/
theorem IsRead.lonePipe_filter (h : IsRead cs ts e) (he : Parser.IsExpr ts e)
    (hname : Token.isName name.toList = true) (hblanks : ∀ b ∈ blanks, Text.isGap b = true)
    (hblanks' : ∀ b ∈ blanks', Text.isGap b = true) :
    ∃ v w, Paired v ∧ some '|' ∉ w ∧
      LonePipe (outside (cs ++ (blanks ++ '|' :: (blanks' ++ name.toList)))) v w := by
  have htail := not_pipe_or_quote hname hblanks'
  have hclean : Clean (cs ++ blanks) ts := by
    simpa using h.append_blanks hblanks .nil (by simp)
  have hlaid := Token.laid_of_lex hclean.lex
  have hlast : (outside (cs ++ blanks)).getLast? ≠ some (some '|') := by
    intro hview
    have hpipe := Token.getLast?_of_outside hview
    -- in front of the pipe stands a blank, or else the end of an expression
    by_cases hne : blanks = []
    · obtain ⟨c, hc, hfinal⟩ := h.last
      rw [hne, List.append_nil, hc] at hpipe
      cases hpipe
      exact absurd hfinal (by decide)
    · rw [List.getLast?_append_of_ne_nil _ hne] at hpipe
      exact absurd (hblanks _ (List.mem_of_getLast? hpipe)) (by decide)
  have hnot : some '|' ∉ (blanks' ++ name.toList).map some := by
    intro hmem
    obtain ⟨c, hc, heq⟩ := List.mem_map.1 hmem
    cases heq
    exact (htail _ hc).1 rfl
  have hview : outside (cs ++ (blanks ++ '|' :: (blanks' ++ name.toList))) =
      outside (cs ++ blanks) ++ some '|' :: (blanks' ++ name.toList).map some := by
    have hend := Token.outside_append (fun c hc => (htail c hc).2) []
    rw [Token.outside, List.append_nil, List.append_nil] at hend
    rw [← List.append_assoc, Token.outside_append_of_laid hlaid, Token.outside_cons (by decide),
      hend]
  exact ⟨_, _, Token.paired_laid hlaid he.edged.pipe, hnot, hview, hlast,
    fun hhead => hnot (List.mem_of_mem_head? hhead)⟩

/-- What is read has no single pipe, or it is a filter and has one that stands behind all others. -/
theorem IsRead.pipes (h : IsRead cs ts e) :
    ((∀ inner name, e ≠ .filter inner name) ∧ Paired (outside cs)) ∨
      (∃ inner name, e = .filter inner name) ∧
        ∃ v w, Paired v ∧ some '|' ∉ w ∧ LonePipe (outside cs) v w := by
  rcases h.cases with ⟨he, hne⟩ | ⟨us, inner, name, rfl, rfl, he, -⟩
  · exact .inl ⟨hne, Token.paired_laid (Token.laid_of_lex h.lex) he.edged.pipe⟩
  · obtain ⟨front, blanks, blanks', rfl, hfront, hname, hblanks, hblanks'⟩ := h.exists_cut he
    exact .inr ⟨⟨inner, name, rfl⟩, hfront.lonePipe_filter he hname hblanks hblanks'⟩

/-- A filter is attached exactly by a single pipe between an expression and a name. A pipe in a
quotation and one of two that stand side by side attach none, and nothing with two single pipes is
read. -/
theorem read_eq_filter_iff (text : String) :
    (∀ e name, read text = .ok (.filter e name) ↔ ∃ head gap gap' : String,
      Text.trim text = head ++ gap ++ "|" ++ gap' ++ name ∧
      Text.trim head = head ∧ read head = .ok e ∧ (∀ inner other, e ≠ .filter inner other) ∧
      (∀ b ∈ gap.toList, Text.isGap b = true) ∧ (∀ b ∈ gap'.toList, Text.isGap b = true) ∧
      Token.isName name.toList = true) ∧
    ∀ e, read text = .ok e →
      ((∃ inner name, e = .filter inner name) ↔
        ∃ front back, LonePipe (outside (Text.trim text).toList) front back) ∧
      ∀ front back front' back', LonePipe (outside (Text.trim text).toList) front back →
        LonePipe (outside (Text.trim text).toList) front' back' →
        front = front' ∧ back = back' := by
  have hchars : (Text.trim text).toList = Text.trimChars text.toList := String.toList_ofList
  refine ⟨fun e name => ⟨fun h => ?_, ?_⟩, fun e h => ?_⟩
  · obtain ⟨ts, hread⟩ := exists_isRead_of_readChars h
    rcases hread.cases with ⟨-, hne⟩ | ⟨us, inner, name', rfl, heq, he, hplain⟩
    · exact absurd rfl (hne e name)
    · cases heq
      obtain ⟨front, blanks, blanks', hcut, hfront, hname, hblanks, hblanks'⟩ := hread.exists_cut he
      refine ⟨String.ofList front, String.ofList blanks, String.ofList blanks', ?_, ?_, ?_, hplain,
        by simpa using hblanks, by simpa using hblanks', hname⟩
      · apply String.toList_injective
        simpa [hchars] using hcut
      · rw [Text.trim, String.toList_ofList, hfront.trimmed.trimChars_eq]
      · rw [read, String.toList_ofList]
        exact hfront.readChars_eq
  · rintro ⟨head, gap, gap', htext, hhead, hread, hplain, hgap, hgap', hname⟩
    obtain ⟨ts, hread⟩ := exists_isRead hhead hread
    have hclean := hread.append_filter hname hgap hgap'
    have he := Parser.IsInput.filter name (hread.isInput.isExpr hplain)
    rw [read, ← hchars, htext]
    refine readChars_eq_ok_iff.2 ⟨_, ?_, he, ?_, hclean.inRange⟩
    · simpa using hclean.lex
    · simpa using hclean.find
  · obtain ⟨ts, hread⟩ := exists_isRead_of_readChars h
    rw [hchars]
    rcases hread.pipes with ⟨hne, hpaired⟩ | ⟨hfilter, v, w, hv, hw, hlone⟩
    · refine ⟨iff_of_false ?_ ?_, fun front back _ _ hlone => absurd hlone (hpaired front back)⟩
      · rintro ⟨inner, name, heq⟩
        exact hne inner name heq
      · rintro ⟨front, back, hlone⟩
        exact hpaired front back hlone
    · refine ⟨iff_of_true hfilter ⟨v, w, hlone⟩, fun front back front' back' h h' => ?_⟩
      rw [hlone.eq] at h h'
      obtain ⟨rfl, rfl⟩ := hv.eq_of_lonePipe hw h
      obtain ⟨rfl, rfl⟩ := hv.eq_of_lonePipe hw h'
      exact ⟨rfl, rfl⟩

theorem read_eq_filter_iff_quoted :
    read "a || '|'" = .ok (.binary .or (.scope "a") (.literal (.string "|"))) ∧
    (¬ ∃ front back, LonePipe (outside "a || '|'".toList) front back) ∧
    read "a || '|' |\tup" =
      .ok (.filter (.binary .or (.scope "a") (.literal (.string "|"))) "up") ∧
    ∃ front back, LonePipe (outside "a || '|' |\tup".toList) front back := by
  have htrim : Text.trim "a || '|'" = "a || '|'" := by decide
  have htrim' : Text.trim "a || '|' |\tup" = "a || '|' |\tup" := by decide
  have hread : read "a || '|'" = .ok (.binary .or (.scope "a") (.literal (.string "|"))) := by
    with_unfolding_all rfl
  have h := (read_eq_filter_iff "a || '|'").2 _ hread
  have hfilter := ((read_eq_filter_iff "a || '|' |\tup").1 _ "up").2
    ⟨"a || '|'", " ", "\t", by rw [htrim']; decide, htrim, hread, by simp,
      List.all_eq_true.1 (by decide), List.all_eq_true.1 (by decide), by decide⟩
  have h' := (read_eq_filter_iff "a || '|' |\tup").2 _ hfilter
  rw [htrim] at h
  rw [htrim'] at h'
  refine ⟨hread, fun hlone => ?_, hfilter, h'.1.1 ⟨_, _, rfl⟩⟩
  obtain ⟨inner, name, heq⟩ := h.1.2 hlone
  cases heq

end Expr
end Stencil
