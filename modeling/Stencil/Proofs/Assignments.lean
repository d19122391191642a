import Stencil.Proofs.Edges

/-!
# Refused assignments

An assignment, an increment or a decrement next to expressions is refused under its own name. The
search reports the first operator that it finds, so it has to pass the expression on the left
without a hit. Behind it stands a character that makes no longer operator with an equals sign, and
the expression on the right does not start with one, so that the sign is not taken for a comparison.
-/

namespace Stencil

namespace ForbiddenOp

variable {c : Char} {cs rest blanks : List Char} {previous : Option Char}

/-- A character that belongs to no operator: white space, or one that an expression ends with. -/
def isApart (c : Char) : Bool := Token.isFinal c || Text.isWhite c

theorem isApart_ne {d : Char} (hc : isApart c = true) (hd : isApart d = false) : c ≠ d := by
  rintro rfl
  rw [hd] at hc
  cases hc

theorem isWatched_of_isApart (hc : isApart c = true) : isWatched c = false := by
  simp only [isWatched, Bool.or_eq_false_iff, beq_eq_false_iff_ne]
  exact ⟨⟨isApart_ne hc (by decide), isApart_ne hc (by decide)⟩, isApart_ne hc (by decide)⟩

/-- The search goes on behind white space, with such a character before it. -/
theorem exists_search_white (hc : isApart c = true) (hblanks : ∀ b ∈ blanks, Text.isWhite b = true)
    (rest : List Char) : ∃ d, isApart d = true ∧
      search (.code (some c)) (blanks ++ rest) = search (.code (some d)) rest := by
  induction blanks generalizing c with
  | nil => exact ⟨c, hc, rfl⟩
  | cons b blanks ih =>
    rw [List.forall_mem_cons] at hblanks
    have hb : isApart b = true := by simp [isApart, hblanks.1]
    obtain ⟨d, hd, hsearch⟩ := ih hb hblanks.2
    refine ⟨d, hd, ?_⟩
    have hquote : ¬(b = '"' ∨ b = '\'') := by
      rintro (rfl | rfl) <;> exact absurd hblanks.1 (by decide)
    rw [List.cons_append, search_eq_or, look?_eq_none (isWatched_of_isApart hb), Option.none_or,
      ← hsearch, Mode.next, if_neg hquote, if_neg (isApart_ne hb (by decide))]

/-- Behind an expression and white space stands a character of no operator. -/
theorem exists_search_behind {ts : List Token} {e : Expr} (h : Expr.IsRead cs ts e)
    (hblanks : ∀ b ∈ blanks, Text.isWhite b = true) (rest : List Char) :
    ∃ c, isApart c = true ∧ find? (cs ++ (blanks ++ rest)) = search (.code (some c)) rest := by
  obtain ⟨c, hfinal, hsearch⟩ := h.search_append none (blanks ++ rest)
  have hc : isApart c = true := by simp [isApart, hfinal]
  obtain ⟨d, hd, hwhite⟩ := exists_search_white hc hblanks rest
  exact ⟨d, hd, hsearch.trans hwhite⟩

/-- An equals sign that no other one follows is an assignment, except after `!`, `<` and `>`. -/
theorem examine_equals (hc : c ≠ '!' ∧ c ≠ '<' ∧ c ≠ '>') (hrest : ∀ d ∈ rest.head?, d ≠ '=') :
    examine (some c) '=' rest = .error (ofAssignment (some c)) := by
  have hnext : rest.head? ≠ some '=' := fun h => hrest '=' h rfl
  simp [examine, isComparison, hnext, hc]

theorem search_assign (hc : isApart c = true) (hrest : ∀ d ∈ rest.head?, d ≠ '=') :
    search (.code (some c)) ('=' :: rest) = some .assign := by
  have hcombined : isCombined c = false := by
    simp only [isCombined, Bool.or_eq_false_iff, beq_eq_false_iff_ne]
    refine ⟨⟨⟨⟨⟨⟨⟨?_, ?_⟩, ?_⟩, ?_⟩, ?_⟩, ?_⟩, ?_⟩, ?_⟩ <;> exact isApart_ne hc (by decide)
  have hcompared : c ≠ '!' ∧ c ≠ '<' ∧ c ≠ '>' :=
    ⟨isApart_ne hc (by decide), isApart_ne hc (by decide), isApart_ne hc (by decide)⟩
  rw [search, examine_equals hcompared hrest, ofAssignment, hcombined]
  rfl

theorem search_assignWith (hc : isCombined c = true) (hrest : ∀ d ∈ rest.head?, d ≠ '=')
    (previous : Option Char) :
    search (.code previous) (c :: '=' :: rest) = some (.assignWith c) := by
  -- the sign is passed, and then it stands before the equals sign that is refused
  have hfirst : examine previous c ('=' :: rest) = .ok (.code (some c)) := by
    simp only [isCombined, Bool.or_eq_true, beq_iff_eq] at hc
    rcases hc with ((((((rfl | rfl) | rfl) | rfl) | rfl) | rfl) | rfl) | rfl <;> rfl
  have hcompared : c ≠ '!' ∧ c ≠ '<' ∧ c ≠ '>' := by
    refine ⟨?_, ?_, ?_⟩ <;> rintro rfl <;> revert hc <;> decide
  rw [search, hfirst]
  dsimp only
  rw [search, examine_equals hcompared hrest, ofAssignment, if_pos hc]

/-- The operators that assign, alone or combined. -/
def Assigns : ForbiddenOp → Prop
  | .assign => True
  | .assignWith c => isCombined c = true
  | .increment | .decrement => False

theorem search_of_assigns {op : ForbiddenOp} (hop : op.Assigns) (hc : isApart c = true)
    (hrest : ∀ d ∈ rest.head?, d ≠ '=') :
    search (.code (some c)) (op.symbol.toList ++ rest) = some op := by
  cases op with
  | assign => exact search_assign hc hrest
  | assignWith d =>
    rw [symbol, String.toList_ofList]
    exact search_assignWith hop hrest _
  | increment | decrement => exact hop.elim

theorem search_double (c : Char) (hc : isSign c = true) (rest : List Char)
    (previous : Option Char) :
    search (.code previous) (c :: c :: rest) = some (ofDouble c) := by
  simp only [isSign, Bool.or_eq_true, beq_iff_eq] at hc
  rcases hc with rfl | rfl <;> simp [search, examine, ofDouble]

end ForbiddenOp

namespace Expr

/-- What the search finds in a trimmed text is the error. -/
theorem read_of_find? {text : String} {op : ForbiddenOp} (htrimmed : Text.Trimmed text.toList)
    (hfind : ForbiddenOp.find? text.toList = some op) :
    read text = .error (.forbidden op text) := by
  rw [read, htrimmed.trimChars_eq, readChars, if_neg (by simpa using htrimmed.ne_nil), hfind]
  simp

/-- Neither white space nor the expression after it starts with an equals sign. -/
theorem IsRead.head_white_ne {cs blanks : List Char} {ts : List Token} {e : Expr}
    (h : IsRead cs ts e) (hblanks : ∀ b ∈ blanks, Text.isWhite b = true) :
    ∀ c ∈ (blanks ++ cs).head?, c ≠ '=' := by
  cases blanks with
  | nil => exact h.head_ne
  | cons b blanks =>
    rintro c ⟨⟩ rfl
    exact absurd (hblanks '=' (by simp)) (by decide)

theorem exists_assigns {o : String}
    (ho : o ∈ ["=", "+=", "-=", "*=", "/=", "%=", "&=", "|=", "^="]) :
    ∃ op : ForbiddenOp, op.Assigns ∧ op.symbol = o := by
  simp only [List.mem_cons, List.not_mem_nil, or_false] at ho
  rcases ho with rfl | rfl | rfl | rfl | rfl | rfl | rfl | rfl | rfl
  · exact ⟨.assign, trivial, rfl⟩
  · exact ⟨.assignWith '+', rfl, rfl⟩
  · exact ⟨.assignWith '-', rfl, rfl⟩
  · exact ⟨.assignWith '*', rfl, rfl⟩
  · exact ⟨.assignWith '/', rfl, rfl⟩
  · exact ⟨.assignWith '%', rfl, rfl⟩
  · exact ⟨.assignWith '&', rfl, rfl⟩
  · exact ⟨.assignWith '|', rfl, rfl⟩
  · exact ⟨.assignWith '^', rfl, rfl⟩

theorem exists_double {o : String} (ho : o ∈ ["++", "--"]) :
    ∃ c, ForbiddenOp.isSign c = true ∧ o.toList = [c, c] ∧ Text.Trimmed o.toList ∧
      (ForbiddenOp.ofDouble c).symbol = o := by
  simp only [List.mem_cons, List.not_mem_nil, or_false] at ho
  rcases ho with rfl | rfl
  · exact ⟨'+', rfl, rfl, .of_forall (by decide) (List.all_iff_forall_prop.1 (by decide)), rfl⟩
  · exact ⟨'-', rfl, rfl, .of_forall (by decide) (List.all_iff_forall_prop.1 (by decide)), rfl⟩

/-- An assignment between two expressions is refused under its own name and with the whole text, and
so are increments and decrements before and after an expression, whatever white space stands between
them. -/
theorem read_mutation_eq_forbidden (left right white white' : String) (e f : Expr)
    (hleft : Text.trim left = left) (he : read left = .ok e)
    (hright : Text.trim right = right) (hf : read right = .ok f)
    (hwhite : ∀ b ∈ white.toList, Text.isWhite b = true)
    (hwhite' : ∀ b ∈ white'.toList, Text.isWhite b = true) :
    (∀ o ∈ ["=", "+=", "-=", "*=", "/=", "%=", "&=", "|=", "^="], ∃ op : ForbiddenOp,
      op.symbol = o ∧ read (left ++ white ++ o ++ white' ++ right) =
        .error (.forbidden op (left ++ white ++ o ++ white' ++ right))) ∧
    ∀ o ∈ ["++", "--"], ∃ op : ForbiddenOp, op.symbol = o ∧
      read (left ++ white ++ o) = .error (.forbidden op (left ++ white ++ o)) ∧
      read (o ++ white ++ left) = .error (.forbidden op (o ++ white ++ left)) := by
  obtain ⟨ts, hleft⟩ := exists_isRead hleft he
  obtain ⟨us, hright⟩ := exists_isRead hright hf
  refine ⟨fun o ho => ?_, fun o ho => ?_⟩
  · obtain ⟨op, hop, rfl⟩ := exists_assigns ho
    refine ⟨op, rfl, read_of_find? ?_ ?_⟩
    · simpa using hleft.trimmed.append (white.toList ++ op.symbol.toList ++ white'.toList)
        hright.trimmed
    · have hrest := hright.head_white_ne hwhite'
      obtain ⟨c, hc, hfind⟩ := ForbiddenOp.exists_search_behind hleft hwhite
        (op.symbol.toList ++ (white'.toList ++ right.toList))
      rw [ForbiddenOp.search_of_assigns hop hc hrest] at hfind
      simpa using hfind
  · obtain ⟨c, hsign, hchars, htrimmed, hsymbol⟩ := exists_double ho
    refine ⟨.ofDouble c, hsymbol, read_of_find? ?_ ?_, read_of_find? ?_ ?_⟩
    · simpa using hleft.trimmed.append white.toList htrimmed
    · obtain ⟨d, -, hfind⟩ := ForbiddenOp.exists_search_behind hleft hwhite o.toList
      rw [hchars, ForbiddenOp.search_double c hsign] at hfind
      simpa [hchars] using hfind
    · simpa using htrimmed.append white.toList hleft.trimmed
    · simpa [hchars, ForbiddenOp.find?] using
        ForbiddenOp.search_double c hsign (white.toList ++ left.toList) none

theorem read_mutation_eq_forbidden_quoted :
    read "a['+='] !== 'b--'" = .ok (.binary .strictNe
      (.index (.scope "a") (.literal (.string "+="))) (.literal (.string "b--"))) ∧
    read "-c | up" = .ok (.filter (.unary .neg (.scope "c")) "up") ∧
    (∃ op : ForbiddenOp, op.symbol = "|=" ∧ read "a['+='] !== 'b--'\t|=-c | up" =
      .error (.forbidden op "a['+='] !== 'b--'\t|=-c | up")) ∧
    ∃ op : ForbiddenOp, op.symbol = "--" ∧
      read "a['+='] !== 'b--'\t--" = .error (.forbidden op "a['+='] !== 'b--'\t--") ∧
      read "--\ta['+='] !== 'b--'" = .error (.forbidden op "--\ta['+='] !== 'b--'") := by
  have hleft : read "a['+='] !== 'b--'" = .ok (.binary .strictNe
      (.index (.scope "a") (.literal (.string "+="))) (.literal (.string "b--"))) := by
    with_unfolding_all rfl
  have hright : read "-c | up" = .ok (.filter (.unary .neg (.scope "c")) "up") := by
    with_unfolding_all rfl
  have h := read_mutation_eq_forbidden _ _ "\t" "" _ _ (by decide) hleft (by decide) hright
    (List.all_eq_true.1 (by decide)) (by simp)
  exact ⟨hleft, hright, h.1 "|=" (by decide), h.2 "--" (by decide)⟩

end Expr
end Stencil
