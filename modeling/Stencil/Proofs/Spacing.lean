import Stencil.Proofs.Boundaries

/-!
# Blanks between tokens

The words of an expression may be set apart by any blanks: how many there are and which ones changes
neither the tree nor the kind of the error. Between blanks no word runs into the next one, so all
such texts are split into the same tokens, and only these decide about what is read.
-/

namespace Stencil

/-- What is wrong with an expression, without the texts that say where. -/
inductive ExpressionError.Kind where
  | empty
  | forbidden
  | malformed
  | overflow
deriving DecidableEq, Repr

def ExpressionError.kind : ExpressionError → Kind
  | .empty => .empty
  | .forbidden .. => .forbidden
  | .malformed .. => .malformed
  | .overflow _ => .overflow

/-- The words in this order, with at least one blank between each two of them. -/
inductive Spaced : List String → String → Prop
  | nil : Spaced [] ""
  | single (word : String) : Spaced [word] word
  | cons {next rest : String} {words : List String} (word gap : String) : gap ≠ "" →
      (∀ b ∈ gap.toList, Text.isGap b = true) → Spaced (next :: words) rest →
      Spaced (word :: next :: words) (word ++ gap ++ rest)

namespace Token

variable {t : Token} {ts : List Token}

theorem isExtendedBy_of_isGap {b : Char} (hb : Text.isGap b = true) : t.isExtendedBy b = false := by
  refine forall_isGap (P := fun c => t.isExtendedBy c = false) ?_ b hb
  cases t with
  | op operator => cases operator <;> decide
  | word | number | string => exact ⟨rfl, rfl, rfl, rfl⟩
  | _ => decide

theorem written_blanks {blanks cs : List Char} (hblanks : ∀ b ∈ blanks, Text.isGap b = true)
    (h : Written cs ts) : Written (blanks ++ cs) ts := by
  induction blanks with
  | nil => exact h
  | cons b blanks ih =>
    rw [List.forall_mem_cons] at hblanks
    exact .blank hblanks.1 (ih hblanks.2)

/-- The words are the same tokens in all texts that they make. -/
theorem exists_written {words : List String}
    (hwords : ∀ word ∈ words, ∃ t, Spells t word.toList) :
    ∃ ts, ∀ text, Spaced words text → Written text.toList ts := by
  induction words with
  | nil =>
    refine ⟨[], fun text h => ?_⟩
    cases h
    exact .nil
  | cons word words ih =>
    rw [List.forall_mem_cons] at hwords
    obtain ⟨⟨t, ht⟩, hwords⟩ := hwords
    obtain ⟨ts, hts⟩ := ih hwords
    refine ⟨t :: ts, fun text h => ?_⟩
    cases h with
    | single =>
      have hword := Written.token ht (by simp) (hts "" .nil)
      simpa using hword
    | cons _ gap hne hgap hrest =>
      rw [String.toList_append, String.toList_append, List.append_assoc]
      refine .token ht (fun c hc => isExtendedBy_of_isGap (hgap c ?_))
        (written_blanks hgap (hts _ hrest))
      rw [List.head?_append_of_ne_nil _ (by simpa using hne)] at hc
      exact List.mem_of_mem_head? hc

end Token

theorem Spaced.trimmed {words : List String} {text : String} (h : Spaced words text)
    (hwords : ∀ word ∈ words, ∃ t, Token.Spells t word.toList) (hne : words ≠ []) :
    Text.Trimmed text.toList := by
  induction h with
  | nil => exact absurd rfl hne
  | single word =>
    obtain ⟨t, ht⟩ := hwords word (by simp)
    exact ht.trimmed
  | cons word gap _ _ _ ih =>
    rw [List.forall_mem_cons] at hwords
    obtain ⟨⟨t, ht⟩, hwords⟩ := hwords
    rw [String.toList_append, String.toList_append]
    exact ht.trimmed.append gap.toList (ih hwords (by simp))

namespace Expr

/-- The tree of the tokens, or what is wrong with them. -/
def ofTokens (ts : List Token) : Except ExpressionError.Kind Expr :=
  match Parser.parse ts, ts.findSome? overflow? with
  | none, _ => .error .malformed
  | some _, some _ => .error .overflow
  | some e, none => .ok e

theorem ofTokens_ne_forbidden (ts : List Token) : ofTokens ts ≠ .error .forbidden := by
  unfold ofTokens
  split <;> simp

/-- What is read from written tokens depends on the tokens only. -/
theorem mapError_read_of_written {text : String} {ts : List Token}
    (htrimmed : Text.Trimmed text.toList) (h : Token.Written text.toList ts) :
    (read text).mapError ExpressionError.kind = ofTokens ts := by
  rw [read, htrimmed.trimChars_eq, readChars, if_neg (by simpa using htrimmed.ne_nil),
    ForbiddenOp.find?_of_written h, Token.lex_of_written h, ofTokens]
  dsimp only
  cases Parser.parse ts with
  | none => rfl
  | some e => cases ts.findSome? overflow? <;> rfl

/-- Two texts that set the same words apart by blanks are read as the same tree, or have the same
thing wrong with them, which is never a forbidden operator. -/
theorem mapError_read_spaced (words : List String) (text text' : String)
    (hwords : ∀ word ∈ words, ∃ t, Token.Spells t word.toList) (h : Spaced words text)
    (h' : Spaced words text') :
    (read text).mapError ExpressionError.kind = (read text').mapError ExpressionError.kind ∧
      (read text).mapError ExpressionError.kind ≠ .error .forbidden := by
  -- the empty text is no text of tokens: it has an error of its own
  by_cases hne : words = []
  · subst hne
    cases h
    cases h'
    have hempty : read "" = .error .empty := rfl
    rw [hempty]
    exact ⟨rfl, by rintro ⟨⟩⟩
  · obtain ⟨ts, hts⟩ := Token.exists_written hwords
    rw [mapError_read_of_written (h.trimmed hwords hne) (hts text h),
      mapError_read_of_written (h'.trimmed hwords hne) (hts text' h')]
    exact ⟨rfl, ofTokens_ne_forbidden ts⟩

theorem mapError_read_spaced_signs :
    Spaced ["a", "+", "+", ".5"] "a + +\t.5" ∧ Spaced ["a", "+", "+", ".5"] "a\n+ \r+ .5" ∧
    (read "a + +\t.5").mapError ExpressionError.kind =
      (read "a\n+ \r+ .5").mapError ExpressionError.kind ∧
    (read "a + +\t.5").mapError ExpressionError.kind ≠ .error .forbidden := by
  have hwords : ∀ word ∈ ["a", "+", "+", ".5"], ∃ t, Token.Spells t word.toList := by
    have hplus : ∃ t, Token.Spells t "+".toList := ⟨.op .add, .fixed rfl⟩
    simp only [List.forall_mem_cons, List.not_mem_nil, false_implies, implies_true, and_true]
    exact ⟨⟨_, .word (by decide)⟩, hplus, hplus, ⟨_, .number (n := ⟨[], ['5'], none⟩)
      ⟨by simp, List.all_eq_true.1 (by decide), .inr (by decide), by simp⟩⟩⟩
  have hgap (gap : String) (h : gap.toList.all Text.isGap = true) :
      ∀ b ∈ gap.toList, Text.isGap b = true := List.all_eq_true.1 h
  have h : Spaced ["a", "+", "+", ".5"] "a + +\t.5" :=
    .cons "a" " " (by decide) (hgap " " rfl) <| .cons "+" " " (by decide) (hgap " " rfl) <|
      .cons "+" "\t" (by decide) (hgap "\t" rfl) (.single ".5")
  have h' : Spaced ["a", "+", "+", ".5"] "a\n+ \r+ .5" :=
    .cons "a" "\n" (by decide) (hgap "\n" rfl) <| .cons "+" " \r" (by decide) (hgap " \r" rfl) <|
      .cons "+" " " (by decide) (hgap " " rfl) (.single ".5")
  exact ⟨h, h', mapError_read_spaced _ _ _ hwords h h'⟩

end Expr
end Stencil
