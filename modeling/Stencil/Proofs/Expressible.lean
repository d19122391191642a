import Stencil.Proofs.Machine
import Stencil.Proofs.RoundTrip

/-!
# Every plain tree can be written

Written code cannot express every tree: it escapes some characters in a way that reading does not
undo, and it looks names up in a scope object. A source text can. Any text is a string once its
backslashes and quotes are protected, and a part that does not fit its place is bracketed, so that
each plain tree, alone or under one filter, is what some text is read as. Together with what reading
gives, these are exactly the trees that reading can give.
-/

namespace Stencil

namespace Text.Quoted

/-- The text between quotes, with a backslash before every backslash and every quote. -/
def protect (quote : Char) (cs : List Char) : List Char :=
  cs.flatMap fun c => if c = '\\' ∨ c = quote then ['\\', c] else [c]

/-- Protected text is read back as it was, whatever it holds. -/
theorem readBody_protect {quote : Char} (hquote : quote = '"' ∨ quote = '\'')
    (cs rest : List Char) :
    readBody quote (protect quote cs ++ quote :: rest) = some (cs, rest) := by
  have hslash : quote ≠ '\\' := by rcases hquote with rfl | rfl <;> decide
  induction cs with
  | nil => rw [protect, List.flatMap_nil, List.nil_append, readBody_cons hslash, if_pos rfl]
  | cons c cs ih =>
    rw [protect] at ih
    rw [protect, List.flatMap_cons, List.append_assoc]
    split
    · rename_i hc
      have hunescape : unescape c = c := by
        rcases hc with rfl | rfl
        · rfl
        · rcases hquote with rfl | rfl <;> rfl
      rw [List.cons_append, List.singleton_append, readBody, ih, hunescape]
      rfl
    · rename_i hc
      rw [not_or] at hc
      rw [List.singleton_append, readBody_cons hc.1, if_neg hc.2, ih]
      rfl

end Text.Quoted

theorem Codes.protected {quote : Char} (hquote : quote = '"' ∨ quote = '\'') (value : String) :
    Codes 9 true false (quote :: (Text.Quoted.protect quote value.toList ++ [quote]))
      (.literal (.string value)) [.string value] := by
  have hcodes := quotation hquote (Text.Quoted.readBody_protect hquote value.toList [])
  rwa [String.ofList_toList] at hcodes

namespace Expr

/-- The tree can be written so that it may stand anywhere. -/
def Writable (e : Expr) : Prop :=
  ∃ cs ts, Codes 9 true false cs e ts

variable {e : Expr}

theorem writable_of_codes {level : Nat} {dotted signed : Bool} {cs : List Char} {ts : List Token}
    (h : Codes level dotted signed cs e ts) : e.Writable :=
  ⟨_, _, h.paren⟩

theorem writable_literal {value : Literal} (h : (literal value).Plain) :
    (literal value).Writable := by
  cases value with
  | number value =>
    cases value with
    | finite negative m =>
      cases negative with
      | false =>
        obtain ⟨ts, hnumber⟩ := Codes.number m
        exact writable_of_codes hnumber
      | true => cases h
    | nan | infinite => cases h
  | string value => exact ⟨_, _, Codes.protected (.inl rfl) value⟩
  | bool value =>
    cases value with
    | false => exact ⟨_, _, Codes.word "false" (by decide)⟩
    | true => exact ⟨_, _, Codes.word "true" (by decide)⟩
  | null => exact ⟨_, _, Codes.word "null" (by decide)⟩
  | undefined => exact ⟨_, _, Codes.word "undefined" (by decide)⟩

theorem writable_scope {name : String} (h : Token.isLookup name = true) :
    (scope name).Writable := by
  have hword := Codes.word name (Bool.and_eq_true_iff.1 h).1
  rw [ofWord_eq_scope h] at hword
  exact ⟨_, _, hword⟩

/-- By induction on the tree; where a part would not fit its place, it is bracketed. -/
theorem Plain.writable (h : e.Plain) : e.Writable := by
  induction e with
  | literal value => exact writable_literal h
  | scope name => exact writable_scope h
  | member object property ih =>
    rw [Plain, all, Bool.and_eq_true] at h
    obtain ⟨cs, ts, hobject⟩ := ih h.2
    exact ⟨_, _, hobject.member h.1⟩
  | index object key ihobject ihkey =>
    simp only [Plain, all, Bool.and_eq_true] at h
    obtain ⟨cs, ts, hobject⟩ := ihobject h.1.2
    obtain ⟨ds, us, hkey⟩ := ihkey h.2
    exact ⟨_, _, hobject.index hkey⟩
  | unary op operand ih =>
    rw [Plain, all, Bool.and_eq_true] at h
    obtain ⟨cs, ts, hoperand⟩ := ih h.2
    have hoperand : Codes 8 true false cs operand ts := hoperand.relax (by decide) id id
    obtain ⟨t, -, hunary⟩ := hoperand.unary op
    exact writable_of_codes hunary
  | binary op left right ihleft ihright =>
    simp only [Plain, all, Bool.and_eq_true] at h
    have hbounds := op.level_bounds
    obtain ⟨cs, ts, hleft⟩ := ihleft h.1.2
    obtain ⟨ds, us, hright⟩ := ihright h.2
    have hleft : Codes op.level true false cs left ts := hleft.relax (by omega) id id
    have hright : Codes (op.level + 1) true false ds right us := hright.relax (by omega) id id
    exact writable_of_codes (Codes.binary op hleft hright)
  | conditional test consequent alternate ihtest ihconsequent ihalternate =>
    simp only [Plain, all, Bool.and_eq_true] at h
    obtain ⟨cs, ts, htest⟩ := ihtest h.1.1.2
    obtain ⟨ds, us, hconsequent⟩ := ihconsequent h.1.2
    obtain ⟨ds', vs, halternate⟩ := ihalternate h.2
    have htest : Codes 2 true false cs test ts := htest.relax (by decide) id id
    have hconsequent : Codes 1 true false ds consequent us := hconsequent.relax (by decide) id id
    have halternate : Codes 1 true false ds' alternate vs := halternate.relax (by decide) id id
    exact writable_of_codes (Codes.conditional htest hconsequent halternate)
  | filter expression name ih =>
    rw [Plain, all, Bool.and_eq_true] at h
    cases h.1
  | concat parts ih =>
    rw [Plain, all, Bool.and_eq_true] at h
    cases h.1

/-- A text that is written token by token is read as what its tokens are derived as. -/
theorem read_of_prints {dotted : Bool} {cs : List Char} {ts : List Token}
    (h : Prints dotted cs ts) (he : Parser.IsInput ts e) : read (String.ofList cs) = .ok e := by
  have hwritten := h.whole
  have hoverflow : ts.findSome? overflow? = none := List.findSome?_eq_none_iff.2 h.inRange
  rw [read, String.toList_ofList, h.trimmed.trimChars_eq, readChars,
    if_neg (by simpa using h.trimmed.ne_nil), ForbiddenOp.find?_of_written hwritten,
    Token.lex_of_written hwritten]
  simp only [he.parse_eq, hoverflow]

/-- Every text can be written as a string with either quote: protected and between the quotes, it is
read as it was. -/
theorem read_protect (quote : Char) (hquote : quote = '"' ∨ quote = '\'') (text : String) :
    read (String.ofList (quote :: (Text.Quoted.protect quote text.toList ++ [quote]))) =
      .ok (.literal (.string text)) := by
  have hcodes := Codes.protected hquote text
  exact read_of_prints hcodes.prints (.plain hcodes.stands.isExpr)

/-- Blanks at the ends, both quotes, backslashes before them, a line feed, forbidden operators, a
filter and a character outside ASCII. -/
def awkwardText : String := " \\\"'\\\\\n++ = |é "

theorem read_protect_awkward :
    read "\" \\\\\\\"'\\\\\\\\\n++ = |é \"" = .ok (.literal (.string awkwardText)) ∧
    read "' \\\\\"\\'\\\\\\\\\n++ = |é '" = .ok (.literal (.string awkwardText)) :=
  ⟨read_protect '"' (.inl rfl) awkwardText, read_protect '\'' (.inr rfl) awkwardText⟩

theorem Readable.exists_read (h : e.Readable) : ∃ text, read text = .ok e := by
  cases h with
  | plain he =>
    obtain ⟨cs, ts, hcodes⟩ := he.writable
    exact ⟨_, read_of_prints hcodes.prints (.plain hcodes.stands.isExpr)⟩
  | @filter e name he hname =>
    obtain ⟨cs, ts, hcodes⟩ := he.writable
    have hpipe : Prints true "|".toList [.pipe] := Prints.fixed rfl
    have hword : Prints true name.toList [.word name] := Prints.word hname
    have hprints := hcodes.prints.spaced (hpipe.spaced hword)
    exact ⟨_, read_of_prints hprints (.filter name hcodes.stands.isExpr)⟩

/-- The trees that reading can give are the plain trees and single filters on plain trees. -/
theorem exists_read_iff (e : Expr) : (∃ text, read text = .ok e) ↔ e.Readable := by
  constructor
  · rintro ⟨text, h⟩
    exact readable_of_read h
  · exact Readable.exists_read

end Expr
end Stencil
