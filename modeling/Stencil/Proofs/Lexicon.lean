import Stencil.Proofs.Lexing
import Stencil.Proofs.Recognizer

/-!
# Words, numerals and quotations of the grammar

The rules of the grammar that allow no blanks take exactly what the reader of tokens takes: ordered
choice and greed find the longest name, numeral or quotation at the front, and fail where the reader
does.
-/

namespace Stencil

/-- A text that starts otherwise does not start with `front`. -/
theorem Text.after?_of_head {c : Char} {front cs : List Char} (h : ∀ d ∈ cs.head?, d ≠ c) :
    after? (c :: front) cs = none := by
  cases cs with
  | nil => rfl
  | cons d cs => rw [after?, if_neg (h d rfl).symm]

theorem Text.ne_of_mem_head? {c : Char} {cs : List Char} (h : ∀ tail, cs = c :: tail → False) :
    ∀ d ∈ cs.head?, d ≠ c :=
  fun _ hd heq => h _ (heq ▸ List.eq_cons_of_mem_head? hd)

theorem Numeral.readFraction_of_isEmpty {cs : List Char} (h : (readFraction cs).1.isEmpty = true) :
    readFraction cs = ([], cs) := by
  unfold readFraction at h ⊢
  split
  · split
    · rfl
    · rename_i hdigits
      simp only [List.isEmpty_iff] at h
      exact absurd h hdigits
  · rfl

namespace Token

theorem isDigit_of_read?_point {rest : List Char} (h : Numeral.read? ('.' :: rest) = none) :
    ∀ c ∈ rest.head?, c.isDigit = false := by
  intro c hc
  by_contra hdigit
  rw [List.eq_cons_of_mem_head? hc] at h
  simp [Numeral.read?, Numeral.readFraction, Bool.of_not_eq_false hdigit] at h

/-- An operator or bracket that is read stands at the front, and is not a part of another token. -/
theorem exists_fixed_of_symbol? {cs rest : List Char} {t : Token}
    (h : symbol? cs = some (t, rest)) (hread : Numeral.read? cs = none) :
    ∃ s, t.fixed? = some s ∧ cs = s.toList ++ rest ∧
      ∀ c ∈ rest.head?, t.isJoinedBy c = false := by
  unfold symbol? at h
  split at h
  all_goals cases h
  all_goals refine ⟨_, rfl, rfl, ?_⟩
  all_goals simp_all [isJoinedBy]
  all_goals first | exact Text.ne_of_mem_head? ‹_› | exact isDigit_of_read?_point ‹_›

theorem ne_of_isNameStart {c d : Char} (hc : isNameStart c = true) (hd : isNameStart d = false) :
    c ≠ d := by
  rintro rfl
  rw [hd] at hc
  cases hc

theorem isDigit_of_isNameStart {c : Char} (h : isNameStart c = true) : c.isDigit = false := by
  by_contra hdigit
  rw [isNameStart_of_isDigit (Bool.of_not_eq_false hdigit)] at h
  cases h

/-- What stands at the front of a text before `rest`, and the token that it is read as. -/
inductive Front : List Char → Token → List Char → Prop
  | word {c : Char} {cs : List Char} : isNameStart c = true →
      Front (c :: cs) (.word (String.ofList (c :: cs.takeWhile isNameChar)))
        (cs.dropWhile isNameChar)
  | string {quote : Char} {cs text rest : List Char} : quote = '"' ∨ quote = '\'' →
      Text.Quoted.readBody quote cs = some (text, rest) →
      Front (quote :: cs) (.string (String.ofList text)) rest
  | number {cs rest : List Char} {n : Numeral} : Numeral.read? cs = some (n, rest) →
      Front cs (.number n) rest
  | fixed {t : Token} {s : String} {rest : List Char} : t.fixed? = some s →
      Numeral.read? (s.toList ++ rest) = none → (∀ c ∈ rest.head?, t.isJoinedBy c = false) →
      Front (s.toList ++ rest) t rest

/-- The characters that only operators and brackets start with. -/
def isMark (c : Char) : Bool :=
  !(isNameStart c || c.isDigit || c == '"' || c == '\'' || c == '.')

/-- A mark stands at the front of a text only as the start of an operator or a bracket. -/
theorem Front.head_ne {cs rest : List Char} {t : Token} {d : Char} (h : Front cs t rest)
    (hd : isMark d = true) (ht : ∀ s ∈ t.fixed?, s.toList.head? ≠ some d) :
    ∀ c ∈ cs.head?, c ≠ d := by
  simp only [isMark, Bool.not_eq_true', Bool.or_eq_false_iff, beq_eq_false_iff_ne] at hd
  obtain ⟨⟨⟨⟨hstart, hdigit⟩, hdouble⟩, hsingle⟩, hdot⟩ := hd
  rintro c hc rfl
  cases h with
  | word hword =>
    cases hc
    exact ne_of_isNameStart hword hstart rfl
  | string hquote =>
    cases hc
    rcases hquote with rfl | rfl <;> contradiction
  | number hread =>
    rw [List.eq_cons_of_mem_head? hc, read?_eq_none hdigit hdot] at hread
    cases hread
  | @fixed _ s _ hs =>
    obtain ⟨e, es, hes, -⟩ := exists_cons_of_fixed hs
    rw [hes] at hc
    exact ht s hs (by rw [hes]; exact hc)

theorem Front.eq_of_fixed {cs rest : List Char} {t : Token} {s : String} (h : Front cs t rest)
    (ht : t.fixed? = some s) :
    cs = s.toList ++ rest ∧ ∀ c ∈ rest.head?, t.isJoinedBy c = false := by
  cases h with
  | word | string | number => cases ht
  | fixed hs _ hjoin =>
    cases hs.symm.trans ht
    exact ⟨rfl, hjoin⟩

theorem front_of_next? {cs rest : List Char} {t : Token} (h : next? cs = some (t, rest)) :
    Front cs t rest := by
  cases cs with
  | nil => cases h
  | cons c cs =>
    rw [next?] at h
    split at h
    · rename_i hstart
      cases h
      exact .word hstart
    · split at h
      · rename_i hquote
        obtain ⟨⟨text, after⟩, hbody, heq⟩ := Option.map_eq_some_iff.1 h
        cases heq
        exact .string hquote hbody
      · split at h
        · rename_i hread
          cases h
          exact .number hread
        · rename_i hread
          obtain ⟨s, hs, hcs, hjoin⟩ := exists_fixed_of_symbol? h hread
          rw [hcs] at hread ⊢
          exact .fixed hs hread hjoin

theorem exists_next?_of_lex {cs : List Char} {t : Token} {ts : List Token}
    (h : lex cs = some (t :: ts)) :
    ∃ rest, next? (cs.dropWhile Text.isGap) = some (t, rest) ∧ lex rest = some ts := by
  rw [lex_eq] at h
  split at h
  · cases h
  · rename_i c cs' hcs
    obtain ⟨⟨t', rest⟩, hnext, hlex⟩ := Option.bind_eq_some_iff.1 h
    obtain ⟨ts', hts, heq⟩ := Option.map_eq_some_iff.1 hlex
    cases heq
    rw [hcs]
    exact ⟨rest, hnext, hts⟩

/-- A text with a token has it at the front, after blanks, and the other tokens behind it. -/
theorem exists_front_of_lex {cs : List Char} {t : Token} {ts : List Token}
    (h : lex cs = some (t :: ts)) :
    ∃ rest, Front (cs.dropWhile Text.isGap) t rest ∧ lex rest = some ts := by
  obtain ⟨rest, hnext, hrest⟩ := exists_next?_of_lex h
  exact ⟨rest, front_of_next? hnext, hrest⟩

theorem length_lex_le {cs : List Char} {ts : List Token} (h : lex cs = some ts) :
    ts.length ≤ cs.length := by
  induction ts generalizing cs with
  | nil => exact Nat.zero_le _
  | cons t ts ih =>
    obtain ⟨rest, hnext, hrest⟩ := exists_next?_of_lex h
    have hlt := length_next?_lt hnext
    have hdrop := (List.dropWhile_sublist Text.isGap (l := cs)).length_le
    have hle := ih hrest
    rw [List.length_cons]
    omega

theorem dropWhile_of_lex_nil {cs : List Char} (h : lex cs = some []) :
    cs.dropWhile Text.isGap = [] := by
  rw [lex_eq] at h
  split at h
  · assumption
  · obtain ⟨⟨t, rest⟩, -, hlex⟩ := Option.bind_eq_some_iff.1 h
    obtain ⟨ts, -, heq⟩ := Option.map_eq_some_iff.1 hlex
    cases heq

/-- Blanks at the front play no part. -/
theorem lex_congr {cs ds : List Char} (h : cs.dropWhile Text.isGap = ds.dropWhile Text.isGap) :
    lex cs = lex ds := by
  rw [lex_eq, lex_eq ds, h]

end Token

namespace Grammar

variable {depth : Nat} {cs rest : List Char}

namespace Pattern

variable {p q : Pattern}

theorem rest?_seq_sealed : (seq p q).rest? depth .sealed cs =
    (p.rest? depth .sealed cs).bind (q.rest? depth .sealed) := rfl

theorem rest?_star_one (set : CharSet) :
    (star (one set)).rest? depth .sealed cs = some (cs.dropWhile set.mem) := by
  rw [rest?_star rfl (by decide)]
  congr 1
  induction cs with
  | nil => exact drain_of_none rfl
  | cons c cs ih =>
    by_cases hc : set.mem c = true
    · have hone : (one set).rest? depth .sealed (c :: cs) = some cs := by
        rw [rest?_one_cons, if_pos hc]
      rw [drain_of_some (fun _ _ => length_rest?_lt rfl) hone, ih, List.dropWhile_cons_of_pos hc]
    · have hone : (one set).rest? depth .sealed (c :: cs) = none := by
        rw [rest?_one_cons, if_neg hc]
      rw [drain_of_none hone, List.dropWhile_cons_of_neg hc]

theorem rest?_name_cons {c : Char} : name.rest? depth .sealed (c :: cs) =
    if Token.isNameStart c then some (cs.dropWhile Token.isNameChar) else none := by
  rw [name, rest?_seq_sealed, rest?_one_cons]
  change (if Token.isNameStart c then some cs else none).bind _ = _
  split
  · exact rest?_star_one .nameChar
  · rfl

theorem rest?_digits : digits.rest? depth .sealed cs =
    if (cs.takeWhile Char.isDigit).isEmpty then none else some (cs.dropWhile Char.isDigit) := by
  rw [digits, plus, rest?_seq_sealed]
  cases cs with
  | nil => rfl
  | cons c cs =>
    rw [rest?_one_cons]
    change (if c.isDigit then some cs else none).bind _ = _
    split
    · rename_i hc
      rw [Option.bind_some, rest?_star_one, List.takeWhile_cons_of_pos hc,
        List.dropWhile_cons_of_pos hc]
      rfl
    · rename_i hc
      rw [List.takeWhile_cons_of_neg hc]
      rfl

theorem rest?_point : (seq (text ".") digits).rest? depth .sealed cs =
    if (Numeral.readFraction cs).1.isEmpty then none else some (Numeral.readFraction cs).2 := by
  rw [rest?_seq_sealed, rest?_text]
  unfold Numeral.readFraction
  split
  · rename_i rest
    change digits.rest? depth .sealed rest = _
    rw [rest?_digits]
    cases rest.takeWhile Char.isDigit with
    | nil => rfl
    | cons d ds => rfl
  · rename_i hpoint
    have hafter : Text.after? ".".toList cs = none :=
      Text.after?_of_head (Text.ne_of_mem_head? hpoint)
    rw [hafter]
    rfl

theorem rest?_fraction : (optional (seq (text ".") digits)).rest? depth .sealed cs =
    some (Numeral.readFraction cs).2 := by
  rw [rest?_optional, rest?_point]
  split
  · rename_i hfraction
    rw [Numeral.readFraction_of_isEmpty hfraction]
    rfl
  · rfl

theorem rest?_sign : (optional (choice (text "+") (text "-"))).rest? depth .sealed cs =
    some (Numeral.readSign cs).2 := by
  rw [rest?_optional, rest?_choice, rest?_text, rest?_text]
  unfold Numeral.readSign
  split
  · rfl
  · rfl
  · rename_i hplus hminus
    have hafter : Text.after? "+".toList cs = none :=
      Text.after?_of_head (Text.ne_of_mem_head? hplus)
    have hafter' : Text.after? "-".toList cs = none :=
      Text.after?_of_head (Text.ne_of_mem_head? hminus)
    rw [hafter, hafter']
    rfl

theorem rest?_exponent : (optional (sequence (choice (text "e") (text "E"))
    [optional (choice (text "+") (text "-")), digits])).rest? depth .sealed cs =
      some (Numeral.readExponent cs).2 := by
  rw [rest?_optional, sequence, sequence, sequence, rest?_seq_sealed, rest?_choice, rest?_text,
    rest?_text]
  cases cs with
  | nil => rfl
  | cons mark rest =>
    rw [Numeral.readExponent]
    by_cases hmark : mark = 'e' ∨ mark = 'E'
    · rw [if_pos hmark]
      have hafter : (Text.after? "e".toList (mark :: rest)).or
          (Text.after? "E".toList (mark :: rest)) = some rest := by
        rcases hmark with rfl | rfl <;> rfl
      rw [hafter, Option.bind_some, rest?_seq_sealed, rest?_sign, Option.bind_some, rest?_digits]
      dsimp only
      split
      · rename_i hdigits
        rw [List.isEmpty_iff] at hdigits
        rw [hdigits]
        rfl
      · rename_i hdigits
        rw [List.isEmpty_iff] at hdigits
        split
        · contradiction
        · rfl
    · rw [if_neg hmark]
      rw [not_or] at hmark
      have hafter : Text.after? "e".toList (mark :: rest) = none :=
        Text.after?_of_head (by rintro d ⟨⟩; exact hmark.1)
      have hafter' : Text.after? "E".toList (mark :: rest) = none :=
        Text.after?_of_head (by rintro d ⟨⟩; exact hmark.2)
      rw [hafter, hafter']
      rfl

/-- A numeral of the grammar is the longest numeral at the front. -/
theorem rest?_numeral : numeral.rest? depth .sealed cs = (Numeral.read? cs).map Prod.snd := by
  rw [numeral, rest?_seq_sealed, rest?_choice, rest?_seq_sealed, rest?_digits, rest?_point]
  unfold Numeral.read?
  cases hwhole : cs.takeWhile Char.isDigit with
  | nil =>
    have hdrop : cs.dropWhile Char.isDigit = cs := by
      simpa [hwhole] using List.takeWhile_append_dropWhile (p := Char.isDigit) (l := cs)
    rw [hdrop]
    rcases Numeral.readFraction cs with ⟨_ | ⟨d, ds⟩, rest⟩
    · rfl
    · exact rest?_exponent
  | cons d ds =>
    dsimp only [List.isEmpty_cons, Bool.false_and, Bool.false_eq_true, if_false, Option.bind_some]
    rw [if_neg Bool.false_ne_true, Option.bind_some, rest?_fraction]
    exact rest?_exponent

/-- A character of a quoted text, or an escape. -/
def quotedChar (quote : String) : Pattern :=
  .choice (.seq (.text "\\") (.one .any))
    (.seq (.absent (.choice (.text quote) (.text "\\"))) (.one .any))

section Quoted

variable {quote : String} {q : Char} (hquote : quote.toList = [q])

theorem rest?_quotedChar_escape {c : Char} :
    (quotedChar quote).rest? depth .sealed ('\\' :: c :: cs) = some cs := rfl

include hquote

theorem rest?_quotedChar_cons {c : Char} (hc : c ≠ '\\') :
    (quotedChar quote).rest? depth .sealed (c :: cs) = if c = q then none else some cs := by
  have hslash : Text.after? "\\".toList (c :: cs) = none :=
    Text.after?_of_head (by rintro d ⟨⟩; exact hc)
  rw [quotedChar, rest?_choice, rest?_seq_sealed, rest?_seq_sealed, rest?_absent, rest?_choice,
    rest?_text, rest?_text, hquote, hslash, Option.bind_none, Option.none_or, Option.or_none,
    Text.after?]
  split
  · rename_i heq
    rw [if_pos heq.symm]
    rfl
  · rename_i heq
    rw [if_neg (Ne.symm heq)]
    rfl

/-- A quoted text of the grammar ends where its reader ends. -/
theorem after?_drain_quotedChar (hq : q ≠ '\\') :
    Text.after? [q] (drain ((quotedChar quote).rest? depth .sealed) cs) =
      (Text.Quoted.readBody q cs).map Prod.snd := by
  have hstep : ∀ cs rest, (quotedChar quote).rest? depth .sealed cs = some rest →
      rest.length < cs.length := fun _ _ => length_rest?_lt rfl
  fun_induction Text.Quoted.readBody q cs with
  | case1 =>
    have hnone : (quotedChar quote).rest? depth .sealed [] = none := by
      by_contra h
      obtain ⟨rest, hrest⟩ := Option.ne_none_iff_exists'.1 h
      exact Nat.not_lt_zero _ (hstep _ _ hrest)
    rw [drain_of_none hnone]
    rfl
  | case2 =>
    have hafter : Text.after? [q] ['\\'] = none :=
      Text.after?_of_head (by rintro d ⟨⟩; exact hq.symm)
    have hnone : (quotedChar quote).rest? depth .sealed ['\\'] = none := by
      rw [quotedChar, rest?_choice, rest?_seq_sealed, rest?_seq_sealed, rest?_absent, rest?_choice,
        rest?_text, rest?_text, hquote, hafter]
      rfl
    rw [drain_of_none hnone, hafter]
    rfl
  | case3 c rest ih =>
    rw [drain_of_some hstep rest?_quotedChar_escape, ih, Option.map_map]
    rfl
  | case4 rest hnil hcons =>
    have hnone : (quotedChar quote).rest? depth .sealed (q :: rest) = none := by
      rw [rest?_quotedChar_cons hquote hq, if_pos rfl]
    rw [drain_of_none hnone, Text.after?, if_pos rfl]
    rfl
  | case5 c rest hnil hcons hc ih =>
    have hsome : (quotedChar quote).rest? depth .sealed (c :: rest) = some rest := by
      rw [rest?_quotedChar_cons hquote (Text.Quoted.ne_backslash hnil hcons), if_neg hc]
    rw [drain_of_some hstep hsome, ih, Option.map_map]
    rfl

theorem rest?_delimited (hq : q ≠ '\\') {r : Rule} (hbody : r.body = quotedBody quote)
    (hspacing : r.spacing = .sealed) :
    (sequence (text quote) [rule r, text quote]).rest? (depth + 1) .compact (q :: cs) =
      (Text.Quoted.readBody q cs).map Prod.snd := by
  have hchars : r.after? (depth + 1) .compact cs =
      some (drain ((quotedChar quote).rest? depth .sealed) cs) := by
    rw [Rule.after?, hbody, hspacing]
    exact rest?_star rfl (by decide)
  have hopen : Text.after? quote.toList (q :: cs) = some cs := by
    rw [hquote, Text.after?, if_pos rfl]
    rfl
  rw [← after?_drain_quotedChar hquote hq, ← hquote]
  change ((Text.after? quote.toList (q :: cs)).bind fun rest =>
    (r.after? (depth + 1) .compact rest).bind (Text.after? quote.toList)) = _
  rw [hopen, Option.bind_some, hchars, Option.bind_some]

end Quoted

/-- A quotation of the grammar is the quoted text at the front. -/
theorem rest?_quoted_cons {q : Char} (hq : q = '"' ∨ q = '\'') :
    quoted.rest? (depth + 1) .compact (q :: cs) = (Text.Quoted.readBody q cs).map Prod.snd := by
  rw [quoted, rest?_choice]
  rcases hq with rfl | rfl
  · have hsecond : (sequence (text "'") [rule .singleQuoted, text "'"]).rest? (depth + 1) .compact
        ('"' :: cs) = none := rfl
    rw [hsecond, Option.or_none, rest?_delimited rfl (by decide) rfl rfl]
  · have hfirst : (sequence (text "\"") [rule .doubleQuoted, text "\""]).rest? (depth + 1) .compact
        ('\'' :: cs) = none := rfl
    rw [hfirst, Option.none_or, rest?_delimited rfl (by decide) rfl rfl]

theorem rest?_quoted_of_head (h : ∀ c ∈ cs.head?, c ≠ '"' ∧ c ≠ '\'') :
    quoted.rest? depth .compact cs = none := by
  have hdouble : Text.after? "\"".toList cs = none :=
    Text.after?_of_head fun c hc => (h c hc).1
  have hsingle : Text.after? "'".toList cs = none :=
    Text.after?_of_head fun c hc => (h c hc).2
  simp only [quoted, rest?_choice, sequence, rest?_seq, rest?_text, hdouble, hsingle]
  rfl

/-- A keyword ends where the name at the front ends. -/
theorem rest?_name_of_keyword {p : Pattern} (hp : ∀ cs rest, p.rest? depth .sealed cs = some rest →
      ∃ word, Token.isName word = true ∧ cs = word ++ rest)
    (h : (keyword p).rest? depth .sealed cs = some rest) :
    name.rest? depth .sealed cs = some rest := by
  rw [keyword, rest?_seq_sealed] at h
  obtain ⟨mid, hword, habsent⟩ := Option.bind_eq_some_iff.1 h
  obtain ⟨word, hname, rfl⟩ := hp _ _ hword
  rw [rest?_absent] at habsent
  split at habsent
  · cases habsent
  · rename_i hone
    cases habsent
    obtain ⟨c, tail, rfl, hstart, hall⟩ := Token.exists_cons_of_isName hname
    have hstop : ∀ d ∈ rest.head?, Token.isNameChar d = false := by
      intro d hd
      rw [List.eq_cons_of_mem_head? hd, rest?_one_cons] at hone
      simpa [CharSet.mem, Token.isNameChar] using hone
    rw [List.forall_mem_cons] at hall
    rw [List.cons_append, rest?_name_cons, if_pos hstart,
      Text.dropWhile_append_of_stop hall.2 hstop]

/-- Where a keyword stands, so does a name, and it ends in the same place. -/
theorem or_keyword {word : Pattern} (hword : ∀ cs rest, word.rest? depth .sealed cs = some rest →
    ∃ w, Token.isName w = true ∧ cs = w ++ rest) (other : Option (List Char)) :
    ((keyword word).rest? depth .sealed cs).or ((name.rest? depth .sealed cs).or other) =
      (name.rest? depth .sealed cs).or other := by
  cases h : (keyword word).rest? depth .sealed cs with
  | none => rfl
  | some rest => rw [rest?_name_of_keyword hword h, Option.some_or, Option.some_or]

theorem isName_of_text {s : String} (hs : Token.isName s.toList = true) (cs rest : List Char)
    (h : (text s).rest? depth .sealed cs = some rest) :
    ∃ w, Token.isName w = true ∧ cs = w ++ rest :=
  ⟨s.toList, hs, (Text.append_eq_of_after? h).symm⟩

end Pattern

end Grammar
end Stencil
