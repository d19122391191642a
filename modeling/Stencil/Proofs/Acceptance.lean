import Stencil.Proofs.Lexicon
import Stencil.Proofs.Machine

/-!
# Derivable tokens are accepted

A text whose tokens are derivable is accepted by the run of the grammar. The next token decides
every ordered choice and the end of every repetition: where the derivation goes on, the first
alternative that matches is the right one, and where it ends, no alternative matches. The depth that
the run is given suffices, since each level of brackets nests three rules and takes two tokens.
-/

namespace Stencil

namespace Token

/-- The token ends an expression. -/
def endsExpr : Token → Bool
  | .colon | .pipe | .rightParen | .rightBracket => true
  | _ => false

/-- The token ends a chain of operands. -/
def endsChain : Token → Bool
  | .question => true
  | t => t.endsExpr

/-- The token ends an operand: it neither belongs to it nor starts another one. -/
def endsOperand : Token → Bool
  | .op _ => true
  | t => t.endsChain

theorem endsChain_of_endsExpr {t : Token} (h : t.endsExpr = true) : t.endsChain = true := by
  cases t with
  | question => rfl
  | _ => exact h

theorem endsOperand_of_endsChain {t : Token} (h : t.endsChain = true) : t.endsOperand = true := by
  cases t with
  | op => rfl
  | _ => exact h

/-- No operator or bracket that ends an operand is written like an access. -/
theorem exists_fixed_of_endsOperand {t : Token} {c : Char} (h : t.endsOperand = true)
    (hc : c = '.' ∨ c = '[') : ∃ s, t.fixed? = some s ∧ ∀ d ∈ s.toList.head?, d ≠ c := by
  have hs : ∃ s, t.fixed? = some s ∧ ∀ d ∈ s.toList.head?, d ≠ '.' ∧ d ≠ '[' := by
    cases t with
    | op operator => cases operator <;> exact ⟨_, rfl, by rintro _ ⟨⟩; decide⟩
    | question | colon | pipe | rightParen | rightBracket =>
      exact ⟨_, rfl, by rintro _ ⟨⟩; decide⟩
    | word | number | string | bang | dot | leftParen | leftBracket => cases h
  obtain ⟨s, hfixed, hhead⟩ := hs
  rcases hc with rfl | rfl
  · exact ⟨s, hfixed, fun d hd => (hhead d hd).1⟩
  · exact ⟨s, hfixed, fun d hd => (hhead d hd).2⟩

theorem exists_fixed_of_endsExpr {t : Token} (h : t.endsExpr = true) :
    ∃ s, t.fixed? = some s ∧ ∀ d ∈ s.toList.head?, d ≠ '?' := by
  cases t with
  | colon | pipe | rightParen | rightBracket => exact ⟨_, rfl, by rintro _ ⟨⟩; decide⟩
  | word | number | string | op | bang | dot | question | leftParen | leftBracket => cases h

/-- Literals and names are neither operators nor brackets. -/
theorem fixed?_of_atom {t : Token} {value : Expr} (h : Parser.atom? t = some value) :
    t.fixed? = none ∧ Parser.sign? t = none := by
  cases t with
  | word | number | string => exact ⟨rfl, rfl⟩
  | _ => cases h

end Token

namespace Grammar

variable {depth : Nat} {cs rest : List Char} {t : Token} {ts us vs : List Token}

namespace Pattern

/-- The signs before an operand. -/
def signs : Pattern := oneOf (.rule .notOp) [.rule .negOp, .rule .plusOp]

/-- An access after an operand. -/
def access : Pattern := .choice (.rule .member) (.rule .index)

/-- An operator with the operand after it. -/
def link : Pattern := .seq binaryOp operand

theorem past?_rule_succ {r : Rule} (h : r.spacing = .loose) :
    (rule r).past? (depth + 1) cs = r.body.past? depth cs := by
  rw [past?_rule, Rule.after?, if_pos h]
  rfl

theorem past?_text {s : String} :
    (text s).past? depth cs = Text.after? s.toList (Spacing.loose.strip cs) := rfl

/-- A primary expression is a numeral, a quotation, a name or an expression in brackets: the
literal words are names. -/
theorem past?_primary : primary.past? (depth + 2) cs =
    ((Numeral.read? (Spacing.loose.strip cs)).map Prod.snd).or
      ((quoted.rest? (depth + 1) .compact (Spacing.loose.strip cs)).or
        ((name.rest? (depth + 1) .sealed (Spacing.loose.strip cs)).or
          ((rule .paren).past? (depth + 2) cs))) := by
  have hboolean : ∀ cs rest, (choice (text "true") (text "false")).rest? (depth + 1) .sealed cs =
      some rest → ∃ w, Token.isName w = true ∧ cs = w ++ rest := by
    intro cs rest h
    rcases Option.or_eq_some_iff.1 h with h | ⟨-, h⟩
    · exact isName_of_text (by decide) cs rest h
    · exact isName_of_text (by decide) cs rest h
  generalize hsource : Spacing.loose.strip cs = source
  change (numeral.rest? (depth + 1) .sealed _).or ((quoted.rest? (depth + 1) .compact _).or
    (((keyword (choice (text "true") (text "false"))).rest? (depth + 1) .sealed _).or
      (((keyword (text "null")).rest? (depth + 1) .sealed _).or
        (((keyword (text "undefined")).rest? (depth + 1) .sealed _).or
          ((name.rest? (depth + 1) .sealed _).or ((rule .paren).past? (depth + 2) cs)))))) = _
  rw [hsource, rest?_numeral, or_keyword (isName_of_text (by decide)),
    or_keyword (isName_of_text (by decide)), or_keyword hboolean]

/-- A literal or a name is taken whole. -/
theorem past?_primary_of_atom {value : Expr} (hvalue : Parser.atom? t = some value)
    (h : Token.Front (Spacing.loose.strip cs) t rest) :
    primary.past? (depth + 2) cs = some rest := by
  rw [past?_primary]
  revert h
  generalize Spacing.loose.strip cs = source
  intro h
  cases h with
  | @word c tail hstart =>
    have hread : Numeral.read? (c :: tail) = none :=
      Token.read?_eq_none (Token.isDigit_of_isNameStart hstart)
        (Token.ne_of_isNameStart hstart (by decide))
    have hquoted : quoted.rest? (depth + 1) .compact (c :: tail) = none := by
      apply rest?_quoted_of_head
      rintro d ⟨⟩
      exact ⟨Token.ne_of_isNameStart hstart (by decide),
        Token.ne_of_isNameStart hstart (by decide)⟩
    rw [hread, hquoted, rest?_name_cons, if_pos hstart]
    rfl
  | @string quote tail text _ hquote hbody =>
    have hread : Numeral.read? (quote :: tail) = none := by
      rcases hquote with rfl | rfl <;> exact Token.read?_eq_none (by decide) (by decide)
    rw [hread, rest?_quoted_cons hquote, hbody]
    rfl
  | number hread =>
    rw [hread]
    rfl
  | fixed hs => cases hs.symm.trans (Token.fixed?_of_atom hvalue).1

/-- A bracket where a primary expression is due opens an inner expression. -/
theorem past?_primary_of_paren (h : Token.Front (Spacing.loose.strip cs) .leftParen rest) :
    primary.past? (depth + 2) cs = (rule .paren).past? (depth + 2) cs := by
  rw [past?_primary]
  revert h
  generalize Spacing.loose.strip cs = source
  intro h
  cases h with
  | fixed hs hread =>
    cases hs
    rw [hread]
    rfl

theorem past?_signs : signs.past? (depth + 1) cs =
    (Text.after? "!".toList (Spacing.loose.strip cs)).or
      ((Text.after? "-".toList (Spacing.loose.strip cs)).or
        (Text.after? "+".toList (Spacing.loose.strip cs))) := rfl

theorem past?_signs_of_sign {op : UnaryOp} (hop : Parser.sign? t = some op)
    (h : Token.Front (Spacing.loose.strip cs) t rest) : signs.past? (depth + 1) cs = some rest := by
  rw [past?_signs]
  revert h
  generalize Spacing.loose.strip cs = source
  intro h
  cases h with
  | word | string | number => cases hop
  | fixed hs =>
    unfold Parser.sign? at hop
    split at hop
    all_goals first | cases hop; done | cases hs; rfl

theorem past?_signs_of_primary (ht : ∀ s ∈ t.fixed?, s = "(")
    (h : Token.Front (Spacing.loose.strip cs) t rest) : signs.past? (depth + 1) cs = none := by
  have hnot : Text.after? "!".toList (Spacing.loose.strip cs) = none :=
    Text.after?_of_head (h.head_ne (by decide) fun s hs => by rw [ht s hs]; decide)
  have hneg : Text.after? "-".toList (Spacing.loose.strip cs) = none :=
    Text.after?_of_head (h.head_ne (by decide) fun s hs => by rw [ht s hs]; decide)
  have hplus : Text.after? "+".toList (Spacing.loose.strip cs) = none :=
    Text.after?_of_head (h.head_ne (by decide) fun s hs => by rw [ht s hs]; decide)
  rw [past?_signs, hnot, hneg, hplus]
  rfl

/-- An operator or a bracket is taken where it is the next token. -/
theorem exists_past?_text (depth : Nat) {s : String} (ht : t.fixed? = some s)
    (h : Token.lex cs = some (t :: us)) :
    ∃ rest, (text s).past? depth cs = some rest ∧ Token.lex rest = some us := by
  obtain ⟨rest, hfront, hrest⟩ := Token.exists_front_of_lex h
  refine ⟨rest, ?_, hrest⟩
  rw [past?_text, Spacing.strip, (hfront.eq_of_fixed ht).1, Text.after?_append]

/-- A name is taken where a word is the next token. -/
theorem exists_past?_name (depth : Nat) {r : Rule} {word : String} (hbody : r.body = name)
    (hspacing : r.spacing = .sealed) (h : Token.lex cs = some (.word word :: us)) :
    ∃ rest, (rule r).past? (depth + 1) cs = some rest ∧ Token.lex rest = some us := by
  obtain ⟨rest, hfront, hrest⟩ := Token.exists_front_of_lex h
  refine ⟨rest, ?_, hrest⟩
  rw [past?_rule, Rule.after?, hbody, hspacing]
  change name.rest? depth .sealed (cs.dropWhile Text.isGap) = _
  revert hfront
  generalize cs.dropWhile Text.isGap = source
  intro hfront
  cases hfront with
  | word hstart => rw [rest?_name_cons, if_pos hstart]
  | fixed hs => cases hs

/-- Of the operators, the longest one is taken. -/
theorem exists_past?_binaryOp (depth : Nat) {op : BinaryOp}
    (h : Token.lex cs = some (.op op :: us)) :
    ∃ rest, binaryOp.past? (depth + 1) cs = some rest ∧ Token.lex rest = some us := by
  obtain ⟨rest, hfront, hrest⟩ := Token.exists_front_of_lex h
  obtain ⟨hcs, hjoin⟩ := hfront.eq_of_fixed rfl
  refine ⟨rest, ?_, hrest⟩
  rw [past?, Spacing.strip, hcs]
  cases op with
  | eq | ne | lt | gt =>
    have hstop : Text.after? ['='] rest = none :=
      Text.after?_of_head fun c hc => by simpa [Token.isJoinedBy] using hjoin c hc
    change (Text.after? ['='] rest).or (some rest) = some rest
    rw [hstop, Option.none_or]
  | _ => rfl

/-- An operator or a bracket is not taken where the next token is another one. -/
theorem past?_text_of_end {s : String} {c : Char} {front : List Char} (hs : s.toList = c :: front)
    (h : Token.lex cs = some us)
    (hus : ∀ t ∈ us.head?, ∃ s', t.fixed? = some s' ∧ ∀ d ∈ s'.toList.head?, d ≠ c) :
    (text s).past? depth cs = none := by
  rw [past?_text, hs, Spacing.strip]
  apply Text.after?_of_head
  cases us with
  | nil =>
    rw [Token.dropWhile_of_lex_nil h]
    exact nofun
  | cons t us =>
    obtain ⟨rest, hfront, -⟩ := Token.exists_front_of_lex h
    obtain ⟨s', hs', hhead⟩ := hus t rfl
    obtain ⟨d, ds, hds, -⟩ := Token.exists_cons_of_fixed hs'
    rw [(hfront.eq_of_fixed hs').1, hds]
    rintro _ ⟨⟩
    exact hhead d (by rw [hds]; rfl)

theorem past?_access_of_end (h : Token.lex cs = some us)
    (hus : ∀ t ∈ us.head?, t.endsOperand = true) : access.past? (depth + 1) cs = none := by
  have hdot : (text ".").past? depth cs = none :=
    past?_text_of_end rfl h fun t ht => Token.exists_fixed_of_endsOperand (hus t ht) (by decide)
  have hbracket : (text "[").past? depth cs = none :=
    past?_text_of_end rfl h fun t ht => Token.exists_fixed_of_endsOperand (hus t ht) (by decide)
  rw [access, past?_choice, past?_rule_succ rfl, past?_rule_succ rfl]
  simp only [Rule.body, Pattern.sequence, past?_seq, hdot, hbracket, Option.bind_none,
    Option.none_or]

theorem past?_link_of_end (h : Token.lex cs = some us)
    (hus : ∀ t ∈ us.head?, t.endsChain = true) : link.past? (depth + 1) cs = none := by
  have hop : binaryOp.past? (depth + 1) cs = none := by
    rw [past?, Spacing.strip]
    cases us with
    | nil =>
      rw [Token.dropWhile_of_lex_nil h]
      rfl
    | cons t us =>
      obtain ⟨rest, hfront, -⟩ := Token.exists_front_of_lex h
      cases t with
      | question | colon | rightParen | rightBracket =>
        rw [(hfront.eq_of_fixed rfl).1]
        rfl
      | pipe =>
        obtain ⟨hcs, hjoin⟩ := hfront.eq_of_fixed rfl
        have hstop : Text.after? ['|'] rest = none :=
          Text.after?_of_head fun c hc => by simpa [Token.isJoinedBy] using hjoin c hc
        rw [hcs]
        change (Text.after? ['|'] rest).or none = none
        rw [hstop, Option.none_or]
      | word | number | string | op | bang | dot | leftParen | leftBracket => cases hus _ rfl
  rw [link, past?_seq, hop, Option.bind_none]

theorem past?_question_of_end (h : Token.lex cs = some us)
    (hus : ∀ t ∈ us.head?, t.endsExpr = true) : (text "?").past? depth cs = none :=
  past?_text_of_end rfl h fun t ht => Token.exists_fixed_of_endsExpr (hus t ht)

end Pattern

open Pattern

theorem lex_strip (cs : List Char) : Token.lex (Spacing.loose.strip cs) = Token.lex cs :=
  Token.lex_congr (Spacing.strip_strip .loose cs)

/-- Where the tokens `ts` are next, the run takes signs up to `ps`, a primary expression up to `qs`
and accesses up to `rs`, before which all of `ts` stands. -/
def TakesOperand (ts : List Token) : Prop :=
  ∀ depth cs us, 3 * ts.length ≤ depth + 1 → Token.lex cs = some (ts ++ us) →
    ∃ ps qs rs, drain (signs.past? depth) cs = drain (signs.past? depth) ps ∧
      signs.past? depth ps = none ∧ primary.past? depth ps = some qs ∧
      drain (access.past? depth) qs = drain (access.past? depth) rs ∧ Token.lex rs = some us

/-- Where the tokens `ts` are next and the last operand ends with them, the run takes an operand up
to `ps` and links up to `qs`, before which all of `ts` stands. -/
def TakesChain (ts : List Token) : Prop :=
  ∀ depth cs us, 3 * ts.length ≤ depth + 2 → Token.lex cs = some (ts ++ us) →
    (∀ t ∈ us.head?, t.endsOperand = true) →
    ∃ ps qs, operand.past? (depth + 1) cs = some ps ∧
      drain (link.past? (depth + 1)) ps = drain (link.past? (depth + 1)) qs ∧
      Token.lex qs = some us

/-- Where the tokens `ts` are next and an expression ends with them, the run takes just these. -/
def TakesExpr (ts : List Token) : Prop :=
  ∀ depth cs us, 3 * ts.length + 3 ≤ depth → Token.lex cs = some (ts ++ us) →
    (∀ t ∈ us.head?, t.endsExpr = true) →
    ∃ rest, (rule .expression).past? depth cs = some rest ∧ Token.lex rest = some us

theorem takesOperand_atom {value : Expr} (hvalue : Parser.atom? t = some value) :
    TakesOperand [t] := by
  intro depth cs us hdepth h
  obtain ⟨depth, rfl⟩ : ∃ d, depth = d + 2 := Nat.exists_eq_add_of_le' (by simpa using hdepth)
  obtain ⟨rest, hfront, hrest⟩ := Token.exists_front_of_lex h
  have hfixed : ∀ s ∈ t.fixed?, s = "(" := by
    rw [(Token.fixed?_of_atom hvalue).1]
    exact nofun
  exact ⟨cs, rest, rest, rfl, past?_signs_of_primary hfixed hfront,
    past?_primary_of_atom hvalue hfront, rfl, hrest⟩

theorem takesOperand_paren (he : TakesExpr ts) :
    TakesOperand (.leftParen :: (ts ++ [.rightParen])) := by
  intro depth cs us hdepth h
  simp only [List.length_cons, List.length_append, List.length_nil] at hdepth
  obtain ⟨depth, rfl⟩ : ∃ d, depth = d + 2 := Nat.exists_eq_add_of_le' (by omega)
  simp only [List.cons_append, List.append_assoc, List.nil_append] at h
  obtain ⟨_, hfront, -⟩ := Token.exists_front_of_lex h
  obtain ⟨ps, hopen, hps⟩ := exists_past?_text (depth + 1) rfl h
  obtain ⟨qs, hexpr, hqs⟩ := he (depth + 1) ps _ (by omega) hps (by simp [Token.endsExpr])
  obtain ⟨rs, hclose, hrs⟩ := exists_past?_text (depth + 1) rfl hqs
  refine ⟨cs, rs, rs, rfl, past?_signs_of_primary (by rintro s ⟨⟩; rfl) hfront, ?_, rfl, hrs⟩
  rw [past?_primary_of_paren hfront, past?_rule_succ rfl]
  simp only [Rule.body, Pattern.sequence, past?_seq, hopen, hexpr, hclose, Option.bind_some]

/-- An access after an operand belongs to it. -/
theorem TakesOperand.append (ho : TakesOperand ts) (hvs : ∀ depth cs us, 3 * vs.length ≤ depth + 1 →
      Token.lex cs = some (vs ++ us) →
      ∃ rest, access.past? depth cs = some rest ∧ Token.lex rest = some us) :
    TakesOperand (ts ++ vs) := by
  intro depth cs us hdepth h
  rw [List.length_append] at hdepth
  rw [List.append_assoc] at h
  obtain ⟨ps, qs, rs, hsigns, hend, hprimary, haccess, hrs⟩ := ho depth cs _ (by omega) h
  obtain ⟨rest, hnext, hrest⟩ := hvs depth rs us (by omega) hrs
  refine ⟨ps, qs, rest, hsigns, hend, hprimary, ?_, hrest⟩
  rw [haccess, drain_past?_of_some rfl hnext]

theorem takesOperand_member (ho : TakesOperand ts) (name : String) :
    TakesOperand (ts ++ [.dot, .word name]) := by
  refine ho.append fun depth cs us hdepth h => ?_
  obtain ⟨depth, rfl⟩ : ∃ d, depth = d + 2 := Nat.exists_eq_add_of_le' (by simp at hdepth; omega)
  obtain ⟨ps, hdot, hps⟩ := exists_past?_text (depth + 1) rfl h
  obtain ⟨rest, hname, hrest⟩ := exists_past?_name depth (r := .property) rfl rfl hps
  refine ⟨rest, ?_, hrest⟩
  rw [access, past?_choice, past?_rule_succ rfl]
  simp only [Rule.body, past?_seq, hdot, hname, Option.bind_some, Option.some_or]

theorem takesOperand_index (ho : TakesOperand ts) (hkey : TakesExpr us) :
    TakesOperand (ts ++ .leftBracket :: (us ++ [.rightBracket])) := by
  refine ho.append fun depth cs vs hdepth h => ?_
  simp only [List.length_cons, List.length_append, List.length_nil] at hdepth
  obtain ⟨depth, rfl⟩ : ∃ d, depth = d + 1 := Nat.exists_eq_add_of_le' (by omega)
  simp only [List.cons_append, List.append_assoc, List.nil_append] at h
  have hmember : (rule .member).past? (depth + 1) cs = none := by
    obtain ⟨_, hfront, -⟩ := Token.exists_front_of_lex h
    rw [past?_rule, Spacing.strip, (hfront.eq_of_fixed rfl).1]
    rfl
  obtain ⟨ps, hopen, hps⟩ := exists_past?_text depth rfl h
  obtain ⟨qs, hexpr, hqs⟩ := hkey depth ps _ (by omega) hps (by simp [Token.endsExpr])
  obtain ⟨rest, hclose, hrest⟩ := exists_past?_text depth rfl hqs
  refine ⟨rest, ?_, hrest⟩
  rw [access, past?_choice, hmember, past?_rule_succ rfl]
  simp only [Rule.body, Pattern.sequence, past?_seq, hopen, hexpr, hclose, Option.bind_some,
    Option.none_or]

theorem takesOperand_sign {op : UnaryOp} (hop : Parser.sign? t = some op) (ho : TakesOperand ts) :
    TakesOperand (t :: ts) := by
  intro depth cs us hdepth h
  rw [List.length_cons] at hdepth
  obtain ⟨depth, rfl⟩ : ∃ d, depth = d + 1 := Nat.exists_eq_add_of_le' (by omega)
  obtain ⟨rest, hfront, hrest⟩ := Token.exists_front_of_lex h
  obtain ⟨ps, qs, rs, hsigns, hrun⟩ := ho (depth + 1) rest us (by omega) hrest
  refine ⟨ps, qs, rs, ?_, hrun⟩
  rw [drain_past?_of_some rfl (past?_signs_of_sign hop hfront), hsigns]

/-- An operand that has ended is taken whole. -/
theorem TakesOperand.exists_past? (ho : TakesOperand ts) (hdepth : 3 * ts.length ≤ depth + 2)
    (h : Token.lex cs = some (ts ++ us)) (hus : ∀ t ∈ us.head?, t.endsOperand = true) :
    ∃ rest, operand.past? (depth + 1) cs = some rest ∧ Token.lex rest = some us := by
  obtain ⟨ps, qs, rs, hsigns, hend, hprimary, haccess, hrs⟩ := ho (depth + 1) cs us hdepth h
  obtain ⟨xs, hxs, hstrip⟩ := exists_past?_star rfl hsigns hend
  obtain ⟨rest, hrest, hstrip'⟩ := exists_past?_star rfl haccess (past?_access_of_end hrs hus)
  rw [← past?_strip, ← hstrip, past?_strip] at hprimary
  refine ⟨rest, ?_, (Token.lex_congr hstrip').trans hrs⟩
  change ((star signs).past? (depth + 1) cs).bind (fun xs =>
    (primary.past? (depth + 1) xs).bind ((star access).past? (depth + 1))) = _
  rw [hxs, Option.bind_some, hprimary, Option.bind_some, hrest]

theorem takesChain_single (ho : TakesOperand ts) : TakesChain ts := by
  intro depth cs us hdepth h hus
  obtain ⟨rest, hoperand, hrest⟩ := ho.exists_past? hdepth h hus
  exact ⟨rest, rest, hoperand, rfl, hrest⟩

theorem takesChain_join (op : BinaryOp) (hc : TakesChain ts) (hd : TakesChain us) :
    TakesChain (ts ++ .op op :: us) := by
  intro depth cs vs hdepth h hvs
  simp only [List.length_append, List.length_cons] at hdepth
  rw [List.append_assoc, List.cons_append] at h
  obtain ⟨ps, qs, hfirst, hlinks, hqs⟩ := hc depth cs _ (by omega) h (by simp [Token.endsOperand])
  obtain ⟨xs, hop, hxs⟩ := exists_past?_binaryOp depth hqs
  obtain ⟨ps', qs', hsecond, hlinks', hqs'⟩ := hd depth xs vs (by omega) hxs hvs
  have hlink : link.past? (depth + 1) qs = some ps' := by
    rw [link, past?_seq, hop, Option.bind_some, hsecond]
  refine ⟨ps, qs', hfirst, ?_, hqs'⟩
  rw [hlinks, drain_past?_of_some rfl hlink, hlinks']

/-- A chain that has ended is taken whole. -/
theorem TakesChain.exists_past? (hc : TakesChain ts) (depth : Nat)
    (hdepth : 3 * ts.length ≤ depth + 2) (h : Token.lex cs = some (ts ++ us))
    (hus : ∀ t ∈ us.head?, t.endsChain = true) :
    ∃ rest, (rule .binary).past? (depth + 2) cs = some rest ∧ Token.lex rest = some us := by
  obtain ⟨ps, qs, hoperand, hlinks, hqs⟩ :=
    hc depth cs us hdepth h fun t ht => Token.endsOperand_of_endsChain (hus t ht)
  obtain ⟨rest, hrest, hstrip⟩ := exists_past?_star rfl hlinks (past?_link_of_end hqs hus)
  refine ⟨rest, ?_, (Token.lex_congr hstrip).trans hqs⟩
  rw [past?_rule_succ rfl]
  change (operand.past? (depth + 1) cs).bind ((star link).past? (depth + 1)) = _
  rw [hoperand, Option.bind_some, hrest]

theorem takesExpr_chain (hc : TakesChain ts) : TakesExpr ts := by
  intro depth cs us hdepth h hus
  obtain ⟨depth, rfl⟩ : ∃ d, depth = d + 3 := Nat.exists_eq_add_of_le' (by omega)
  obtain ⟨rest, hchain, hrest⟩ := hc.exists_past? depth (by omega) h fun t ht =>
    Token.endsChain_of_endsExpr (hus t ht)
  refine ⟨Spacing.loose.strip rest, ?_, (lex_strip rest).trans hrest⟩
  rw [past?_rule_succ rfl]
  simp only [Rule.body, Pattern.sequence, past?_seq, past?_optional, hchain, Option.bind_some,
    past?_question_of_end hrest hus, Option.bind_none, Option.getD_none]

theorem takesExpr_conditional (hc : TakesChain ts) (hus : TakesExpr us) (hvs : TakesExpr vs) :
    TakesExpr (ts ++ .question :: (us ++ .colon :: vs)) := by
  intro depth cs ws hdepth h hws
  simp only [List.length_append, List.length_cons] at hdepth
  obtain ⟨depth, rfl⟩ : ∃ d, depth = d + 3 := Nat.exists_eq_add_of_le' (by omega)
  simp only [List.append_assoc, List.cons_append] at h
  obtain ⟨ps, htest, hps⟩ := hc.exists_past? depth (by omega) h
    (by simp [Token.endsChain])
  obtain ⟨qs, hquestion, hqs⟩ := exists_past?_text (depth + 2) rfl hps
  obtain ⟨rs, hconsequent, hrs⟩ := hus (depth + 2) qs _ (by omega) hqs (by simp [Token.endsExpr])
  obtain ⟨xs, hcolon, hxs⟩ := exists_past?_text (depth + 2) rfl hrs
  obtain ⟨rest, halternate, hrest⟩ := hvs (depth + 2) xs ws (by omega) hxs hws
  refine ⟨rest, ?_, hrest⟩
  rw [past?_rule_succ rfl]
  simp only [Rule.body, Pattern.sequence, past?_seq, past?_optional, htest, hquestion,
    hconsequent, hcolon, halternate, Option.bind_some, Option.getD_some]

theorem takesExpr_of_isExpr {e : Expr} (h : Parser.IsExpr ts e) : TakesExpr ts :=
  @Parser.IsExpr.rec (fun ts _ _ => TakesOperand ts) (fun ts _ _ => TakesChain ts)
    (fun ts _ _ => TakesExpr ts) (fun _ => takesOperand_atom) (fun _ => takesOperand_paren)
    (fun name _ ho => takesOperand_member ho name) (fun _ _ => takesOperand_index)
    (fun hsign _ => takesOperand_sign hsign) (fun _ => takesChain_single)
    (fun op _ _ => takesChain_join op) (fun _ => takesExpr_chain)
    (fun _ _ _ => takesExpr_conditional) ts e h

/-- A bar that is not doubled and a name are a filter. -/
theorem exists_past?_filter (depth : Nat) {name : String}
    (h : Token.lex cs = some (.pipe :: .word name :: us)) :
    ∃ rest, (rule .filter).past? (depth + 2) cs = some rest ∧ Token.lex rest = some us := by
  obtain ⟨ps, hpipe, hps⟩ := exists_past?_text (depth + 1) rfl h
  obtain ⟨rest, hname, hrest⟩ := exists_past?_name depth (r := .filterName) rfl rfl hps
  have habsent : (absent (text "||")).past? (depth + 1) cs = some (Spacing.loose.strip cs) := by
    obtain ⟨xs, hfront, -⟩ := Token.exists_front_of_lex h
    obtain ⟨hcs, hjoin⟩ := hfront.eq_of_fixed rfl
    have hstop : Text.after? "||".toList (Spacing.loose.strip cs) = none := by
      rw [Spacing.strip, hcs]
      change Text.after? ['|'] xs = none
      exact Text.after?_of_head fun c hc => by simpa [Token.isJoinedBy] using hjoin c hc
    rw [past?, rest?_absent, rest?_text, hstop]
    rfl
  refine ⟨rest, ?_, hrest⟩
  rw [past?_rule_succ rfl]
  simp only [Rule.body, Pattern.sequence, past?_seq, habsent, past?_strip, hpipe, hname,
    Option.bind_some]

/-- Where the text has ended, nothing more is asked for. -/
theorem past?_endOfInput (h : Token.lex cs = some []) :
    (rule .endOfInput).past? (depth + 1) cs = some [] := by
  rw [past?_rule, Spacing.strip, Token.dropWhile_of_lex_nil h]
  rfl

/-- A text whose tokens are derivable is accepted. -/
theorem accepts_of_isInput {e : Expr} (h : Token.lex cs = some ts) (he : Parser.IsInput ts e) :
    accepts cs = true := by
  have hlength := Token.length_lex_le h
  have hwhole : (whole.past? (4 * cs.length + 15) cs).isSome = true := by
    cases he with
    | plain he =>
      obtain ⟨rest, hexpr, hrest⟩ := takesExpr_of_isExpr he (4 * cs.length + 15) cs []
        (by omega) (by simpa using h) (by simp)
      have hfilter : (rule .filter).past? (4 * cs.length + 15) rest = none := by
        rw [past?_rule, Spacing.strip, Token.dropWhile_of_lex_nil hrest]
        rfl
      simp only [whole, Pattern.sequence, past?_seq, past?_optional, hexpr, hfilter,
        Option.bind_some, Option.getD_none, past?_endOfInput ((lex_strip rest).trans hrest),
        Option.isSome_some]
    | filter name he =>
      rw [List.length_append] at hlength
      obtain ⟨rest, hexpr, hrest⟩ := takesExpr_of_isExpr he (4 * cs.length + 15) cs _
        (by omega) h (by simp [Token.endsExpr])
      obtain ⟨rest', hfilter, hrest'⟩ := exists_past?_filter (4 * cs.length + 13) hrest
      simp only [whole, Pattern.sequence, past?_seq, past?_optional, hexpr, hfilter,
        Option.bind_some, Option.getD_some, past?_endOfInput hrest', Option.isSome_some]
  rw [accepts_eq]
  exact hwhole

end Grammar
end Stencil
