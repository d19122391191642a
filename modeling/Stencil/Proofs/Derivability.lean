import Stencil.Proofs.Acceptance
import Stencil.Proofs.Spelling

/-!
# Derivable texts have derivable tokens

A derivation of the grammar splits the text, and each place where it splits is the end of a token:
what may follow a name or a numeral neither goes on with it, nor does an operator run into what
follows it. So the tokens of the text are those that the derivation goes through, whichever
derivation it is. With the two other directions this closes the circle: the run of the grammar, its
derivations and the reader of tokens accept the same texts.
-/

namespace Stencil

namespace Token

variable {cs ds es rest : List Char} {t : Token} {ts us : List Token}

/-- The text does not start with a character of this kind. -/
def Avoids (p : Char → Bool) (cs : List Char) : Prop :=
  ∀ c ∈ cs.head?, p c = false

/-- No equals sign goes on with an operator. -/
def Fresh : List Char → Prop := Avoids (· == '=')

/-- No name and no numeral goes on with the text. -/
def Halts (cs : List Char) : Prop :=
  Avoids isNameChar cs ∧ Numeral.readFraction cs = ([], cs)

theorem Halts.ends (h : Halts cs) : Numeral.Ends cs := by
  refine ⟨fun c hc => ?_, h.2, Numeral.readExponent_none fun c hc => ?_⟩
  · have hchar := h.1 c hc
    simp only [isNameChar, Char.isAlphanum, Bool.or_eq_false_iff] at hchar
    exact hchar.1.1.2
  · have hchar := h.1 c hc
    constructor <;> rintro rfl <;> revert hchar <;> decide

theorem halts_cons {c : Char} (hname : isNameChar c = false) (hpoint : c ≠ '.') :
    Halts (c :: cs) :=
  ⟨by rintro d ⟨⟩; exact hname, Numeral.readFraction_none (by rintro d ⟨⟩; exact hpoint)⟩

theorem halts_point (h : Avoids Char.isDigit cs) : Halts ('.' :: cs) := by
  refine ⟨by rintro d ⟨⟩; decide, ?_⟩
  rw [Numeral.readFraction, Text.takeWhile_of_stop h]

/-- The condition holds before blanks if it holds after them. -/
def IsStable (condition : List Char → Prop) : Prop :=
  ∀ blanks cs, (∀ b ∈ blanks, Text.isGap b = true) → condition cs → condition (blanks ++ cs)

theorem isStable_avoids {p : Char → Bool} (hp : ∀ b, Text.isGap b = true → p b = false) :
    IsStable (Avoids p) := by
  intro blanks cs hblanks hcs
  cases blanks with
  | nil => exact hcs
  | cons b blanks =>
    rintro _ ⟨⟩
    exact hp b (hblanks b (by simp))

theorem forall_isGap {P : Char → Prop} (h : P ' ' ∧ P '\t' ∧ P '\r' ∧ P '\n') (b : Char)
    (hb : Text.isGap b = true) : P b := by
  simp only [Text.isGap, Bool.or_eq_true, beq_iff_eq] at hb
  rcases hb with ((rfl | rfl) | rfl) | rfl <;> simp only [h]

theorem isStable_fresh : IsStable Fresh :=
  isStable_avoids (forall_isGap (by decide))

theorem isStable_halts : IsStable Halts := by
  intro blanks cs hblanks hcs
  cases blanks with
  | nil => exact hcs
  | cons b blanks =>
    obtain ⟨hname, hpoint⟩ := forall_isGap (P := fun b => isNameChar b = false ∧ b ≠ '.')
      (by decide) b (hblanks b (by simp))
    exact halts_cons hname hpoint

/-- The tokens `ts` stand before `ds`, whatever tokens follow. -/
def Lexes (cs ds : List Char) (ts : List Token) : Prop :=
  ∀ us, lex ds = some us → lex cs = some (ts ++ us)

theorem Lexes.append (hcs : Lexes cs ds ts) (hds : Lexes ds es us) : Lexes cs es (ts ++ us) := by
  intro vs hvs
  rw [hcs _ (hds vs hvs), List.append_assoc]

theorem lexes_blanks {blanks : List Char} (hblanks : ∀ b ∈ blanks, Text.isGap b = true) :
    Lexes (blanks ++ cs) cs [] := by
  intro us hus
  rw [List.nil_append, ← hus]
  apply lex_congr
  rw [List.dropWhile_append_of_pos hblanks]

theorem lexes_of_spells {s : List Char} (hs : Spells t s)
    (hnext : next? (s ++ rest) = some (t, rest)) : Lexes (s ++ rest) rest [t] := by
  intro us hus
  obtain ⟨c, cs, rfl, hc⟩ := hs.exists_cons
  rw [List.cons_append] at hnext ⊢
  rw [lex_token (Text.isGap_of_isWhite hc) hnext, hus]
  rfl

/-- A literal or a name is read back where nothing goes on with it. -/
theorem next?_of_atom {value : Expr} {s : List Char} (hs : Spells t s)
    (ht : Parser.atom? t = some value) (hrest : Halts rest) :
    next? (s ++ rest) = some (t, rest) := by
  cases hs with
  | word hname => exact next?_of_spells (.word hname) hrest.1
  | number hn => exact next?_number hn hrest.ends
  | string hquote hbody => exact next?_of_spells (.string hquote hbody) fun _ _ => rfl
  | fixed hs => cases hs.symm.trans (fixed?_of_atom ht).1

end Token

namespace Grammar

open Token Pattern

variable {c c' c₁ c₂ : Cursor} {A B C : List Char → Prop} {P Q R : List Token → Prop}

/-- If `C` holds behind the second place, `A` holds behind the first one, and tokens with the
property `P` stand between them. -/
def Chunk (A C : List Char → Prop) (P : List Token → Prop) (c c' : Cursor) : Prop :=
  C c'.rest → A c.rest ∧ ∃ ts, P ts ∧ Lexes c.rest c'.rest ts

theorem chunk_nil : Chunk A A (· = []) c c :=
  fun hstart => ⟨hstart, [], rfl, fun _ hus => hus⟩

theorem Chunk.imp (h : Chunk A C P c c') (hP : ∀ ts, P ts → Q ts) : Chunk A C Q c c' := by
  intro hC
  obtain ⟨hA, ts, hts, hlexes⟩ := h hC
  exact ⟨hA, ts, hP ts hts, hlexes⟩

theorem Chunk.seq (hB : IsStable B) (h : Chunk A B P c c₁) (hskips : c₁.Skips .loose c₂)
    (h' : Chunk B C Q c₂ c') (hR : ∀ ts us, P ts → Q us → R (ts ++ us)) : Chunk A C R c c' := by
  intro hC
  obtain ⟨hstart, us, hQ, hus⟩ := h' hC
  obtain ⟨blanks, hrest, -, hblanks, -⟩ := hskips
  obtain ⟨hA, ts, hP, hts⟩ := h (hrest ▸ hB _ _ hblanks hstart)
  rw [hrest] at hts
  exact ⟨hA, ts ++ us, hR ts us hP hQ, hts.append ((lexes_blanks hblanks).append hus)⟩

theorem Chunk.skipLeft (hA : IsStable A) (hskips : c.Skips .loose c₁) (h : Chunk A C P c₁ c') :
    Chunk A C P c c' :=
  chunk_nil.seq hA hskips h fun _ _ hts hus => by rwa [hts, List.nil_append]

theorem Chunk.skipRight (hC : IsStable C) (h : Chunk A C P c c₁) (hskips : c₁.Skips .loose c') :
    Chunk A C P c c' :=
  h.seq hC hskips chunk_nil fun _ _ hts hus => by rwa [hus, List.append_nil]

/-- A repetition of chunks is a chunk, if the property of their tokens is kept on joining them. -/
theorem chunk_star {p : Pattern} {rule : Rule → Cursor → Cursor → Prop} (hA : IsStable A)
    (hnil : P []) (hjoin : ∀ ts us, P ts → P us → P (ts ++ us))
    (hitem : ∀ c c', p.Spans rule .loose c c' → Chunk A A P c c')
    (h : (star p).Spans rule .loose c c') : Chunk A A P c c' := by
  rcases h with rfl | h
  · exact chunk_nil.imp fun _ hts => hts ▸ hnil
  · induction h with
    | one h => exact hitem _ _ h
    | more h hskips _ ih => exact (hitem _ _ h).seq hA hskips ih hjoin

/-- What may be written behind a text of some kind, and leaves it of that kind, may be repeated. -/
theorem chunk_suffixes {p : Pattern} {rule : Rule → Cursor → Cursor → Prop} (hA : IsStable A)
    (hitem : ∀ c c', p.Spans rule .loose c c' →
      Chunk A A (fun ts => ∀ us, P us → P (us ++ ts)) c c')
    (h : (star p).Spans rule .loose c c') :
    Chunk A A (fun ts => ∀ us, P us → P (us ++ ts)) c c' := by
  refine chunk_star hA (fun us hus => ?_) (fun ts us hts hus vs hvs => ?_) hitem h
  · rwa [List.append_nil]
  · rw [← List.append_assoc]
    exact hus _ (hts vs hvs)

/-- An operator or a bracket is a chunk, if what must follow it does not make it another token. -/
theorem chunk_fixed {t : Token} {s : String} (ht : t.fixed? = some s)
    (hstop : ∀ cs, C cs → Avoids t.isJoinedBy cs) (hstart : ∀ cs, C cs → A (s.toList ++ cs))
    (h : c.rest = s.toList ++ c'.rest) : Chunk A C (· = [t]) c c' := by
  intro hC
  rw [h]
  exact ⟨hstart _ hC, [t], rfl, lexes_of_spells (.fixed ht) (next?_fixed ht (hstop _ hC))⟩

/-- A name is a chunk: it starts like no operator and no numeral. -/
theorem chunk_word {height : Nat} {r : Rule} {p : Char → Bool}
    (hr : r ∈ [.boolean, .null, .undefined, .identifier, .property, .filterName])
    (hp : ∀ d, isNameStart d = true → p d = false) (h : r.Derives height .loose c c') :
    Chunk (Avoids p) Halts (fun ts => ∃ name, ts = [.word name]) c c' := by
  intro hC
  obtain ⟨word, hword, hrest⟩ := spells_of_derives_word hr h
  obtain ⟨d, tail, hcons, hstart, -⟩ := exists_cons_of_isName hword
  have hspells := spells_word hword
  rw [hrest]
  refine ⟨?_, _, ⟨_, rfl⟩, lexes_of_spells hspells (next?_of_spells hspells hC.1)⟩
  rw [hcons]
  rintro _ ⟨⟩
  exact hp d hstart

/-- The tokens are an operand. -/
def IsOperandText (ts : List Token) : Prop := ∃ o, Parser.IsOperand ts o

/-- The tokens are a chain of operands. -/
def IsChainText (ts : List Token) : Prop := ∃ chain, Parser.IsChain ts chain

/-- The tokens are an expression. -/
def IsExprText (ts : List Token) : Prop := ∃ e, Parser.IsExpr ts e

variable {height : Nat}

theorem chunk_signs (h : signs.Spans (Rule.Derives height .loose) .loose c c') :
    Chunk Fresh Fresh (fun ts => ∀ us, IsOperandText us → IsOperandText (ts ++ us)) c c' := by
  have hsign {t : Token} {op : UnaryOp} (hop : Parser.sign? t = some op) (ts : List Token)
      (hts : ts = [t]) (us : List Token) (hus : IsOperandText us) : IsOperandText (ts ++ us) := by
    obtain ⟨o, ho⟩ := hus
    exact hts ▸ ⟨_, .sign hop ho⟩
  cases height with
  | zero => rcases h with h | h | h <;> cases h
  | succ height =>
    rcases h with h | h | h
    · exact (chunk_fixed (t := .bang) rfl (fun _ hcs => hcs) (fun _ _ => by rintro _ ⟨⟩; rfl)
        h.1).imp (hsign rfl)
    · exact (chunk_fixed (t := .op .sub) rfl (fun _ _ _ _ => rfl) (fun _ _ => by rintro _ ⟨⟩; rfl)
        h.1).imp (hsign rfl)
    · exact (chunk_fixed (t := .op .add) rfl (fun _ _ _ _ => rfl) (fun _ _ => by rintro _ ⟨⟩; rfl)
        h.1).imp (hsign rfl)

theorem chunk_binaryOp (h : binaryOp.Spans (Rule.Derives height .loose) .loose c c') :
    Chunk Halts Fresh (fun ts => ∃ op, ts = [.op op]) c c' := by
  obtain ⟨op, hrest⟩ := exists_of_spans_binaryOp h
  refine (chunk_fixed (t := .op op) rfl (fun cs hcs => ?_) (fun cs _ => ?_) hrest).imp
    fun _ hts => ⟨op, hts⟩
  · cases op with
    | eq | ne | lt | gt => exact hcs
    | _ => exact fun _ _ => rfl
  · cases op <;> exact halts_cons (by decide) (by decide)

section Inner

-- the induction hypothesis: inner expressions are nested less deeply
variable (hexpr : ∀ k < height, ∀ c c', Rule.Derives k .loose .expression c c' →
  Chunk Fresh Halts IsExprText c c')

include hexpr

theorem chunk_brackets {r : Rule} {t t' : Token} {s s' : String} (hspacing : r.spacing = .loose)
    (hbody : r.body = Pattern.sequence (text s) [.rule .expression, text s'])
    (ht : t.fixed? = some s) (hstop : ∀ cs, Fresh cs → Avoids t.isJoinedBy cs)
    (hstart : ∀ cs, A (s.toList ++ cs)) (ht' : t'.fixed? = some s')
    (hstop' : ∀ cs, Avoids t'.isJoinedBy cs) (hstart' : ∀ cs, Halts (s'.toList ++ cs))
    (h : r.Derives height .loose c c') :
    Chunk A Halts (fun ts => ∃ us, IsExprText us ∧ ts = t :: (us ++ [t'])) c c' := by
  cases height with
  | zero => cases h
  | succ height =>
    rw [Rule.Derives, if_pos hspacing, hbody] at h
    obtain ⟨c₁, c₂, ⟨hopen, -⟩, hskips, c₃, c₄, hinner, hskips', hclose, -⟩ := h
    have hopen : Chunk A Fresh (· = [t]) c c₁ :=
      chunk_fixed ht hstop (fun cs _ => hstart cs) hopen
    have hclose : Chunk Halts Halts (· = [t']) c₄ c' :=
      chunk_fixed ht' (fun cs _ => hstop' cs) (fun cs _ => hstart' cs) hclose
    have htail : Chunk Fresh Halts (fun ts => ∃ us, IsExprText us ∧ ts = us ++ [t']) c₂ c' :=
      (hexpr height (Nat.lt_succ_self _) _ _ hinner).seq isStable_halts hskips' hclose
        fun ts us hts hus => ⟨ts, hts, by rw [hus]⟩
    refine hopen.seq isStable_fresh hskips htail ?_
    rintro ts us rfl ⟨vs, hvs, rfl⟩
    exact ⟨vs, hvs, rfl⟩

theorem chunk_primary (h : primary.Spans (Rule.Derives height .loose) .loose c c') :
    Chunk Fresh Halts IsOperandText c c' := by
  rcases exists_spells_of_primary h with ⟨t, s, value, hspells, hvalue, hrest⟩ | hparen
  · intro hC
    rw [hrest]
    obtain ⟨hfixed, hsign⟩ := fixed?_of_atom hvalue
    have hnext := next?_of_atom hspells hvalue hC
    refine ⟨fun d hd => ?_, [t], ⟨_, .atom hsign hvalue⟩, lexes_of_spells hspells hnext⟩
    have hne := (front_of_next? hnext).head_ne (d := '=') (by decide) (by rw [hfixed]; exact nofun)
    exact beq_eq_false_iff_ne.2 (hne d hd)
  · have hbrackets : Chunk Fresh Halts
        (fun ts => ∃ us, IsExprText us ∧ ts = .leftParen :: (us ++ [.rightParen])) c c' :=
      chunk_brackets hexpr rfl rfl rfl (fun _ _ _ _ => rfl) (fun _ => by rintro _ ⟨⟩; rfl) rfl
        (fun _ _ _ => rfl) (fun _ => halts_cons (by decide) (by decide)) hparen
    refine hbrackets.imp ?_
    rintro ts ⟨us, ⟨e, he⟩, rfl⟩
    exact ⟨_, .paren he⟩

theorem chunk_access (h : access.Spans (Rule.Derives height .loose) .loose c c') :
    Chunk Halts Halts (fun ts => ∀ us, IsOperandText us → IsOperandText (us ++ ts)) c c' := by
  rcases h with hmember | hindex
  · cases height with
    | zero => cases hmember
    | succ height =>
      obtain ⟨c₁, c₂, ⟨hpoint, -⟩, hskips, hproperty⟩ := hmember
      have hpoint : Chunk Halts (Avoids Char.isDigit) (· = [.dot]) c c₁ :=
        chunk_fixed rfl (fun _ hcs => hcs) (fun _ => halts_point) hpoint
      have hproperty : Chunk (Avoids Char.isDigit) Halts (fun ts => ∃ name, ts = [.word name])
          c₂ c' := chunk_word (by decide) (fun _ => isDigit_of_isNameStart) hproperty
      refine hpoint.seq (isStable_avoids (forall_isGap (by decide))) hskips hproperty ?_
      rintro ts us rfl ⟨name, rfl⟩ vs ⟨o, ho⟩
      exact ⟨_, .member name ho⟩
  · have hbrackets : Chunk Halts Halts
        (fun ts => ∃ us, IsExprText us ∧ ts = .leftBracket :: (us ++ [.rightBracket])) c c' :=
      chunk_brackets hexpr rfl rfl rfl (fun _ _ _ _ => rfl)
        (fun _ => halts_cons (by decide) (by decide)) rfl
        (fun _ _ _ => rfl) (fun _ => halts_cons (by decide) (by decide)) hindex
    refine hbrackets.imp ?_
    rintro ts ⟨us, ⟨e, he⟩, rfl⟩ vs ⟨o, ho⟩
    exact ⟨_, .index ho he⟩

theorem chunk_operand (h : operand.Spans (Rule.Derives height .loose) .loose c c') :
    Chunk Fresh Halts IsOperandText c c' := by
  obtain ⟨c₁, c₂, hsigns, hskips, c₃, c₄, hprimary, hskips', haccesses⟩ := h
  have hsigns := chunk_star isStable_fresh (fun us hus => hus)
    (fun ts us hts hus vs hvs => by rw [List.append_assoc]; exact hts _ (hus vs hvs))
    (fun _ _ => chunk_signs) hsigns
  have haccesses := chunk_suffixes isStable_halts (fun _ _ => chunk_access hexpr) haccesses
  have hunsigned := (chunk_primary hexpr hprimary).seq isStable_halts hskips' haccesses
    fun ts us hts hus => hus ts hts
  exact hsigns.seq isStable_fresh hskips hunsigned fun ts us hts hus => hts us hus

theorem chunk_binary (h : (Rule.body .binary).Spans (Rule.Derives height .loose) .loose c c') :
    Chunk Fresh Halts IsChainText c c' := by
  obtain ⟨c₁, c₂, hfirst, hskips, hlinks⟩ := h
  have hlink : ∀ c c', link.Spans (Rule.Derives height .loose) .loose c c' →
      Chunk Halts Halts (fun ts => ∀ us, IsChainText us → IsChainText (us ++ ts)) c c' := by
    rintro c c' ⟨c₁, c₂, hop, hskips, hoperand⟩
    refine (chunk_binaryOp hop).seq isStable_fresh hskips (chunk_operand hexpr hoperand) ?_
    rintro ts us ⟨op, rfl⟩ ⟨o, ho⟩ vs ⟨chain, hchain⟩
    exact ⟨_, .join op hchain (.single ho)⟩
  refine (chunk_operand hexpr hfirst).seq isStable_halts hskips
    (chunk_suffixes isStable_halts hlink hlinks) ?_
  rintro ts us ⟨o, ho⟩ hus
  exact hus ts ⟨_, .single ho⟩

end Inner

/-- The branches of a conditional after its test, if there are any. -/
theorem chunk_branches (hexpr : ∀ c c', Rule.Derives height .loose .expression c c' →
      Chunk Fresh Halts IsExprText c c')
    (h : (optional (Pattern.sequence (text "?")
      [.rule .expression, text ":", .rule .expression])).Spans
        (Rule.Derives height .loose) .loose c c') :
    Chunk Halts Halts (fun ts => ∀ us, IsChainText us → IsExprText (us ++ ts)) c c' := by
  rcases h with rfl | ⟨c₁, c₂, ⟨hquestion, -⟩, hskips₁, c₃, c₄, hconsequent, hskips₂, c₅, c₆,
    ⟨hcolon, -⟩, hskips₃, halternate⟩
  · refine chunk_nil.imp ?_
    rintro _ rfl us ⟨chain, hchain⟩
    rw [List.append_nil]
    exact ⟨_, .chain hchain⟩
  · have hquestion : Chunk Halts Fresh (· = [.question]) c c₁ := chunk_fixed rfl
      (fun _ _ _ _ => rfl) (fun _ _ => halts_cons (by decide) (by decide)) hquestion
    have hcolon : Chunk Halts Fresh (· = [.colon]) c₄ c₅ := chunk_fixed rfl
      (fun _ _ _ _ => rfl) (fun _ _ => halts_cons (by decide) (by decide)) hcolon
    have hsecond : Chunk Halts Halts (fun ts => ∃ us, IsExprText us ∧ ts = .colon :: us) c₄ c' :=
      hcolon.seq isStable_fresh hskips₃ (hexpr _ _ halternate) fun ts us hts hus =>
        ⟨us, hus, by rw [hts]; rfl⟩
    have hboth : Chunk Fresh Halts (fun ts => ∃ us vs, IsExprText us ∧ IsExprText vs ∧
        ts = us ++ .colon :: vs) c₂ c' := by
      refine (hexpr _ _ hconsequent).seq isStable_halts hskips₂ hsecond ?_
      rintro ts us hts ⟨vs, hvs, rfl⟩
      exact ⟨ts, vs, hts, hvs, rfl⟩
    refine hquestion.seq isStable_fresh hskips₁ hboth ?_
    rintro ts us rfl ⟨vs, ws, ⟨e, hvs⟩, ⟨e', hws⟩, rfl⟩ xs ⟨chain, hchain⟩
    exact ⟨_, .conditional hchain hvs hws⟩

/-- A derivation of an expression goes through the tokens of an expression. By induction on how
deeply rules are nested. -/
theorem chunk_expression (h : Rule.Derives height .loose .expression c c') :
    Chunk Fresh Halts IsExprText c c' := by
  induction height using Nat.strong_induction_on generalizing c c' with
  | _ height ih =>
    obtain _ | _ | height := height
    · cases h
    · obtain ⟨c₁, c₂, hchain, -⟩ := h
      cases hchain
    · obtain ⟨c₁, c₂, hchain, hskips, hbranches⟩ := h
      have hchain : Chunk Fresh Halts IsChainText c c₁ :=
        chunk_binary (fun k hk _ _ => ih k (by omega)) hchain
      have hbranches := chunk_branches (fun _ _ => ih (height + 1) (by omega)) hbranches
      exact hchain.seq isStable_halts hskips hbranches fun ts us hts hus => hus ts hts

theorem chunk_filter (h : Rule.Derives height .loose .filter c c') :
    Chunk Halts Halts (fun ts => ∃ name, ts = [.pipe, .word name]) c c' := by
  cases height with
  | zero => cases h
  | succ height =>
    obtain ⟨_, c₁, ⟨rfl, -⟩, hskips, c₂, c₃, ⟨hpipe, -⟩, hskips', hname⟩ := h
    have hpipe : Chunk Halts (Avoids (· == '|')) (· = [.pipe]) c₁ c₂ := chunk_fixed rfl
      (fun _ hcs => hcs) (fun _ _ => halts_cons (by decide) (by decide)) hpipe
    have hname : Chunk (Avoids (· == '|')) Halts (fun ts => ∃ name, ts = [.word name]) c₃ c' :=
      chunk_word (by decide)
        (fun _ hd => beq_eq_false_iff_ne.2 (ne_of_isNameStart hd (by decide))) hname
    refine .skipLeft isStable_halts hskips ?_
    refine hpipe.seq (isStable_avoids (forall_isGap (by decide))) hskips' hname ?_
    rintro ts us rfl ⟨name, rfl⟩
    exact ⟨name, rfl⟩

/-- The tokens of a derivable text are an expression, with or without a filter. -/
theorem exists_isInput_of_derivable {source : List Char} (h : Derivable source) :
    ∃ ts e, lex source = some ts ∧ Parser.IsInput ts e := by
  obtain ⟨height, c, h⟩ := h
  obtain _ | _ | height := height
  · cases h
  · obtain ⟨_, _, -, -, _, _, hexpr, -⟩ := h
    cases hexpr
  obtain ⟨_, c₁, ⟨-, rfl⟩, hskips, c₂, c₃, hexpr, hskips', c₄, c₅, hfilter, hskips'', hend, -⟩ := h
  have hfilter : Chunk Halts Halts (fun ts => ∀ us, IsExprText us →
      ∃ e, Parser.IsInput (us ++ ts) e) c₃ c₄ := by
    rcases hfilter with rfl | hfilter
    · refine chunk_nil.imp ?_
      rintro _ rfl us ⟨e, he⟩
      rw [List.append_nil]
      exact ⟨e, .plain he⟩
    · refine (chunk_filter hfilter).imp ?_
      rintro ts ⟨name, rfl⟩ us ⟨e, he⟩
      exact ⟨_, .filter name he⟩
  have hinput : Chunk Fresh Halts (fun ts => ∃ e, Parser.IsInput ts e) c₁ c₄ :=
    (chunk_expression hexpr).seq isStable_halts hskips' hfilter fun ts us hts hus => hus ts hts
  have hwhole : Chunk Fresh Halts (fun ts => ∃ e, Parser.IsInput ts e) ⟨0, source⟩ c₅ :=
    .skipLeft isStable_fresh hskips (hinput.skipRight isStable_halts hskips'')
  obtain ⟨-, ts, ⟨e, he⟩, hlexes⟩ := hwhole (by rw [hend]; exact ⟨nofun, rfl⟩)
  have hempty : lex c₅.rest = some [] := by
    rw [hend, lex_eq]
    rfl
  exact ⟨ts, e, by simpa using hlexes [] hempty, he⟩

theorem isSome_parse_iff {source : List Char} : ((lex source).bind Parser.parse).isSome = true ↔
    ∃ ts e, lex source = some ts ∧ Parser.IsInput ts e := by
  simp only [Option.isSome_iff_exists, Option.bind_eq_some_iff, Parser.parse_eq_some_iff]
  exact exists_comm

/-- A text is called malformed if it is not empty and holds no forbidden operator, but its tokens
are no expression. -/
theorem exists_malformed_iff {source : List Char} :
    (∃ report, Expr.readChars source = .error (.malformed (String.ofList source) report)) ↔
      source ≠ [] ∧ ForbiddenOp.find? source = none ∧
        ¬ ((lex source).bind Parser.parse).isSome = true := by
  unfold Expr.readChars
  by_cases hempty : source = []
  · simp [hempty]
  · rw [if_neg (by simpa using hempty)]
    cases ForbiddenOp.find? source with
    | some op => simp
    | none =>
      cases lex source with
      | none => simp [hempty]
      | some ts =>
        cases hparse : Parser.parse ts with
        | none => simp [hempty, hparse]
        | some e => cases hoverflow : ts.findSome? Expr.overflow? <;> simp [hparse, hoverflow]

/-- The run of the grammar, with ordered choice and greedy repetition, accepts exactly the texts
that the grammar derives. So does the reader of tokens, and a text is called malformed exactly if
the grammar does not derive it, unless it is empty or holds a forbidden operator. -/
theorem accepts_iff_derivable (source : List Char) :
    (accepts source = true ↔ Derivable source) ∧
    (((lex source).bind Parser.parse).isSome = true ↔ Derivable source) ∧
    ((∃ report, Expr.readChars source = .error (.malformed (String.ofList source) report)) ↔
      source ≠ [] ∧ ForbiddenOp.find? source = none ∧ ¬ Derivable source) := by
  have htokens : ((lex source).bind Parser.parse).isSome = true → accepts source = true := by
    intro h
    obtain ⟨ts, e, hlex, he⟩ := isSome_parse_iff.1 h
    exact accepts_of_isInput hlex he
  have hread : ((lex source).bind Parser.parse).isSome = true ↔ Derivable source :=
    ⟨fun h => derivable_of_accepts (htokens h),
      fun h => isSome_parse_iff.2 (exists_isInput_of_derivable h)⟩
  refine ⟨⟨derivable_of_accepts, fun h => htokens (hread.2 h)⟩, hread, ?_⟩
  rw [exists_malformed_iff, hread]

end Grammar
end Stencil
