import Stencil.Expr.Parser
import Stencil.Proofs.Language
import Stencil.Proofs.Lexicon

/-!
# Spellings in a derivation

What a derivation of a name, a numeral or a quotation spans is a spelling of a token, however the
derivation repeats and chooses. It need not be the longest one: that is a matter of what follows.
-/

namespace Stencil

namespace Grammar

variable {rule : Rule → Cursor → Cursor → Prop} {spacing : Spacing} {c c' : Cursor}

theorem Cursor.Skips.rest_eq (h : c.Skips spacing c') (hspacing : spacing ≠ .loose) :
    c'.rest = c.rest := by
  obtain ⟨blanks, hrest, -, -, hblanks⟩ := h
  obtain rfl := hblanks.resolve_left hspacing
  exact hrest.symm

namespace Pattern

variable {p q : Pattern}

theorem exists_of_spans_seq (h : (seq p q).Spans rule .sealed c c') :
    ∃ c₁ c₂, p.Spans rule .sealed c c₁ ∧ c₂.rest = c₁.rest ∧ q.Spans rule .sealed c₂ c' := by
  obtain ⟨c₁, c₂, hp, hskips, hq⟩ := h
  exact ⟨c₁, c₂, hp, hskips.rest_eq (by decide), hq⟩

/-- Single characters, one after the other. -/
theorem exists_of_spans_star_one {set : CharSet} (h : (star (one set)).Spans rule .sealed c c') :
    ∃ cs, (∀ d ∈ cs, set.mem d = true) ∧ c.rest = cs ++ c'.rest := by
  rcases h with rfl | h
  · exact ⟨[], by simp, rfl⟩
  · induction h with
    | one hitem =>
      obtain ⟨d, hd, hrest, -⟩ := hitem
      exact ⟨[d], by simpa using hd, hrest⟩
    | more hitem hskips _ ih =>
      obtain ⟨d, hd, hrest, -⟩ := hitem
      obtain ⟨cs, hcs, hrest'⟩ := ih
      rw [hskips.rest_eq (by decide)] at hrest'
      exact ⟨d :: cs, List.forall_mem_cons.2 ⟨hd, hcs⟩, by rw [hrest, hrest']; rfl⟩

theorem exists_of_spans_name (h : name.Spans rule .sealed c c') :
    ∃ w, Token.isName w = true ∧ c.rest = w ++ c'.rest := by
  obtain ⟨c₁, c₂, ⟨d, hd, hrest, -⟩, heq, hstar⟩ := exists_of_spans_seq h
  obtain ⟨cs, hcs, hrest'⟩ := exists_of_spans_star_one hstar
  refine ⟨d :: cs, ?_, by rw [hrest, ← heq, hrest']; rfl⟩
  exact Bool.and_eq_true_iff.2 ⟨hd, List.all_eq_true.2 hcs⟩

theorem exists_of_spans_digits (h : digits.Spans rule .sealed c c') :
    ∃ ds, ds ≠ [] ∧ (∀ d ∈ ds, d.isDigit = true) ∧ c.rest = ds ++ c'.rest := by
  obtain ⟨c₁, c₂, ⟨d, hd, hrest, -⟩, heq, hstar⟩ := exists_of_spans_seq h
  obtain ⟨cs, hcs, hrest'⟩ := exists_of_spans_star_one hstar
  exact ⟨d :: cs, List.cons_ne_nil _ _, List.forall_mem_cons.2 ⟨hd, hcs⟩,
    by rw [hrest, ← heq, hrest']; rfl⟩

theorem exists_of_spans_point (h : (seq (text ".") digits).Spans rule .sealed c c') :
    ∃ ds, ds ≠ [] ∧ (∀ d ∈ ds, d.isDigit = true) ∧ c.rest = '.' :: ds ++ c'.rest := by
  obtain ⟨c₁, c₂, ⟨hrest, -⟩, heq, hdigits⟩ := exists_of_spans_seq h
  obtain ⟨ds, hne, hds, hrest'⟩ := exists_of_spans_digits hdigits
  exact ⟨ds, hne, hds, by rw [hrest, ← heq, hrest']; rfl⟩

theorem exists_of_spans_exponent (h : (sequence (choice (text "e") (text "E"))
    [optional (choice (text "+") (text "-")), digits]).Spans rule .sealed c c') :
    ∃ e : ExponentPart, e.WellFormed ∧ c.rest = e.chars ++ c'.rest := by
  obtain ⟨c₁, c₂, hmark, heq, hsigned⟩ := exists_of_spans_seq h
  obtain ⟨c₃, c₄, hsign, heq', hdigits⟩ := exists_of_spans_seq hsigned
  obtain ⟨ds, hne, hds, hrest⟩ := exists_of_spans_digits hdigits
  obtain ⟨mark, hmark, hmarkRest⟩ : ∃ m, (m = 'e' ∨ m = 'E') ∧ c.rest = m :: c₁.rest := by
    rcases hmark with h | h
    · exact ⟨'e', .inl rfl, h.1⟩
    · exact ⟨'E', .inr rfl, h.1⟩
  obtain ⟨sign, hsign, hsignRest⟩ : ∃ s : Option Char, (∀ x ∈ s, x = '+' ∨ x = '-') ∧
      c₂.rest = s.toList ++ c₃.rest := by
    rcases hsign with rfl | h | h
    · exact ⟨none, nofun, rfl⟩
    · exact ⟨some '+', by rintro x ⟨⟩; exact .inl rfl, h.1⟩
    · exact ⟨some '-', by rintro x ⟨⟩; exact .inr rfl, h.1⟩
  refine ⟨⟨mark, sign, ds⟩, ⟨hmark, hsign, hne, hds⟩, ?_⟩
  rw [hmarkRest, ← heq, hsignRest, ← heq', hrest]
  simp [ExponentPart.chars]

/-- The digits of a numeral before and after its point. -/
theorem exists_of_spans_mantissa
    (h : (choice (seq digits (optional (seq (text ".") digits))) (seq (text ".") digits)).Spans rule
      .sealed c c') :
    ∃ whole fraction, (∀ d ∈ whole, d.isDigit = true) ∧ (∀ d ∈ fraction, d.isDigit = true) ∧
      (whole ≠ [] ∨ fraction ≠ []) ∧
      c.rest = whole ++ ((if fraction.isEmpty then [] else '.' :: fraction) ++ c'.rest) := by
  rcases h with h | h
  · obtain ⟨c₁, c₂, hdigits, heq, hpoint⟩ := exists_of_spans_seq h
    obtain ⟨whole, hne, hwhole, hrest⟩ := exists_of_spans_digits hdigits
    rcases hpoint with rfl | hpoint
    · exact ⟨whole, [], hwhole, by simp, .inl hne, by rw [hrest, ← heq]; rfl⟩
    · obtain ⟨fraction, hne', hfraction, hrest'⟩ := exists_of_spans_point hpoint
      exact ⟨whole, fraction, hwhole, hfraction, .inl hne, by simp [hrest, ← heq, hrest', hne']⟩
  · obtain ⟨fraction, hne, hfraction, hrest⟩ := exists_of_spans_point h
    exact ⟨[], fraction, by simp, hfraction, .inr hne, by simp [hrest, hne]⟩

theorem exists_of_spans_numeral (h : numeral.Spans rule .sealed c c') :
    ∃ n : Numeral, n.WellFormed ∧ c.rest = n.chars ++ c'.rest := by
  obtain ⟨c₁, c₂, hmantissa, heq, hexponent⟩ := exists_of_spans_seq h
  obtain ⟨whole, fraction, hwhole, hfraction, hne, hrest⟩ := exists_of_spans_mantissa hmantissa
  rcases hexponent with rfl | hexponent
  · refine ⟨⟨whole, fraction, none⟩, ⟨hwhole, hfraction, hne, nofun⟩, ?_⟩
    rw [hrest, ← heq]
    simp [Numeral.chars]
  · obtain ⟨e, he, hrest'⟩ := exists_of_spans_exponent hexponent
    refine ⟨⟨whole, fraction, some e⟩, ⟨hwhole, hfraction, hne, by rintro x ⟨⟩; exact he⟩, ?_⟩
    rw [hrest, ← heq, hrest']
    simp [Numeral.chars]

theorem exists_of_spans_keyword (h : (keyword p).Spans rule .sealed c c') :
    ∃ c₁, p.Spans rule .sealed c c₁ ∧ c'.rest = c₁.rest := by
  obtain ⟨c₁, c₂, hword, heq, rfl, -⟩ := exists_of_spans_seq h
  exact ⟨c₁, hword, heq⟩

section Quoted

variable {quote : String} {q : Char}

/-- The characters are read as quoted text, whatever follows them. -/
def ReadsQuoted (q : Char) (cs : List Char) : Prop :=
  ∃ text, ∀ tail, Text.Quoted.readBody q (cs ++ tail) =
    (Text.Quoted.readBody q tail).map fun (more, after) => (text ++ more, after)

theorem ReadsQuoted.append {cs ds : List Char} (hcs : ReadsQuoted q cs) (hds : ReadsQuoted q ds) :
    ReadsQuoted q (cs ++ ds) := by
  obtain ⟨text, htext⟩ := hcs
  obtain ⟨text', htext'⟩ := hds
  refine ⟨text ++ text', fun tail => ?_⟩
  rw [List.append_assoc, htext, htext', Option.map_map]
  simp [Function.comp_def]

theorem exists_of_spans_quotedChar (hquote : quote.toList = [q])
    (h : (quotedChar quote).Spans rule .sealed c c') :
    ∃ cs, ReadsQuoted q cs ∧ c.rest = cs ++ c'.rest := by
  rcases h with h | h
  · obtain ⟨c₁, c₂, ⟨hrest, -⟩, heq, d, -, hrest', -⟩ := exists_of_spans_seq h
    refine ⟨['\\', d], ⟨[Text.Quoted.unescape d], fun tail => rfl⟩, ?_⟩
    rw [hrest, ← heq, hrest']
    rfl
  · obtain ⟨c₁, c₂, ⟨rfl, habsent⟩, heq, d, -, hrest, -⟩ := exists_of_spans_seq h
    rw [heq] at hrest
    have hquoted : d ≠ q := by
      rintro rfl
      exact habsent ⟨c₁.position + quote.length, c'.rest⟩ (.inl ⟨by rw [hrest, hquote]; rfl, rfl⟩)
    have hslash : d ≠ '\\' := by
      rintro rfl
      exact habsent ⟨c₁.position + 1, c'.rest⟩ (.inr ⟨hrest, rfl⟩)
    refine ⟨[d], ⟨[d], fun tail => ?_⟩, hrest⟩
    rw [List.singleton_append, Text.Quoted.readBody_cons hslash, if_neg hquoted]
    rfl

theorem exists_of_spans_quotedBody (hquote : quote.toList = [q])
    (h : (quotedBody quote).Spans rule .sealed c c') :
    ∃ cs, ReadsQuoted q cs ∧ c.rest = cs ++ c'.rest := by
  rcases h with rfl | h
  · exact ⟨[], ⟨[], fun tail => by simp⟩, rfl⟩
  · induction h with
    | one hitem => exact exists_of_spans_quotedChar hquote hitem
    | more hitem hskips _ ih =>
      obtain ⟨cs, hcs, hrest⟩ := exists_of_spans_quotedChar hquote hitem
      obtain ⟨ds, hds, hrest'⟩ := ih
      rw [hskips.rest_eq (by decide)] at hrest'
      exact ⟨cs ++ ds, hcs.append hds, by rw [hrest, hrest', List.append_assoc]⟩

theorem spells_of_spans_delimited (hquote : quote.toList = [q]) (hq : q = '"' ∨ q = '\'') {r : Rule}
    (hr : ∀ c c', rule r c c' → ∃ cs, ReadsQuoted q cs ∧ c.rest = cs ++ c'.rest)
    (h : (sequence (text quote) [.rule r, text quote]).Spans rule .compact c c') :
    ∃ text s, Token.Spells (.string text) s ∧ c.rest = s ++ c'.rest := by
  obtain ⟨c₁, c₂, ⟨hopen, -⟩, hskips, c₃, c₄, hbody, hskips', hclose, -⟩ := h
  obtain ⟨cs, ⟨text, htext⟩, hrest⟩ := hr _ _ hbody
  have hread : Text.Quoted.readBody q (cs ++ [q]) = some (text, []) := by
    have hslash : q ≠ '\\' := by rcases hq with rfl | rfl <;> decide
    rw [htext, Text.Quoted.readBody_cons hslash, if_pos rfl]
    simp
  refine ⟨_, q :: (cs ++ [q]), .string hq hread, ?_⟩
  rw [hopen, hquote, ← hskips.rest_eq (by decide), hrest, ← hskips'.rest_eq (by decide), hclose,
    hquote]
  simp

end Quoted

end Pattern

open Pattern

theorem exists_of_derives_quoted {height : Nat} {outer : Spacing} {r : Rule} {quote : String}
    {q : Char} (hbody : r.body = quotedBody quote) (hspacing : r.spacing = .sealed)
    (hquote : quote.toList = [q]) (h : r.Derives height outer c c') :
    ∃ cs, ReadsQuoted q cs ∧ c.rest = cs ++ c'.rest := by
  cases height with
  | zero => cases h
  | succ height =>
    rw [Rule.Derives, hbody, hspacing] at h
    exact exists_of_spans_quotedBody hquote h

theorem spells_of_derives_string {height : Nat} (h : Rule.Derives height .loose .string c c') :
    ∃ text s, Token.Spells (.string text) s ∧ c.rest = s ++ c'.rest := by
  cases height with
  | zero => cases h
  | succ height =>
    rcases h with h | h
    · exact spells_of_spans_delimited rfl (.inl rfl)
        (fun _ _ => exists_of_derives_quoted rfl rfl rfl) h
    · exact spells_of_spans_delimited rfl (.inr rfl)
        (fun _ _ => exists_of_derives_quoted rfl rfl rfl) h

/-- What a literal word or a name spans is the spelling of a word. -/
theorem spells_of_derives_word {height : Nat} {r : Rule}
    (hr : r ∈ [.boolean, .null, .undefined, .identifier, .property, .filterName])
    (h : r.Derives height .loose c c') :
    ∃ word, Token.isName word = true ∧ c.rest = word ++ c'.rest := by
  cases height with
  | zero => cases h
  | succ height =>
    simp only [List.mem_cons, List.not_mem_nil, or_false] at hr
    rcases hr with rfl | rfl | rfl | rfl | rfl | rfl
    · obtain ⟨c₁, h | h, heq⟩ := exists_of_spans_keyword h
      · exact ⟨"true".toList, by decide, heq ▸ h.1⟩
      · exact ⟨"false".toList, by decide, heq ▸ h.1⟩
    · obtain ⟨c₁, h, heq⟩ := exists_of_spans_keyword h
      exact ⟨"null".toList, by decide, heq ▸ h.1⟩
    · obtain ⟨c₁, h, heq⟩ := exists_of_spans_keyword h
      exact ⟨"undefined".toList, by decide, heq ▸ h.1⟩
    · exact exists_of_spans_name h
    · exact exists_of_spans_name h
    · exact exists_of_spans_name h

theorem spells_word {word : List Char} (h : Token.isName word = true) :
    Token.Spells (.word (String.ofList word)) word := by
  have hword : Token.Spells (.word (String.ofList word)) (String.ofList word).toList :=
    .word (by rwa [String.toList_ofList])
  rwa [String.toList_ofList] at hword

/-- What a primary expression other than one in brackets spans is a literal or a name. -/
theorem exists_spells_of_primary {height : Nat}
    (h : primary.Spans (Rule.Derives height .loose) .loose c c') :
    (∃ t s value, Token.Spells t s ∧ Parser.atom? t = some value ∧ c.rest = s ++ c'.rest) ∨
      Rule.Derives height .loose .paren c c' := by
  have hword {r : Rule}
      (hr : r ∈ [.boolean, .null, .undefined, .identifier, .property, .filterName])
      (h : r.Derives height .loose c c') : ∃ t s value, Token.Spells t s ∧
        Parser.atom? t = some value ∧ c.rest = s ++ c'.rest := by
    obtain ⟨word, hname, hrest⟩ := spells_of_derives_word hr h
    exact ⟨_, _, _, spells_word hname, rfl, hrest⟩
  rcases h with h | h | h | h | h | h | h
  · cases height with
    | zero => cases h
    | succ height =>
      obtain ⟨n, hn, hrest⟩ := exists_of_spans_numeral h
      exact .inl ⟨_, _, _, .number hn, rfl, hrest⟩
  · obtain ⟨text, s, hspells, hrest⟩ := spells_of_derives_string h
    exact .inl ⟨_, _, _, hspells, rfl, hrest⟩
  · exact .inl (hword (by decide) h)
  · exact .inl (hword (by decide) h)
  · exact .inl (hword (by decide) h)
  · exact .inl (hword (by decide) h)
  · exact .inr h

/-- What a binary operator spans is its symbol. -/
theorem exists_of_spans_binaryOp {height : Nat}
    (h : binaryOp.Spans (Rule.Derives height .loose) .loose c c') :
    ∃ op : BinaryOp, c.rest = op.symbol.toList ++ c'.rest := by
  cases height with
  | zero =>
    rcases h with h | h | h | h | h | h | h | h | h | h | h | h | h | h | h <;> cases h
  | succ height =>
    rcases h with h | h | h | h | h | h | h | h | h | h | h | h | h | h | h
    · exact ⟨.or, h.1⟩
    · exact ⟨.and, h.1⟩
    · exact ⟨.strictEq, h.1⟩
    · exact ⟨.strictNe, h.1⟩
    · exact ⟨.eq, h.1⟩
    · exact ⟨.ne, h.1⟩
    · exact ⟨.le, h.1⟩
    · exact ⟨.ge, h.1⟩
    · exact ⟨.lt, h.1⟩
    · exact ⟨.gt, h.1⟩
    · exact ⟨.add, h.1⟩
    · exact ⟨.sub, h.1⟩
    · exact ⟨.mul, h.1⟩
    · exact ⟨.div, h.1⟩
    · exact ⟨.rem, h.1⟩

end Grammar
end Stencil
