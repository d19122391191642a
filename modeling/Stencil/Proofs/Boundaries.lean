import Stencil.Proofs.Derivability
import Stencil.Proofs.Layout
import Stencil.Proofs.RoundTrip

/-!
# Where tokens end

The reader of tokens takes the longest one: whether it stops after a token is a matter of that
token and of what follows it. The condition stays true when the text behind the token is cut short,
and also when it goes on with a character that no word and no numeral holds. So a text can be cut
between its tokens, and texts can be joined at such a character, and the tokens on both sides are
the same as before.
-/

namespace Stencil

variable {cs ds rest : List Char} {d : Char}

/-- A front without `d` ends before `d`. -/
theorem Text.prefix_of_not_mem {front : List Char} (h : front <+: cs ++ d :: ds) (hd : d ∉ front) :
    front <+: cs := by
  rcases List.prefix_or_prefix_of_prefix h (List.prefix_append cs (d :: ds)) with hfront | hcs
  · exact hfront
  · obtain ⟨more, rfl⟩ := hcs
    rw [List.prefix_append_right_inj] at h
    cases more with
    | nil => exact ⟨[], by simp⟩
    | cons c more =>
      obtain ⟨rfl, -⟩ := List.cons_prefix_cons.1 h
      exact absurd (by simp) hd

/-- A quotation ends with its quote. -/
theorem Text.Quoted.getLast?_of_readBody {quote : Char} {body text : List Char}
    (h : readBody quote body = some (text, [])) : body.getLast? = some quote := by
  fun_induction readBody quote body generalizing text with
  | case1 => cases h
  | case2 => cases h
  | case3 c tail ih =>
    obtain ⟨⟨text', after⟩, hread, heq⟩ := Option.map_eq_some_iff.1 h
    cases heq
    rw [List.getLast?_cons, List.getLast?_cons, ih hread]
    rfl
  | case4 tail =>
    cases h
    rfl
  | case5 c tail _ _ _ ih =>
    obtain ⟨⟨text', after⟩, hread, heq⟩ := Option.map_eq_some_iff.1 h
    cases heq
    rw [List.getLast?_cons, ih hread]
    rfl

namespace Numeral

variable {n m : Numeral}

/-- No longer numeral than `n` stands at the front of its characters and the text behind them. -/
def IsLongest (n : Numeral) (rest : List Char) : Prop :=
  ∀ m : Numeral, m.WellFormed → m.chars <+: n.chars ++ rest → m.chars <+: n.chars

theorem exists_readExponent_append {e : ExponentPart} (he : e.WellFormed) (rest : List Char) :
    ∃ e' rest', readExponent (e.chars ++ rest) = (some e', rest') ∧ e.chars <+: e'.chars := by
  have hsigned := readSign_chars he rest
  obtain ⟨hmark, -, hne, hdigits⟩ := he
  have htake : (e.digits ++ rest).takeWhile Char.isDigit =
      e.digits ++ rest.takeWhile Char.isDigit := List.takeWhile_append_of_pos hdigits
  refine ⟨⟨e.mark, e.sign, e.digits ++ rest.takeWhile Char.isDigit⟩,
    (e.digits ++ rest).dropWhile Char.isDigit, ?_, ?_⟩
  · rw [ExponentPart.chars, List.cons_append, List.append_assoc, readExponent, if_pos hmark]
    dsimp only
    rw [hsigned]
    dsimp only
    rw [htake]
    split
    · rename_i hnil
      exact absurd (List.append_eq_nil_iff.1 hnil).1 hne
    · rfl
  · exact ⟨rest.takeWhile Char.isDigit, by simp [ExponentPart.chars]⟩

/-- The digits before the point end where no digit follows. -/
theorem read?_whole_append {whole fraction tail : List Char}
    (hwhole : ∀ c ∈ whole, c.isDigit = true) (hstop : ∀ c ∈ tail.head?, c.isDigit = false)
    (hfraction : readFraction tail = (fraction, rest)) (hne : whole ≠ [] ∨ fraction ≠ []) :
    read? (whole ++ tail)
      = some (⟨whole, fraction, (readExponent rest).1⟩, (readExponent rest).2) := by
  have hsome : (whole.isEmpty && fraction.isEmpty) = false := by
    rcases hne with h | h <;> simp [h]
  simp [read?, Text.takeWhile_append_of_stop hwhole hstop,
    Text.dropWhile_append_of_stop hwhole hstop, hfraction, hsome]

/-- Whatever follows a numeral, at least the numeral is read: its last part may go on. -/
theorem exists_read?_append (hm : m.WellFormed) (rest : List Char) :
    ∃ n rest', read? (m.chars ++ rest) = some (n, rest') ∧ m.chars <+: n.chars := by
  obtain ⟨whole, fraction, exponent⟩ := m
  obtain ⟨hwhole, hfraction, hne, hexponent⟩ := hm
  dsimp only at hwhole hfraction hne hexponent
  -- only the last part that is there can take digits from what follows
  cases exponent with
  | some e =>
    obtain ⟨e', rest', hread, more, hmore⟩ := exists_readExponent_append (hexponent e rfl) rest
    have hmark : ∀ c ∈ (e.chars ++ rest).head?, c.isDigit = false ∧ c ≠ '.' := by
      rintro c ⟨⟩
      rcases (hexponent e rfl).1 with h | h <;> rw [h] <;> decide
    have hpoint := readFraction_chars hfraction (fun c hc => (hmark c hc).1)
      (readFraction_none fun c hc => (hmark c hc).2)
    have hstop : ∀ c ∈ ((if fraction.isEmpty then [] else '.' :: fraction) ++
        (e.chars ++ rest)).head?, c.isDigit = false := by
      split
      · exact fun c hc => (hmark c hc).1
      · rintro c ⟨⟩
        rfl
    have hnumber := read?_whole_append hwhole hstop hpoint hne
    rw [hread] at hnumber
    refine ⟨⟨whole, fraction, some e'⟩, rest', ?_, more, ?_⟩
    · simpa [chars_eq] using hnumber
    · simp [chars_eq, hmore]
  | none =>
    cases fraction with
    | cons d ds =>
      have hpoint : readFraction ('.' :: (d :: ds ++ rest))
          = (d :: ds ++ rest.takeWhile Char.isDigit, (d :: ds ++ rest).dropWhile Char.isDigit) := by
        rw [readFraction, List.takeWhile_append_of_pos hfraction]
        rfl
      have hchars : (Numeral.mk whole (d :: ds) none).chars ++ rest
          = whole ++ '.' :: (d :: ds ++ rest) := by
        simp [chars_eq]
      rw [hchars, read?_whole_append hwhole (by rintro c ⟨⟩; rfl) hpoint (.inr (by simp))]
      exact ⟨_, _, rfl, by simp [chars_eq, List.prefix_append]⟩
    | nil =>
      have hdigits : ∀ c ∈ whole ++ rest.takeWhile Char.isDigit, c.isDigit = true :=
        List.forall_mem_append.2 ⟨hwhole, fun c hc => List.mem_takeWhile_imp hc⟩
      have hchars : (Numeral.mk whole [] none).chars ++ rest
          = (whole ++ rest.takeWhile Char.isDigit) ++ rest.dropWhile Char.isDigit := by
        simp [chars_eq, List.takeWhile_append_dropWhile]
      rw [hchars, read?_whole_append hdigits (Text.head?_dropWhile rest) rfl
        (.inl fun h => hne.resolve_right (by simp) (List.append_eq_nil_iff.1 h).1)]
      exact ⟨_, _, rfl, by simp [chars_eq, List.prefix_append]⟩

/-- A numeral is known from its characters. -/
theorem chars_injective (hn : n.WellFormed) (hm : m.WellFormed) (h : n.chars = m.chars) :
    n = m := by
  have hends : Ends [] := ends_of_stop (by simp)
  have hread {k : Numeral} (hk : k.WellFormed) : read? k.chars = some (k, []) := by
    simpa using read?_append hk hends
  have heq := hread hn
  rw [h, hread hm] at heq
  cases heq
  rfl

/-- The longest numeral at the front is read, and no other one. -/
theorem read?_eq_some_iff :
    read? cs = some (n, rest) ↔ n.WellFormed ∧ cs = n.chars ++ rest ∧ n.IsLongest rest := by
  constructor
  · intro h
    obtain ⟨hn, rfl⟩ := eq_of_read? h
    refine ⟨hn, rfl, fun m hm ⟨tail, htail⟩ => ?_⟩
    obtain ⟨n', rest', hread, hstart⟩ := exists_read?_append hm tail
    rw [htail, h] at hread
    cases hread
    exact hstart
  · rintro ⟨hn, rfl, hlongest⟩
    obtain ⟨m, rest', hread, hstart⟩ := exists_read?_append hn rest
    obtain ⟨hm, heq⟩ := eq_of_read? hread
    -- each of the two starts with the other one
    have hchars : n.chars = m.chars := hstart.eq_of_length_le
      (hlongest m hm (heq ▸ List.prefix_append _ _)).length_le
    obtain rfl := chars_injective hn hm hchars
    rw [hread, List.append_cancel_left heq]

theorem IsLongest.cut (h : n.IsLongest (cs ++ ds)) : n.IsLongest cs := by
  intro m hm hstart
  refine h m hm (hstart.trans ?_)
  rw [← List.append_assoc]
  exact List.prefix_append _ _

/-- A numeral does not reach over a character that no numeral holds. -/
theorem IsLongest.append (h : n.IsLongest cs) (hd : Token.isLiteralChar d = false) :
    n.IsLongest (cs ++ d :: ds) := by
  intro m hm hstart
  rw [← List.append_assoc] at hstart
  refine h m hm (Text.prefix_of_not_mem hstart fun hmem => ?_)
  exact Token.isLiteralChar_ne (Token.isLiteralChar_number hm d hmem) hd rfl

theorem point_not_mem_exponent {e : ExponentPart} (he : e.WellFormed) : '.' ∉ e.chars := by
  obtain ⟨hmark, hsign, -, hdigits⟩ := he
  intro hmem
  rw [ExponentPart.chars, List.mem_cons, List.mem_append] at hmem
  rcases hmem with heq | hmem | hmem
  · rw [← heq] at hmark
    revert hmark
    decide
  · rcases hsign '.' (by simpa using hmem) with h | h <;> revert h <;> decide
  · cases hdigits '.' hmem

/-- The point of a numeral stands before a digit. -/
theorem WellFormed.exists_digit_after_point (hm : m.WellFormed) {front back : List Char}
    (h : m.chars = front ++ '.' :: back) : ∃ d tail, back = d :: tail ∧ d.isDigit = true := by
  obtain ⟨whole, fraction, exponent⟩ := m
  obtain ⟨hwhole, hfraction, -, hexponent⟩ := hm
  have hwhole' : '.' ∉ whole := fun hmem => by cases hwhole '.' hmem
  have hfraction' : '.' ∉ fraction := fun hmem => by cases hfraction '.' hmem
  have hexponent' : '.' ∉ (exponent.map ExponentPart.chars).getD [] := by
    cases exponent with
    | none => simp
    | some e => exact point_not_mem_exponent (hexponent e rfl)
  rw [chars_eq] at h
  cases fraction with
  | nil =>
    have hmem : '.' ∈ front ++ '.' :: back := by simp
    rw [← h] at hmem
    simp [hwhole', hexponent'] at hmem
  | cons d ds =>
    rw [if_neg (by simp), List.cons_append] at h
    have hback : '.' ∉ d :: ds ++ (exponent.map ExponentPart.chars).getD [] := by
      rw [List.mem_append]
      exact fun hmem => hmem.elim hfraction' hexponent'
    obtain ⟨-, -, rfl⟩ := (List.append_cons_inj_of_notMem hwhole' hback).1 h
    exact ⟨d, _, rfl, hfraction d (by simp)⟩

/-- A numeral does not reach over a point that no digit follows. -/
theorem IsLongest.append_access (h : n.IsLongest cs) (hds : ∀ c ∈ ds.head?, c.isDigit = false) :
    n.IsLongest (cs ++ '.' :: ds) := by
  intro m hm hstart
  rw [← List.append_assoc] at hstart
  rcases List.prefix_or_prefix_of_prefix hstart (List.prefix_append (n.chars ++ cs) ('.' :: ds))
    with hshort | ⟨more, hmore⟩
  · exact h m hm hshort
  · rw [← hmore, List.prefix_append_right_inj] at hstart
    cases more with
    | nil => exact h m hm ⟨[], by simpa using hmore.symm⟩
    | cons c more =>
      obtain ⟨rfl, hback⟩ := List.cons_prefix_cons.1 hstart
      obtain ⟨d, tail, rfl, hdigit⟩ := hm.exists_digit_after_point hmore.symm
      obtain ⟨after, rfl⟩ := hback
      cases (hds d rfl).symm.trans hdigit

end Numeral

namespace Token

variable {t : Token} {ts us : List Token} {s : List Char}

/-- The text does not go on with the token. -/
def EndsBefore : Token → List Char → Prop
  | .word _, rest => Avoids isNameChar rest
  | .number n, rest => n.IsLongest rest
  | .string _, _ => True
  | t, rest => Avoids t.isJoinedBy rest

theorem endsBefore_fixed {text : String} (ht : t.fixed? = some text) :
    t.EndsBefore rest ↔ Avoids t.isJoinedBy rest := by
  cases t with
  | word | number | string => cases ht
  | _ => rfl

/-- A token is read where it is written and the text does not go on with it, and nowhere else. -/
theorem next?_eq_some_iff :
    next? cs = some (t, rest) ↔ ∃ s, Spells t s ∧ cs = s ++ rest ∧ t.EndsBefore rest := by
  constructor
  · intro h
    cases front_of_next? h with
    | word =>
      refine ⟨_, .word (isName_of_next? h), ?_, Text.head?_dropWhile _⟩
      rw [String.toList_ofList, List.cons_append, List.takeWhile_append_dropWhile]
    | string hquote hbody =>
      obtain ⟨body, rfl, hread⟩ := Text.Quoted.exists_of_readBody hbody
      exact ⟨_, .string hquote hread, rfl, trivial⟩
    | number hread =>
      obtain ⟨hn, heq, hlongest⟩ := Numeral.read?_eq_some_iff.1 hread
      exact ⟨_, .number hn, heq, hlongest⟩
    | fixed hs _ hjoin => exact ⟨_, .fixed hs, rfl, (endsBefore_fixed hs).2 hjoin⟩
  · rintro ⟨s, hs, rfl, hends⟩
    cases hs with
    | word hname => exact next?_of_spells (.word hname) hends
    | @number n hn =>
      have hread := Numeral.read?_eq_some_iff.2 ⟨hn, rfl, hends⟩
      obtain ⟨c, tail, hchars, hc⟩ := hn.exists_chars_cons
      obtain ⟨hstart, hquote⟩ := isNameStart_of_numeral hc
      rw [hchars, List.cons_append] at hread ⊢
      rw [next?, if_neg (by simp [hstart]), if_neg (by simp [hquote]), hread]
    | string hquote hbody => exact next?_of_spells (.string hquote hbody) fun _ _ => rfl
    | fixed hs => exact next?_fixed hs ((endsBefore_fixed hs).1 hends)

theorem EndsBefore.cut (h : t.EndsBefore (cs ++ ds)) : t.EndsBefore cs := by
  have havoids {p : Char → Bool} (hp : Avoids p (cs ++ ds)) : Avoids p cs := by
    intro c hc
    exact hp c (by rw [List.eq_cons_of_mem_head? hc]; rfl)
  cases t with
  | number n => exact Numeral.IsLongest.cut h
  | string => trivial
  | _ => exact havoids h

/-- No word goes on with the text, and no numeral reaches into it. -/
structure Severs (ds : List Char) : Prop where
  word : ∀ c ∈ ds.head?, isNameChar c = false
  numeral : ∀ {n : Numeral} {cs : List Char}, n.IsLongest cs → n.IsLongest (cs ++ ds)

theorem severs_cons (hd : isLiteralChar d = false) (ds : List Char) : Severs (d :: ds) := by
  refine ⟨?_, fun h => h.append hd⟩
  rintro _ ⟨⟩
  refine Bool.eq_false_iff.2 fun hname => ?_
  rw [isLiteralChar_of_isNameChar hname] at hd
  cases hd

theorem severs_access (hds : ∀ c ∈ ds.head?, c.isDigit = false) : Severs ('.' :: ds) := by
  refine ⟨?_, fun h => h.append_access hds⟩
  rintro _ ⟨⟩
  decide

/-- A token does not reach over a text that severs it, unless the first character directly follows
it and goes on with it. -/
theorem EndsBefore.append (h : t.EndsBefore cs) (hds : Severs (d :: ds))
    (hjoin : cs = [] → t.isJoinedBy d = false) : t.EndsBefore (cs ++ d :: ds) := by
  have havoids {p : Char → Bool} (hp : Avoids p cs) (hnil : cs = [] → p d = false) :
      Avoids p (cs ++ d :: ds) := by
    cases cs with
    | nil =>
      rintro _ ⟨⟩
      exact hnil rfl
    | cons c cs => exact hp
  cases t with
  | word name => exact havoids h fun _ => hds.word d rfl
  | number n => exact hds.numeral h
  | string => trivial
  | _ => exact havoids h hjoin

theorem isWhite_of_isLiteralChar {c : Char} (h : isLiteralChar c = true) :
    Text.isWhite c = false := by
  simp only [isLiteralChar, Bool.or_eq_true, beq_iff_eq] at h
  rcases h with ((h | rfl) | rfl) | rfl
  · exact isWhite_of_isNameChar h
  · decide
  · decide
  · decide

/-- No token starts or ends with white space. -/
theorem Spells.trimmed (hs : Spells t s) : Text.Trimmed s := by
  cases hs with
  | word hname => exact trimmed_of_isName hname
  | number hn =>
    obtain ⟨c, tail, hchars, -⟩ := hn.exists_chars_cons
    exact .of_forall (by simp [hchars]) fun c hc =>
      isWhite_of_isLiteralChar (isLiteralChar_number hn c hc)
  | @string quote body text hquote hbody =>
    have hwhite : Text.isWhite quote = false := by
      rcases hquote with rfl | rfl <;> decide
    refine ⟨⟨quote, rfl, hwhite⟩, quote, ?_, hwhite⟩
    rw [List.getLast?_cons, Text.Quoted.getLast?_of_readBody hbody]
    rfl
  | fixed ht => exact trimmed_fixed ht

/-- A text with a token is blanks, the token and a text with the other tokens, which does not go on
with the token. -/
theorem exists_of_lex_cons (h : lex cs = some (t :: ts)) :
    ∃ blanks s rest, cs = blanks ++ (s ++ rest) ∧ (∀ b ∈ blanks, Text.isGap b = true) ∧
      Spells t s ∧ t.EndsBefore rest ∧ lex rest = some ts := by
  obtain ⟨rest, hnext, hrest⟩ := exists_next?_of_lex h
  obtain ⟨s, hs, heq, hends⟩ := next?_eq_some_iff.1 hnext
  refine ⟨cs.takeWhile Text.isGap, s, rest, ?_, fun b hb => List.mem_takeWhile_imp hb, hs, hends,
    hrest⟩
  rw [← heq, List.takeWhile_append_dropWhile]

theorem lex_cons {blanks : List Char} (hblanks : ∀ b ∈ blanks, Text.isGap b = true)
    (hs : Spells t s) (hends : t.EndsBefore rest) (hrest : lex rest = some ts) :
    lex (blanks ++ (s ++ rest)) = some (t :: ts) := by
  have hnext : next? (s ++ rest) = some (t, rest) := next?_eq_some_iff.2 ⟨s, hs, rfl, hends⟩
  exact (lexes_blanks hblanks).append (lexes_of_spells hs hnext) ts hrest

theorem lex_eq_nil_iff : lex cs = some [] ↔ ∀ b ∈ cs, Text.isGap b = true := by
  rw [← List.dropWhile_eq_nil_iff]
  constructor
  · exact dropWhile_of_lex_nil
  · intro h
    rw [lex_eq, h]

/-- A text can be cut between any two of its tokens; the front ends right after its last one. -/
theorem exists_append_of_lex (h : lex cs = some (ts ++ us)) :
    ∃ front back, cs = front ++ back ∧ lex front = some ts ∧ lex back = some us ∧
      ∀ c ∈ front.getLast?, Text.isWhite c = false := by
  induction ts generalizing cs with
  | nil => exact ⟨[], cs, rfl, lex_eq_nil_iff.2 (by simp), h, by simp⟩
  | cons t ts ih =>
    obtain ⟨blanks, s, rest, rfl, hblanks, hs, hends, hrest⟩ := exists_of_lex_cons h
    obtain ⟨front, back, rfl, hfront, hback, hlast⟩ := ih hrest
    refine ⟨blanks ++ (s ++ front), back, by simp, lex_cons hblanks hs hends.cut hfront, hback, ?_⟩
    obtain ⟨c, hc, hwhite⟩ := hs.trimmed.last
    intro d hd
    rw [List.getLast?_append, List.getLast?_append, Option.mem_def.1 hc] at hd
    cases hend : front.getLast? with
    | none =>
      rw [hend] at hd
      cases hd
      exact hwhite
    | some e =>
      rw [hend] at hd
      cases hd
      exact hlast d hend

/-- Texts are joined where the second one severs words and numerals, and does not go on with the
last token of the first. -/
theorem lex_append (h : lex cs = some ts) (hd : Severs (d :: ds))
    (hlast : ∀ t ∈ ts.getLast?, t.isJoinedBy d = false) (hds : lex (d :: ds) = some us) :
    lex (cs ++ d :: ds) = some (ts ++ us) := by
  induction ts generalizing cs with
  | nil => exact lexes_blanks (lex_eq_nil_iff.1 h) us hds
  | cons t ts ih =>
    obtain ⟨blanks, s, rest, rfl, hblanks, hs, hends, hrest⟩ := exists_of_lex_cons h
    rw [List.append_assoc, List.append_assoc]
    refine lex_cons hblanks hs (hends.append hd ?_) (ih hrest ?_)
    · rintro rfl
      cases Option.some.inj ((lex_eq_nil_iff.2 (by simp)).symm.trans hrest)
      exact hlast t rfl
    · intro u hu
      exact hlast u (by rw [List.getLast?_cons, hu]; rfl)

end Token
end Stencil
