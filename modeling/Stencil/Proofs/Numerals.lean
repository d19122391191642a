import Stencil.Expr.Code
import Stencil.Number.Numeral
import Stencil.Proofs.Rounding
import Stencil.Proofs.Text

/-!
# Written numbers

A numeral is read back from its characters where no further digit, point or exponent follows. The
number that a finite, non-negative value is written as is such a numeral, without an exponent, and
stands for that value.
-/

namespace Stencil

/-- A mark, at most one sign and at least one digit. -/
def ExponentPart.WellFormed (e : ExponentPart) : Prop :=
  (e.mark = 'e' ∨ e.mark = 'E') ∧ (∀ s ∈ e.sign, s = '+' ∨ s = '-') ∧ e.digits ≠ [] ∧
    ∀ c ∈ e.digits, c.isDigit = true

namespace Numeral

/-- At least one digit before or after the point. -/
structure WellFormed (n : Numeral) : Prop where
  whole : ∀ c ∈ n.whole, c.isDigit = true
  fraction : ∀ c ∈ n.fraction, c.isDigit = true
  nonempty : n.whole ≠ [] ∨ n.fraction ≠ []
  exponent : ∀ e ∈ n.exponent, e.WellFormed

/-- The characters that may continue a numeral. -/
def isContinuation (c : Char) : Bool :=
  c.isDigit || c == '.' || c == 'e' || c == 'E'

variable {rest : List Char}

theorem readSign_digits {ds : List Char} (hd : ∀ c ∈ ds, c.isDigit = true) (hne : ds ≠ []) :
    readSign (ds ++ rest) = (none, ds ++ rest) := by
  obtain ⟨c, ds, rfl⟩ := List.exists_cons_of_ne_nil hne
  have hc := hd c (by simp)
  unfold readSign
  split
  · rename_i heq
    cases heq
    simp at hc
  · rename_i heq
    cases heq
    simp at hc
  · rfl

theorem readSign_chars {e : ExponentPart} (he : e.WellFormed) (rest : List Char) :
    readSign (e.sign.toList ++ (e.digits ++ rest)) = (e.sign, e.digits ++ rest) := by
  obtain ⟨-, hsign, hne, hdigits⟩ := he
  cases hs : e.sign with
  | none => simpa using readSign_digits hdigits hne
  | some s =>
    rcases hsign s hs with rfl | rfl <;> rfl

theorem readExponent_chars {e : ExponentPart} (he : e.WellFormed)
    (hrest : ∀ c ∈ rest.head?, c.isDigit = false) :
    readExponent (e.chars ++ rest) = (some e, rest) := by
  have hsign := readSign_chars he rest
  obtain ⟨hmark, -, hne, hdigits⟩ := he
  have htake := Text.takeWhile_append_of_stop hdigits hrest
  have hdrop := Text.dropWhile_append_of_stop hdigits hrest
  rw [ExponentPart.chars, List.cons_append, List.append_assoc, readExponent, if_pos hmark]
  dsimp only
  rw [hsign]
  dsimp only
  rw [htake, hdrop]
  split
  · contradiction
  · rfl

theorem readExponent_none (hrest : ∀ c ∈ rest.head?, c ≠ 'e' ∧ c ≠ 'E') :
    readExponent rest = (none, rest) := by
  cases rest with
  | nil => rfl
  | cons c rest => simp [readExponent, hrest c rfl]

theorem readFraction_none (hrest : ∀ c ∈ rest.head?, c ≠ '.') :
    readFraction rest = ([], rest) := by
  unfold readFraction
  split
  · exact absurd rfl (hrest '.' rfl)
  · rfl

/-- No numeral goes on with the text: neither with a digit nor with a fraction or an exponent. -/
structure Ends (rest : List Char) : Prop where
  digit : ∀ c ∈ rest.head?, c.isDigit = false
  fraction : readFraction rest = ([], rest)
  exponent : readExponent rest = (none, rest)

theorem ends_of_stop (hrest : ∀ c ∈ rest.head?, isContinuation c = false) : Ends rest := by
  have hstop : ∀ c ∈ rest.head?, ((c.isDigit = false ∧ c ≠ '.') ∧ c ≠ 'e') ∧ c ≠ 'E' := by
    intro c hc
    simpa only [isContinuation, Bool.or_eq_false_iff, beq_eq_false_iff_ne] using hrest c hc
  exact ⟨fun c hc => (hstop c hc).1.1.1, readFraction_none fun c hc => (hstop c hc).1.1.2,
    readExponent_none fun c hc => ⟨(hstop c hc).1.2, (hstop c hc).2⟩⟩

/-- The exponent part of a numeral is read back, whether or not there is one. -/
theorem readExponent_tail {n : Numeral} (hn : n.WellFormed) (hrest : Ends rest) :
    readExponent ((n.exponent.map ExponentPart.chars).getD [] ++ rest) = (n.exponent, rest) := by
  cases he : n.exponent with
  | none => exact hrest.exponent
  | some e => exact readExponent_chars (hn.exponent e he) hrest.digit

/-- After the digits of a numeral stands nothing that would be taken for one more digit, or for a
fraction. -/
theorem stop_of_tail {n : Numeral} (hn : n.WellFormed) (hrest : Ends rest) :
    let tail := (n.exponent.map ExponentPart.chars).getD [] ++ rest
    (∀ c ∈ tail.head?, c.isDigit = false) ∧ readFraction tail = ([], tail) := by
  cases he : n.exponent with
  | none => exact ⟨hrest.digit, hrest.fraction⟩
  | some e =>
    have hmark : ∀ c ∈ (e.chars ++ rest).head?, c.isDigit = false ∧ c ≠ '.' := by
      rintro c ⟨⟩
      rcases (hn.exponent e he).1 with hm | hm <;> rw [hm] <;> decide
    exact ⟨fun c hc => (hmark c hc).1, readFraction_none fun c hc => (hmark c hc).2⟩

theorem readFraction_chars {ds : List Char} (hd : ∀ c ∈ ds, c.isDigit = true)
    (hstop : ∀ c ∈ rest.head?, c.isDigit = false) (hfraction : readFraction rest = ([], rest)) :
    readFraction ((if ds.isEmpty then [] else '.' :: ds) ++ rest) = (ds, rest) := by
  cases ds with
  | nil => exact hfraction
  | cons d ds =>
    simp only [List.isEmpty_cons, Bool.false_eq_true, if_false, List.cons_append, readFraction]
    rw [← List.cons_append, Text.takeWhile_append_of_stop hd hstop,
      Text.dropWhile_append_of_stop hd hstop]

theorem chars_eq (n : Numeral) : n.chars = n.whole ++
    ((if n.fraction.isEmpty then [] else '.' :: n.fraction) ++
      (n.exponent.map ExponentPart.chars).getD []) := by
  simp [chars]

theorem WellFormed.mem_chars {n : Numeral} (hn : n.WellFormed) (hexponent : n.exponent = none) :
    ∀ c ∈ n.chars, c.isDigit = true ∨ c = '.' := by
  intro c hc
  rw [chars_eq, hexponent] at hc
  simp only [Option.map_none, Option.getD_none, List.append_nil, List.mem_append] at hc
  rcases hc with hc | hc
  · exact .inl (hn.whole c hc)
  · split at hc
    · cases hc
    · rcases List.mem_cons.1 hc with rfl | hc
      · exact .inr rfl
      · exact .inl (hn.fraction c hc)

theorem WellFormed.exists_chars_cons {n : Numeral} (hn : n.WellFormed) :
    ∃ c cs, n.chars = c :: cs ∧ (c.isDigit = true ∨ c = '.') := by
  rw [chars_eq]
  cases hw : n.whole with
  | cons d ds => exact ⟨d, _, rfl, .inl (hn.whole d (by simp [hw]))⟩
  | nil =>
    cases hf : n.fraction with
    | cons d ds => exact ⟨'.', _, rfl, .inr rfl⟩
    | nil => exact absurd hn.nonempty (by simp [hw, hf])

/-- A numeral is read back from its characters where it does not go on. -/
theorem read?_append {n : Numeral} (hn : n.WellFormed) (hrest : Ends rest) :
    read? (n.chars ++ rest) = some (n, rest) := by
  obtain ⟨hdigit, htail⟩ := stop_of_tail hn hrest
  have hfraction := readFraction_chars hn.fraction hdigit htail
  have hstop : ∀ c ∈ ((if n.fraction.isEmpty then [] else '.' :: n.fraction) ++
      ((n.exponent.map ExponentPart.chars).getD [] ++ rest)).head?, c.isDigit = false := by
    split
    · exact hdigit
    · rintro c ⟨⟩
      decide
  have hne : (n.whole.isEmpty && n.fraction.isEmpty) = false := by
    rcases hn.nonempty with h | h <;> simp [h]
  rw [chars_eq, List.append_assoc, List.append_assoc]
  unfold read?
  simp only [Text.takeWhile_append_of_stop hn.whole hstop,
    Text.dropWhile_append_of_stop hn.whole hstop, hfraction, hne, readExponent_tail hn hrest]
  rfl

/-- A numeral without exponent part but with digits before the point, its text and its value. -/
structure IsPlain (n : Numeral) (text : List Char) (value : Binary64) : Prop where
  wellFormed : n.WellFormed
  whole : n.whole ≠ []
  exponent : n.exponent = none
  chars : n.chars = text
  value : n.value = value

end Numeral

namespace Decimal

theorem digitsValue_append (cs ds : List Char) :
    digitsValue (cs ++ ds) = 10 ^ ds.length * digitsValue cs + digitsValue ds := by
  rw [digitsValue, List.foldl_append]
  exact Nat.ofDigitChars_eq_ofDigitChars_zero

theorem digitsValue_replicate_zero (k : Nat) : digitsValue (List.replicate k '0') = 0 := by
  change Nat.ofDigitChars 10 (List.replicate k '0') 0 = 0
  rw [Nat.ofDigitChars_replicate_zero, Nat.mul_zero]

theorem digitsValue_toDigits (n : Nat) : digitsValue (Nat.toDigits 10 n) = n :=
  Nat.ofDigitChars_ten_toDigits

/-- Digits are those without the trailing zeros, and the trailing zeros. -/
theorem exists_trailing_zeros (ds : List Char) :
    ∃ k, ds = (ds.reverse.dropWhile (· == '0')).reverse ++ List.replicate k '0' := by
  have hzeros : ds.reverse.takeWhile (· == '0') =
      List.replicate (ds.reverse.takeWhile (· == '0')).length '0' := by
    rw [List.eq_replicate_iff]
    exact ⟨rfl, fun c hc => by simpa using List.mem_takeWhile_imp hc⟩
  refine ⟨(ds.reverse.takeWhile (· == '0')).length, ?_⟩
  rw [← List.reverse_replicate, ← hzeros, ← List.reverse_append, List.takeWhile_append_dropWhile,
    List.reverse_reverse]

theorem significantDigits_eq {d : Decimal}
    (h : ((Nat.toDigits 10 d.digits).reverse.dropWhile (· == '0')).reverse ≠ []) :
    d.significantDigits = ((Nat.toDigits 10 d.digits).reverse.dropWhile (· == '0')).reverse := by
  unfold significantDigits
  split
  · contradiction
  · rfl

/-- A decimal other than zero without its trailing zeros: the digits that are written, and the
number of zeros left out. -/
theorem exists_significantDigits {d : Decimal} (hd : d.digits ≠ 0) :
    ∃ k, d.digits = digitsValue d.significantDigits * 10 ^ k ∧
      digitCount d.digits = d.significantDigits.length + k := by
  obtain ⟨k, hk⟩ := exists_trailing_zeros (Nat.toDigits 10 d.digits)
  have hlength := congrArg List.length hk
  have hvalue := digitsValue_toDigits d.digits
  rw [hk, digitsValue_append, digitsValue_replicate_zero, List.length_replicate] at hvalue
  have hne : ((Nat.toDigits 10 d.digits).reverse.dropWhile (· == '0')).reverse ≠ [] := by
    intro hnil
    rw [hnil] at hvalue
    exact hd (by simpa [digitsValue] using hvalue.symm)
  refine ⟨k, ?_, ?_⟩
  · rw [significantDigits_eq hne]
    linarith
  · rw [significantDigits_eq hne, digitCount, hlength, List.length_append, List.length_replicate]

theorem significantDigits_ne_nil (d : Decimal) : d.significantDigits ≠ [] := by
  unfold significantDigits
  split
  · simp
  · assumption

theorem isDigit_significantDigits (d : Decimal) : ∀ c ∈ d.significantDigits, c.isDigit = true := by
  intro c hc
  unfold significantDigits at hc
  split at hc
  · simp_all
  · apply Nat.isDigit_of_mem_toDigits (b := 10) (n := d.digits) (by decide) (by decide)
    exact List.mem_reverse.1 ((List.dropWhile_sublist _).subset (List.mem_reverse.1 hc))

section Positional

variable {ds : List Char} (hd : ∀ c ∈ ds, c.isDigit = true) (hne : ds ≠ [])

include hd

theorem isDigit_replicate_zero {c : Char} {k : Nat} (hc : c ∈ List.replicate k '0' ∨ c ∈ ds) :
    c.isDigit = true := by
  rcases hc with hc | hc
  · rw [List.eq_of_mem_replicate hc]
    rfl
  · exact hd c hc

include hne

/-- The first digit stands `k` places after the point. -/
theorem isPlain_leadingZeros (k : Nat) :
    Numeral.IsPlain ⟨['0'], List.replicate k '0' ++ ds, none⟩
      ('0' :: '.' :: (List.replicate k '0' ++ ds))
      (toBinary64 false ⟨digitsValue ds, -k - ds.length⟩) := by
  refine ⟨⟨by simp, fun c hc => isDigit_replicate_zero hd (List.mem_append.1 hc), by simp, by simp⟩,
    by simp, rfl, by simp [Numeral.chars, hne], ?_⟩
  have hzeros := digitsValue_replicate_zero (k + 1)
  rw [List.replicate_succ] at hzeros
  simp only [Numeral.value, Numeral.decimal, ← List.append_assoc, List.singleton_append,
    digitsValue_append _ ds, hzeros]
  congr 2
  · simp
  · simp
    omega

theorem isPlain_trailingZeros {whole : Nat} (hle : ds.length ≤ whole) :
    Numeral.IsPlain ⟨ds ++ List.replicate (whole - ds.length) '0', [], none⟩
      (ds ++ List.replicate (whole - ds.length) '0')
      (toBinary64 false ⟨digitsValue ds, whole - ds.length⟩) := by
  refine ⟨⟨fun c hc => isDigit_replicate_zero hd (List.mem_append.1 hc).symm, by simp,
    by simp [hne], by simp⟩, by simp [hne], rfl, by simp [Numeral.chars], ?_⟩
  rw [← toBinary64_scale false (digitsValue ds) (whole - ds.length)]
  simp [Numeral.value, Numeral.decimal, digitsValue_append, digitsValue_replicate_zero, mul_comm,
    hle]

theorem isPlain_point {whole : Nat} (hpos : whole ≠ 0) (hlt : whole < ds.length) :
    Numeral.IsPlain ⟨ds.take whole, ds.drop whole, none⟩ (ds.take whole ++ '.' :: ds.drop whole)
      (toBinary64 false ⟨digitsValue ds, whole - ds.length⟩) := by
  refine ⟨⟨fun c hc => hd c (List.mem_of_mem_take hc), fun c hc => hd c (List.mem_of_mem_drop hc),
    by simp [hpos, hne], by simp⟩, by simp [hpos, hne], rfl, ?_, ?_⟩
  · simp [Numeral.chars, hlt]
  · simp only [Numeral.value, Numeral.decimal, List.take_append_drop, List.length_drop]
    congr 2
    simp
    omega

/-- Digits written in place are a numeral without exponent, of the value that their place gives. -/
theorem exists_numeral_positionalText (leading : Int) :
    ∃ n : Numeral, n.IsPlain (positionalText false ds leading)
      (toBinary64 false ⟨digitsValue ds, leading + 1 - ds.length⟩) := by
  simp only [positionalText, Bool.false_eq_true, if_false, List.append_nil]
  split
  · rename_i whole hwhole
    rw [hwhole]
    split_ifs with hzero hle
    · subst hzero
      exact ⟨_, by simpa using isPlain_leadingZeros hd hne 0⟩
    · exact ⟨_, isPlain_trailingZeros hd hne hle⟩
    · exact ⟨_, isPlain_point hd hne hzero (by omega)⟩
  · rename_i k hk
    rw [hk]
    exact ⟨_, isPlain_leadingZeros hd hne (k + 1)⟩

end Positional

/-- A decimal is written as a numeral without exponent, of the same value. -/
theorem exists_numeral_text (d : Decimal) :
    ∃ n : Numeral, n.IsPlain (d.text CodeStyle.numbers) (d.toBinary64 false) := by
  have hvalue : toBinary64 false
      ⟨digitsValue d.significantDigits, d.leadingExponent + 1 - d.significantDigits.length⟩ =
        d.toBinary64 false := by
    by_cases hd : d.digits = 0
    · simp [significantDigits, toBinary64, hd, digitsValue]
    · obtain ⟨k, hdigits, hcount⟩ := exists_significantDigits hd
      rw [← toBinary64_scale false _ k, ← hdigits, leadingExponent, if_neg hd, hcount]
      congr 2
      push_cast
      ring
  rw [← hvalue]
  exact exists_numeral_positionalText (isDigit_significantDigits d) (significantDigits_ne_nil d)
    d.leadingExponent

end Decimal

/-- A finite number that is not negative is written as a numeral that stands for it. -/
theorem Binary64.exists_numeral (magnitude : Fin Binary64.finiteCount) :
    ∃ n : Numeral, n.IsPlain ((Binary64.finite false magnitude).text CodeStyle.numbers).toList
      (.finite false magnitude) := by
  obtain ⟨n, hn⟩ := Decimal.exists_numeral_text (shortest CodeStyle.numbers.tie magnitude)
  rw [shortest_toBinary64] at hn
  refine ⟨n, ?_⟩
  simpa [Binary64.text] using hn

end Stencil
