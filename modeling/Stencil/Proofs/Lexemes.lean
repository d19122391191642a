import Stencil.Proofs.Lexing

/-!
# Lexemes of code

Code is split from the left into quoted texts, numbers, names, blanks and single marks. Quoted texts
know the escapes that written code uses and no others, and no control character stands in them as
it is. What a lexeme is spelled with is split back, unless the character that follows extends it.
-/

namespace Stencil

inductive Lexeme where
  /-- The text between double quotes, its escapes resolved. -/
  | quoted (text : List Char)
  | number (numeral : Numeral)
  | name (chars : List Char)
  | blank
  | mark (c : Char)
deriving DecidableEq, Repr

namespace Lexeme

/-- The characters of operators, brackets and separators. -/
def marks : List Char := "!=<>+-*/%&|?:()[].,".toList

def hexValue? (c : Char) : Option Nat :=
  if c.isDigit then some (c.toNat - '0'.toNat)
  else if 'a' ≤ c ∧ c ≤ 'f' then some (c.toNat - 'a'.toNat + 10)
  else none

/-- The character that hexadecimal digits are the number of. -/
def hexChar? (digits : List Char) : Option Char :=
  (digits.mapM hexValue?).map fun values => Char.ofNat (values.foldl (16 * · + ·) 0)

def unescape? (c : Char) : Option Char :=
  if c ∈ ['\\', '"', 'n', 'r', 't'] then some (Text.Quoted.unescape c) else none

/-- A character that stands for itself between quotes. -/
def isVerbatim (c : Char) : Bool :=
  !(c == '\\' || c.toNat < 0x20 || c.toNat == 0x2028 || c.toNat == 0x2029)

/-- Reads up to the closing quote. -/
def readText : List Char → Option (List Char × List Char)
  | [] => none
  | '"' :: rest => some ([], rest)
  | '\\' :: 'u' :: d₁ :: d₂ :: d₃ :: d₄ :: rest =>
    (hexChar? [d₁, d₂, d₃, d₄]).bind fun c =>
      (readText rest).map fun (text, after) => (c :: text, after)
  | '\\' :: c :: rest =>
    (unescape? c).bind fun c => (readText rest).map fun (text, after) => (c :: text, after)
  | c :: rest =>
    if isVerbatim c then (readText rest).map fun (text, after) => (c :: text, after) else none

/-- The lexeme at the front and what follows it. -/
def next? : List Char → Option (Lexeme × List Char)
  | [] => none
  | c :: rest =>
    if Token.isNameStart c then
      some (.name (c :: rest.takeWhile Token.isNameChar), rest.dropWhile Token.isNameChar)
    else if c = '"' then (readText rest).map fun (text, after) => (.quoted text, after)
    else
      match Numeral.read? (c :: rest) with
      | some (numeral, after) => some (.number numeral, after)
      | none =>
        if c = ' ' then some (.blank, rest)
        else if c ∈ marks then some (.mark c, rest)
        else none

theorem exists_of_map_cons {r : Option (List Char × List Char)} {c : Char} {text after : List Char}
    (h : r.map (fun (text, after) => (c :: text, after)) = some (text, after)) :
    ∃ tail, r = some (tail, after) := by
  obtain ⟨⟨tail, rest⟩, hr, he⟩ := Option.map_eq_some_iff.1 h
  cases he
  exact ⟨tail, hr⟩

theorem length_readText_le {cs text after : List Char} (h : readText cs = some (text, after)) :
    after.length ≤ cs.length := by
  fun_induction readText cs generalizing text with
  | case1 => cases h
  | case2 rest => cases h; simp
  | case3 d₁ d₂ d₃ d₄ rest ih =>
    obtain ⟨c, -, h⟩ := Option.bind_eq_some_iff.1 h
    obtain ⟨tail, htail⟩ := exists_of_map_cons h
    exact Nat.le_trans (ih htail) (by simp only [List.length_cons]; omega)
  | case4 c rest _ ih =>
    obtain ⟨d, -, h⟩ := Option.bind_eq_some_iff.1 h
    obtain ⟨tail, htail⟩ := exists_of_map_cons h
    exact Nat.le_trans (ih htail) (by simp only [List.length_cons]; omega)
  | case5 c rest _ _ _ _ ih =>
    obtain ⟨tail, htail⟩ := exists_of_map_cons h
    exact Nat.le_trans (ih htail) (by simp)
  | case6 => cases h

theorem length_next?_lt {cs after : List Char} {l : Lexeme} (h : next? cs = some (l, after)) :
    after.length < cs.length := by
  unfold next? at h
  split at h
  · cases h
  · split at h
    · cases h
      exact Nat.lt_succ_of_le (List.dropWhile_sublist _).length_le
    · split at h
      · obtain ⟨⟨text, rest⟩, hr, he⟩ := Option.map_eq_some_iff.1 h
        cases he
        exact Nat.lt_succ_of_le (length_readText_le hr)
      · split at h
        · rename_i hn
          cases h
          exact Numeral.length_read?_lt hn
        · split_ifs at h <;> cases h <;> simp

/-- The lexemes of code, from the left; nothing is left over. -/
def split (cs : List Char) : Option (List Lexeme) :=
  match cs with
  | [] => some []
  | c :: cs =>
    match h : next? (c :: cs) with
    | none => none
    | some (l, after) =>
      have : after.length < (c :: cs).length := length_next?_lt h
      (split after).map (l :: ·)
termination_by cs.length
decreasing_by exact this

theorem split_cons {cs after : List Char} {l : Lexeme} (h : next? cs = some (l, after)) :
    split cs = (split after).map (l :: ·) := by
  cases cs with
  | nil => cases h
  | cons c cs =>
    rw [split]
    split
    · rename_i hnone
      rw [h] at hnone
      cases hnone
    · rename_i hsome
      rw [h] at hsome
      cases hsome
      rfl

theorem readText_escape (c : Char) (rest : List Char) :
    readText (Text.Quoted.escape c ++ rest)
      = (readText rest).map fun (text, after) => (c :: text, after) := by
  rcases Text.Quoted.escape_cases c with
    ⟨hhex, he⟩ | ⟨-, d, hd, he, hc⟩ | ⟨hhex, he, hslash, hquote⟩
  · have hfour : (Text.Quoted.hexFour c.toNat).length = 4 ∧
        hexChar? (Text.Quoted.hexFour c.toNat) = some (Char.ofNat c.toNat) :=
      Text.Quoted.hexFour_of_isHexEscaped
        (P := fun n ds => ds.length = 4 ∧ hexChar? ds = some (Char.ofNat n)) (by decide) (by decide)
        (by decide) hhex
    obtain ⟨d₁, d₂, d₃, d₄, hds⟩ := List.length_eq_four.1 hfour.1
    rw [he, hds, List.cons_append, List.cons_append]
    simp only [List.cons_append, List.nil_append, readText]
    rw [← hds, hfour.2, Char.ofNat_toNat]
    rfl
  · have hunescape : unescape? d = some c := by rw [unescape?, if_pos hd, hc]
    have hu : d ≠ 'u' := by rintro rfl; revert hd; decide
    rw [he, List.cons_append, List.singleton_append, readText, hunescape]
    · rfl
    · exact fun _ _ _ _ _ h => absurd h hu
  · have hbreak : c ≠ '\n' ∧ c ≠ '\r' ∧ c ≠ '\t' := by
      refine ⟨?_, ?_, ?_⟩ <;> rintro rfl <;> revert he <;> decide
    have hverbatim : isVerbatim c = true := by
      simp_all [isVerbatim, Text.Quoted.isHexEscaped]
    rw [he, List.singleton_append, readText, if_pos hverbatim]
    · exact hquote
    · exact fun _ _ _ _ _ h => absurd h hslash
    · exact fun _ _ h => absurd h hslash

theorem readText_encode (cs rest : List Char) :
    readText (cs.flatMap Text.Quoted.escape ++ '"' :: rest) = some (cs, rest) := by
  induction cs with
  | nil => rfl
  | cons c cs ih => rw [List.flatMap_cons, List.append_assoc, readText_escape, ih]; rfl

/-- The characters that a lexeme is written with. -/
inductive Spells : Lexeme → List Char → Prop
  | quoted (text : List Char) :
      Spells (.quoted text) ('"' :: (text.flatMap Text.Quoted.escape ++ ['"']))
  | number {n : Numeral} : n.WellFormed → Spells (.number n) n.chars
  | name {cs : List Char} : Token.isName cs = true → Spells (.name cs) cs
  | blank : Spells .blank [' ']
  | mark {c : Char} : c ∈ marks → Spells (.mark c) [c]

/-- The characters that must not follow a lexeme directly. -/
def isExtendedBy : Lexeme → Char → Bool
  | .name _, c => Token.isNameChar c
  | .number _, c => Numeral.isContinuation c
  | .mark '.', c => c.isDigit
  | _, _ => false

theorem next?_mark {c : Char} {rest : List Char} (hc : c ∈ marks)
    (hrest : ∀ d ∈ rest.head?, isExtendedBy (.mark c) d = false) :
    next? (c :: rest) = some (.mark c, rest) := by
  have hplain : ∀ d ∈ marks, Token.isNameStart d = false ∧ d ≠ '"' ∧ d ≠ ' ' ∧ d.isDigit = false :=
    List.all_iff_forall_prop.1 (by decide)
  obtain ⟨hstart, hquote, hblank, hdigit⟩ := hplain c hc
  have hread : Numeral.read? (c :: rest) = none := by
    by_cases hdot : c = '.'
    · subst hdot
      exact Token.read?_point hrest
    · exact Token.read?_eq_none hdigit hdot
  rw [next?, if_neg (by simp [hstart]), if_neg hquote, hread]
  simp only [if_neg hblank, if_pos hc]

theorem next?_of_spells {l : Lexeme} {s rest : List Char} (hs : Spells l s)
    (hrest : ∀ c ∈ rest.head?, l.isExtendedBy c = false) : next? (s ++ rest) = some (l, rest) := by
  cases hs with
  | quoted text =>
    rw [List.cons_append, next?, if_neg (by decide), if_pos rfl, List.append_assoc,
      List.singleton_append, readText_encode]
    rfl
  | @number n hn =>
    obtain ⟨c, cs, hchars, hc⟩ := hn.exists_chars_cons
    obtain ⟨hstart, hquote, -⟩ := Token.isNameStart_of_numeral hc
    have hread := Numeral.read?_append hn (Numeral.ends_of_stop hrest)
    rw [hchars, List.cons_append] at hread ⊢
    rw [next?, if_neg (by simp [hstart]), if_neg hquote, hread]
  | name hname =>
    obtain ⟨c, tail, rfl, hstart, hall⟩ := Token.exists_cons_of_isName hname
    rw [List.forall_mem_cons] at hall
    rw [List.cons_append, next?, if_pos hstart, Text.takeWhile_append_of_stop hall.2 hrest,
      Text.dropWhile_append_of_stop hall.2 hrest]
  | blank =>
    rw [List.singleton_append, next?, if_neg (by decide), if_neg (by decide),
      Token.read?_eq_none (by decide) (by decide)]
    rfl
  | mark hc => exact next?_mark hc hrest

/-- The characters split into the lexemes, also when something follows that may follow the code of
an operand. -/
def Splits (dotted : Bool) (cs : List Char) (ls : List Lexeme) : Prop :=
  ∀ rest, (∀ c ∈ rest.head?, mayFollow dotted c = true) →
    split (cs ++ rest) = (split rest).map (ls ++ ·)

namespace Splits

variable {dotted dotted' : Bool} {cs ds s : List Char} {l : Lexeme} {ls ms : List Lexeme}

theorem relax (h : Splits dotted cs ls) (hdot : dotted' = true → dotted = true) :
    Splits dotted' cs ls := by
  intro rest hrest
  exact h rest fun c hc => mayFollow_relax hdot (hrest c hc)

theorem lexeme (hs : Spells l s)
    (hstop : ∀ c, mayFollow dotted c = true → l.isExtendedBy c = false) : Splits dotted s [l] := by
  intro rest hrest
  rw [split_cons (next?_of_spells hs fun c hc => hstop c (hrest c hc))]
  rfl

theorem cons (hs : Spells l s) (hstop : ∀ c ∈ ds.head?, l.isExtendedBy c = false) (hne : ds ≠ [])
    (hds : Splits dotted ds ms) : Splits dotted (s ++ ds) (l :: ms) := by
  intro rest hrest
  have hhead : ∀ c ∈ (ds ++ rest).head?, l.isExtendedBy c = false := by
    rwa [List.head?_append_of_ne_nil _ hne]
  rw [List.append_assoc, split_cons (next?_of_spells hs hhead), hds rest hrest, Option.map_map]
  rfl

theorem append (hcs : Splits dotted cs ls) (hds : Splits dotted' ds ms)
    (hhead : ∀ c ∈ ds.head?, mayFollow dotted c = true) (hne : ds ≠ []) :
    Splits dotted' (cs ++ ds) (ls ++ ms) := by
  intro rest hrest
  have hnext : ∀ c ∈ (ds ++ rest).head?, mayFollow dotted c = true := by
    rwa [List.head?_append_of_ne_nil _ hne]
  rw [List.append_assoc, hcs _ hnext, hds rest hrest, Option.map_map]
  simp only [Function.comp_def, List.append_assoc]

theorem split_eq (h : Splits dotted cs ls) : split cs = some ls := by
  have hnil := h [] (by simp)
  rw [List.append_nil, split] at hnil
  simpa using hnil

end Splits
end Lexeme
end Stencil
