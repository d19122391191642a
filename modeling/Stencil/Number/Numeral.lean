import Stencil.Number.Decimal

/-!
# Numerals

A numeral is digits with an optional fraction and an optional exponent. It keeps the characters it
was read from, since a numeral too large for a number is quoted as it was written.
-/

namespace Stencil

/-- The exponent part of a numeral. -/
structure ExponentPart where
  /-- `e` or `E`. -/
  mark : Char
  /-- `+` or `-`, if written. -/
  sign : Option Char
  digits : List Char
deriving DecidableEq, Repr

/-- An unsigned numeral, part by part. An empty fraction means that no point is written. -/
structure Numeral where
  whole : List Char
  fraction : List Char
  exponent : Option ExponentPart
deriving DecidableEq, Repr

/-- The number that a list of decimal digits stands for. -/
def digitsValue (ds : List Char) : Nat :=
  ds.foldl (fun n c => 10 * n + (c.toNat - '0'.toNat)) 0

namespace ExponentPart

def chars (e : ExponentPart) : List Char :=
  e.mark :: (e.sign.toList ++ e.digits)

def value (e : ExponentPart) : Int :=
  if e.sign = some '-' then -(digitsValue e.digits : Int) else digitsValue e.digits

end ExponentPart

namespace Numeral

/-- The characters that the numeral is written with. -/
def chars (n : Numeral) : List Char :=
  let fraction := if n.fraction.isEmpty then [] else '.' :: n.fraction
  n.whole ++ fraction ++ (n.exponent.map ExponentPart.chars).getD []

/-- The exact value of the numeral. -/
def decimal (n : Numeral) : Decimal :=
  let power := (n.exponent.map ExponentPart.value).getD 0
  ⟨digitsValue (n.whole ++ n.fraction), power - n.fraction.length⟩

/-- The number nearest to the numeral. -/
def value (n : Numeral) : Binary64 :=
  n.decimal.toBinary64 false

/-- The fraction at the front, if a point with at least one digit stands there. -/
def readFraction (cs : List Char) : List Char × List Char :=
  match cs with
  | '.' :: rest =>
    match rest.takeWhile Char.isDigit with
    | [] => ([], cs)
    | ds => (ds, rest.dropWhile Char.isDigit)
  | _ => ([], cs)

/-- The sign at the front, if there is one. -/
def readSign : List Char → Option Char × List Char
  | '+' :: rest => (some '+', rest)
  | '-' :: rest => (some '-', rest)
  | rest => (none, rest)

/-- The exponent part at the front, if a mark with at least one digit stands there. -/
def readExponent (cs : List Char) : Option ExponentPart × List Char :=
  match cs with
  | mark :: rest =>
    if mark = 'e' ∨ mark = 'E' then
      let signed := readSign rest
      match signed.2.takeWhile Char.isDigit with
      | [] => (none, cs)
      | ds => (some ⟨mark, signed.1, ds⟩, signed.2.dropWhile Char.isDigit)
    else (none, cs)
  | [] => (none, cs)

/-- The longest numeral at the front and what follows it. -/
def read? (cs : List Char) : Option (Numeral × List Char) :=
  let whole := cs.takeWhile Char.isDigit
  let fraction := readFraction (cs.dropWhile Char.isDigit)
  if whole.isEmpty && fraction.1.isEmpty then none
  else
    let exponent := readExponent fraction.2
    some (⟨whole, fraction.1, exponent.1⟩, exponent.2)

theorem length_readFraction_le (cs : List Char) :
    (readFraction cs).1.length + (readFraction cs).2.length ≤ cs.length := by
  unfold readFraction
  split
  · rename_i rest
    have := congrArg List.length (List.takeWhile_append_dropWhile (p := Char.isDigit) (l := rest))
    rw [List.length_append] at this
    split
    · simp
    · simp only [List.length_cons]
      omega
  · simp

theorem length_readSign_le (cs : List Char) : (readSign cs).2.length ≤ cs.length := by
  unfold readSign
  split <;> simp

theorem length_readExponent_le (cs : List Char) : (readExponent cs).2.length ≤ cs.length := by
  unfold readExponent
  split
  · rename_i mark rest
    split
    · have := length_readSign_le rest
      have := (List.dropWhile_sublist Char.isDigit (l := (readSign rest).2)).length_le
      dsimp only
      split
      · simp
      · simp only [List.length_cons]
        omega
    · simp
  · simp

theorem length_read?_lt {cs rest : List Char} {n : Numeral} (h : read? cs = some (n, rest)) :
    rest.length < cs.length := by
  have hw := congrArg List.length (List.takeWhile_append_dropWhile (p := Char.isDigit) (l := cs))
  have hf := length_readFraction_le (cs.dropWhile Char.isDigit)
  have he := length_readExponent_le (readFraction (cs.dropWhile Char.isDigit)).2
  unfold read? at h
  simp only [Bool.and_eq_true, List.isEmpty_iff] at h
  split at h
  · simp at h
  · rename_i hne
    cases h
    have : (cs.takeWhile Char.isDigit).length
        + (readFraction (cs.dropWhile Char.isDigit)).1.length ≠ 0 := by
      intro h0
      apply hne
      constructor <;> apply List.eq_nil_of_length_eq_zero <;> omega
    simp only [List.length_append] at hw
    omega

end Numeral
end Stencil
