import Stencil.Number.Binary64

/-!
# Decimals and the shortest decimal of a number

A decimal is rounded to the nearest binary64 value, and a binary64 value is written with the fewest
digits that read back as it. `NumberStyle` holds what the two written forms, code and tree, decide
differently.
-/

namespace Stencil

/-- The number `digits * 10 ^ exponent`. -/
structure Decimal where
  digits : Nat
  exponent : Int
deriving DecidableEq, Repr

namespace Decimal

/-- The number of decimal digits of a natural number; zero has one. -/
def digitCount (n : Nat) : Nat :=
  (Nat.toDigits 10 n).length

/-- The binary64 value nearest to the decimal. Decimals from `10 ^ 310` on are beyond the finite
values and those below `10 ^ -330` are nearest to zero, so powers of ten stay small. -/
def toBinary64 (negative : Bool) (d : Decimal) : Binary64 :=
  let top := d.exponent + digitCount d.digits
  if d.digits = 0 then .zero negative
  else if 310 < top then .infinite negative
  else if top < -330 then .zero negative
  else match d.exponent with
    | .ofNat n => .ofRatio negative (d.digits * Nat.pow 10 n) 1
    | .negSucc n => .ofRatio negative d.digits (Nat.pow 10 (n + 1))

end Decimal

/-- Which of two neighbours is taken when a number lies half-way between them. -/
inductive Tie where
  | up
  | even
deriving DecidableEq, Repr

namespace Binary64

/-- The finite expansion of an absolute value. -/
def exactDecimal (magnitude : Nat) : Decimal :=
  let power := exponent magnitude
  if 1075 ≤ power then ⟨significand magnitude * Nat.pow 2 (power - 1075), 0⟩
  else ⟨significand magnitude * Nat.pow 5 (1075 - power), (power : Int) - 1075⟩

/-- The place before the first digit: the least `k` with an absolute value below `10 ^ k`. -/
def decimalPlace (magnitude : Nat) : Int :=
  let num := numerator magnitude
  if denominator ≤ num then Decimal.digitCount (num / denominator)
  else 1 - Decimal.digitCount (denominator / num)

/-- On the grid of the multiples of `10 ^ exponent`, the neighbour of the absolute value that reads
back as it; of two such neighbours the nearer one. -/
def neighbour? (tie : Tie) (magnitude : Fin finiteCount) (exponent : Int) : Option Decimal :=
  let num := numerator magnitude * Nat.pow 10 (-exponent).toNat
  let den := denominator * Nat.pow 10 exponent.toNat
  let below : Decimal := ⟨num / den, exponent⟩
  let above : Decimal := ⟨num / den + 1, exponent⟩
  let readsBack (d : Decimal) : Bool := d.toBinary64 false = .finite false magnitude
  let twice := 2 * (num % den)
  let upward : Bool := den < twice || (twice = den && (tie = .up || below.digits % 2 = 1))
  match readsBack below, readsBack above with
  | true, true => some (if upward then above else below)
  | true, false => some below
  | false, true => some above
  | false, false => none

/-- A decimal with the fewest digits that reads back as the absolute value, and of those the
nearest. -/
def shortest (tie : Tie) (magnitude : Fin finiteCount) : Decimal :=
  if magnitude.val = 0 then ⟨0, 0⟩
  else
    let place := decimalPlace magnitude
    let hit := (List.range 17).findSome? fun n : Nat => neighbour? tie magnitude (place - (n + 1))
    hit.getD (exactDecimal magnitude)

end Binary64

/-- How numbers are written. -/
structure NumberStyle where
  /-- The choice between two shortest decimals that are equally near. -/
  tie : Tie
  /-- The exponents of the first digit that are written without an exponent part; all of them when
  absent. -/
  positional : Option (Int × Int)
  /-- A number without fraction digits ends in `.0`. -/
  keepsPoint : Bool

namespace Decimal

/-- The digits without trailing zeros, but at least one. -/
def significantDigits (d : Decimal) : List Char :=
  match ((Nat.toDigits 10 d.digits).reverse.dropWhile (· == '0')).reverse with
  | [] => ['0']
  | ds => ds

/-- The exponent of the first digit. -/
def leadingExponent (d : Decimal) : Int :=
  if d.digits = 0 then 0 else d.exponent + digitCount d.digits - 1

/-- Digits whose first one has the weight `10 ^ leading`, written without an exponent part. -/
def positionalText (keepsPoint : Bool) (ds : List Char) (leading : Int) : List Char :=
  let ending : List Char := if keepsPoint then ['.', '0'] else []
  match leading + 1 with
  | .ofNat whole =>
    if whole = 0 then '0' :: '.' :: ds
    else if ds.length ≤ whole then ds ++ List.replicate (whole - ds.length) '0' ++ ending
    else ds.take whole ++ '.' :: ds.drop whole
  | .negSucc n => '0' :: '.' :: (List.replicate (n + 1) '0' ++ ds)

/-- Digits whose first one has the weight `10 ^ leading`, written with an exponent part. -/
def scientificText (ds : List Char) (leading : Int) : List Char :=
  let fraction := match ds.drop 1 with
    | [] => []
    | rest => '.' :: rest
  let sign := if leading < 0 then '-' else '+'
  ds.take 1 ++ fraction ++ 'e' :: sign :: Nat.toDigits 10 leading.natAbs

def text (style : NumberStyle) (d : Decimal) : List Char :=
  let ds := d.significantDigits
  let leading := d.leadingExponent
  let isPositional := match style.positional with
    | none => true
    | some (least, greatest) => least ≤ leading && leading ≤ greatest
  if isPositional then positionalText style.keepsPoint ds leading else scientificText ds leading

end Decimal

/-- The written form of a number. -/
def Binary64.text (style : NumberStyle) : Binary64 → String
  | .nan => "NaN"
  | .infinite negative => if negative then "-inf" else "inf"
  | .finite negative magnitude =>
    let sign := if negative then ['-'] else []
    String.ofList (sign ++ (shortest style.tie magnitude).text style)

end Stencil
