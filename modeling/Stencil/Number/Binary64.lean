/-!
# Binary64 numbers

The numbers of the expression language are the IEEE 754 binary64 values. They are kept exact: a
finite value is a sign and the place of its absolute value among the finite absolute values in
increasing order, so that each value has one representation. Rounding is arithmetic on natural
numbers.
-/

namespace Stencil

/-- The number of magnitudes that share an exponent. -/
def Binary64.blockSize : Nat := Nat.pow 2 52

/-- The number of finite magnitudes. -/
def Binary64.finiteCount : Nat := 2047 * blockSize

/-- A binary64 value. The magnitude `0` is zero, the magnitudes of the first block are subnormal,
and each further block has one exponent. -/
inductive Binary64 where
  | nan
  | infinite (negative : Bool)
  | finite (negative : Bool) (magnitude : Fin Binary64.finiteCount)
deriving DecidableEq, Repr

namespace Binary64

/-- The value with a given sign and absolute value zero. -/
def zero (negative : Bool) : Binary64 :=
  .finite negative ⟨0, by decide⟩

def isFinite : Binary64 → Bool
  | .finite .. => true
  | _ => false

/-- Absolute values are counted in fractions of this denominator. -/
def denominator : Nat := Nat.pow 2 1075

/-- The integer significand of a magnitude. -/
def significand (magnitude : Nat) : Nat :=
  if magnitude < blockSize then magnitude else blockSize + magnitude % blockSize

/-- The binary exponent of a magnitude, counted from `-1075`. -/
def exponent (magnitude : Nat) : Nat :=
  max 1 (magnitude / blockSize)

/-- The absolute value of a magnitude is this number divided by `denominator`. -/
def numerator (magnitude : Nat) : Nat :=
  significand magnitude * Nat.pow 2 (exponent magnitude)

/-- A quotient rounded to the nearest integer, a half to the even neighbour. -/
def roundDiv (num den : Nat) : Nat :=
  let quotient := num / den
  let twice := 2 * (num % den)
  if twice < den then quotient
  else if den < twice then quotient + 1
  else quotient + quotient % 2

/-- The magnitude nearest to `num / den`, a half to the even neighbour. Results from `finiteCount`
on lie beyond the finite values. -/
def nearest (num den : Nat) : Nat :=
  let scaled := num * denominator
  let exponent := max 1 ((scaled / den).log2 - 52)
  (exponent - 1) * blockSize + roundDiv scaled (den * Nat.pow 2 exponent)

/-- The value nearest to `num / den`, infinite when that lies beyond the finite values. -/
def ofRatio (negative : Bool) (num den : Nat) : Binary64 :=
  if h : nearest num den < finiteCount then .finite negative ⟨nearest num den, h⟩
  else .infinite negative

end Binary64
end Stencil
