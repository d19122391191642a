import Mathlib.Data.Nat.Log
import Mathlib.Tactic.Ring
import Mathlib.Tactic.Linarith
import Stencil.Number.Decimal

/-!
# Rounding and the shortest decimal

Rounding depends on the value of a fraction only, and the value of a magnitude is rounded to that
magnitude. So the shortest decimal of a number reads back as the number: either a candidate was
tried and did, or the exact expansion stands in. Nothing is said about how few digits there are.
-/

namespace Stencil
namespace Binary64

theorem blockSize_pos : 0 < blockSize := by decide

theorem pow_two_pos (k : Nat) : 0 < Nat.pow 2 k := Nat.two_pow_pos k

theorem denominator_pos : 0 < denominator := by
  unfold denominator
  apply pow_two_pos

/-- The denominator with its exponent under another name, which is not evaluated. -/
theorem denominator_eq {k : Nat} (hk : k = 1075) : denominator = 2 ^ k := by
  unfold denominator
  rw [← hk, Nat.pow_eq]

theorem log2_mul_two_pow {n : Nat} (hn : n ≠ 0) (k : Nat) : (n * 2 ^ k).log2 = n.log2 + k := by
  induction k with
  | zero => simp
  | succ k ih =>
    rw [pow_succ, ← mul_assoc, mul_comm, Nat.log2_two_mul (by positivity), ih, add_assoc]

theorem roundDiv_mul_right (num den : Nat) {k : Nat} (hk : 0 < k) :
    roundDiv (num * k) (den * k) = roundDiv num den := by
  have hdiv : num * k / (den * k) = num / den := Nat.mul_div_mul_right _ _ hk
  have hmod : 2 * (num * k % (den * k)) = 2 * (num % den) * k := by
    rw [Nat.mul_mod_mul_right, Nat.mul_assoc]
  simp only [roundDiv, hdiv, hmod, Nat.mul_lt_mul_right hk]

theorem roundDiv_mul_self (n : Nat) {den : Nat} (hden : 0 < den) : roundDiv (n * den) den = n := by
  simp [roundDiv, Nat.mul_div_cancel _ hden, hden]

theorem nearest_mul_right (num den : Nat) {k : Nat} (hk : 0 < k) :
    nearest (num * k) (den * k) = nearest num den := by
  have hscaled : num * k * denominator = num * denominator * k := by ring
  have hround (p : Nat) : den * k * Nat.pow 2 p = den * Nat.pow 2 p * k := by ring
  simp only [nearest, hscaled, hround, Nat.mul_div_mul_right _ _ hk, roundDiv_mul_right _ _ hk]

/-- Two fractions of one value are rounded to one number. -/
theorem ofRatio_congr (negative : Bool) {num den num' den' : Nat} (hden : 0 < den)
    (hden' : 0 < den') (h : num * den' = num' * den) :
    ofRatio negative num den = ofRatio negative num' den' := by
  have hn : nearest num den = nearest num' den' := by
    rw [← nearest_mul_right num den hden', ← nearest_mul_right num' den' hden, h,
      Nat.mul_comm den den']
  simp only [ofRatio, hn]

theorem significand_pos {magnitude : Nat} (h : 0 < magnitude) : 0 < significand magnitude := by
  unfold significand
  split
  · exact h
  · exact Nat.add_pos_left blockSize_pos _

theorem significand_lt (magnitude : Nat) : significand magnitude < 2 * blockSize := by
  have := Nat.mod_lt magnitude blockSize_pos
  unfold significand
  split <;> omega

theorem exponent_lt {magnitude : Nat} (h : magnitude < finiteCount) : exponent magnitude < 2047 :=
  max_lt (by decide) (Nat.div_lt_of_lt_mul (by rwa [Nat.mul_comm]))

/-- The exponent that rounding chooses for the value of a magnitude is the exponent of that
magnitude. -/
theorem exponent_eq_log2 {magnitude : Nat} (h : 0 < magnitude) :
    max 1 ((numerator magnitude).log2 - 52) = exponent magnitude := by
  have hlog : (numerator magnitude).log2 = (significand magnitude).log2 + exponent magnitude :=
    log2_mul_two_pow (significand_pos h).ne' _
  rw [hlog]
  by_cases hm : magnitude < blockSize
  · have hs : (significand magnitude).log2 < 52 := by
      rw [significand, if_pos hm]
      exact (Nat.log2_lt h.ne').2 hm
    have he : exponent magnitude = 1 := by
      rw [exponent, Nat.div_eq_of_lt hm]
      rfl
    omega
  · have hs : (significand magnitude).log2 = 52 := by
      rw [Nat.log2_eq_iff (significand_pos h).ne']
      refine ⟨?_, significand_lt magnitude⟩
      rw [significand, if_neg hm]
      exact Nat.le_add_right _ _
    have he : 1 ≤ exponent magnitude := le_max_left _ _
    omega

/-- The value of a magnitude is rounded to that magnitude. -/
theorem nearest_numerator {magnitude : Nat} (h : 0 < magnitude) :
    nearest (numerator magnitude) denominator = magnitude := by
  have hround : numerator magnitude * denominator =
      significand magnitude * (denominator * Nat.pow 2 (exponent magnitude)) := by
    rw [numerator]; ring
  have hden : 0 < denominator * Nat.pow 2 (exponent magnitude) :=
    Nat.mul_pos denominator_pos (pow_two_pos _)
  rw [nearest, Nat.mul_div_cancel _ denominator_pos, exponent_eq_log2 h, hround,
    roundDiv_mul_self _ hden]
  unfold significand exponent
  split
  · rename_i hm
    simp [Nat.div_eq_of_lt hm]
  · rename_i hm
    have hq : 1 ≤ magnitude / blockSize := (Nat.one_le_div_iff blockSize_pos).2 (not_lt.1 hm)
    obtain ⟨q, hq'⟩ := Nat.exists_eq_add_of_le hq
    have hsplit := Nat.div_add_mod magnitude blockSize
    rw [max_eq_right hq]
    rw [hq'] at hsplit ⊢
    rw [Nat.add_sub_cancel_left]
    linarith

theorem ofRatio_numerator (negative : Bool) {magnitude : Fin finiteCount} (h : 0 < magnitude.val) :
    ofRatio negative (numerator magnitude) denominator = .finite negative magnitude := by
  simp only [ofRatio, nearest_numerator h, magnitude.isLt, dite_true]

theorem exists_magnitude_of_ofRatio {negative : Bool} {num den : Nat}
    (h : (ofRatio negative num den).isFinite = true) :
    ∃ magnitude, ofRatio negative num den = .finite negative magnitude := by
  by_cases hlt : nearest num den < finiteCount
  · exact ⟨⟨nearest num den, hlt⟩, dif_pos hlt⟩
  · rw [ofRatio, dif_neg hlt] at h
    cases h

end Binary64

namespace Decimal

theorem digitCount_pos (n : Nat) : 0 < digitCount n := Nat.length_toDigits_pos

theorem digitCount_le_iff {n k : Nat} (hk : 0 < k) : digitCount n ≤ k ↔ n < 10 ^ k :=
  Nat.length_toDigits_le_iff (by decide) hk

theorem digitCount_mul_ten {n : Nat} (hn : 0 < n) : digitCount (n * 10) = digitCount n + 1 := by
  rw [digitCount, Nat.toDigits_of_base_le (by decide) (by omega), Nat.mul_div_cancel _ (by decide)]
  simp [digitCount]

theorem digitCount_mul_pow {n : Nat} (hn : 0 < n) (k : Nat) :
    digitCount (n * 10 ^ k) = digitCount n + k := by
  induction k with
  | zero => simp
  | succ k ih =>
    rw [pow_succ, ← mul_assoc, digitCount_mul_ten (by positivity), ih, add_assoc]

/-- A decimal that is neither zero nor far out of range is rounded as a fraction. -/
theorem toBinary64_eq_ofRatio (negative : Bool) {d : Decimal} (hd : d.digits ≠ 0)
    (hle : d.exponent + digitCount d.digits ≤ 310) (hge : -330 ≤ d.exponent + digitCount d.digits) :
    d.toBinary64 negative =
      .ofRatio negative (d.digits * 10 ^ d.exponent.toNat) (10 ^ (-d.exponent).toNat) := by
  obtain ⟨digits, exponent⟩ := d
  simp only [toBinary64, hd, not_lt.2 hle, not_lt.2 hge, if_false]
  cases exponent with
  | ofNat n => simp
  | negSucc n => simp

/-- Digits and exponent may be traded for each other. -/
theorem toBinary64_scale (negative : Bool) (n k : Nat) (e : Int) :
    toBinary64 negative ⟨n * 10 ^ k, e - k⟩ = toBinary64 negative ⟨n, e⟩ := by
  by_cases hn : n = 0
  · simp [hn, toBinary64]
  have hpos : 0 < n := Nat.pos_of_ne_zero hn
  have htop : e - k + digitCount (n * 10 ^ k) = e + digitCount n := by
    rw [digitCount_mul_pow hpos]
    push_cast
    ring
  by_cases hhigh : 310 < e + digitCount n
  · simp [toBinary64, htop, hhigh, hn]
  by_cases hlow : e + digitCount n < -330
  · simp [toBinary64, htop, hhigh, hlow, hn]
  rw [toBinary64_eq_ofRatio, toBinary64_eq_ofRatio]
  · apply Binary64.ofRatio_congr negative (by positivity) (by positivity)
    have hexp : k + (e - k).toNat + (-e).toNat = e.toNat + (-(e - k)).toNat := by omega
    simp only [mul_assoc, ← pow_add, hexp]
  all_goals simp_all

/-- Rounding keeps the sign. -/
theorem exists_magnitude_of_isFinite {negative : Bool} {d : Decimal}
    (h : (d.toBinary64 negative).isFinite = true) :
    ∃ magnitude, d.toBinary64 negative = .finite negative magnitude := by
  by_cases hd : d.digits = 0
  · exact ⟨⟨0, by decide⟩, by rw [toBinary64, if_pos hd]; rfl⟩
  by_cases hhigh : 310 < d.exponent + digitCount d.digits
  · rw [toBinary64, if_neg hd, if_pos hhigh] at h
    cases h
  by_cases hlow : d.exponent + digitCount d.digits < -330
  · exact ⟨⟨0, by decide⟩, by rw [toBinary64, if_neg hd, if_neg hhigh, if_pos hlow]; rfl⟩
  rw [toBinary64_eq_ofRatio negative hd (not_lt.1 hhigh) (not_lt.1 hlow)] at h ⊢
  exact Binary64.exists_magnitude_of_ofRatio h

end Decimal

namespace Binary64

theorem exactDecimal_of_le {magnitude : Nat} (h : 1075 ≤ exponent magnitude) :
    exactDecimal magnitude = ⟨significand magnitude * 2 ^ (exponent magnitude - 1075), 0⟩ := by
  simp [exactDecimal, h]

theorem exactDecimal_of_lt {magnitude j : Nat} (h : exponent magnitude + j = 1075) (hj : 0 < j) :
    exactDecimal magnitude = ⟨significand magnitude * 5 ^ j, -j⟩ := by
  have hsub : 1075 - exponent magnitude = j := by omega
  have hint : (exponent magnitude : Int) - 1075 = -j := by omega
  simp [exactDecimal, show ¬1075 ≤ exponent magnitude by omega, hsub, hint]

theorem digitCount_mul_five_pow_le {n : Nat} (hn : n < 2 ^ 53) (j : Nat) :
    Decimal.digitCount (n * 5 ^ j) ≤ j + 310 := by
  apply (Decimal.digitCount_le_iff (by omega)).2
  calc n * 5 ^ j
    _ < 2 ^ 53 * 5 ^ j := Nat.mul_lt_mul_of_pos_right hn (by positivity)
    _ ≤ 10 ^ 310 * 10 ^ j := Nat.mul_le_mul (by decide +kernel) (Nat.pow_le_pow_left (by decide) _)
    _ = 10 ^ (j + 310) := by rw [← pow_add, add_comm]

theorem le_digitCount_mul_five_pow {n j : Nat} (hn : 0 < n) (hj : j ≤ 1074) :
    j ≤ Decimal.digitCount (n * 5 ^ j) + 330 := by
  by_contra hfew
  -- with at most `i` digits for `j = i + 331`, the power `5 ^ j` would be below `10 ^ i`
  have hpos := Decimal.digitCount_pos (n * 5 ^ j)
  obtain ⟨i, rfl⟩ : ∃ i, j = i + 331 := ⟨j - 331, by omega⟩
  have hlt : n * 5 ^ (i + 331) < 10 ^ i := (Decimal.digitCount_le_iff (by omega)).1 (by omega)
  have hfive : 5 ^ i * 5 ^ 331 < 5 ^ i * 2 ^ i :=
    calc 5 ^ i * 5 ^ 331
      _ = 1 * 5 ^ (i + 331) := by rw [one_mul, pow_add]
      _ ≤ n * 5 ^ (i + 331) := Nat.mul_le_mul_right _ hn
      _ < (5 * 2) ^ i := hlt
      _ = 5 ^ i * 2 ^ i := mul_pow ..
  have hbound : 2 ^ i ≤ 5 ^ 331 :=
    calc 2 ^ i
      _ ≤ 2 ^ 743 := Nat.pow_le_pow_right (by decide) (by omega)
      _ ≤ 5 ^ 331 := by decide +kernel
  exact absurd (Nat.lt_of_mul_lt_mul_left hfive) (not_lt.2 hbound)

/-- The exact expansion of a magnitude reads back as it. -/
theorem exactDecimal_toBinary64 {magnitude : Fin finiteCount} (h : 0 < magnitude.val) :
    (exactDecimal magnitude).toBinary64 false = .finite false magnitude := by
  have hsig := significand_pos h
  have hsmall : significand magnitude < 2 ^ 53 := significand_lt magnitude
  have hexp := exponent_lt magnitude.isLt
  rw [← ofRatio_numerator false h]
  by_cases hp : 1075 ≤ exponent magnitude
  · obtain ⟨k, hk⟩ := Nat.exists_eq_add_of_le hp
    have hcount : Decimal.digitCount (significand magnitude * 2 ^ k) ≤ 310 := by
      apply (Decimal.digitCount_le_iff (by decide)).2
      calc significand magnitude * 2 ^ k
        _ < 2 ^ 53 * 2 ^ k := Nat.mul_lt_mul_of_pos_right hsmall (Nat.two_pow_pos _)
        _ ≤ 2 ^ 53 * 2 ^ 971 := Nat.mul_le_mul_left _ (Nat.pow_le_pow_right (by decide) (by omega))
        _ < 10 ^ 310 := by decide +kernel
    rw [exactDecimal_of_le hp, hk, Nat.add_sub_cancel_left,
      Decimal.toBinary64_eq_ofRatio false (by positivity) (by simpa using hcount)
        (by dsimp only; omega)]
    apply ofRatio_congr false (by positivity) denominator_pos
    obtain ⟨t, ht⟩ : ∃ t, t = 1075 := ⟨1075, rfl⟩
    rw [numerator, denominator_eq ht, hk, ← ht]
    simp only [Int.toNat_zero, neg_zero, pow_zero, Nat.pow_eq]
    ring
  · obtain ⟨j, hj⟩ := Nat.exists_eq_add_of_le (not_le.1 hp).le
    have hone : 1 ≤ exponent magnitude := le_max_left _ _
    have hle := digitCount_mul_five_pow_le hsmall j
    have hge := le_digitCount_mul_five_pow hsig (show j ≤ 1074 by omega)
    rw [exactDecimal_of_lt hj.symm (by omega), Decimal.toBinary64_eq_ofRatio false (by positivity)
      (by dsimp only; omega) (by dsimp only; omega)]
    apply ofRatio_congr false (by positivity) denominator_pos
    rw [numerator, denominator_eq hj.symm]
    simp only [Int.toNat_neg_natCast, neg_neg, Int.toNat_natCast, pow_zero, Nat.pow_eq,
      show (10 : Nat) = 5 * 2 by rfl, mul_pow]
    ring

/-- A neighbour is only taken if it reads back. -/
theorem neighbour?_toBinary64 {tie : Tie} {magnitude : Fin finiteCount} {e : Int} {d : Decimal}
    (h : neighbour? tie magnitude e = some d) : d.toBinary64 false = .finite false magnitude := by
  unfold neighbour? at h
  dsimp only at h
  split at h
  · rename_i hbelow habove
    cases h
    split
    · exact of_decide_eq_true habove
    · exact of_decide_eq_true hbelow
  · rename_i hbelow _
    cases h
    exact of_decide_eq_true hbelow
  · rename_i _ habove
    cases h
    exact of_decide_eq_true habove
  · cases h

theorem shortest_toBinary64 (tie : Tie) (magnitude : Fin finiteCount) :
    (shortest tie magnitude).toBinary64 false = .finite false magnitude := by
  unfold shortest
  split
  · rename_i h0
    have hzero : magnitude = ⟨0, by decide⟩ := Fin.ext h0
    rw [hzero]
    rfl
  · rename_i hne
    dsimp only
    cases hit : (List.range 17).findSome? fun n : Nat =>
        neighbour? tie magnitude (decimalPlace magnitude - (n + 1)) with
    | none => exact exactDecimal_toBinary64 (Nat.pos_of_ne_zero hne)
    | some d =>
      obtain ⟨n, -, hn⟩ := List.exists_of_findSome?_eq_some hit
      exact neighbour?_toBinary64 hn

end Binary64
end Stencil
