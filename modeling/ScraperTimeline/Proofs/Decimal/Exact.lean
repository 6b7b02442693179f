import ScraperTimeline.Proofs.Decimal.Shortest
import ScraperTimeline.Proofs.Json.Restored

/-!
Rounding leaves a double as it is. A whole number that fits in a word is scaled by one when it is read, so it is
rounded but once.
-/
namespace ScraperTimeline

namespace Binary64

variable {a b n k : Nat} {x : Binary64}

/-! ### Quotients -/

theorem roundedQuotient_mul_left (hk : 0 < k) : roundedQuotient (k * a) (k * b) = roundedQuotient a b := by
  have hlt : 2 * (k * (a % b)) < k * b ↔ 2 * (a % b) < b := by
    rw [Nat.mul_left_comm, Nat.mul_lt_mul_left hk]
  have hgt : k * b < 2 * (k * (a % b)) ↔ b < 2 * (a % b) := by
    rw [Nat.mul_left_comm, Nat.mul_lt_mul_left hk]
  simp only [roundedQuotient, Nat.mul_div_mul_left _ _ hk, Nat.mul_mod_mul_left, hlt, hgt]

theorem roundedQuotient_mul_self (hb : 0 < b) : roundedQuotient (a * b) b = a := by
  simp [roundedQuotient, Nat.mul_div_cancel _ hb, hb]

theorem binaryOrder_double (ha : a ≠ 0) (hb : b ≠ 0) : binaryOrder (2 * a) (2 * b) = binaryOrder a b := by
  have hguess : ((2 * a).log2 : Int) - (2 * b).log2 = (a.log2 : Int) - b.log2 := by
    rw [Nat.log2_two_mul ha, Nat.log2_two_mul hb]
    omega
  simp only [binaryOrder, hguess, Nat.mul_assoc, Nat.mul_lt_mul_left Nat.two_pos]

theorem nearestMagnitude_double (hb : b ≠ 0) : nearestMagnitude (2 * a) (2 * b) = nearestMagnitude a b := by
  by_cases ha : a = 0
  · simp [nearestMagnitude, ha]
  · simp only [nearestMagnitude, binaryOrder_double ha hb, Nat.mul_assoc, roundedQuotient_mul_left Nat.two_pos,
      Nat.mul_eq_zero, ha, OfNat.ofNat_ne_zero, or_self]

theorem nearestMagnitude_scaled (hb : b ≠ 0) (k : Nat) :
    nearestMagnitude (2 ^ k * a) (2 ^ k * b) = nearestMagnitude a b := by
  induction k with
  | zero => rw [Nat.pow_zero, Nat.one_mul, Nat.one_mul]
  | succ k ih =>
      have hne : 2 ^ k * b ≠ 0 := Nat.mul_ne_zero (Nat.ne_of_gt (Nat.two_pow_pos k)) hb
      rw [Nat.pow_succ', Nat.mul_assoc, Nat.mul_assoc, nearestMagnitude_double hne, ih]

/-! ### Doubles -/

theorem log2_mul_two_pow (ha : a ≠ 0) (k : Nat) : (a * 2 ^ k).log2 = a.log2 + k := by
  induction k with
  | zero => rw [Nat.pow_zero, Nat.mul_one, Nat.add_zero]
  | succ k ih =>
      have hne : a * 2 ^ k ≠ 0 := Nat.mul_ne_zero ha (Nat.ne_of_gt (Nat.two_pow_pos k))
      rw [Nat.pow_succ', Nat.mul_left_comm, Nat.log2_two_mul hne, ih, Nat.add_assoc]

theorem binaryOrder_eq (ha : a ≠ 0) (e : Int) :
    binaryOrder (a * 2 ^ e.toNat) (2 ^ (-e).toNat) = a.log2 + e := by
  have hguess : (((a * 2 ^ e.toNat).log2 : Int) - (2 ^ (-e).toNat).log2) = a.log2 + e := by
    rw [log2_mul_two_pow ha, Nat.log2_two_pow]
    omega
  have hle : 2 ^ (-e).toNat * 2 ^ ((a.log2 : Int) + e).toNat ≤
      a * 2 ^ e.toNat * 2 ^ (-((a.log2 : Int) + e)).toNat := by
    have hpow : 2 ^ (-e).toNat * 2 ^ ((a.log2 : Int) + e).toNat =
        2 ^ a.log2 * (2 ^ e.toNat * 2 ^ (-((a.log2 : Int) + e)).toNat) := by
      rw [← Nat.pow_add, ← Nat.pow_add, ← Nat.pow_add]
      congr 1
      omega
    rw [hpow, Nat.mul_assoc]
    exact Nat.mul_le_mul_right _ (Nat.log2_self_le ha)
  simp only [binaryOrder, hguess, Nat.pow_eq]
  rw [if_neg (Nat.not_lt.mpr hle)]

-- The significand is as long as a magnitude of this exponent can have it.
theorem exponent_eq (h : x.magnitude ≠ 0) :
    max ((x.significand.log2 : Int) + x.exponent - 52) (-1074) = x.exponent := by
  have hplace : fractionPlace = 2 ^ 52 := rfl
  by_cases hlt : x.magnitude < fractionPlace
  · have hlog : x.magnitude.log2 < 52 := (Nat.log2_lt h).mpr (hplace ▸ hlt)
    simp only [exponent, significand, if_pos hlt, Nat.div_eq_of_lt hlt]
    omega
  · have hlog : (x.magnitude % fractionPlace + fractionPlace).log2 = 52 := by
      rw [hplace, Nat.log2_eq_iff (by omega)]
      omega
    simp only [exponent, significand, if_neg hlt, hlog]
    omega

theorem magnitude_eq (x : Binary64) : (x.exponent + 1074).toNat * fractionPlace + x.significand = x.magnitude := by
  have hplace : fractionPlace = 2 ^ 52 := rfl
  simp only [exponent, significand, hplace]
  split <;> omega

-- The significand holds all digits, so nothing is rounded.
theorem nearestMagnitude_self (hfinite : x.isFinite) :
    nearestMagnitude (x.significand * 2 ^ x.exponent.toNat) (2 ^ (-x.exponent).toNat) = x.magnitude := by
  have hlt : x.magnitude < infinityBits := by simpa [isFinite] using hfinite
  by_cases hzero : x.magnitude = 0
  · simp [significand, hzero, nearestMagnitude, fractionPlace]
  have hsignificand : x.significand ≠ 0 := Nat.ne_of_gt (significand_pos (by simp [isZero, hzero]))
  have hpositive : 0 < x.significand * 2 ^ x.exponent.toNat :=
    Nat.mul_pos (Nat.pos_of_ne_zero hsignificand) (Nat.two_pow_pos _)
  have hrounded : roundedQuotient (x.significand * 2 ^ x.exponent.toNat * 2 ^ (-x.exponent).toNat)
      (2 ^ (-x.exponent).toNat * 2 ^ x.exponent.toNat) = x.significand := by
    rw [Nat.mul_assoc, Nat.mul_comm (2 ^ x.exponent.toNat)]
    exact roundedQuotient_mul_self (Nat.mul_pos (Nat.two_pow_pos _) (Nat.two_pow_pos _))
  simp only [nearestMagnitude, binaryOrder_eq hsignificand, exponent_eq hzero, Nat.pow_eq, hrounded, magnitude_eq]
  rw [if_neg (Nat.ne_of_gt hpositive)]
  exact Nat.min_eq_right (Nat.le_of_lt hlt)

theorem mulMagnitude_one (hfinite : x.isFinite) :
    mulMagnitude x (DecimalLiteral.powerOfTen 0) = ofMagnitude false x.magnitude := by
  have hone : (DecimalLiteral.powerOfTen 0).toQuotient = (2 ^ 52, 2 ^ 52) := by decide +kernel
  have hnumerator : x.toQuotient.1.natAbs = x.significand * 2 ^ x.exponent.toNat := by
    simp only [toQuotient, Nat.pow_eq]
    split <;> omega
  have hdenominator : x.toQuotient.2 ≠ 0 := Nat.ne_of_gt (Nat.two_pow_pos _)
  have hproduct : mulMagnitude x (DecimalLiteral.powerOfTen 0) =
      ofMagnitude false (nearestMagnitude (x.toQuotient.1.natAbs * 2 ^ 52) (x.toQuotient.2 * 2 ^ 52)) := by
    rw [mulMagnitude, hone]
    rfl
  rw [hproduct, Nat.mul_comm _ (2 ^ 52), Nat.mul_comm _ (2 ^ 52), nearestMagnitude_scaled hdenominator, hnumerator]
  exact congrArg _ (nearestMagnitude_self hfinite)

theorem roundedQuotient_le (a b : Nat) : roundedQuotient a b ≤ a / b + 1 := by
  simp only [roundedQuotient]
  split
  · omega
  · split <;> omega

-- A word is far below what is too large for a double.
theorem nearestMagnitude_word (hn : n < 2 ^ 64) : nearestMagnitude n 1 < infinityBits := by
  by_cases hzero : n = 0
  · rw [hzero]
    decide
  have hlog : n.log2 < 64 := (Nat.log2_lt hzero).mpr hn
  have horder : binaryOrder n 1 = n.log2 := by simpa using binaryOrder_eq hzero 0
  have hplace : max ((n.log2 : Int) - 52) (-1074) = n.log2 - 52 := by omega
  have hquotient : n * 2 ^ (-((n.log2 : Int) - 52)).toNat / (1 * 2 ^ ((n.log2 : Int) - 52).toNat) < 2 ^ 53 := by
    rw [Nat.one_mul, Nat.div_lt_iff_lt_mul (Nat.two_pow_pos _)]
    calc n * 2 ^ (-((n.log2 : Int) - 52)).toNat
      _ < 2 ^ (n.log2 + 1) * 2 ^ (-((n.log2 : Int) - 52)).toNat :=
          Nat.mul_lt_mul_of_pos_right Nat.lt_log2_self (Nat.two_pow_pos _)
      _ = 2 ^ 53 * 2 ^ ((n.log2 : Int) - 52).toNat := by
          rw [← Nat.pow_add, ← Nat.pow_add]
          congr 1
          omega
  have hrounded := roundedQuotient_le (n * 2 ^ (-((n.log2 : Int) - 52)).toNat)
    (1 * 2 ^ ((n.log2 : Int) - 52).toNat)
  simp only [nearestMagnitude, if_neg hzero, horder, hplace, Nat.pow_eq]
  refine Nat.lt_of_le_of_lt (Nat.min_le_right _ _) ?_
  simp only [fractionPlace, infinityBits]
  omega

theorem isFinite_ofNat (hn : n < 2 ^ 64) : (ofNat n).isFinite := by
  have hlt := nearestMagnitude_word hn
  have hsign : nearestMagnitude n 1 < signPlace := Nat.lt_trans hlt (by decide)
  simpa [isFinite, ofNat, nearest, magnitude_ofMagnitude false hsign] using hlt

theorem mulMagnitude_ofNat (hn : n < 2 ^ 64) : mulMagnitude (ofNat n) (DecimalLiteral.powerOfTen 0) = ofNat n := by
  have hsign : nearestMagnitude n 1 < signPlace := Nat.lt_trans (nearestMagnitude_word hn) (by decide)
  rw [mulMagnitude_one (isFinite_ofNat hn), ofNat, nearest, magnitude_ofMagnitude false hsign]

end Binary64

namespace DecimalLiteral
open Text Binary64

theorem le_of_digitsFrom? {read n : Nat} {cs : List Char} (h : digitsFrom? 10 read cs = some n) : read ≤ n := by
  induction cs generalizing read with
  | nil => exact Nat.le_of_eq (Option.some.inj h)
  | cons c rest ih =>
      obtain ⟨value, -, hrest⟩ := Option.bind_eq_some_iff.mp h
      have := ih hrest
      omega

theorem leadingWord_eq {read n : Nat} {cs : List Char} (hdigits : digitsFrom? 10 read cs = some n)
    (hn : n < 2 ^ 64) : leadingWord read cs = (n, []) := by
  induction cs generalizing read with
  | nil =>
      obtain rfl := Option.some.inj hdigits
      rfl
  | cons c rest ih =>
      obtain ⟨value, hvalue, hrest⟩ := Option.bind_eq_some_iff.mp hdigits
      have hnext : read * 10 + value < 0x10000000000000000 := Nat.lt_of_le_of_lt (le_of_digitsFrom? hrest) hn
      rw [leadingWord, hvalue, Option.getD_some, if_pos hnext, ih hrest]

-- A word without a sign becomes the double that is nearest to it.
theorem toScaled?_word {digits : List Char} {n : Nat} (hdigits : digitsFrom? 10 0 digits = some n)
    (hn : n < 2 ^ 64) : toScaled? ⟨false, digits, [], 0⟩ = some (ofNat n) := by
  simp [toScaled?, leadingWord_eq hdigits hn, leadingWord, scale?, mulMagnitude_ofNat hn, isFinite_ofNat hn]

end DecimalLiteral
end ScraperTimeline
