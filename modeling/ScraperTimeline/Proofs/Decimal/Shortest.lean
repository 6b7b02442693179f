import ScraperTimeline.Decimal.Shortest
import ScraperTimeline.Proofs.Text.Digits
import Mathlib.Algebra.Order.Field.Power
import Mathlib.Algebra.Order.Field.Rat
import Mathlib.Tactic.Positivity

/-!
The shortest digits of a double other than zero do not make a zero.
-/
namespace ScraperTimeline

namespace Binary64

variable {x : Binary64}

theorem significand_pos (h : x.isZero = false) : 0 < x.significand := by
  have hmagnitude : x.magnitude ≠ 0 := by simpa [isZero] using h
  unfold significand
  split
  · omega
  · have : 0 < fractionPlace := by decide
    omega

theorem toQuotient_pos (h : x.isZero = false) : 0 < x.toQuotient.1.natAbs ∧ 0 < x.toQuotient.2 := by
  have hscaled : 0 < x.significand * Nat.pow 2 x.exponent.toNat :=
    Nat.mul_pos (significand_pos h) (Nat.pow_pos (by decide))
  refine ⟨?_, Nat.pow_pos (by decide)⟩
  simp only [toQuotient]
  split <;> omega

@[simp] theorem magnitude_ofMagnitude_zero (negative : Bool) : (ofMagnitude negative 0).magnitude = 0 := by
  cases negative <;> rfl

end Binary64

namespace Decimal
open Text Binary64

section
variable {numerator denominator : Nat} {power : Int}

-- A quotient is at least a power of ten.
def AtLeast (numerator denominator : Nat) (power : Int) : Prop :=
  denominator * Nat.pow 10 power.toNat ≤ numerator * Nat.pow 10 (-power).toNat

theorem atLeast_iff : AtLeast numerator denominator power ↔ (denominator : ℚ) * 10 ^ power ≤ numerator := by
  simp only [AtLeast, Nat.pow_eq]
  obtain ⟨n, rfl | rfl⟩ := Int.eq_nat_or_neg power
  · simp only [Int.toNat_natCast, Int.toNat_neg_natCast, zpow_natCast, pow_zero, mul_one]
    norm_cast
  · simp only [Int.toNat_natCast, Int.toNat_neg_natCast, neg_neg, zpow_neg, zpow_natCast, pow_zero, mul_one]
    rw [← div_eq_mul_inv, div_le_iff₀ (by positivity)]
    norm_cast

theorem AtLeast.mono {smaller : Int} (h : AtLeast numerator denominator power) (hle : smaller ≤ power) :
    AtLeast numerator denominator smaller := by
  rw [atLeast_iff] at h ⊢
  have hpower : (10 : ℚ) ^ smaller ≤ 10 ^ power := zpow_le_zpow_right₀ (by norm_num) hle
  exact (mul_le_mul_of_nonneg_left hpower (by positivity)).trans h

-- A number is at least the power of ten of its first digit, and below the next one.
theorem digits_bounds (h : numerator ≠ 0) :
    10 ^ ((digits numerator).length - 1) ≤ numerator ∧ numerator < 10 ^ (digits numerator).length := by
  have hlength : 0 < (digits numerator).length := List.length_pos_iff.mpr (digits_ne_nil _)
  refine ⟨?_, (digits_length_le_iff hlength).mp le_rfl⟩
  by_contra hsmall
  rcases Nat.eq_zero_or_pos ((digits numerator).length - 1) with hone | hmore
  · rw [hone] at hsmall
    omega
  · have := (digits_length_le_iff hmore).mpr (Nat.lt_of_not_le hsmall)
    omega

theorem atLeast_lengths (hnumerator : numerator ≠ 0) (hdenominator : denominator ≠ 0) :
    AtLeast numerator denominator
      (((digits numerator).length : Int) - (digits denominator).length - 1) := by
  have hlow : (10 : ℚ) ^ ((digits numerator).length - 1) ≤ numerator := by
    exact_mod_cast (digits_bounds hnumerator).1
  have hhigh : (denominator : ℚ) ≤ 10 ^ (digits denominator).length := by
    exact_mod_cast (digits_bounds hdenominator).2.le
  have hlength : 0 < (digits numerator).length := List.length_pos_iff.mpr (digits_ne_nil _)
  have hsplit : ((digits numerator).length : Int) - (digits denominator).length - 1 =
      ((digits numerator).length - 1 : Nat) - ((digits denominator).length : Int) := by omega
  rw [atLeast_iff, hsplit, zpow_sub₀ (by norm_num), zpow_natCast, zpow_natCast]
  calc (denominator : ℚ) * (10 ^ ((digits numerator).length - 1) / 10 ^ (digits denominator).length)
      ≤ 10 ^ (digits denominator).length *
          (10 ^ ((digits numerator).length - 1) / 10 ^ (digits denominator).length) :=
        mul_le_mul_of_nonneg_right hhigh (by positivity)
    _ = 10 ^ ((digits numerator).length - 1) := mul_div_cancel₀ _ (by positivity)
    _ ≤ numerator := hlow

end

variable {x : Binary64}

theorem atLeast_orderOf (h : x.isZero = false) :
    AtLeast x.toQuotient.1.natAbs x.toQuotient.2 (orderOf x) := by
  obtain ⟨hnumerator, hdenominator⟩ := toQuotient_pos h
  simp only [orderOf]
  split
  next => exact atLeast_lengths hnumerator.ne' hdenominator.ne'
  next hle => exact Nat.le_of_not_lt hle

theorem coefficient_withoutTrailingZeros_ne_zero {n : Nat} {d : Decimal} (h : d.coefficient ≠ 0) :
    (withoutTrailingZeros n d).coefficient ≠ 0 := by
  induction n generalizing d with
  | zero => exact h
  | succ n ih =>
      rw [withoutTrailingZeros]
      split
      next hzero =>
        apply ih
        dsimp only
        omega
      next => exact h

theorem coefficient_ne_zero_of_readsBackAs {d : Decimal} (h : x.isZero = false)
    (hread : readsBackAs x d) : d.coefficient ≠ 0 := by
  intro hzero
  have hx : ofMagnitude x.isNegative 0 = x := by
    simpa [readsBackAs, DecimalLiteral.nearestOf, hzero] using hread
  have hmagnitude : x.magnitude = 0 := by
    rw [← hx]
    exact magnitude_ofMagnitude_zero _
  simp [isZero, hmagnitude] at h

theorem coefficient_ne_zero_of_gridPoint? {power : Int} {d : Decimal} (h : x.isZero = false)
    (hd : gridPoint? x power = some d) : d.coefficient ≠ 0 := by
  simp only [gridPoint?] at hd
  split at hd
  next hread =>
    obtain rfl := Option.some.inj hd
    exact coefficient_ne_zero_of_readsBackAs h hread
  next =>
    split at hd
    next hread =>
      obtain rfl := Option.some.inj hd
      exact coefficient_ne_zero_of_readsBackAs h hread
    next =>
      split at hd
      next =>
        obtain rfl := Option.some.inj hd
        exact Nat.succ_ne_zero _
      next => cases hd

theorem coefficient_shortest_ne_zero (h : x.isZero = false) : (shortest x).coefficient ≠ 0 := by
  simp only [shortest, h, Bool.false_eq_true, if_false]
  apply coefficient_withoutTrailingZeros_ne_zero
  cases hfound : (List.range 17).findSome? fun (more : Nat) => gridPoint? x (orderOf x - more) with
  | some d =>
      obtain ⟨more, -, hd⟩ := List.exists_of_findSome?_eq_some hfound
      exact coefficient_ne_zero_of_gridPoint? h hd
  | none =>
      have hpoint := (atLeast_orderOf h).mono (show orderOf x - 16 ≤ orderOf x by omega)
      have hdenominator : 0 < (onGrid x (orderOf x - 16)).2 :=
        Nat.mul_pos (toQuotient_pos h).2 (Nat.pow_pos (by decide))
      exact (Nat.div_pos hpoint hdenominator).ne'

theorem shortest_of_isZero (h : x.isZero) : shortest x = ⟨0, 0⟩ := by simp [shortest, h]

end Decimal
end ScraperTimeline
