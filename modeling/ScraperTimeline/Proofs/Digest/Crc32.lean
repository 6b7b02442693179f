import ScraperTimeline.Digest.Crc32
import Mathlib.Data.Nat.Digits.Lemmas
import Mathlib.Data.UInt

/-!
What the redundancy check detects. A bit of the division is linear and loses nothing, so a register before
some bytes is known from the one after them, and four bytes at most are known from the registers around
them: no damage within four bytes leaves the checksum as it was.
-/
namespace ScraperTimeline.Crc32

variable {r s x y : BitVec 32} {bytes others : List UInt8} {b : UInt8}

/-! ### Bits -/

theorem shift_xor (x y : BitVec 32) : shift (x ^^^ y) = shift x ^^^ shift y := by
  simp only [shift, BitVec.getLsbD_xor, BitVec.ushiftRight_xor_distrib]
  cases x.getLsbD 0 <;> cases y.getLsbD 0
  · rfl
  · exact BitVec.xor_assoc ..
  · simp only [Bool.bne_false, if_true, Bool.false_eq_true, if_false]
    ac_rfl
  · simp only [bne_self_eq_false, Bool.false_eq_true, if_false, if_true]
    calc x >>> 1 ^^^ y >>> 1
        = x >>> 1 ^^^ y >>> 1 ^^^ (polynomial ^^^ polynomial) := by rw [BitVec.xor_self, BitVec.xor_zero]
      _ = x >>> 1 ^^^ polynomial ^^^ (y >>> 1 ^^^ polynomial) := by ac_rfl

-- The highest bit of the polynomial tells whether it was added.
theorem eq_zero_of_shift (h : shift x = 0#32) : x = 0#32 := by
  have hbit (i : Nat) : (shift x).getLsbD i = false := by rw [h, BitVec.getLsbD_zero]
  have hlow : x.getLsbD 0 = false := by
    by_contra hset
    have htop := hbit 31
    rw [shift, if_pos (by simpa using hset), BitVec.getLsbD_xor, BitVec.getLsbD_ushiftRight,
      BitVec.getLsbD_of_ge x _ (by decide)] at htop
    exact absurd htop (by decide)
  refine BitVec.eq_of_getLsbD_eq fun i hi => ?_
  rw [BitVec.getLsbD_zero]
  cases i with
  | zero => exact hlow
  | succ i =>
      have hnext := hbit i
      rwa [shift, if_neg (by simpa using hlow), BitVec.getLsbD_ushiftRight, Nat.add_comm] at hnext

theorem shift_injective : Function.Injective shift := by
  intro x y h
  refine BitVec.xor_eq_zero_iff.mp (eq_zero_of_shift ?_)
  rw [shift_xor, h, BitVec.xor_self]

theorem iterate_shift_xor (n : Nat) (x y : BitVec 32) : shift^[n] (x ^^^ y) = shift^[n] x ^^^ shift^[n] y := by
  induction n generalizing x y with
  | zero => rfl
  | succ n ih => rw [Function.iterate_succ_apply, shift_xor, ih]; rfl

-- As long as zeros come out nothing is added.
theorem iterate_shift_of_zeros {n : Nat} (h : ∀ i < n, x.getLsbD i = false) : shift^[n] x = x >>> n := by
  induction n with
  | zero => rw [BitVec.ushiftRight_zero]; rfl
  | succ n ih =>
      have hlow : (x >>> n).getLsbD 0 = false := by
        rw [BitVec.getLsbD_ushiftRight, Nat.add_zero]
        exact h n n.lt_succ_self
      rw [Function.iterate_succ_apply', ih fun i hi => h i (Nat.lt_succ_of_lt hi), shift,
        if_neg (by simpa using hlow), BitVec.shiftRight_add]

/-! ### Bytes -/

theorem step_eq (r : BitVec 32) (b : UInt8) : step r b = shift^[8] (r ^^^ b.toBitVec.setWidth 32) := rfl

theorem remainder_cons (r : BitVec 32) (b : UInt8) (bytes : List UInt8) :
    remainder r (b :: bytes) = remainder (step r b) bytes := rfl

theorem remainder_append (r : BitVec 32) (bytes more : List UInt8) :
    remainder r (bytes ++ more) = remainder (remainder r bytes) more := List.foldl_append ..

theorem step_injective (b : UInt8) : Function.Injective (step · b) := by
  intro r s h
  exact (BitVec.xor_left_inj _).mp (shift_injective.iterate 8 h)

theorem remainder_injective (bytes : List UInt8) : Function.Injective (remainder · bytes) := by
  induction bytes with
  | nil => exact fun _ _ h => h
  | cons b bytes ih => exact fun r s h => step_injective b (ih h)

-- Bytes as a word, the first one lowest.
def word (bytes : List UInt8) : BitVec 32 := BitVec.ofNat 32 (Nat.ofDigits 256 (bytes.map UInt8.toNat))

theorem toNat_lt_of_mem {bytes : List UInt8} {n : Nat} (h : n ∈ bytes.map UInt8.toNat) : n < 256 := by
  obtain ⟨b, -, rfl⟩ := List.mem_map.mp h
  exact b.toNat_lt

theorem ofDigits_lt (bytes : List UInt8) :
    Nat.ofDigits 256 (bytes.map UInt8.toNat) < 256 ^ bytes.length := by
  have hdigits : ∀ n ∈ bytes.map UInt8.toNat, n < 256 := fun n => toNat_lt_of_mem
  have hlt := Nat.ofDigits_lt_base_pow_length (by decide) hdigits
  rwa [List.length_map] at hlt

theorem toNat_word (h : bytes.length ≤ 4) : (word bytes).toNat = Nat.ofDigits 256 (bytes.map UInt8.toNat) := by
  rw [word, BitVec.toNat_ofNat, Nat.mod_eq_of_lt]
  exact (ofDigits_lt bytes).trans_le (Nat.pow_le_pow_right (by decide) h)

theorem word_inj (hlength : bytes.length = others.length) (h : bytes.length ≤ 4)
    (heq : word bytes = word others) : bytes = others := by
  have hdigits := congrArg BitVec.toNat heq
  rw [toNat_word h, toNat_word (hlength ▸ h)] at hdigits
  have hmap := Nat.ofDigits_inj_of_len_eq (by decide) (by simpa using hlength)
    (fun n => toNat_lt_of_mem) (fun n => toNat_lt_of_mem) hdigits
  exact List.map_injective_iff.mpr (fun a b => UInt8.toNat_inj.mp) hmap

theorem word_cons (b : UInt8) (bytes : List UInt8) :
    word (b :: bytes) = b.toBitVec.setWidth 32 ^^^ word bytes <<< 8 := by
  refine BitVec.eq_of_getLsbD_eq fun i hi => ?_
  have hbyte : b.toNat < 2 ^ 8 := b.toNat_lt
  rw [word, List.map_cons, Nat.ofDigits_cons, Nat.add_comm, BitVec.getLsbD_ofNat,
    Nat.testBit_two_pow_mul_add _ hbyte, BitVec.getLsbD_xor, BitVec.getLsbD_setWidth,
    BitVec.getLsbD_shiftLeft, word, BitVec.getLsbD_ofNat]
  by_cases hlow : i < 8
  · simp [hi, hlow, BitVec.getLsbD]
  · have hhigh : b.toBitVec.getLsbD i = false := BitVec.getLsbD_of_ge _ _ (by omega)
    have hlt : i - 8 < 32 := by omega
    simp [hi, hlow, hhigh, hlt]

-- A word of three bytes at most comes back from where the next byte makes room for it.
theorem iterate_shift_word (h : bytes.length ≤ 3) : shift^[8] (word bytes <<< 8) = word bytes := by
  rw [iterate_shift_of_zeros fun i hi => by simp [hi]]
  have hlt : (word bytes).toNat < 256 ^ 3 := by
    rw [toNat_word (h.trans (by decide))]
    exact (ofDigits_lt bytes).trans_le (Nat.pow_le_pow_right (by decide) h)
  refine BitVec.eq_of_toNat_eq ?_
  rw [BitVec.toNat_ushiftRight, BitVec.toNat_shiftLeft, Nat.shiftLeft_eq, Nat.shiftRight_eq_div_pow]
  omega

-- Four bytes at most go into the register as one word.
theorem remainder_eq_iterate_shift (r : BitVec 32) (h : bytes.length ≤ 4) :
    remainder r bytes = shift^[8 * bytes.length] (r ^^^ word bytes) := by
  induction bytes generalizing r with
  | nil => simp [remainder, word]
  | cons b bytes ih =>
      have hrest : bytes.length ≤ 3 := Nat.le_of_succ_le_succ h
      calc remainder r (b :: bytes)
          = shift^[8 * bytes.length] (step r b ^^^ word bytes) := by
            rw [remainder_cons, ih _ (hrest.trans (by decide))]
        _ = shift^[8 * bytes.length] (shift^[8] (r ^^^ b.toBitVec.setWidth 32 ^^^ word bytes <<< 8)) := by
            rw [iterate_shift_xor 8, iterate_shift_word hrest, step_eq]
        _ = shift^[8 * (b :: bytes).length] (r ^^^ word (b :: bytes)) := by
            rw [← Function.iterate_add_apply, BitVec.xor_assoc, ← word_cons, List.length_cons, Nat.mul_succ]

theorem eq_of_remainder_eq (hlength : bytes.length = others.length) (h : bytes.length ≤ 4)
    (heq : remainder r bytes = remainder r others) : bytes = others := by
  rw [remainder_eq_iterate_shift r h, remainder_eq_iterate_shift r (hlength ▸ h), ← hlength] at heq
  exact word_inj hlength h ((BitVec.xor_right_inj r).mp (shift_injective.iterate _ heq))

-- Different bytes in the same four places have different checksums, whatever is around them.
theorem checksum_ne {before window damaged after : List UInt8} (hlength : damaged.length = window.length)
    (h : window.length ≤ 4) (hne : damaged ≠ window) :
    checksum (before ++ damaged ++ after) ≠ checksum (before ++ window ++ after) := by
  intro heq
  have hremainder := BitVec.not_inj.mp heq
  rw [remainder_append, remainder_append, remainder_append, remainder_append] at hremainder
  exact hne (eq_of_remainder_eq hlength (hlength ▸ h) (remainder_injective after hremainder))

end ScraperTimeline.Crc32
