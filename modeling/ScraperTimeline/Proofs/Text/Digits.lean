import ScraperTimeline.Text.Digits
import Mathlib.Data.Nat.Notation
import Mathlib.Tactic.IntervalCases

/-!
Digits that are written read back as the number.
-/
namespace ScraperTimeline.Text

section
variable {radix : Nat}

theorem digitsFrom?_append (radix read : Nat) (before after : List Char) :
    digitsFrom? radix read (before ++ after) =
      (digitsFrom? radix read before).bind fun n => digitsFrom? radix n after := by
  induction before generalizing read with
  | nil => rfl
  | cons c before ih =>
      simp only [List.cons_append, digitsFrom?, Option.bind_assoc]
      exact Option.bind_congr fun value _ => ih (read * radix + value)

theorem digitsFrom?_replicate_zero (hradix : 0 < radix) (count : Nat) (digits : List Char) :
    digitsFrom? radix 0 (List.replicate count '0' ++ digits) = digitsFrom? radix 0 digits := by
  have hzero : digit? radix '0' = some 0 := by simp [digit?, hradix]
  induction count with
  | zero => rfl
  | succ count ih => simp [List.replicate_succ, digitsFrom?, hzero, ih]

-- The value of a digit is the digit that was written, in any radix up to sixteen.
theorem digit?_digitChar (hradix : radix ≤ 16) {value : Nat} (h : value < radix) :
    digit? radix (Nat.digitChar value) = some value := by
  have hall : ∀ value < 16,
      (if '0' ≤ Nat.digitChar value ∧ Nat.digitChar value ≤ '9' then
        (Nat.digitChar value).toNat - '0'.toNat
      else if 'a' ≤ Nat.digitChar value ∧ Nat.digitChar value ≤ 'z' then
        (Nat.digitChar value).toNat - 'a'.toNat + 10
      else if 'A' ≤ Nat.digitChar value ∧ Nat.digitChar value ≤ 'Z' then
        (Nat.digitChar value).toNat - 'A'.toNat + 10
      else radix) = value := by
    intro value hvalue
    interval_cases value <;> rfl
  rw [digit?, hall value (by omega), if_pos h]

theorem digitsFrom?_toDigits (hlow : 1 < radix) (hhigh : radix ≤ 16) (n : Nat) :
    digitsFrom? radix 0 (Nat.toDigits radix n) = some n := by
  induction n using Nat.strongRecOn with
  | ind n ih =>
      by_cases hsmall : n < radix
      · rw [Nat.toDigits_of_lt_base hsmall]
        simp [digitsFrom?, digit?_digitChar hhigh hsmall]
      · have hdiv : n / radix < n := Nat.div_lt_self (by omega) hlow
        have hmod : n % radix < radix := Nat.mod_lt _ (by omega)
        rw [Nat.toDigits_of_base_le hlow (by omega), digitsFrom?_append, ih _ hdiv]
        simp only [Option.bind_some, digitsFrom?, digit?_digitChar hhigh hmod]
        rw [Nat.mul_comm, Nat.div_add_mod]

theorem natural?_of_ne_nil {digits : List Char} (h : digits ≠ []) :
    natural? radix digits = digitsFrom? radix 0 digits := by
  cases digits with
  | nil => exact (h rfl).elim
  | cons c rest => rfl

end

/-! ### Decimal digits -/

section
variable {n width : Nat}

theorem digits_ne_nil (n : Nat) : digits n ≠ [] := Nat.toDigits_ne_nil

theorem digitsFrom?_digits (n : Nat) : digitsFrom? 10 0 (digits n) = some n :=
  digitsFrom?_toDigits (by decide) (by decide) n

theorem natural?_digits (n : Nat) : natural? 10 (digits n) = some n := by
  rw [natural?_of_ne_nil (digits_ne_nil n), digitsFrom?_digits]

theorem isDigit_iff {c : Char} : isDigit c ↔ c.isDigit := by
  simp [isDigit, Char.isDigit, Char.le_def]

theorem isDigit_of_mem_digits {c : Char} (h : c ∈ digits n) : isDigit c :=
  isDigit_iff.mpr (Nat.isDigit_of_mem_toDigits (by decide) (by decide) h)

theorem digits_length_le_iff {count : Nat} (h : 0 < count) :
    (digits n).length ≤ count ↔ n < 10 ^ count :=
  Nat.length_toDigits_le_iff (by decide) h

@[simp] theorem digits_zero : digits 0 = ['0'] := rfl

-- Only zero starts with a zero.
theorem head?_digits_ne (h : n ≠ 0) : (digits n).head? ≠ some '0' := by
  induction n using Nat.strongRecOn with
  | ind n ih =>
      by_cases hsmall : n < 10
      · rw [digits, Nat.toDigits_of_lt_base hsmall]
        interval_cases n <;> simp_all [Nat.digitChar]
      · obtain ⟨c, rest, hdigits⟩ := List.exists_cons_of_ne_nil (digits_ne_nil (n / 10))
        have hfirst := ih (n / 10) (by omega) (by omega)
        rw [hdigits] at hfirst
        rw [digits, Nat.toDigits_of_base_le (by decide) (by omega), ← digits, hdigits]
        exact hfirst

/-! ### Padded digits -/

theorem isDigit_of_mem_padded {c : Char} (h : c ∈ padded width n) : isDigit c := by
  rcases List.mem_append.mp h with h | h
  · rw [List.eq_of_mem_replicate h]
    rfl
  · exact isDigit_of_mem_digits h

theorem natural?_padded (width n : Nat) : natural? 10 (padded width n) = some n := by
  rw [natural?_of_ne_nil (by simp [padded, digits_ne_nil]), padded,
    digitsFrom?_replicate_zero (by decide), digitsFrom?_digits]

theorem length_padded (hwidth : 0 < width) (h : n < 10 ^ width) : (padded width n).length = width := by
  have hle := (digits_length_le_iff hwidth).mpr h
  rw [padded, List.length_append, List.length_replicate]
  omega

theorem natural?_hex (width n : Nat) : natural? 16 (hex width n) = some n := by
  rw [natural?_of_ne_nil (by simp [hex, Nat.toDigits_ne_nil]), hex,
    digitsFrom?_replicate_zero (by decide), digitsFrom?_toDigits (by decide) (by decide)]

theorem length_hex (hwidth : 0 < width) (h : n < 16 ^ width) : (hex width n).length = width := by
  have hle := (Nat.length_toDigits_le_iff (b := 16) (by decide) hwidth).mpr h
  rw [hex, List.length_append, List.length_replicate]
  omega

end
end ScraperTimeline.Text
