import ScraperTimeline.Instant.Basic

namespace ScraperTimeline.Instant

protected theorem le_refl (a : Instant) : a ≤ a := by
  rw [le_def]
  omega

protected theorem le_trans {a b c : Instant} (hab : a ≤ b) (hbc : b ≤ c) : a ≤ c := by
  rw [le_def] at *
  omega

protected theorem le_antisymm {a b : Instant} (hab : a ≤ b) (hba : b ≤ a) : a = b := by
  obtain ⟨second, nano⟩ := a
  obtain ⟨second', nano'⟩ := b
  simp only [le_def, Instant.mk.injEq] at *
  omega

protected theorem le_total (a b : Instant) : a ≤ b ∨ b ≤ a := by
  rw [le_def, le_def]
  omega

protected theorem not_lt {a b : Instant} : ¬a < b ↔ b ≤ a := by
  rw [le_def, lt_def]
  omega

protected theorem le_of_lt {a b : Instant} (h : a < b) : a ≤ b := by
  rw [le_def]
  rw [lt_def] at h
  omega

protected theorem ne_of_lt {a b : Instant} (h : a < b) : a ≠ b := by
  rintro rfl
  rw [lt_def] at h
  omega

protected theorem lt_of_le_of_lt {a b c : Instant} (hab : a ≤ b) (hbc : b < c) : a < c := by
  rw [le_def] at hab
  rw [lt_def] at *
  omega

protected theorem lt_of_lt_of_le {a b c : Instant} (hab : a < b) (hbc : b ≤ c) : a < c := by
  rw [lt_def] at *
  rw [le_def] at hbc
  omega

theorem secondBefore_lt (a : Instant) : a.secondBefore < a := by
  rw [lt_def]
  simp only [secondBefore]
  omega

theorem lt_of_le_secondBefore {a b : Instant} (h : a ≤ b.secondBefore) : a < b :=
  Instant.lt_of_le_of_lt h b.secondBefore_lt

-- Instants at the start of a second are a whole second apart if they differ.
theorem le_secondBefore_of_lt {a b : Instant} (ha : a.isWhole) (hb : b.isWhole) (h : a < b) :
    a ≤ b.secondBefore := by
  simp only [isWhole, decide_eq_true_eq] at ha hb
  rw [lt_def] at h
  rw [le_def]
  simp only [secondBefore]
  omega

theorem wholeSecond_of_isWhole {a : Instant} (h : a.isWhole) : a.wholeSecond = a := by
  obtain ⟨second, nano⟩ := a
  simp only [isWhole, decide_eq_true_eq] at h
  subst h
  rfl

-- An instant that is not before the start of a second is in that second or after it.
theorem le_wholeSecond {a b : Instant} (ha : a.isWhole) (h : a ≤ b) : a ≤ b.wholeSecond := by
  simp only [isWhole, decide_eq_true_eq] at ha
  rw [le_def] at *
  simp only [wholeSecond]
  omega

-- An instant of an ordinary second.
def Ordinary (a : Instant) : Prop := a.nano < nanosPerSecond

instance (a : Instant) : Decidable a.Ordinary := inferInstanceAs (Decidable (a.nano < nanosPerSecond))

namespace Ordinary

variable {a b : Instant}

theorem wholeSecond_eq (h : a.Ordinary) : a.wholeSecond = ⟨a.second, 0⟩ := by
  rw [wholeSecond, Nat.mod_eq_of_lt h, Nat.sub_self]

theorem isWhole (h : a.Ordinary) : a.wholeSecond.isWhole := by
  rw [h.wholeSecond_eq]
  rfl

theorem wholeSecond_lt_of_second_lt (ha : a.Ordinary) (hb : b.Ordinary) (h : a.second < b.second) :
    a.wholeSecond < b.wholeSecond := by
  rw [ha.wholeSecond_eq, hb.wholeSecond_eq, lt_def]
  exact .inl h

theorem wholeSecond_lt_of_lt (ha : a.Ordinary) (h : a < b) : a.wholeSecond < b := by
  rw [lt_def] at h
  rw [ha.wholeSecond_eq, lt_def]
  simp only
  omega

end Ordinary

-- An instant of the leap second that comes right before a second.
def LeapBefore (a b : Instant) : Prop := ¬a.Ordinary ∧ a.second = b.second - 1

instance (a b : Instant) : Decidable (a.LeapBefore b) :=
  inferInstanceAs (Decidable (¬a.Ordinary ∧ a.second = b.second - 1))

-- A leap second comes after the start of the second that it belongs to.
theorem wholeSecond_le_secondBefore_iff {a b : Instant} (hb : b.isWhole) :
    a.wholeSecond ≤ b.secondBefore ↔ a < b ∧ ¬a.LeapBefore b := by
  simp only [isWhole, decide_eq_true_eq] at hb
  simp only [le_def, lt_def, wholeSecond, secondBefore, LeapBefore, Ordinary, nanosPerSecond, hb]
  omega

end ScraperTimeline.Instant
