import ScraperTimeline.Instant.Text
import ScraperTimeline.Proofs.Instant.Calendar
import ScraperTimeline.Proofs.Text.Digits

/-!
Instants that are stored as text are read back to the nanosecond, leap seconds too, as far as their years
can be read.
-/
namespace ScraperTimeline.Instant
open Text

-- The instants of the years that can be read. A leap second comes at the end of a minute.
structure Representable (a : Instant) : Prop where
  first : daysTo (-262143) 1 1 * 86400 ≤ a.second
  last : a.second < daysTo 262143 1 1 * 86400
  nano_lt : a.nano < 2 * nanosPerSecond
  leap : nanosPerSecond ≤ a.nano → a.second % 60 = 59

theorem Representable.wholeSecond {a : Instant} (h : a.Representable) : a.wholeSecond.Representable := by
  obtain ⟨hfirst, hlast, hnano, hleap⟩ := h
  have hle : a.nano - a.nano % nanosPerSecond ≤ a.nano := Nat.sub_le _ _
  exact ⟨hfirst, hlast, hle.trans_lt hnano, fun h => hleap (h.trans hle)⟩

-- The second before is one of the years that can be read if something earlier is.
theorem Representable.secondBefore {a b : Instant} (hb : b.Representable) (hwhole : b.isWhole)
    (ha : a.Representable) (hle : a ≤ b.secondBefore) : b.secondBefore.Representable := by
  have hfirst := ha.first
  have hlast := hb.last
  have hnano : b.nano = 0 := by simpa [isWhole] using hwhole
  rw [le_def] at hle
  simp only [Instant.secondBefore, hnano] at hle ⊢
  exact ⟨by dsimp only; omega, by dsimp only; omega, by simp [nanosPerSecond], by simp [nanosPerSecond]⟩

-- The years of four digits are among those that can be read.
theorem representable_of_ofDateTime? {a : Instant} {year month day hour minute second : Int} {nano : Nat}
    (h : ofDateTime? year month day hour minute second nano = some a) (hyear : 0 ≤ year ∧ year ≤ 9999) :
    a.Representable := by
  obtain ⟨hfirst, hlast⟩ := hyear
  have hfirst := firstDay_mono hfirst
  have hlast := firstDay_mono (Int.add_le_add_right hlast 1)
  rw [ofDateTime?] at h
  split at h
  next hparts =>
    obtain ⟨hmonth, hmonth', hday, hday', hparts⟩ := hparts
    have hdays := daysTo_bounds ⟨hmonth, hmonth', hday, hday'⟩
    have hzero : firstDay 0 = -719528 := rfl
    have hend : firstDay (9999 + 1) = 2932897 := rfl
    rw [hzero] at hfirst
    rw [hend] at hlast
    have hlow : daysTo (-262143) 1 1 * 86400 ≤ -719528 * 86400 := by decide
    have hhigh : 2932897 * 86400 ≤ daysTo 262143 1 1 * 86400 := by decide
    have hnanos : nanosPerSecond = 1000000000 := rfl
    split at h <;> obtain rfl := Option.some.inj h
    · exact ⟨by dsimp only; omega, by dsimp only; omega, by dsimp only; omega, fun _ => by dsimp only; omega⟩
    · exact ⟨by dsimp only; omega, by dsimp only; omega, by dsimp only; omega, fun h => by dsimp only at h; omega⟩
  next => cases h

/-! ### Parts -/

section
variable {c : Char} {digits rest : List Char} {n most : Nat}

theorem isBlank_of_isDigit (h : isDigit c) : isBlank c = false := by
  have hrange : '0'.toNat ≤ c.toNat ∧ c.toNat ≤ '9'.toNat := by
    simpa [isDigit, Char.le_def, UInt32.le_iff_toNat_le] using h
  have hzero : '0'.toNat = 48 := rfl
  have hnine : '9'.toNat = 57 := rfl
  simp only [isBlank, blankRanges, List.any_cons, List.any_nil, Bool.or_false, Bool.or_eq_false_iff,
    Bool.and_eq_false_iff, decide_eq_false_iff_not]
  omega

theorem skipBlanks_cons (h : isBlank c = false) : skipBlanks (c :: rest) = c :: rest := by
  simp [skipBlanks, h]

theorem skipBlanks_digits (hne : digits ≠ []) (hdigits : ∀ c ∈ digits, isDigit c) :
    skipBlanks (digits ++ rest) = digits ++ rest := by
  obtain ⟨c, cs, rfl⟩ := List.exists_cons_of_ne_nil hne
  exact skipBlanks_cons (isBlank_of_isDigit (hdigits c List.mem_cons_self))

theorem number?_of_digits (hdigits : ∀ c ∈ digits, isDigit c) (hvalue : natural? 10 digits = some n)
    (hlength : digits.length ≤ most)
    (hrest : digits.length = most ∨ ∀ c, rest.head? = some c → isDigit c = false) :
    number? most (digits ++ rest) = some ((n : Int), rest) := by
  have hstop : (rest.take (most - digits.length)).takeWhile isDigit = [] := by
    rcases hrest with rfl | hrest
    · simp
    · cases rest with
      | nil => simp
      | cons c rest =>
          cases most - digits.length with
          | zero => rfl
          | succ count => simp [hrest c rfl]
  have hshown : ((digits ++ rest).take most).takeWhile isDigit = digits := by
    rw [List.take_append, List.take_of_length_le hlength, List.takeWhile_append_of_pos hdigits, hstop,
      List.append_nil]
  simp only [number?, hshown, hvalue, List.drop_left]
  rfl

theorem padded_ne_nil (width n : Nat) : padded width n ≠ [] := by simp [padded, digits_ne_nil]

theorem number?_padded (h : n < 100) : number? 2 (padded 2 n ++ rest) = some ((n : Int), rest) :=
  number?_of_digits (fun _ => isDigit_of_mem_padded) (natural?_padded 2 n)
    (length_padded (by decide) h).le (.inl (length_padded (by decide) h))

theorem part?_padded (hc : isBlank c = false) (h : n < 100) :
    part? c (c :: (padded 2 n ++ rest)) = some ((n : Int), rest) := by
  rw [part?, skipBlanks_cons hc]
  simp only [if_true]
  rw [skipBlanks_digits (padded_ne_nil 2 n) fun _ => isDigit_of_mem_padded, number?_padded h]

end

/-! ### Dates -/

section
variable {year : Int} {rest : List Char}

theorem head?_yearText (year : Int) : ∃ c cs, yearText year = c :: cs ∧ isBlank c = false := by
  unfold yearText
  split
  · obtain ⟨c, cs, hpadded⟩ := List.exists_cons_of_ne_nil (padded_ne_nil 4 year.toNat)
    exact ⟨c, cs, hpadded, isBlank_of_isDigit (isDigit_of_mem_padded (by rw [hpadded]; simp))⟩
  · refine ⟨_, _, rfl, ?_⟩
    split <;> decide

-- A year of four digits, or one with a sign before all of its digits.
theorem year?_yearText (year : Int) : year? (yearText year ++ '-' :: rest) = some (year, '-' :: rest) := by
  have hstop : ∀ c, ('-' :: rest).head? = some c → isDigit c = false := by
    rintro c hc
    obtain rfl : '-' = c := by simpa using hc
    rfl
  unfold yearText
  split
  next h =>
    have hlength : (padded 4 year.toNat).length = 4 := length_padded (by decide) (by omega)
    have hread : number? 4 (padded 4 year.toNat ++ '-' :: rest) = _ :=
      number?_of_digits (fun _ => isDigit_of_mem_padded) (natural?_padded 4 year.toNat) hlength.le
        (.inl hlength)
    obtain ⟨c, cs, hpadded⟩ := List.exists_cons_of_ne_nil (padded_ne_nil 4 year.toNat)
    have hfirst : c ∈ padded 4 year.toNat := by simp [hpadded]
    have hdigit : isDigit c := isDigit_of_mem_padded hfirst
    have hsign : c ≠ '-' ∧ c ≠ '+' := by
      constructor <;> rintro rfl <;> cases hdigit
    have hyear : ((year.toNat : Nat) : Int) = year := by omega
    rw [hyear, hpadded] at hread
    rw [hpadded]
    simpa [year?, hsign.1, hsign.2] using hread
  next h =>
    have hread : number? (padded 4 year.natAbs ++ '-' :: rest).length
        (padded 4 year.natAbs ++ '-' :: rest) = _ :=
      number?_of_digits (fun _ => isDigit_of_mem_padded) (natural?_padded 4 year.natAbs) (by simp)
        (.inr hstop)
    by_cases hneg : year < 0
    · have hyear : -((year.natAbs : Nat) : Int) = year := by omega
      simp only [hneg, if_true, List.cons_append, year?, hread, Option.map_some, hyear]
    · have hyear : ((year.natAbs : Nat) : Int) = year := by omega
      simp only [hneg, if_false, List.cons_append, year?, hread, hyear]

end

/-! ### Times -/

theorem fraction?_fractionText {nano : Nat} (h : nano < nanosPerSecond) (rest : List Char) :
    fraction? (fractionText nano ++ 'Z' :: rest) = some (nano, 'Z' :: rest) := by
  have hread {width value : Nat} (hwidth : 0 < width ∧ width ≤ 9) (hvalue : value < 10 ^ width) :
      fraction? ('.' :: padded width value ++ 'Z' :: rest) =
        some (value * 10 ^ (9 - width), 'Z' :: rest) := by
    have hdigits : ∀ c ∈ padded width value, isDigit c := fun _ => isDigit_of_mem_padded
    have hlength := length_padded hwidth.1 hvalue
    have hshown : (padded width value ++ 'Z' :: rest).takeWhile isDigit = padded width value := by
      rw [List.takeWhile_append_of_pos hdigits, List.takeWhile_cons_of_neg (by decide), List.append_nil]
    have hafter : (padded width value ++ 'Z' :: rest).dropWhile isDigit = 'Z' :: rest := by
      rw [List.dropWhile_append_of_pos hdigits, List.dropWhile_cons_of_neg (by decide)]
    have hcounted : (padded width value).take 9 = padded width value :=
      List.take_of_length_le (by omega)
    simp only [List.cons_append, fraction?, hshown, hafter, hcounted, natural?_padded, hlength,
      Option.map_some, Nat.pow_eq]
  have hnano : nanosPerSecond = 1000000000 := rfl
  unfold fractionText
  split
  next hzero => rw [hzero]; rfl
  next =>
    split
    next =>
      rw [hread (by decide) (by omega)]
      simp only [Option.some.injEq, Prod.mk.injEq, and_true]
      omega
    next =>
      split
      next =>
        rw [hread (by decide) (by omega)]
        simp only [Option.some.injEq, Prod.mk.injEq, and_true]
        omega
      next =>
        rw [hread (by decide) (by omega)]
        simp

-- The parts of a text are read one after another.
theorem read?_of_parts {text : String} {year : Int} {month day hour minute second nano : Nat}
    {a : Instant}
    (htext : text.toList = yearText year ++ '-' :: (padded 2 month ++ '-' :: (padded 2 day ++ 'T' ::
      (padded 2 hour ++ ':' :: (padded 2 minute ++ ':' :: (padded 2 second ++
        (fractionText nano ++ ['Z'])))))))
    (hmonth : month < 100) (hday : day < 100) (hhour : hour < 100) (hminute : minute < 100)
    (hsecond : second < 100) (hnano : nano < nanosPerSecond)
    (hyear : -262143 ≤ year ∧ year ≤ 262142)
    (hdate : ofDateTime? year month day hour minute second nano = some a) : read? text = some a := by
  have hstart : skipBlanks text.toList = text.toList := by
    obtain ⟨c, cs, hyear, hc⟩ := head?_yearText year
    rw [htext, hyear, List.cons_append, skipBlanks_cons hc]
  rw [htext] at hstart
  have hhours (rest : List Char) :
      number? 2 (skipBlanks (padded 2 hour ++ rest)) = some ((hour : Int), rest) := by
    rw [skipBlanks_digits (padded_ne_nil 2 hour) fun _ => isDigit_of_mem_padded, number?_padded hhour]
  have hzone : zone? (skipBlanks ['Z']) = some (0, []) := by decide
  have hend : skipBlanks [] = [] := rfl
  simp only [read?, htext, hstart, year?_yearText, part?_padded (c := '-') (by decide) hmonth,
    part?_padded (c := '-') (by decide) hday, hhours, part?_padded (c := ':') (by decide) hminute,
    part?_padded (c := ':') (by decide) hsecond, fraction?_fractionText hnano, hzone, hdate, hend,
    hyear, Option.bind_eq_bind, Option.bind_some]
  simp

theorem read?_storedText {a : Instant} (h : a.Representable) : read? a.storedText = some a := by
  obtain ⟨second, nano⟩ := a
  obtain ⟨hfirst, hlast, hnano, hleap⟩ := h
  obtain ⟨hdate, hdays⟩ := isDate_dateOf (second / 86400)
  have hnanos : nanosPerSecond = 1000000000 := rfl
  simp only [hnanos] at hfirst hlast hnano hleap
  generalize hparts : dateOf (second / 86400) = date at hdate hdays
  obtain ⟨year, month, day⟩ := date
  dsimp only at hdate hdays
  have hyear : -262143 ≤ year ∧ year ≤ 262142 := by
    constructor
    · apply le_year_of_daysTo hdate
      rw [firstDay, hdays]
      omega
    · apply year_le_of_daysTo hdate
      rw [hdays]
      change second / 86400 < daysTo 262143 1 1
      omega
  obtain ⟨hmonth, hmonth', hday, hday'⟩ := hdate
  have hmost := hday'.trans (daysInMonth_le year month)
  -- A leap second is the second of its minute after the one that has the number 59.
  have hofMinute : (second % 86400).toNat % 60 + nano / 1000000000 ≤ 60 := by omega
  apply @read?_of_parts _ year month.toNat day.toNat ((second % 86400).toNat / 3600)
    ((second % 86400).toNat / 60 % 60) ((second % 86400).toNat % 60 + nano / 1000000000)
    (nano % 1000000000)
  · rw [storedText, String.toList_ofList, dateText, timeText]
    simp only [hparts, hnanos, List.append_assoc, List.cons_append]
  · omega
  · omega
  · omega
  · omega
  · omega
  · rw [hnanos]
    omega
  · exact hyear
  · have hmonthly : ((month.toNat : Nat) : Int) = month := by omega
    have hdaily : ((day.toNat : Nat) : Int) = day := by omega
    rw [ofDateTime?, hmonthly, hdaily, hdays, hnanos, if_pos (by omega)]
    split <;> simp only [Option.some.injEq, Instant.mk.injEq] <;> omega

end ScraperTimeline.Instant
