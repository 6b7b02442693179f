import ScraperTimeline.Instant.Basic
import Mathlib.Tactic.IntervalCases

/-!
The calendar. Every day has a date, which is in the calendar and leads back to the day, and dates are
in the order of their days.
-/
namespace ScraperTimeline.Instant

-- The days before a year of an era, both counted from March.
def daysBefore (year : Int) : Int := 365 * year + year / 4 - year / 100

-- The year of a day of an era, as the date of a day is computed.
def yearOfDay (day : Int) : Int := (day - day / 1460 + day / 36524 - day / 146096) / 365

-- The parts of an era: centuries, spans of four years, years and days. The last year of four may have a
-- day more, though not at the end of a century.
theorem yearOfDay_eq {century span year day n : Int} (hcentury : 0 ≤ century ∧ century < 4)
    (hspan : 0 ≤ span ∧ span ≤ 24) (hyear : 0 ≤ year ∧ year ≤ 3) (hday : 0 ≤ day)
    (hlast : day < 365 ∨ (day = 365 ∧ year = 3)) (hend : 1461 * span + 365 * year + day < 36524)
    (hn : n = 36524 * century + (1461 * span + 365 * year + day)) :
    yearOfDay n = 100 * century + 4 * span + year := by
  have hquotient : n / 1460 = 25 * century + span + (24 * century + span + 365 * year + day) / 1460 := by
    omega
  have hcenturies : n / 36524 = century := by omega
  have hera : n / 146096 = 0 := by omega
  rw [yearOfDay, hquotient, hcenturies, hera]
  omega

-- A year of an era, from March to February, and a day of it.
structure InYear (n year day : Int) : Prop where
  year_eq : yearOfDay n = year
  bounds : 0 ≤ year ∧ year < 400
  day_nonneg : 0 ≤ day
  day_le : day ≤ 365
  leap : day = 365 → isLeapYear (year + 1)
  days : n = daysBefore year + day

theorem exists_inYear {n : Int} (hn : 0 ≤ n ∧ n < 146097) : ∃ year day, InYear n year day := by
  by_cases hlast : n = 146096
  · subst hlast
    exact ⟨399, 365, rfl, by decide, by decide, by decide, fun _ => rfl, rfl⟩
  · let century := n / 36524
    let span := n % 36524 / 1461
    let year := min 3 (n % 36524 % 1461 / 365)
    let day := n % 36524 % 1461 - 365 * year
    have hcentury : 0 ≤ century ∧ century < 4 := by omega
    have hspan : 0 ≤ span ∧ span ≤ 24 := by omega
    have hyear : 0 ≤ year ∧ year ≤ 3 := by omega
    have hday : 0 ≤ day := by omega
    have hend : day < 365 ∨ (day = 365 ∧ year = 3) := by omega
    have hcenturies : 1461 * span + 365 * year + day < 36524 := by omega
    have hsum : n = 36524 * century + (1461 * span + 365 * year + day) := by omega
    clear_value century span year day
    refine ⟨100 * century + 4 * span + year, day,
      yearOfDay_eq hcentury hspan hyear hday hend hcenturies hsum, by omega, hday, by omega, fun h => ?_, ?_⟩
    · have hfourth : (100 * century + 4 * span + year + 1) % 4 = 0 := by omega
      have hinside : (100 * century + 4 * span + year + 1) % 100 ≠ 0 := by omega
      simp [isLeapYear, hfourth, hinside]
    · rw [daysBefore]
      omega

/-! ### Dates -/

-- What is a date of the calendar.
structure IsDate (year month day : Int) : Prop where
  month_pos : 1 ≤ month
  month_le : month ≤ 12
  day_pos : 1 ≤ day
  day_le : day ≤ daysInMonth year month

theorem daysTo_eq {era year m day : Int} (hyear : 0 ≤ year ∧ year < 400) (hm : 0 ≤ m ∧ m ≤ 11) :
    let month := if m < 10 then m + 3 else m - 9
    daysTo (era * 400 + year + (if month ≤ 2 then 1 else 0)) month day =
      era * 146097 + daysBefore year + (153 * m + 2) / 5 + day - 1 - 719468 := by
  intro month
  have hmonth : (month + 9) % 12 = m := by omega
  have hshifted : (if month ≤ 2 then era * 400 + year + (if month ≤ 2 then 1 else 0) - 1
      else era * 400 + year + (if month ≤ 2 then 1 else 0)) = era * 400 + year := by
    split <;> omega
  have hera : (era * 400 + year) / 400 = era := by omega
  have hrest : (era * 400 + year) % 400 = year := by omega
  simp only [daysTo, hmonth, hshifted, hera, hrest, daysBefore]
  omega

-- The months of a year from March on, and that of its last days.
theorem daysInMonth_ge {year era m day : Int} (hm : 0 ≤ m ∧ m ≤ 11) (hday : 0 ≤ day ∧ day ≤ 365)
    (hmonth : m = (5 * day + 2) / 153) (hleap : day = 365 → isLeapYear (year + 1)) :
    let month := if m < 10 then m + 3 else m - 9
    day - (153 * m + 2) / 5 + 1 ≤ daysInMonth (era * 400 + year + (if month ≤ 2 then 1 else 0)) month := by
  obtain ⟨hlow, hhigh⟩ := hm
  by_cases hfebruary : m = 11
  · subst hfebruary
    have hshift : isLeapYear (era * 400 + year + 1) = isLeapYear (year + 1) := by
      have hfourth : (era * 400 + year + 1) % 4 = (year + 1) % 4 := by omega
      have hcentury : (era * 400 + year + 1) % 100 = (year + 1) % 100 := by omega
      have hera : (era * 400 + year + 1) % 400 = (year + 1) % 400 := by omega
      rw [isLeapYear, isLeapYear, hfourth, hcentury, hera]
    simp only [daysInMonth]
    norm_num
    rw [hshift]
    split
    · omega
    next hnot =>
      have : day ≠ 365 := fun h => hnot (hleap h)
      omega
  · intro month
    have hne : month ≠ 2 := by omega
    simp only [daysInMonth, hne, if_false]
    split
    · omega
    next hlong =>
      omega

-- Every day has a date, and the date leads back to the day.
theorem isDate_dateOf (days : Int) :
    IsDate (dateOf days).1 (dateOf days).2.1 (dateOf days).2.2 ∧
      daysTo (dateOf days).1 (dateOf days).2.1 (dateOf days).2.2 = days := by
  obtain ⟨year, day, hyear⟩ := exists_inYear (n := (days + 719468) % 146097) (by omega)
  have hcount := hyear.days
  have hday : (days + 719468) % 146097 - (365 * year + year / 4 - year / 100) = day := by
    rw [daysBefore] at hcount
    omega
  obtain ⟨hnonneg, hle⟩ : 0 ≤ day ∧ day ≤ 365 := ⟨hyear.day_nonneg, hyear.day_le⟩
  let m := (5 * day + 2) / 153
  have hm : 0 ≤ m ∧ m ≤ 11 := by omega
  have hdate : dateOf days =
      let month := if m < 10 then m + 3 else m - 9
      ((days + 719468) / 146097 * 400 + year + (if month ≤ 2 then 1 else 0), month,
        day - (153 * m + 2) / 5 + 1) := by
    have heq := hyear.year_eq
    rw [yearOfDay] at heq
    simp only [dateOf, heq, hday, m]
  rw [hdate]
  refine ⟨⟨?_, ?_, ?_, daysInMonth_ge hm ⟨hnonneg, hle⟩ rfl hyear.leap⟩, ?_⟩
  · dsimp only
    omega
  · dsimp only
    omega
  · dsimp only
    omega
  · dsimp only
    rw [daysTo_eq hyear.bounds hm]
    omega

/-! ### Years -/

-- The first day of a year.
def firstDay (year : Int) : Int := daysTo year 1 1

theorem firstDay_eq (year : Int) :
    firstDay year = 365 * (year - 1) + (year - 1) / 4 - (year - 1) / 100 + (year - 1) / 400 - 719162 := by
  simp only [firstDay, daysTo]
  norm_num
  omega

theorem firstDay_mono {year later : Int} (h : year ≤ later) : firstDay year ≤ firstDay later := by
  rw [firstDay_eq, firstDay_eq]
  omega

theorem daysInMonth_le (year month : Int) : daysInMonth year month ≤ 31 := by
  unfold daysInMonth
  split
  · split <;> decide
  · split <;> decide

-- A date lies between the first days of its year and of the next one.
theorem daysTo_bounds {year month day : Int} (h : IsDate year month day) :
    firstDay year ≤ daysTo year month day ∧ daysTo year month day < firstDay (year + 1) := by
  obtain ⟨hpos, hle, hday, hlast⟩ := h
  have hmost := hlast.trans (daysInMonth_le year month)
  rw [firstDay_eq, firstDay_eq, daysTo]
  by_cases hspring : month ≤ 2
  · have hm : (month + 9) % 12 = month + 9 := by omega
    simp only [hspring, if_true, hm]
    omega
  · have hm : (month + 9) % 12 = month - 3 := by omega
    simp only [hspring, if_false, hm]
    omega

theorem year_le_of_daysTo {year month day later : Int} (h : IsDate year month day)
    (hlt : daysTo year month day < firstDay (later + 1)) : year ≤ later := by
  by_contra hnot
  have := firstDay_mono (show later + 1 ≤ year by omega)
  have := (daysTo_bounds h).1
  omega

theorem le_year_of_daysTo {year month day earlier : Int} (h : IsDate year month day)
    (hle : firstDay earlier ≤ daysTo year month day) : earlier ≤ year := by
  by_contra hnot
  have := firstDay_mono (show year + 1 ≤ earlier by omega)
  have := (daysTo_bounds h).2
  omega

end ScraperTimeline.Instant
