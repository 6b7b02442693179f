import ScraperTimeline.Json.Printer
import ScraperTimeline.Json.Token
import ScraperTimeline.Proofs.Decimal.Shortest

/-!
Numbers that are written are numbers of JSON: an integer is one of digits alone, a finite double always
has a fraction or an exponent.
-/
namespace ScraperTimeline.Json
open Text Decimal

-- The digits before a point: at least one, and no zero in front of others.
structure Leading (whole : List Char) : Prop where
  isDigit : ∀ c ∈ whole, isDigit c
  nonempty : whole ≠ []
  zero : whole.head? = some '0' → whole = ['0']

section
variable {whole fraction rest : List Char} {negative : Bool}

theorem digitSpan_of_digits (hdigits : ∀ c ∈ whole, isDigit c)
    (hrest : ∀ c, rest.head? = some c → isDigit c = false) : digitSpan (whole ++ rest) = (whole, rest) := by
  have htake : rest.takeWhile isDigit = [] := by
    cases rest with
    | nil => rfl
    | cons c rest => simp [hrest c rfl]
  have hdrop : rest.dropWhile isDigit = rest := by
    cases rest with
    | nil => rfl
    | cons c rest => simp [hrest c rfl]
  rw [digitSpan, List.takeWhile_append_of_pos hdigits, List.dropWhile_append_of_pos hdigits, htake, hdrop,
    List.append_nil]

theorem no_digit_left : ∀ c, ([] : List Char).head? = some c → isDigit c = false := by simp

theorem digitSpan_digits (hdigits : ∀ c ∈ whole, isDigit c) : digitSpan whole = (whole, []) := by
  have hspan := digitSpan_of_digits hdigits no_digit_left
  rwa [List.append_nil] at hspan

theorem unsignedNumber?_of_leading (hwhole : Leading whole)
    (hrest : ∀ c, rest.head? = some c → isDigit c = false) :
    unsignedNumber? negative (whole ++ rest) =
      (fraction? rest).bind fun (fraction, rest) =>
        (exponent? rest).map fun (power, rest) =>
          if fraction = [] ∧ power = none then (.whole negative whole, rest)
          else (.real ⟨negative, whole, fraction, power.getD 0⟩, rest) := by
  rw [unsignedNumber?, digitSpan_of_digits hwhole.isDigit hrest]
  split
  next heq => exact (hwhole.nonempty (Prod.mk.inj heq).1).elim
  next heq =>
    have hzero := hwhole.zero (by rw [(Prod.mk.inj heq).1]; rfl)
    rw [(Prod.mk.inj heq).1] at hzero
    cases hzero
  next heq =>
    obtain ⟨rfl, rfl⟩ := Prod.mk.inj heq
    rfl

theorem unsignedNumber?_whole (hwhole : Leading whole) :
    unsignedNumber? negative whole = some (.whole negative whole, []) := by
  have h : unsignedNumber? negative (whole ++ []) = _ := unsignedNumber?_of_leading hwhole no_digit_left
  rwa [List.append_nil] at h

-- A number with a fraction, and with what the text of an exponent is read as.
theorem unsignedNumber?_fraction (hwhole : Leading whole) (hfraction : ∀ c ∈ fraction, isDigit c)
    (hne : fraction ≠ []) {power : Option Int}
    (hrest : ∀ c, rest.head? = some c → isDigit c = false) (hpower : exponent? rest = some (power, [])) :
    unsignedNumber? negative (whole ++ '.' :: (fraction ++ rest)) =
      some (.real ⟨negative, whole, fraction, power.getD 0⟩, []) := by
  have hstop : ∀ c, ('.' :: (fraction ++ rest)).head? = some c → isDigit c = false := by
    rintro c hc
    obtain rfl : '.' = c := by simpa using hc
    rfl
  rw [unsignedNumber?_of_leading hwhole hstop]
  simp only [fraction?, digitSpan_of_digits hfraction hrest, hne, if_false, Option.bind_some, hpower,
    Option.map_some, false_and]

theorem unsignedNumber?_exponent (hwhole : Leading whole) {power : Int}
    (hpower : exponent? ('e' :: rest) = some (some power, [])) :
    unsignedNumber? negative (whole ++ 'e' :: rest) = some (.real ⟨negative, whole, [], power⟩, []) := by
  have hstop : ∀ c, ('e' :: rest).head? = some c → isDigit c = false := by
    rintro c hc
    obtain rfl : 'e' = c := by simpa using hc
    rfl
  have hnone : fraction? ('e' :: rest) = some ([], 'e' :: rest) := by simp [fraction?]
  rw [unsignedNumber?_of_leading hwhole hstop, hnone, Option.bind_some]
  dsimp only
  rw [hpower]
  simp

theorem leading_of_digits {n : Nat} {cs : List Char} (hn : n ≠ 0) (hcs : ∀ c ∈ cs, isDigit c) :
    Leading (digits n ++ cs) := by
  refine ⟨?_, by simp [digits_ne_nil], fun hzero => ?_⟩
  · intro c hc
    rcases List.mem_append.mp hc with hc | hc
    · exact isDigit_of_mem_digits hc
    · exact hcs c hc
  · rw [List.head?_append_of_ne_nil _ (digits_ne_nil n)] at hzero
    exact (head?_digits_ne hn hzero).elim

theorem leading_digit {c : Char} (h : isDigit c) : Leading [c] :=
  ⟨by simpa using h, by simp, by simp⟩

theorem leading_digits (n : Nat) : Leading (digits n) := by
  by_cases hn : n = 0
  · subst hn
    exact leading_digit rfl
  · simpa using leading_of_digits hn (show ∀ c ∈ ([] : List Char), isDigit c by simp)

theorem number?_signed (hwhole : Leading whole) :
    number? ((if negative then ['-'] else []) ++ (whole ++ rest)) =
      unsignedNumber? negative (whole ++ rest) := by
  cases negative with
  | true => rfl
  | false =>
      obtain ⟨c, cs, rfl⟩ := List.exists_cons_of_ne_nil hwhole.nonempty
      have hc : c ≠ '-' := by
        rintro rfl
        cases hwhole.isDigit '-' (by simp)
      simp [number?, hc]

end

/-! ### Integers -/

theorem decimal_eq (n : Int) :
    decimal n = (if n < 0 then ['-'] else []) ++ digits n.natAbs := by
  cases n with
  | ofNat n => simp [decimal]
  | negSucc n => simp [decimal, Int.negSucc_lt_zero]

theorem number?_decimal (n : Int) :
    number? (decimal n) = some (.whole (decide (n < 0)) (digits n.natAbs), []) := by
  have hsigned : number? (_ ++ (digits n.natAbs ++ [])) = unsignedNumber? (decide (n < 0)) _ :=
    number?_signed (leading_digits n.natAbs)
  simp only [List.append_nil, decide_eq_true_eq] at hsigned
  rw [decimal_eq, hsigned, unsignedNumber?_whole (leading_digits _)]

/-! ### Doubles -/

-- The literal that the text of a decimal makes.
def literal (negative : Bool) (d : Decimal) : DecimalLiteral :=
  let shown := digits d.coefficient
  if Layout.json.isPositional d.order then
    if 0 ≤ d.power then ⟨negative, shown ++ List.replicate d.power.toNat '0', ['0'], 0⟩
    else
      let places := (-d.power).toNat
      let filled := List.replicate (places + 1 - shown.length) '0' ++ shown
      ⟨negative, filled.take (filled.length - places), filled.drop (filled.length - places), 0⟩
  else ⟨negative, shown.take 1, shown.drop 1, d.order⟩

section
variable {d : Decimal} {negative : Bool}

theorem isDigit_of_mem_filled {n count : Nat} {c : Char}
    (h : c ∈ List.replicate count '0' ++ digits n) : isDigit c := by
  rcases List.mem_append.mp h with h | h
  · rw [List.eq_of_mem_replicate h]
    rfl
  · exact isDigit_of_mem_digits h

-- Zeros stand in front only as far as there is but one digit before the point.
theorem leading_filled {n places : Nat} (hplaces : 0 < places) :
    let filled := List.replicate (places + 1 - (digits n).length) '0' ++ digits n
    Leading (filled.take (filled.length - places)) := by
  intro filled
  have hdigit : ∀ c ∈ filled.take (filled.length - places), isDigit c := fun c hc =>
    isDigit_of_mem_filled (List.mem_of_mem_take hc)
  have hlength : 0 < (digits n).length := List.length_pos_iff.mpr (digits_ne_nil n)
  by_cases hshort : (digits n).length ≤ places
  · have hone : filled.length - places = 1 := by
      simp only [filled, List.length_append, List.length_replicate]
      omega
    rw [hone] at hdigit ⊢
    obtain ⟨c, cs, hfilled⟩ : ∃ c cs, filled = c :: cs :=
      List.exists_cons_of_ne_nil (by simp [filled, digits_ne_nil])
    rw [hfilled] at hdigit ⊢
    exact leading_digit (hdigit c (by simp))
  · have hfilled : filled = digits n := by
      have hnone : places + 1 - (digits n).length = 0 := by omega
      simp [filled, hnone]
    have hn : n ≠ 0 := by
      rintro rfl
      simp only [digits_zero, List.length_singleton] at hshort
      omega
    have htake : (digits n).length - places ≠ 0 := by omega
    rw [hfilled] at hdigit ⊢
    refine ⟨hdigit, ?_, fun hzero => ?_⟩
    · simp [List.take_eq_nil_iff, htake, digits_ne_nil]
    · rw [List.head?_take, if_neg htake] at hzero
      exact (head?_digits_ne hn hzero).elim

theorem number?_positional (hpower : d.coefficient = 0 → d.power ≤ 0)
    (hpositional : Layout.json.isPositional d.order) :
    number? ((if negative then ['-'] else []) ++ positionalText Layout.json d) =
      some (.real (literal negative d), []) := by
  by_cases hwhole : 0 ≤ d.power
  · have hleading : Leading (digits d.coefficient ++ List.replicate d.power.toNat '0') := by
      by_cases hzero : d.coefficient = 0
      · have hnone : d.power.toNat = 0 := by
          have := hpower hzero
          omega
        simpa [hnone] using leading_digits d.coefficient
      · refine leading_of_digits hzero fun c hc => ?_
        rw [List.eq_of_mem_replicate hc]
        rfl
    have hread : unsignedNumber? negative _ = _ := unsignedNumber?_fraction hleading
      (List.forall_mem_singleton.mpr rfl : ∀ c ∈ ['0'], isDigit c) (by simp) no_digit_left rfl
    rw [positionalText, if_pos hwhole]
    change number? (_ ++ (_ ++ ['.', '0'])) = _
    rw [number?_signed hleading]
    simp only [literal, hpositional, if_true, hwhole]
    exact hread
  · have hplaces : 0 < (-d.power).toNat := by omega
    have hleading := leading_filled (n := d.coefficient) hplaces
    simp only [positionalText, literal, hpositional, if_true, hwhole, if_false]
    generalize hfilled : List.replicate ((-d.power).toNat + 1 - (digits d.coefficient).length) '0' ++
      digits d.coefficient = filled at hleading ⊢
    have hlength : (-d.power).toNat < filled.length := by
      rw [← hfilled, List.length_append, List.length_replicate]
      omega
    have hfraction : ∀ c ∈ filled.drop (filled.length - (-d.power).toNat), isDigit c := fun c hc =>
      isDigit_of_mem_filled (by rw [hfilled]; exact List.mem_of_mem_drop hc)
    have hread : unsignedNumber? negative _ = _ := unsignedNumber?_fraction hleading hfraction
      (by rw [ne_eq, List.drop_eq_nil_iff]; omega) no_digit_left rfl
    rw [List.append_nil] at hread
    rw [number?_signed hleading, hread]
    rfl

theorem exponent?_decimal (order : Int) :
    exponent? ('e' :: ((if 0 ≤ order then ['+'] else []) ++ decimal order)) = some (some order, []) := by
  have hspan (n : Nat) : digitSpan (digits n) = (digits n, []) :=
    digitSpan_digits fun c hc => isDigit_of_mem_digits hc
  cases order with
  | ofNat n => simp [exponent?, decimal, power?, hspan, natural?_digits]
  | negSucc n =>
      have hneg : ¬0 ≤ Int.negSucc n := by omega
      rw [if_neg hneg]
      simp [exponent?, decimal, power?, hspan, natural?_digits, Int.negSucc_eq]

theorem number?_exponentText (hpositional : Layout.json.isPositional d.order = false) :
    number? ((if negative then ['-'] else []) ++ exponentText Layout.json d) =
      some (.real (literal negative d), []) := by
  have hexponent := exponent?_decimal d.order
  have hplus : (Layout.json.exponentPlus = true ∧ 0 ≤ d.order) = (0 ≤ d.order) := by simp [Layout.json]
  simp only [exponentText, literal, hpositional, Bool.false_eq_true, if_false, hplus]
  generalize (if 0 ≤ d.order then ['+'] else []) ++ decimal d.order = power at hexponent
  have hdigits : ∀ c ∈ digits d.coefficient, isDigit c := fun c hc => isDigit_of_mem_digits hc
  obtain ⟨c, cs, hshown⟩ := List.exists_cons_of_ne_nil (digits_ne_nil d.coefficient)
  rw [hshown, List.forall_mem_cons] at hdigits
  have hleading : Leading [c] := leading_digit hdigits.1
  rw [hshown]
  simp only [List.take_succ_cons, List.take_zero, List.drop_succ_cons, List.drop_zero]
  cases cs with
  | nil =>
      have hread : unsignedNumber? negative _ = _ := unsignedNumber?_exponent hleading hexponent
      rw [if_pos rfl, List.append_nil, number?_signed hleading, hread]
  | cons e cs =>
      have hstop : ∀ x, ('e' :: power).head? = some x → isDigit x = false := by
        rintro x hx
        obtain rfl : 'e' = x := by simpa using hx
        rfl
      have hread : unsignedNumber? negative _ = _ :=
        unsignedNumber?_fraction hleading hdigits.2 (by simp) hstop hexponent
      have hne : e :: cs ≠ [] := by simp
      rw [if_neg hne, List.append_assoc, number?_signed hleading]
      exact hread

end

theorem write_of_not_isFinite {x : Binary64} (h : x.isFinite = false) :
    Layout.json.write x = "null".toList := by
  have hle : Binary64.infinityBits ≤ x.magnitude := by simpa [Binary64.isFinite] using h
  rcases Nat.lt_or_eq_of_le hle with hnan | hinfinite
  · simp [Layout.write, Binary64.isNaN, hnan, Layout.json]
  · simp [Layout.write, Binary64.isNaN, Binary64.isInfinite, ← hinfinite, Layout.json]

-- The text of a finite double is one number and nothing else.
theorem number?_write {x : Binary64} (h : x.isFinite) :
    number? (Layout.json.write x) = some (.real (literal x.isNegative (shortest x)), []) := by
  have hlt : x.magnitude < Binary64.infinityBits := by simpa [Binary64.isFinite] using h
  have hnan : x.isNaN = false := by simp [Binary64.isNaN, Nat.le_of_lt hlt]
  have hinfinite : x.isInfinite = false := by simp [Binary64.isInfinite, Nat.ne_of_lt hlt]
  have hpower : (shortest x).coefficient = 0 → (shortest x).power ≤ 0 := by
    cases hzero : x.isZero with
    | true =>
        rw [shortest_of_isZero hzero]
        exact fun _ => le_rfl
    | false => exact fun h => (coefficient_shortest_ne_zero hzero h).elim
  rw [Layout.write, hnan, hinfinite]
  simp only [Bool.false_eq_true, if_false]
  cases hpositional : Layout.json.isPositional (shortest x).order with
  | true => exact number?_positional hpower hpositional
  | false => exact number?_exponentText hpositional

end ScraperTimeline.Json
