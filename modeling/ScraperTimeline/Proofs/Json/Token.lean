import ScraperTimeline.Json.Token

namespace ScraperTimeline.Json
open Text

theorem untilQuote_append {cs body after : List Char} (h : untilQuote cs = some (body, after))
    (rest : List Char) : untilQuote (cs ++ rest) = some (body, after ++ rest) := by
  fun_induction untilQuote cs generalizing body after with
  | case1 => simp at h
  | case2 tail =>
      obtain ⟨rfl, rfl⟩ : [] = body ∧ tail = after := by simpa using h
      rfl
  | case3 c tail ih =>
      obtain ⟨⟨b, a⟩, hb, he⟩ := Option.map_eq_some_iff.mp h
      obtain ⟨rfl, rfl⟩ := Prod.mk.inj he
      simp [untilQuote, ih hb]
  | case4 c tail hquote hescape ih =>
      obtain ⟨⟨b, a⟩, hb, he⟩ := Option.map_eq_some_iff.mp h
      obtain ⟨rfl, rfl⟩ := Prod.mk.inj he
      cases tail with
      | nil => simp [untilQuote] at hb
      | cons d tail =>
          have hplain : ∀ e after, c = '\\' → d :: tail ++ rest = e :: after → False := by
            rintro e after rfl -
            exact hescape d tail rfl rfl
          rw [List.cons_append, untilQuote.eq_4 _ _ hquote hplain, ih hb]
          rfl

-- Holds of what no part of a number goes on with.
def endsNumber (c : Char) : Bool := !isDigit c && c ≠ '.' && c ≠ 'e' && c ≠ 'E'

theorem endsNumber_iff {c : Char} :
    endsNumber c ↔ isDigit c = false ∧ c ≠ '.' ∧ ¬(c = 'e' ∨ c = 'E') := by
  simp [endsNumber, and_assoc, not_or]

theorem endsNumber_of_isSpace {c : Char} (h : isSpace c) : endsNumber c := by
  have hcases : c = ' ' ∨ c = '\n' ∨ c = '\t' ∨ c = '\r' := by simpa [isSpace, or_assoc] using h
  rcases hcases with rfl | rfl | rfl | rfl <;> rfl

section
variable {stop : Char} {rest : List Char}

theorem digitSpan_append (hstop : endsNumber stop) (cs : List Char) :
    digitSpan (cs ++ stop :: rest) = ((digitSpan cs).1, (digitSpan cs).2 ++ stop :: rest) := by
  have hdigit := (endsNumber_iff.mp hstop).1
  induction cs with
  | nil => simp [digitSpan, hdigit]
  | cons c cs ih =>
      simp only [digitSpan, Prod.mk.injEq] at ih
      cases hc : isDigit c <;> simp [digitSpan, hc, ih]

theorem fraction?_append {cs after fraction : List Char} (hstop : endsNumber stop)
    (h : fraction? cs = some (fraction, after)) :
    fraction? (cs ++ stop :: rest) = some (fraction, after ++ stop :: rest) := by
  unfold fraction? at h
  split at h
  next tail =>
    split at h
    · cases h
    next hdigits =>
      simp only [Option.some.injEq, Prod.ext_iff] at h
      rw [List.cons_append, fraction?, digitSpan_append hstop, if_neg hdigits]
      simp [h]
  next hpoint =>
    obtain ⟨rfl, rfl⟩ : [] = fraction ∧ cs = after := by simpa using h
    cases cs with
    | nil =>
        have : stop ≠ '.' := (endsNumber_iff.mp hstop).2.1
        simp [fraction?, this]
    | cons c cs =>
        have : c ≠ '.' := fun h => hpoint cs (by rw [h])
        simp [fraction?, this]

theorem power?_append {negative : Bool} {cs after : List Char} {power : Option Int}
    (hstop : endsNumber stop) (h : power? negative cs = some (power, after)) :
    power? negative (cs ++ stop :: rest) = some (power, after ++ stop :: rest) := by
  obtain ⟨n, hn, he⟩ := Option.map_eq_some_iff.mp h
  obtain ⟨rfl, rfl⟩ := Prod.mk.inj he
  rw [power?, digitSpan_append hstop, hn, Option.map_some]

theorem exponent?_append {cs after : List Char} {power : Option Int} (hstop : endsNumber stop)
    (h : exponent? cs = some (power, after)) :
    exponent? (cs ++ stop :: rest) = some (power, after ++ stop :: rest) := by
  cases cs with
  | nil =>
      have : ¬(stop = 'e' ∨ stop = 'E') := (endsNumber_iff.mp hstop).2.2
      obtain ⟨rfl, rfl⟩ : none = power ∧ [] = after := by simpa [exponent?] using h
      simp [exponent?, this]
  | cons c cs =>
      by_cases hc : c = 'e' ∨ c = 'E'
      · cases cs with
        | nil => simp [exponent?, hc, power?, digitSpan, natural?] at h
        | cons d ds =>
            by_cases hminus : d = '-'
            · subst hminus
              simp only [exponent?, hc, if_true] at h
              simpa [exponent?, hc] using power?_append hstop h
            · by_cases hplus : d = '+'
              · subst hplus
                simp only [exponent?, hc, if_true] at h
                simpa [exponent?, hc] using power?_append hstop h
              · have h : power? false (d :: ds) = some (power, after) := by
                  simpa [exponent?, hc, hminus, hplus] using h
                simpa [exponent?, hc, hminus, hplus] using power?_append hstop h
      · obtain ⟨rfl, rfl⟩ : none = power ∧ c :: cs = after := by simpa [exponent?, hc] using h
        simp [exponent?, hc]

theorem unsignedNumber?_append {negative : Bool} {cs after : List Char} {n : Number}
    (hstop : endsNumber stop) (h : unsignedNumber? negative cs = some (n, after)) :
    unsignedNumber? negative (cs ++ stop :: rest) = some (n, after ++ stop :: rest) := by
  unfold unsignedNumber? at h ⊢
  rw [digitSpan_append hstop]
  generalize digitSpan cs = span at h
  obtain ⟨whole, tail⟩ := span
  split at h
  next => cases h
  next => cases h
  next whole tail hempty hzero hspan =>
    obtain ⟨rfl, rfl⟩ := Prod.mk.inj hspan
    obtain ⟨⟨fraction, tail⟩, hfraction, h⟩ := Option.bind_eq_some_iff.mp h
    obtain ⟨⟨power, tail⟩, hpower, h⟩ := Option.map_eq_some_iff.mp h
    split
    next heq => exact (hempty (Prod.mk.inj heq).1).elim
    next heq => exact (hzero _ _ (Prod.mk.inj heq).1).elim
    next heq =>
      obtain ⟨rfl, rfl⟩ := Prod.mk.inj heq
      rw [fraction?_append hstop hfraction, Option.bind_some]
      dsimp only
      rw [exponent?_append hstop hpower, Option.map_some]
      dsimp only at h ⊢
      split at h <;> simp_all

theorem number?_append {cs after : List Char} {n : Number} (hstop : endsNumber stop)
    (h : number? cs = some (n, after)) :
    number? (cs ++ stop :: rest) = some (n, after ++ stop :: rest) := by
  cases cs with
  | nil => simp [number?, unsignedNumber?, digitSpan] at h
  | cons c cs =>
      by_cases hminus : c = '-'
      · subst hminus
        exact unsignedNumber?_append hstop h
      · have h : unsignedNumber? false (c :: cs) = some (n, after) := by
          simpa [number?, hminus] using h
        simpa [number?, hminus] using unsignedNumber?_append hstop h

theorem number?_start {cs after : List Char} {n : Number} (h : number? cs = some (n, after)) :
    ∃ c tail, cs = c :: tail ∧ (c = '-' ∨ isDigit c) := by
  cases cs with
  | nil => simp [number?, unsignedNumber?, digitSpan] at h
  | cons c tail =>
      refine ⟨c, tail, rfl, ?_⟩
      by_cases hminus : c = '-'
      · exact .inl hminus
      · cases hdigit : isDigit c with
        | true => exact .inr rfl
        | false => simp [number?, hminus, unsignedNumber?, digitSpan, hdigit] at h

theorem token?_of_number {c : Char} {tail : List Char} (h : c = '-' ∨ isDigit c) :
    token? (c :: tail) = (number? (c :: tail)).map fun (n, rest) => (.number n, rest) := by
  have hother : ∀ d ∈ ['[', ']', '\x7b', '\x7d', ',', ':', '"', 'n', 't', 'f'], c ≠ d := by
    have hopening : ∀ d ∈ ['[', ']', '\x7b', '\x7d', ',', ':', '"', 'n', 't', 'f'],
        ¬(d = '-' ∨ isDigit d) := by simp [isDigit]
    rintro d hd rfl
    exact hopening c hd h
  simp only [List.forall_mem_cons, ne_eq] at hother
  unfold token?
  split <;> simp_all

theorem token?_append {cs after : List Char} {t : Token} (hstop : endsNumber stop)
    (h : token? cs = some (t, after)) :
    token? (cs ++ stop :: rest) = some (t, after ++ stop :: rest) := by
  cases hnumber : number? cs with
  | some read =>
      obtain ⟨n, tail⟩ := read
      obtain ⟨c, cs, rfl, hc⟩ := number?_start hnumber
      rw [token?_of_number hc, hnumber] at h
      obtain ⟨rfl, rfl⟩ : .number n = t ∧ tail = after := by simpa using h
      rw [List.cons_append, token?_of_number hc, ← List.cons_append, number?_append hstop hnumber]
      rfl
  | none =>
      unfold token? at h
      split at h
      case h_7 tail =>
        obtain ⟨⟨body, tail⟩, hquote, h⟩ := Option.bind_eq_some_iff.mp h
        obtain ⟨pieces, hpieces, h⟩ := Option.bind_eq_some_iff.mp h
        obtain ⟨rfl, rfl⟩ : _ ∧ tail = after := by simpa using h
        simp [token?, untilQuote_append hquote, hpieces]
      case h_11 => simp [hnumber] at h
      all_goals
        obtain ⟨rfl, rfl⟩ : _ ∧ _ := by simpa using h
        rfl

theorem tokens?_of_token {c : Char} {tail after : List Char} {t : Token}
    (hspace : ¬isSpace c) (h : token? (c :: tail) = some (t, after)) :
    tokens? (c :: tail) = (tokens? after).map (t :: ·) := by
  rw [tokens?, if_neg hspace]
  split
  next hnone => simp [hnone] at h
  next t' after' hsome =>
    obtain ⟨rfl, rfl⟩ : t' = t ∧ after' = after := by simpa [hsome] using h
    rfl

theorem tokens?_append {cs : List Char} {ts : List Token} (hstop : isSpace stop)
    (h : tokens? cs = some ts) :
    tokens? (cs ++ stop :: rest) = (tokens? rest).map (ts ++ ·) := by
  fun_induction tokens? cs generalizing ts with
  | case1 =>
      obtain rfl : [] = ts := by simpa using h
      rw [List.nil_append, tokens?, if_pos hstop]
      simp
  | case2 c tail hspace ih =>
      rw [List.cons_append, tokens?, if_pos hspace]
      exact ih h
  | case3 c tail hspace hnone => cases h
  | case4 c tail hspace t after htoken ih =>
      obtain ⟨us, hus, rfl⟩ := Option.map_eq_some_iff.mp h
      have htoken : token? (c :: (tail ++ stop :: rest)) = some (t, after ++ stop :: rest) :=
        token?_append (endsNumber_of_isSpace hstop) htoken
      rw [List.cons_append]
      rw [tokens?_of_token hspace htoken, ih hus, Option.map_map]
      rfl

end

-- Lines and the tokens on them.
inductive Lines : List String → List Token → Prop
  | nil : Lines [] []
  | cons {line : String} {lines : List String} {cs : List Char} {ts more : List Token}
    (hline : line = String.ofList cs) (hts : tokens? cs = some ts) (hlines : Lines lines more) :
    Lines (line :: lines) (ts ++ more)

theorem Lines.tokens?_intercalate {lines : List String} {ts : List Token} (h : Lines lines ts) :
    tokens? ("\n".intercalate lines ++ "\n").toList = some ts := by
  have hbreak : "\n".toList = ['\n'] := by simp
  induction h with
  | nil => simp [tokens?, isSpace]
  | @cons line lines cs ts more hline hts hlines ih =>
      rw [hline]
      cases hlines with
      | nil =>
          rw [String.intercalate_singleton, String.toList_append, String.toList_ofList, hbreak,
            tokens?_append (by decide) hts]
          simp [tokens?]
      | cons =>
          rw [String.toList_append, hbreak] at ih
          rw [String.intercalate_cons_cons, String.append_assoc, String.append_assoc,
            String.toList_append, String.toList_append, String.toList_append, String.toList_ofList,
            hbreak, List.singleton_append, tokens?_append (by decide) hts, ih]
          rfl

end ScraperTimeline.Json
