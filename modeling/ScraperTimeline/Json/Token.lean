import ScraperTimeline.Decimal.Literal

/-!
Tokens of JSON text. A token takes at least one character, so a text has no more tokens than
characters.
-/
namespace ScraperTimeline.Json
open Text

/-- A number as written: digits alone, or with a point or an exponent. -/
inductive Number where
  | whole (negative : Bool) (digits : List Char)
  | real (literal : DecimalLiteral)
deriving DecidableEq, Repr

inductive Token where
  | openArray | closeArray | openObject | closeObject | comma | colon
  | null
  | bool (value : Bool)
  | number (value : Number)
  /-- There is no value if half of a character stands alone. -/
  | string (value : Option String)
deriving DecidableEq, Repr

def isSpace (c : Char) : Bool := c = ' ' || c = '\n' || c = '\t' || c = '\r'

/-- What stands before the closing quote, and what follows the quote. -/
def untilQuote : List Char → Option (List Char × List Char)
  | [] => none
  | '"' :: rest => some ([], rest)
  | '\\' :: c :: rest => (untilQuote rest).map fun (body, after) => ('\\' :: c :: body, after)
  | c :: rest => (untilQuote rest).map fun (body, after) => (c :: body, after)

/-- A piece of a string: a character, or a 16-bit unit from a numeric escape. -/
inductive Piece where
  | char (c : Char)
  | unit (code : Nat)

/-- The characters that stand for a letter after a backslash. -/
def escapes : List (Char × Char) :=
  [('"', '"'), ('\\', '\\'), ('/', '/'), ('b', '\x08'), ('f', '\x0c'), ('n', '\n'), ('r', '\r'),
    ('t', '\t')]

/-- Resolves the escapes of a string body. A control character has to be escaped. -/
def pieces? : List Char → Option (List Piece)
  | [] => some []
  | '\\' :: 'u' :: a :: b :: c :: d :: rest => do
    let code ← natural? 16 [a, b, c, d]
    return .unit code :: (← pieces? rest)
  | '\\' :: c :: rest => do
    let escaped ← escapes.lookup c
    return .char escaped :: (← pieces? rest)
  | c :: rest => do
    if c = '\\' ∨ c.toNat < 0x20 then none
    else return .char c :: (← pieces? rest)

def isHighHalf (code : Nat) : Bool := 0xD800 ≤ code && code < 0xDC00

def isLowHalf (code : Nat) : Bool := 0xDC00 ≤ code && code < 0xE000

/-- Joins two units that are halves of one character. With a half that stands alone there is no text. -/
def joinUnits? : List Piece → Option (List Char)
  | [] => some []
  | .char c :: rest => (joinUnits? rest).map (c :: ·)
  | .unit high :: .unit low :: rest =>
    if isHighHalf high then
      if isLowHalf low then
        (joinUnits? rest).map (Char.ofNat (0x10000 + (high - 0xD800) * 0x400 + (low - 0xDC00)) :: ·)
      else none
    else if isLowHalf high then none
    else (joinUnits? (.unit low :: rest)).map (Char.ofNat high :: ·)
  | .unit code :: rest =>
    if isHighHalf code || isLowHalf code then none
    else (joinUnits? rest).map (Char.ofNat code :: ·)

def digitSpan (cs : List Char) : List Char × List Char := (cs.takeWhile isDigit, cs.dropWhile isDigit)

/-- A fraction after its point, or nothing. -/
def fraction? : List Char → Option (List Char × List Char)
  | '.' :: rest => if (digitSpan rest).1 = [] then none else some (digitSpan rest)
  | rest => some ([], rest)

-- The digits of an exponent and what follows them.
def power? (negative : Bool) (cs : List Char) : Option (Option Int × List Char) :=
  (natural? 10 (digitSpan cs).1).map fun n =>
    (some (if negative then -(n : Int) else n), (digitSpan cs).2)

def exponent? : List Char → Option (Option Int × List Char)
  | c :: rest =>
    if c = 'e' ∨ c = 'E' then
      match rest with
      | '-' :: digits => power? true digits
      | '+' :: digits => power? false digits
      | digits => power? false digits
    else some (none, c :: rest)
  | [] => some (none, [])

-- A number without its sign. Zeros may not lead.
def unsignedNumber? (negative : Bool) (cs : List Char) : Option (Number × List Char) :=
  match digitSpan cs with
  | ([], _) => none
  | ('0' :: _ :: _, _) => none
  | (whole, rest) =>
    (fraction? rest).bind fun (fraction, rest) =>
      (exponent? rest).map fun (power, rest) =>
        if fraction = [] ∧ power = none then (.whole negative whole, rest)
        else (.real ⟨negative, whole, fraction, power.getD 0⟩, rest)

def number? : List Char → Option (Number × List Char)
  | '-' :: rest => unsignedNumber? true rest
  | cs => unsignedNumber? false cs

/-- The token at the start of a text that starts with no blank. -/
def token? : List Char → Option (Token × List Char)
  | '[' :: rest => some (.openArray, rest)
  | ']' :: rest => some (.closeArray, rest)
  | '{' :: rest => some (.openObject, rest)
  | '}' :: rest => some (.closeObject, rest)
  | ',' :: rest => some (.comma, rest)
  | ':' :: rest => some (.colon, rest)
  | '"' :: rest => do
    let (body, after) ← untilQuote rest
    return (.string ((joinUnits? (← pieces? body)).map String.ofList), after)
  | 'n' :: 'u' :: 'l' :: 'l' :: rest => some (.null, rest)
  | 't' :: 'r' :: 'u' :: 'e' :: rest => some (.bool true, rest)
  | 'f' :: 'a' :: 'l' :: 's' :: 'e' :: rest => some (.bool false, rest)
  | cs => (number? cs).map fun (n, rest) => (.number n, rest)

theorem untilQuote_length {cs body after : List Char} (h : untilQuote cs = some (body, after)) :
    after.length < cs.length := by
  fun_induction untilQuote cs generalizing body after with
  | case1 => simp at h
  | case2 => simp_all
  | case3 c rest ih =>
    obtain ⟨⟨b, a⟩, hb, he⟩ := Option.map_eq_some_iff.1 h
    have := ih hb
    simp_all
    omega
  | case4 c rest _ _ ih =>
    obtain ⟨⟨b, a⟩, hb, he⟩ := Option.map_eq_some_iff.1 h
    have := ih hb
    simp_all
    omega

theorem length_digitSpan (cs : List Char) : (digitSpan cs).2.length ≤ cs.length := by
  simpa [digitSpan] using (List.dropWhile_sublist isDigit).length_le

theorem fraction?_length {cs rest fraction : List Char} (h : fraction? cs = some (fraction, rest)) :
    rest.length ≤ cs.length := by
  unfold fraction? at h
  split at h
  · rename_i tail
    split at h
    · simp at h
    · have := length_digitSpan tail
      have he : rest = (digitSpan tail).2 := by simp_all
      rw [he, List.length_cons]
      omega
  · simp_all

theorem power?_length {negative : Bool} {cs rest : List Char} {power : Option Int}
    (h : power? negative cs = some (power, rest)) : rest.length ≤ cs.length := by
  obtain ⟨n, _, he⟩ := Option.map_eq_some_iff.1 h
  have := length_digitSpan cs
  simp_all

theorem exponent?_length {cs rest : List Char} {power : Option Int}
    (h : exponent? cs = some (power, rest)) : rest.length ≤ cs.length := by
  unfold exponent? at h
  split at h
  · split at h
    · split at h <;> have := power?_length h <;> simp_all <;> omega
    · simp_all
  · simp_all

theorem unsignedNumber?_length {negative : Bool} {cs rest : List Char} {n : Number}
    (h : unsignedNumber? negative cs = some (n, rest)) : rest.length < cs.length := by
  unfold unsignedNumber? at h
  split at h
  · simp at h
  · simp at h
  · rename_i whole tail hne _ hs
    obtain ⟨⟨fraction, r⟩, hf, h⟩ := Option.bind_eq_some_iff.1 h
    obtain ⟨⟨power, r'⟩, hp, h⟩ := Option.map_eq_some_iff.1 h
    have hf := fraction?_length hf
    have hp := exponent?_length hp
    have hr : r' = rest := by
      dsimp only at h
      split at h <;> simp_all
    have hw : cs = whole ++ tail := by
      simp only [digitSpan, Prod.mk.injEq] at hs
      rw [← hs.1, ← hs.2, List.takeWhile_append_dropWhile]
    have : whole ≠ [] := hne
    have := List.length_pos_iff.2 this
    subst hr hw
    simp only [List.length_append]
    omega

theorem token?_length {cs rest : List Char} {t : Token} (h : token? cs = some (t, rest)) :
    rest.length < cs.length := by
  unfold token? at h
  split at h
  iterate 6 simp_all
  · rename_i tail
    obtain ⟨⟨body, after⟩, hq, h⟩ := Option.bind_eq_some_iff.1 h
    obtain ⟨s, _, h⟩ := Option.bind_eq_some_iff.1 h
    have := untilQuote_length hq
    simp_all
    omega
  iterate 3
    simp only [Option.some.injEq, Prod.mk.injEq] at h
    simp only [← h.2, List.length_cons]
    omega
  · obtain ⟨⟨n, r⟩, hn, h⟩ := Option.map_eq_some_iff.1 h
    simp only [Prod.mk.injEq] at h
    obtain ⟨-, rfl⟩ := h
    unfold number? at hn
    split at hn
    · have := unsignedNumber?_length hn
      simp only [List.length_cons]
      omega
    · exact unsignedNumber?_length hn

/-- The tokens of a text, blanks between them left out. -/
def tokens? : List Char → Option (List Token)
  | [] => some []
  | c :: rest =>
    if isSpace c then tokens? rest
    else match _h : token? (c :: rest) with
      | none => none
      | some (t, after) => (tokens? after).map (t :: ·)
termination_by cs => cs.length
decreasing_by
  · simp
  · exact token?_length (by assumption)

end ScraperTimeline.Json
