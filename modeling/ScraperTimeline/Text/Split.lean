namespace ScraperTimeline.Text

/-- The pieces of a text between the separators; one more than there are separators. -/
def split (separator : Char) : List Char → List (List Char)
  | [] => [[]]
  | c :: rest =>
    if c = separator then [] :: split separator rest
    else match split separator rest with
      | [] => [[c]]
      | piece :: pieces => (c :: piece) :: pieces

/-- The pieces with the separator between them. -/
def join (separator : List Char) : List (List Char) → List Char
  | [] => []
  | [piece] => piece
  | piece :: pieces => piece ++ separator ++ join separator pieces

theorem split_ne_nil (separator : Char) (text : List Char) : split separator text ≠ [] := by
  cases text with
  | nil => simp [split]
  | cons c rest =>
    simp only [split]
    split
    · simp
    · split <;> simp

theorem join_split (separator : Char) (text : List Char) :
    join [separator] (split separator text) = text := by
  induction text with
  | nil => rfl
  | cons c rest ih =>
    cases h : split separator rest with
    | nil => exact absurd h (split_ne_nil separator rest)
    | cons piece pieces =>
      rw [h] at ih
      by_cases hc : c = separator
      · simp [split, hc, h, join, ih]
      · cases pieces <;> simp_all [split, join]

theorem split_of_notMem {separator : Char} {text : List Char} (h : separator ∉ text) :
    split separator text = [text] := by
  induction text with
  | nil => rfl
  | cons c rest ih =>
    obtain ⟨hc, hrest⟩ := not_or.mp (mt List.mem_cons.mpr h)
    rw [split, if_neg (Ne.symm hc), ih hrest]

theorem split_append {separator : Char} {text : List Char} (h : separator ∉ text) (rest : List Char) :
    split separator (text ++ separator :: rest) = text :: split separator rest := by
  induction text with
  | nil => simp [split]
  | cons c more ih =>
    obtain ⟨hc, hmore⟩ := not_or.mp (mt List.mem_cons.mpr h)
    rw [List.cons_append, split, if_neg (Ne.symm hc), ih hmore]

end ScraperTimeline.Text
