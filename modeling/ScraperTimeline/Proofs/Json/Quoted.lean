import ScraperTimeline.Json.Printer
import ScraperTimeline.Json.Token
import ScraperTimeline.Proofs.Text.Digits

/-!
Strings between quotes: the escapes that are written are resolved to the same characters.
-/
namespace ScraperTimeline.Json
open Text

-- A character is left as it is, or it follows a backslash as a letter or in four digits.
inductive Escaped (c : Char) : List Char → Prop
  | plain (hquote : c ≠ '"') (hslash : c ≠ '\\') (hcontrol : 0x20 ≤ c.toNat) : Escaped c [c]
  | letter (l : Char) (hletter : l ≠ 'u') (hlookup : escapes.lookup l = some c) : Escaped c ['\\', l]
  | code (hcontrol : c.toNat < 0x20) : Escaped c ('\\' :: 'u' :: hex 4 c.toNat)

theorem escaped_escaped (c : Char) : Escaped c (escaped c) := by
  unfold escaped
  split
  · exact .letter '"' (by decide) rfl
  · exact .letter '\\' (by decide) rfl
  · exact .letter 'b' (by decide) rfl
  · exact .letter 'f' (by decide) rfl
  · exact .letter 'n' (by decide) rfl
  · exact .letter 'r' (by decide) rfl
  · exact .letter 't' (by decide) rfl
  next hquote hslash _ _ _ _ _ =>
    split
    next hcontrol => exact .code hcontrol
    next hcontrol => exact .plain hquote hslash (Nat.le_of_not_lt hcontrol)

theorem untilQuote_plain {cs : List Char} (h : ∀ c ∈ cs, c ≠ '"' ∧ c ≠ '\\') (rest : List Char) :
    untilQuote (cs ++ rest) = (untilQuote rest).map fun (body, after) => (cs ++ body, after) := by
  induction cs with
  | nil => simp
  | cons c cs ih =>
      obtain ⟨⟨hquote, hslash⟩, hcs⟩ := List.forall_mem_cons.mp h
      have hescape : ∀ e after, c = '\\' → cs ++ rest = e :: after → False := fun _ _ hc _ => hslash hc
      rw [List.cons_append, untilQuote.eq_4 _ _ hquote hescape, ih hcs, Option.map_map]
      rfl

theorem hex_plain {n : Nat} (h : n < 0x20) : ∀ c ∈ hex 4 n, c ≠ '"' ∧ c ≠ '\\' := by
  have hall : ∀ n : Fin 0x20, (hex 4 n).all fun c => c ≠ '"' ∧ c ≠ '\\' := by decide
  simpa using hall ⟨n, h⟩

theorem untilQuote_escaped (c : Char) (rest : List Char) :
    untilQuote (escaped c ++ rest) = (untilQuote rest).map fun (body, after) => (escaped c ++ body, after) := by
  have hescaped := escaped_escaped c
  generalize escaped c = text at hescaped ⊢
  cases hescaped with
  | plain hquote hslash _ => exact untilQuote_plain (by simp [hquote, hslash]) rest
  | letter l _ _ => rfl
  | code hcontrol =>
      have hhex := untilQuote_plain (hex_plain hcontrol) rest
      rw [List.cons_append, List.cons_append, untilQuote, hhex, Option.map_map]
      rfl

theorem untilQuote_quoted (cs rest : List Char) :
    untilQuote (cs.flatMap escaped ++ '"' :: rest) = some (cs.flatMap escaped, rest) := by
  induction cs with
  | nil => rfl
  | cons c cs ih => rw [List.flatMap_cons, List.append_assoc, untilQuote_escaped, ih, Option.map_some]

-- A piece that stands for a character: itself, or the unit of its numeric escape.
inductive Piece.For (c : Char) : Piece → Prop
  | char : Piece.For c (.char c)
  | unit (hcontrol : c.toNat < 0x20) : Piece.For c (.unit c.toNat)

theorem pieces?_escaped (c : Char) :
    ∃ p, Piece.For c p ∧ ∀ rest, pieces? (escaped c ++ rest) = (pieces? rest).map (p :: ·) := by
  have hescaped := escaped_escaped c
  generalize escaped c = text at hescaped ⊢
  cases hescaped with
  | plain _ hslash hcontrol =>
      refine ⟨.char c, .char, fun rest => ?_⟩
      have hspecial : ¬(c = '\\' ∨ c.toNat < 0x20) := by
        rintro (h | h)
        · exact hslash h
        · omega
      rw [List.singleton_append, pieces?]
      · rw [if_neg hspecial]
        cases pieces? rest <;> rfl
      · exact fun _ _ _ _ _ hc _ => hslash hc
      · exact fun _ _ hc _ => hslash hc
  | letter l hletter hlookup =>
      refine ⟨.char c, .char, fun rest => ?_⟩
      rw [List.cons_append, List.singleton_append, pieces?]
      · rw [hlookup]
        cases pieces? rest <;> rfl
      · exact fun _ _ _ _ _ hc _ => hletter hc
  | code hcontrol =>
      refine ⟨.unit c.toNat, .unit hcontrol, fun rest => ?_⟩
      have hlength : (hex 4 c.toNat).length = 4 := length_hex (by decide) (by omega)
      match hhex : hex 4 c.toNat, hlength with
      | [x, y, z, w], _ =>
          have hcode := natural?_hex 4 c.toNat
          rw [hhex] at hcode
          simp only [List.cons_append, List.nil_append]
          rw [pieces?, hcode]
          cases pieces? rest <;> rfl

theorem joinUnits?_unit {code : Nat} (h : code < 0xD800) (rest : List Piece) :
    joinUnits? (.unit code :: rest) = (joinUnits? rest).map (Char.ofNat code :: ·) := by
  have hhigh : isHighHalf code = false := by simp [isHighHalf, Nat.not_le.mpr h]
  have hlow : isLowHalf code = false := by
    have hbelow : ¬0xDC00 ≤ code := by omega
    simp [isLowHalf, hbelow]
  cases rest with
  | nil => simp [joinUnits?, hhigh, hlow]
  | cons p rest => cases p <;> simp [joinUnits?, hhigh, hlow]

theorem joinUnits?_for {c : Char} {p : Piece} (h : Piece.For c p) (rest : List Piece) :
    joinUnits? (p :: rest) = (joinUnits? rest).map (c :: ·) := by
  cases h with
  | char => rfl
  | unit hcontrol => rw [joinUnits?_unit (by omega), Char.ofNat_toNat]

-- What stands between the quotes is resolved to the characters that were written.
theorem pieces?_quoted (cs : List Char) :
    ∃ ps, pieces? (cs.flatMap escaped) = some ps ∧ joinUnits? ps = some cs := by
  induction cs with
  | nil => exact ⟨[], rfl, rfl⟩
  | cons c cs ih =>
      obtain ⟨ps, hps, hjoin⟩ := ih
      obtain ⟨p, hp, hpieces⟩ := pieces?_escaped c
      refine ⟨p :: ps, ?_, ?_⟩
      · rw [List.flatMap_cons, hpieces, hps, Option.map_some]
      · rw [joinUnits?_for hp, hjoin, Option.map_some]

theorem token?_quoted (s : String) (rest : List Char) :
    token? (quoted s ++ rest) = some (.string (some s), rest) := by
  obtain ⟨ps, hps, hjoin⟩ := pieces?_quoted s.toList
  have hquote : untilQuote (s.toList.flatMap escaped ++ '"' :: rest) = _ := untilQuote_quoted s.toList rest
  have htext : quoted s ++ rest = '"' :: (s.toList.flatMap escaped ++ '"' :: rest) := by simp [quoted]
  rw [htext, token?, hquote]
  simp [hps, hjoin]

end ScraperTimeline.Json
