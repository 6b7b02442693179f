import ScraperTimeline.Proofs.Normal.Shape
import ScraperTimeline.Timeline.Store

/-!
The names that definitions may have are those that histories may have.
-/
namespace ScraperTimeline.Normal
open Text Pattern

-- The characters of names, as the pattern of names has them.
def letters : List (Char × Char) := [('A', 'Z'), ('a', 'z'), ('0', '9'), ('_', '_'), ('-', '-')]

theorem inSet_letters (c : Char) : inSet false letters c = Store.isNameChar c := by
  have hsingle (d : Char) : (decide (d ≤ c) && decide (c ≤ d)) = decide (c = d) := by
    rw [Bool.eq_iff_iff, Bool.and_eq_true, decide_eq_true_iff, decide_eq_true_iff, decide_eq_true_iff]
    exact ⟨fun h => Char.le_antisymm h.2 h.1, fun h => by rw [h]; exact ⟨Char.le_refl _, Char.le_refl _⟩⟩
  simp only [inSet, letters, List.any_cons, List.any_nil, hsingle, Bool.or_false, Bool.bne_false,
    Store.isNameChar, isDigit]
  ac_rfl

-- After its first letter the pattern of names asks for nothing but more letters.
def furtherLetters : Pattern := .seq (.many (.set false letters)) .nothing

theorem after_namePattern (c : Char) :
    namePattern.after c = if Store.isNameChar c then furtherLetters else .never := by
  rw [← inSet_letters]
  change after c (.seq (.seq (.set false letters) (.many (.set false letters))) .nothing) = _
  cases h : inSet false letters c <;> simp [furtherLetters, after, matchesEmpty, Pattern.join, h]

theorem after_furtherLetters (c : Char) :
    furtherLetters.after c = if Store.isNameChar c then furtherLetters else .never := by
  rw [← inSet_letters]
  cases h : inSet false letters c <;> simp [furtherLetters, after, matchesEmpty, Pattern.join, choice, h]

theorem accepts_never (cs : List Char) : Pattern.never.accepts cs = false := by
  induction cs with
  | nil => rfl
  | cons c cs ih => exact ih

theorem accepts_furtherLetters (cs : List Char) :
    furtherLetters.accepts cs = cs.all Store.isNameChar := by
  induction cs with
  | nil => rfl
  | cons c cs ih =>
      change (furtherLetters.after c).accepts cs = _
      rw [after_furtherLetters, List.all_cons]
      cases Store.isNameChar c with
      | true => exact ih
      | false => exact accepts_never cs

theorem accepts_namePattern (name : String) : namePattern.accepts name.toList = Store.isName name := by
  rw [Store.isName]
  cases name.toList with
  | nil => rfl
  | cons c cs =>
      change (namePattern.after c).accepts cs = _
      rw [after_namePattern, List.all_cons]
      cases Store.isNameChar c with
      | true => exact accepts_furtherLetters cs
      | false => exact accepts_never cs

end ScraperTimeline.Normal
