import ScraperTimeline.Yaml.Cursor

/-!
Cursors that pass over text. Within a line everything about the cursor behind is known; over line ends the
column starts anew.
-/
namespace ScraperTimeline.Yaml

theorem isLineEnd_of_mem_replicate {n : Nat} : ∀ x ∈ List.replicate n ' ', isLineEnd x = false := by
  intro x hx
  rw [List.eq_of_mem_replicate hx]
  decide

namespace Cursor

variable {c : Cursor} {x : Char} {s t r : List Char} {p : Char → Bool}

theorem next_inline (h : c.rest = x :: r) (hx : isLineEnd x = false) :
    c.next = ⟨r, c.index + 1, c.line, c.column + 1⟩ := by
  simp [next, h, hx]

theorem next_lineEnd (h : c.rest = x :: r) (hx : isLineEnd x) : c.next = ⟨r, c.index + 1, c.line + 1, 0⟩ := by
  simp [next, h, hx]

theorem next_eq (h : c.rest = x :: r) :
    c.next.rest = r ∧ c.next.index = c.index + 1 ∧ c.line ≤ c.next.line := by
  cases hx : isLineEnd x with
  | true =>
      rw [next_lineEnd h hx]
      exact ⟨rfl, rfl, Nat.le_succ _⟩
  | false =>
      rw [next_inline h hx]
      exact ⟨rfl, rfl, Nat.le_refl _⟩

theorem skip_add (m n : Nat) (c : Cursor) : c.skip (m + n) = (c.skip m).skip n := by
  induction m generalizing c with
  | zero => rw [Nat.zero_add, skip]
  | succ m ih => rw [Nat.succ_add, skip, ih, skip]

theorem skip_length_append (s t : List Char) (c : Cursor) :
    c.skip (s ++ t).length = (c.skip s.length).skip t.length := by
  rw [List.length_append, skip_add]

theorem skip_eq (h : c.rest = s ++ r) :
    (c.skip s.length).rest = r ∧ (c.skip s.length).index = c.index + s.length ∧
      c.line ≤ (c.skip s.length).line := by
  induction s generalizing c with
  | nil => exact ⟨h, rfl, Nat.le_refl _⟩
  | cons x s ih =>
      obtain ⟨hrest, hindex, hline⟩ := next_eq h
      obtain ⟨hrest', hindex', hline'⟩ := ih hrest
      refine ⟨hrest', ?_, Nat.le_trans hline hline'⟩
      rw [List.length_cons, skip, hindex', hindex]
      omega

theorem rest_skip (h : c.rest = s ++ r) : (c.skip s.length).rest = r := (skip_eq h).1

theorem skip_inline (h : c.rest = s ++ r) (hs : ∀ x ∈ s, isLineEnd x = false) :
    c.skip s.length = ⟨r, c.index + s.length, c.line, c.column + s.length⟩ := by
  induction s generalizing c with
  | nil =>
      obtain ⟨rest, index, line, column⟩ := c
      obtain rfl : rest = r := h
      rfl
  | cons x s ih =>
      obtain ⟨hx, hs⟩ := List.forall_mem_cons.mp hs
      rw [List.length_cons, skip, next_inline h hx, ih rfl hs]
      simp only [Cursor.mk.injEq, true_and]
      omega

theorem column_skip_inline (h : c.rest = s ++ r) (hs : ∀ x ∈ s, isLineEnd x = false) :
    (c.skip s.length).column = c.column + s.length := by rw [skip_inline h hs]

-- Over the last line end the column is what was passed after it.
theorem skip_lines (h : c.rest = s ++ x :: t ++ r) (hx : isLineEnd x) (ht : ∀ y ∈ t, isLineEnd y = false) :
    (c.skip (s ++ x :: t).length).rest = r ∧ (c.skip (s ++ x :: t).length).column = t.length ∧
      c.line < (c.skip (s ++ x :: t).length).line := by
  obtain ⟨hrest, -, hline⟩ := skip_eq (c := c) (s := s) (r := x :: (t ++ r)) (by simpa using h)
  rw [skip_length_append, List.length_cons, skip, next_lineEnd hrest hx, skip_inline rfl ht]
  exact ⟨rfl, by simp, by simpa using Nat.lt_succ_of_le hline⟩

-- After whole lines the column is what was passed of the next one.
theorem skip_ended {n : Nat} (hs : s.getLast?.any isLineEnd) (h : c.rest = s ++ (List.replicate n ' ' ++ r)) :
    (c.skip (s ++ List.replicate n ' ').length).rest = r ∧ (c.skip (s ++ List.replicate n ' ').length).column = n ∧
      c.line < (c.skip (s ++ List.replicate n ' ').length).line := by
  obtain ⟨x, hlast, hx⟩ := (Option.any_eq_true _ _).mp hs
  obtain ⟨s, rfl⟩ := List.getLast?_eq_some_iff.mp hlast
  have hlines := skip_lines (c := c) (s := s) (r := r) (by simpa using h) hx isLineEnd_of_mem_replicate
  simpa using hlines

/-! ### Stretches -/

-- What starts with no character of a property.
def Stops (p : Char → Bool) (r : List Char) : Prop := ∀ x, r.head? = some x → p x = false

theorem stops_nil : Stops p [] := nofun

theorem stops_cons (h : p x = false) : Stops p (x :: r) := by
  rintro y hy
  obtain rfl := Option.some.inj hy
  exact h

theorem Stops.append (h : Stops p s) (hne : s ≠ []) : Stops p (s ++ r) := by
  cases s with
  | nil => exact absurd rfl hne
  | cons x s => exact stops_cons (h x rfl)

theorem Stops.mono {q : Char → Bool} (h : Stops p r) (hpq : ∀ a, q a → p a) : Stops q r := fun a ha =>
  Bool.eq_false_iff.mpr fun hq => Bool.eq_false_iff.mp (h a ha) (hpq a hq)

theorem exists_span (p : Char → Bool) (u : List Char) : ∃ s r, u = s ++ r ∧ (∀ x ∈ s, p x) ∧ Stops p r := by
  induction u with
  | nil => exact ⟨[], [], rfl, by simp, stops_nil⟩
  | cons x u ih =>
      by_cases hx : p x
      · obtain ⟨s, r, rfl, hs, hr⟩ := ih
        exact ⟨x :: s, r, rfl, List.forall_mem_cons.mpr ⟨hx, hs⟩, hr⟩
      · exact ⟨[], x :: u, rfl, by simp, stops_cons (by simpa using hx)⟩

-- A text by its first run of characters without a property and the first run with it.
theorem exists_runs (p : Char → Bool) (u : List Char) :
    ∃ w g v, u = w ++ (g ++ v) ∧ (∀ x ∈ w, p x = false) ∧ (∀ x ∈ g, p x) ∧ (g = [] → v = []) ∧ Stops p v := by
  obtain ⟨w, rest, rfl, hw, hrest⟩ := exists_span (!p ·) u
  obtain ⟨g, v, rfl, hg, hv⟩ := exists_span p rest
  refine ⟨w, g, v, rfl, fun x hx => by simpa using hw x hx, hg, ?_, hv⟩
  rintro rfl
  cases v with
  | nil => rfl
  | cons x v =>
      have hgap := hrest x rfl
      simp [hv x rfl] at hgap

theorem upTo_eq (h : c.rest = s ++ r) (hs : ∀ x ∈ s, p x) (hr : Stops p r) : c.upTo p = s := by
  rw [upTo, h, List.takeWhile_append_of_pos hs]
  cases r with
  | nil => simp
  | cons x r => simp [hr x rfl]

theorem skipWhile_eq (h : c.rest = s ++ r) (hs : ∀ x ∈ s, p x) (hr : Stops p r) :
    c.skipWhile p = c.skip s.length := by
  rw [skipWhile, upTo_eq h hs hr]

theorem skipWhile_eq_self (hr : Stops p c.rest) : c.skipWhile p = c :=
  skipWhile_eq (s := []) rfl (by simp) hr

theorem moveTo_eq (h : c.rest = s ++ r) : c.moveTo r = c.skip s.length := by
  rw [moveTo, h, List.length_append, Nat.add_sub_cancel]

end Cursor
end ScraperTimeline.Yaml
