import ScraperTimeline.Proofs.Text.Digits
import ScraperTimeline.Proofs.Yaml.Cursor
import ScraperTimeline.Yaml.Printer
import ScraperTimeline.Yaml.Token

/-!
Unquoted scalars on one line. What is written without quotes is read to its end, before a colon or the end of the
line, and to no further.
-/
namespace ScraperTimeline.Yaml
open Text Cursor

/-! ### Texts without quotes -/

-- No blank, colon or hash sign in the text ends it.
structure Unquoted (s : List Char) : Prop where
  blanks : ∀ x ∈ s, isGap x → x = ' '
  colons : ∀ p q, s = p ++ ':' :: q → startsGap q = false
  hashes : ∀ p q, s ≠ p ++ ' ' :: '#' :: q
  last : s.getLast? ≠ some ' '

theorem Unquoted.suffix {p u : List Char} (h : Unquoted (p ++ u)) (hne : u ≠ []) : Unquoted u where
  blanks := fun x hx => h.blanks x (List.mem_append_right p hx)
  colons := fun q r heq => h.colons (p ++ q) r (by rw [heq, List.append_assoc])
  hashes := fun q r heq => h.hashes (p ++ q) r (by rw [heq, List.append_assoc])
  last := by
    have hlast := h.last
    rwa [List.getLast?_append, List.getLast?_eq_some_getLast hne, Option.some_or,
      ← List.getLast?_eq_some_getLast hne] at hlast

-- A character that starts a token of its own kind, or a scalar.
def StartsToken (a : Char) : Prop := isGap a = false ∧ a ≠ '#' ∧ a ≠ '\ufeff'

instance (a : Char) : Decidable (StartsToken a) := inferInstanceAs (Decidable (_ ∧ _ ∧ _))

-- The first character starts an unquoted scalar and nothing else.
structure Opens (a : Char) (t : List Char) : Prop where
  token : StartsToken a
  indicator : a ∉ openingIndicators
  follows : a = '-' ∨ a = '?' ∨ a = ':' → startsGap t = false

structure Plain (s : List Char) : Prop extends Unquoted s where
  opens : ∃ a t, s = a :: t ∧ Opens a t
  dashes : ['-', '-', '-'].isPrefixOf s = false
  dots : ['.', '.', '.'].isPrefixOf s = false

theorem mem_neighbours (before : Option Char) (p : List Char) (c : Char) (q : List Char) :
    (p.getLast?.or before, c, q.head?) ∈ neighbours before (p ++ c :: q) := by
  induction p generalizing before with
  | nil => simp [neighbours]
  | cons a p ih =>
      have hlast : (a :: p).getLast?.or before = p.getLast?.or (some a) := by
        cases p with
        | nil => rfl
        | cons b p => simp [List.getLast?_cons]
      rw [List.cons_append, neighbours, hlast]
      exact List.mem_cons_of_mem _ (ih (some a))

theorem isSpaceOrBreak_of_isGap {x : Char} (h : isGap x) : isSpaceOrBreak x := by
  simp only [isGap, isBlank, isLineEnd, isSpaceOrBreak, isBreak, Bool.or_eq_true, decide_eq_true_eq] at h ⊢
  tauto

theorem startsGap_eq_false {q : List Char} (h : endsWord q.head? = false) : startsGap q = false := by
  cases q with
  | nil => exact h
  | cons x q =>
      simp only [endsWord, List.head?_cons, Option.all_some] at h
      simp only [startsGap, List.head?_cons, Option.all_some]
      exact Bool.eq_false_iff.mpr fun hgap => Bool.eq_false_iff.mp h (isSpaceOrBreak_of_isGap hgap)

theorem eq_blank_of_isGap {x : Char} (hgap : isGap x) (hprintable : isPrintable x) (hbreak : isBreak x = false) :
    x = ' ' := by
  simp only [isGap, isBlank, isLineEnd, Bool.or_eq_true, decide_eq_true_eq] at hgap
  rcases hgap with (rfl | rfl) | (rfl | rfl) | rfl
  · rfl
  · exact absurd hprintable (by decide)
  · exact absurd hbreak (by decide)
  · exact absurd hbreak (by decide)
  · exact absurd hbreak (by decide)

theorem plain_of_plainAllowed {s : List Char} (hne : s ≠ []) (h : plainAllowed s) : Plain s := by
  simp only [plainAllowed, Bool.not_eq_true', Bool.or_eq_false_iff, hasIndicator, hasBlankEnd, needsEscapes] at h
  obtain ⟨⟨⟨⟨⟨hdashes, hdots⟩, hindicator⟩, hfirst, hlast⟩, -, hprintable⟩, hbreak⟩ := h
  have hneighbours (p : List Char) (c : Char) (q : List Char) (hs : s = p ++ c :: q) :
      isIndicator (p.getLast?.or none, c, q.head?) = false := by
    rw [List.any_eq_false] at hindicator
    exact Bool.eq_false_iff.mpr (hindicator _ (hs ▸ mem_neighbours none p c q))
  have hchars : ∀ x ∈ s, isPrintable x ∧ isBreak x = false := by
    intro x hx
    rw [List.any_eq_false] at hprintable hbreak
    exact ⟨by simpa using hprintable x hx, by simpa using hbreak x hx⟩
  have hblank : ∀ x ∈ s, isGap x → x = ' ' := fun x hx hgap =>
    eq_blank_of_isGap hgap (hchars x hx).1 (hchars x hx).2
  obtain ⟨a, t, rfl⟩ := List.exists_cons_of_ne_nil hne
  have hopening := hneighbours [] a t rfl
  simp only [List.getLast?_nil, Option.none_or, isIndicator, Bool.or_eq_false_iff, decide_eq_false_iff_not] at hopening
  refine ⟨⟨hblank, fun p q hs => ?_, fun p q hs => ?_, fun hs => ?_⟩, ⟨a, t, rfl, ⟨?_, ?_, ?_⟩, hopening.1, ?_⟩,
    hdashes, hdots⟩
  · have hcolon := hneighbours p ':' q hs
    apply startsGap_eq_false
    cases hbefore : p.getLast?.or none <;> simpa [hbefore, isIndicator, openingIndicators] using hcolon
  · have hhash := hneighbours (p ++ [' ']) '#' q (by simpa using hs)
    simp [isIndicator, isSpaceOrBreak] at hhash
  · simp [hs] at hlast
  · refine Bool.eq_false_iff.mpr fun hgap => ?_
    simp [hblank a List.mem_cons_self hgap] at hfirst
  · rintro rfl
    exact hopening.1 (by decide)
  · rintro rfl
    exact absurd (hchars _ List.mem_cons_self).1 (by decide)
  · intro ha
    have hindicator : decide (a = '?') || decide (a = ':') || decide (a = '-') := by
      rcases ha with rfl | rfl | rfl <;> rfl
    apply startsGap_eq_false
    simpa [hindicator] using hopening.2

/-! ### Stretches -/

theorem plainStretch?_eq {w r : List Char} (hw : ∀ x ∈ w, isGap x = false)
    (hcolon : ∀ p q, w = p ++ ':' :: q → startsGap (q ++ r) = false) (hr : plainStretch? false r = some ([], r)) :
    plainStretch? false (w ++ r) = some (w, r) := by
  induction w with
  | nil => exact hr
  | cons a w ih =>
      obtain ⟨ha, hw⟩ := List.forall_mem_cons.mp hw
      have ih := ih hw fun p q hsplit => hcolon (a :: p) q (by rw [hsplit, List.cons_append])
      have hstop : ¬ (a = ':' ∧ startsGap (w ++ r)) := by
        rintro ⟨rfl, hgap⟩
        exact Bool.eq_false_iff.mp (hcolon [] w rfl) hgap
      simp [plainStretch?, ha, ih, hstop]

theorem plainStretch?_gap {x : Char} {r : List Char} (hx : isGap x) :
    plainStretch? false (x :: r) = some ([], x :: r) := by
  simp [plainStretch?, hx]

theorem plainStretch?_colon {r : List Char} (hr : startsGap r) :
    plainStretch? false (':' :: r) = some ([], ':' :: r) := by
  simp [plainStretch?, hr, show isGap ':' = false from rfl]

/-! ### Scalars -/

variable {c : Cursor} {column fuel : Nat} {text pending s u w r : List Char}

-- Goes on after a stretch, at whose end the cursor is.
def plainAfter? (column fuel : Nat) (text : List Char) (c : Cursor) : Option Scanned :=
  let gap := c.upTo isGap
  let c := c.skipWhile isGap
  if gap = [] then some ⟨text, c, false⟩
  else if hasTabBefore column gap then none
  else if c.column < column then some ⟨text, c, gap.any isLineEnd⟩
  else plain? false column fuel text gap c

theorem plain?_stretch (hrest : c.rest = w ++ r) (hne : w ≠ []) (hmark : c.atDocumentMark = false)
    (hhash : w.head? ≠ some '#') (hstretch : plainStretch? false (w ++ r) = some (w, r)) :
    plain? false column (fuel + 1) text pending c =
      plainAfter? column fuel (text ++ foldGap pending ++ w) (c.skip w.length) := by
  have hhead : c.rest.head? ≠ some '#' := by
    rw [hrest]
    cases w with
    | nil => exact absurd rfl hne
    | cons a w => exact hhash
  rw [plain?, if_neg (by simp [hmark, hhead]), hrest, hstretch]
  simp only [Option.bind_eq_bind, Option.bind_some, if_neg hne, moveTo_eq hrest, plainAfter?, Bool.not_false,
    Bool.true_and, decide_eq_true_eq]

theorem atDocumentMark_of_column (h : 0 < c.column) : c.atDocumentMark = false := by
  simp [atDocumentMark, Nat.ne_of_gt h]

theorem hasTabBefore_of_notMem {g : List Char} (h : '\t' ∉ g) : hasTabBefore column g = false := by
  have hgo (lines : List Char) : '\t' ∉ lines → ∀ n, hasTabBefore.go column n lines = false := by
    induction lines with
    | nil => exact fun _ _ => rfl
    | cons x lines ih =>
        intro hlines n
        rw [List.mem_cons, not_or] at hlines
        obtain ⟨hx, hlines⟩ := hlines
        rw [hasTabBefore.go]
        split
        · exact ih hlines 0
        · simp [Ne.symm hx, ih hlines]
  exact hgo _ (fun hx => h ((List.dropWhile_sublist _).subset hx)) 0

theorem foldGap_blanks {g : List Char} (h : ∀ x ∈ g, x = ' ') : foldGap g = g := by
  rw [foldGap, if_neg]
  rw [List.any_eq_true]
  rintro ⟨x, hx, hend⟩
  rw [h x hx] at hend
  exact absurd hend (by decide)

theorem startsGap_append {q : List Char} (h : startsGap q = false) (r : List Char) : startsGap (q ++ r) = false := by
  cases q with
  | nil => cases h
  | cons x q => exact h

-- A word and the blanks after it are passed if another word follows.
theorem plain?_word (fuel : Nat) (text pending : List Char) {g v : List Char} (hrest : c.rest = w ++ (g ++ v))
    (hne : w ≠ []) (hgne : g ≠ []) (hword : ∀ x ∈ w, isGap x = false) (hblanks : ∀ x ∈ g, x = ' ') (hv : Stops isGap v)
    (hmark : c.atDocumentMark = false) (hhash : w.head? ≠ some '#') (hcolumn : column ≤ c.column + 1)
    (hcolon : ∀ p q, w = p ++ ':' :: q → startsGap (q ++ (g ++ v)) = false) :
    plain? false column (fuel + 1) text pending c =
      plain? false column fuel (text ++ foldGap pending ++ w) g (c.skip (w ++ g).length) ∧
    (c.skip (w ++ g).length).rest = v ∧ column ≤ (c.skip (w ++ g).length).column ∧
      0 < (c.skip (w ++ g).length).column := by
  have hgaps : ∀ x ∈ g, isGap x := fun x hx => by rw [hblanks x hx]; rfl
  have hstretch : plainStretch? false (w ++ (g ++ v)) = some (w, g ++ v) := by
    refine plainStretch?_eq hword hcolon ?_
    obtain ⟨b, g', rfl⟩ := List.exists_cons_of_ne_nil hgne
    exact plainStretch?_gap (hgaps b List.mem_cons_self)
  have hinline : ∀ x ∈ w ++ g, isLineEnd x = false := by
    intro x hx
    rcases List.mem_append.mp hx with hx | hx
    · exact (Bool.or_eq_false_iff.mp (hword x hx)).2
    · rw [hblanks x hx]
      rfl
  have hbefore : c.rest = (w ++ g) ++ v := by rw [hrest, List.append_assoc]
  have hcolumns := column_skip_inline hbefore hinline
  have hlength : 0 < (w ++ g).length := by simpa using .inl (List.length_pos_iff.mpr hne)
  have hafter := rest_skip hrest
  have htab : '\t' ∉ g := fun hmem => absurd (hblanks _ hmem) (by decide)
  refine ⟨?_, rest_skip hbefore, by omega, by omega⟩
  rw [plain?_stretch hrest hne hmark hhash hstretch, plainAfter?, upTo_eq hafter hgaps hv, skipWhile_eq hafter hgaps hv,
    ← skip_length_append]
  simp only [if_neg hgne, hasTabBefore_of_notMem htab, if_neg (show ¬ (c.skip (w ++ g).length).column < column by omega)]
  rfl

-- Blanks between words stay as they are.
theorem plain?_eq (hu : Unquoted u) (hgap : u.head?.all isGap = false) (hhash : u.head? ≠ some '#')
    (hrest : c.rest = u ++ r) (hmark : c.atDocumentMark = false) (hcolumn : column ≤ c.column + 1)
    (hr : plainStretch? false r = some ([], r)) (hfuel : u.length < fuel)
    (text pending : List Char) : ∃ fuel', 0 < fuel' ∧ plain? false column fuel text pending c =
      plainAfter? column fuel' (text ++ foldGap pending ++ u) (c.skip u.length) := by
  induction fuel generalizing u text pending c with
  | zero => cases hfuel
  | succ fuel ih =>
      obtain ⟨w, g, v, rfl, hword, hg, hnone, hv⟩ := exists_runs isGap u
      have hw : w ≠ [] := by
        rintro rfl
        cases g with
        | nil => simp [hnone rfl] at hgap
        | cons x g => simp [hg x List.mem_cons_self] at hgap
      have hblanks : ∀ x ∈ g, x = ' ' := fun x hx =>
        hu.blanks x (List.mem_append_right w (List.mem_append_left v hx)) (hg x hx)
      have hwhash : w.head? ≠ some '#' := by
        cases w with
        | nil => exact absurd rfl hw
        | cons a w => exact hhash
      have hlength : 0 < w.length := List.length_pos_iff.mpr hw
      simp only [List.length_append] at hfuel
      by_cases hgne : g = []
      · -- The last word.
        obtain rfl := hgne
        obtain rfl := hnone rfl
        simp only [List.append_nil] at hrest hu ⊢
        have hstretch := plainStretch?_eq hword (fun p q hsplit => startsGap_append (hu.colons p q hsplit) r) hr
        exact ⟨fuel, by simp at hfuel; omega, plain?_stretch hrest hw hmark hwhash hstretch⟩
      · obtain ⟨g', hg'⟩ : ∃ g', g = g' ++ [' '] :=
          ⟨g.dropLast, by rw [← hblanks _ (List.getLast_mem hgne), List.dropLast_concat_getLast hgne]⟩
        have hvne : v ≠ [] := by
          rintro rfl
          exact hu.last (by simp [hg'])
        obtain ⟨a, v', rfl⟩ := List.exists_cons_of_ne_nil hvne
        have hvhash : (a :: v').head? ≠ some '#' := by
          intro hhead
          obtain rfl := Option.some.inj hhead
          exact hu.hashes (w ++ g') v' (by simp [hg'])
        have hcolon (p q : List Char) (hsplit : w = p ++ ':' :: q) :
            startsGap (q ++ (g ++ (a :: v' ++ r))) = false := by
          have hcolon := hu.colons p (q ++ (g ++ a :: v')) (by simp [hsplit])
          simpa using startsGap_append hcolon r
        have hbefore : c.rest = w ++ (g ++ (a :: v' ++ r)) := by simpa using hrest
        obtain ⟨hstep, hafter, hcolumn, hpositive⟩ := plain?_word fuel text pending hbefore hw hgne hword hblanks
          (hv.append hvne) hmark hwhash hcolumn hcolon
        have hsuffix : Unquoted (a :: v') := Unquoted.suffix (p := w ++ g) (by simpa using hu) hvne
        obtain ⟨fuel', hpos, heq⟩ := ih hsuffix (hv a rfl) hvhash hafter (atDocumentMark_of_column hpositive)
          (Nat.le_succ_of_le hcolumn) (by omega) (text ++ foldGap pending ++ w) g
        refine ⟨fuel', hpos, ?_⟩
        rw [hstep, heq, foldGap_blanks hblanks, ← skip_length_append]
        simp only [List.append_assoc]

-- A plain scalar is read up to what is none of it.
theorem plain?_start (hs : Plain s) (hrest : c.rest = s ++ r) (hmark : c.atDocumentMark = false)
    (hcolumn : column ≤ c.column + 1) (hr : plainStretch? false r = some ([], r)) :
    ∃ fuel, 0 < fuel ∧ plain? false column (c.rest.length + 1) [] [] c =
      plainAfter? column fuel s (c.skip s.length) := by
  obtain ⟨a, t, rfl, ha⟩ := hs.opens
  have hfuel : (a :: t).length < c.rest.length + 1 := by
    rw [hrest, List.length_append]
    omega
  have hhash : (a :: t).head? ≠ some '#' := fun hhead => ha.token.2.1 (Option.some.inj hhead)
  exact plain?_eq hs.toUnquoted ha.token.1 hhash hrest hmark hcolumn hr hfuel [] []

/-! ### Ends -/

-- What may follow a line that is no part of what stands before it: nothing, or a token that is not further in than
-- the block.
def Below (n : Nat) (x : List Char) (indent : Int) : Prop :=
  x = [] ∧ n = 0 ∨ (∃ a r, x = a :: r ∧ StartsToken a) ∧ (n : Int) ≤ indent

theorem Below.stops {n : Nat} {x : List Char} {indent : Int} (h : Below n x indent) : Stops isGap x := by
  rcases h with ⟨rfl, -⟩ | ⟨⟨a, r, rfl, ha, -⟩, -⟩
  · exact stops_nil
  · exact stops_cons ha

-- A key ends before its colon.
theorem plain?_key {q : List Char} {column : Nat} (hs : Plain s) (hrest : c.rest = s ++ ':' :: q) (hq : startsGap q)
    (hmark : c.atDocumentMark = false) (hcolumn : column ≤ c.column + 1) :
    plain? false column (c.rest.length + 1) [] [] c = some ⟨s, c.skip s.length, false⟩ := by
  obtain ⟨fuel, -, heq⟩ := plain?_start hs hrest hmark hcolumn (plainStretch?_colon hq)
  have hafter := rest_skip hrest
  have hstop : Stops isGap (':' :: q) := stops_cons rfl
  rw [heq, plainAfter?, upTo_eq (s := []) hafter (by simp) hstop, skipWhile_eq_self (hafter ▸ hstop)]
  rfl

theorem plain?_nil {column fuel : Nat} (hrest : c.rest = []) (hfuel : 0 < fuel) :
    plain? false column fuel text pending c = some ⟨text, c, pending.any isLineEnd⟩ := by
  obtain ⟨fuel, rfl⟩ := Nat.exists_eq_add_one_of_ne_zero (Nat.ne_of_gt hfuel)
  simp [plain?, atDocumentMark, isDocumentMark, hrest, plainStretch?]

-- A scalar ends with its line, however the next line starts.
theorem plain?_line {n : Nat} {x : List Char} {indent : Int} (hs : Plain s)
    (hrest : c.rest = s ++ '\n' :: List.replicate n ' ' ++ x) (hbelow : Below n x indent)
    (hmark : c.atDocumentMark = false) (hcolumn : (indent + 1).toNat ≤ c.column + 1) :
    plain? false (indent + 1).toNat (c.rest.length + 1) [] [] c =
      some ⟨s, c.skip (s ++ '\n' :: List.replicate n ' ').length, true⟩ := by
  let gap := '\n' :: List.replicate n ' '
  have hgap : ∀ y ∈ gap, y = '\n' ∨ y = ' ' := fun y hy => (List.mem_cons.mp hy).imp_right List.eq_of_mem_replicate
  have hgaps : ∀ y ∈ gap, isGap y := fun y hy => by rcases hgap y hy with rfl | rfl <;> rfl
  have htab : '\t' ∉ gap := fun hmem => by rcases hgap _ hmem with h | h <;> exact absurd h (by decide)
  have hbefore : c.rest = s ++ (gap ++ x) := by rw [hrest, List.append_assoc]
  obtain ⟨fuel, hpos, heq⟩ := plain?_start hs hbefore hmark hcolumn (plainStretch?_gap rfl)
  have hafter := rest_skip hbefore
  obtain ⟨hlast, hlastColumn, -⟩ := skip_lines hrest rfl isLineEnd_of_mem_replicate
  rw [List.length_replicate] at hlastColumn
  rw [heq, plainAfter?, upTo_eq hafter hgaps hbelow.stops, skipWhile_eq hafter hgaps hbelow.stops, ← skip_length_append]
  rw [if_neg (List.cons_ne_nil _ _), hasTabBefore_of_notMem htab, if_neg Bool.false_ne_true, hlastColumn]
  rcases hbelow with ⟨rfl, rfl⟩ | ⟨-, hle⟩
  · split
    · rfl
    · exact plain?_nil hlast hpos
  · rw [if_pos (by omega)]
    rfl

end ScraperTimeline.Yaml
