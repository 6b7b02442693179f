import ScraperTimeline.Proofs.Yaml.Plain

/-!
Scalars in quotes. A text is written stretch by stretch, with gaps between them that are kept or, where lines end,
folded back to what they were.
-/
namespace ScraperTimeline.Yaml
open Text Cursor

def quote (single : Bool) : Char := if single then '\'' else '"'

-- What may stand after a stretch: a gap, or the closing quote.
def EndsStretch (single : Bool) (r : List Char) : Prop :=
  (∃ x t, r = x :: t ∧ isGap x) ∨ ∃ t, r = quote single :: t ∧ t.head? ≠ some (quote single)

/-! ### Stretches -/

-- The second text is read as the first up to where a stretch may end.
structure Stretch (single : Bool) (w written : List Char) : Prop where
  reads : ∀ fuel r, written.length < fuel → EndsStretch single r →
    quotedStretch? single fuel (written ++ r) = some (w, false, r)
  inline : ∀ x ∈ written, isLineEnd x = false
  length : w.length ≤ written.length

variable {single : Bool} {w written s t b r tail : List Char} {a : Char} {column fuel : Nat}

theorem quotedStretch?_end (h : EndsStretch single r) (hfuel : 0 < fuel) :
    quotedStretch? single fuel r = some ([], false, r) := by
  obtain ⟨fuel, rfl⟩ := Nat.exists_eq_add_one_of_ne_zero (Nat.ne_of_gt hfuel)
  rcases h with ⟨x, t, rfl, hx⟩ | ⟨t, rfl, ht⟩
  · unfold quotedStretch?
    rw [if_pos hx]
  · cases single with
    | false => rfl
    | true =>
        -- A quote that is not doubled is the last one.
        change quotedStretch? true (fuel + 1) ('\'' :: t) = _
        unfold quotedStretch?
        rw [if_neg (by decide), if_pos rfl, if_pos rfl]
        split
        next => exact absurd rfl ht
        next => rfl

theorem stretch_nil : Stretch single [] [] where
  reads := fun _ _ hfuel hr => quotedStretch?_end hr (Nat.lt_of_le_of_lt (Nat.zero_le _) hfuel)
  inline := by simp
  length := Nat.le_refl _

-- A stretch by its characters.
theorem Stretch.cons {piece : List Char} (h : Stretch single w written)
    (hpiece : ∀ fuel r, quotedStretch? single (fuel + 1) (piece ++ r) =
      (quotedStretch? single fuel r).map fun (s, after) => (a :: s, after))
    (hne : piece ≠ []) (hinline : ∀ x ∈ piece, isLineEnd x = false) : Stretch single (a :: w) (piece ++ written) where
  reads := by
    intro fuel r hfuel hr
    have hlength := List.length_pos_iff.mpr hne
    rw [List.length_append] at hfuel
    obtain ⟨fuel, rfl⟩ := Nat.exists_eq_add_one_of_ne_zero (show fuel ≠ 0 by omega)
    rw [List.append_assoc, hpiece, h.reads fuel r (by omega) hr]
    rfl
  inline := by
    intro x hx
    exact (List.mem_append.mp hx).elim (hinline x) (h.inline x)
  length := by
    have hlength := List.length_pos_iff.mpr hne
    have := h.length
    simp only [List.length_cons, List.length_append]
    omega

def doubled (a : Char) : List Char := if a = '\'' then ['\'', '\''] else [a]

theorem stretch_single (hw : ∀ x ∈ w, isGap x = false) : Stretch true w (w.flatMap doubled) := by
  induction w with
  | nil => exact stretch_nil
  | cons a w ih =>
      obtain ⟨ha, hw⟩ := List.forall_mem_cons.mp hw
      rw [List.flatMap_cons]
      by_cases hquote : a = '\''
      · subst hquote
        exact (ih (by assumption)).cons (fun _ _ => rfl) (by decide) (by simp [doubled, isLineEnd])
      · have hend : isLineEnd a = false := (Bool.or_eq_false_iff.mp ha).2
        refine (ih hw).cons (fun fuel r => ?_) (by simp [doubled, hquote]) (by simp [doubled, hquote, hend])
        simp [doubled, hquote, quotedStretch?, ha]

/-! ### Escapes -/

theorem digit?_toUpper (a : Char) : digit? 16 a.toUpper = digit? 16 a := by
  have hletters : ∀ n ∈ List.range' 97 26, digit? 16 (Char.ofNat n).toUpper = digit? 16 (Char.ofNat n) := by decide
  by_cases hlower : 'a'.val ≤ a.val ∧ a.val ≤ 'z'.val
  · have hmem : a.toNat ∈ List.range' 97 26 :=
      List.mem_range'_1.mpr ⟨UInt32.le_iff_toNat_le.mp hlower.1, Nat.lt_succ_of_le (UInt32.le_iff_toNat_le.mp hlower.2)⟩
    have h := hletters _ hmem
    rwa [Char.ofNat_toNat] at h
  · rw [show a.toUpper = a from dif_neg hlower]

theorem digitsFrom?_toUpper (read : Nat) (s : List Char) :
    digitsFrom? 16 read (s.map Char.toUpper) = digitsFrom? 16 read s := by
  induction s generalizing read with
  | nil => rfl
  | cons a s ih => simp only [List.map_cons, digitsFrom?, digit?_toUpper, ih]

theorem natural?_upperHex (width n : Nat) : natural? 16 (upperHex width n) = some n := by
  have hne : hex width n ≠ [] := by simp [hex, Nat.toDigits_ne_nil]
  rw [upperHex, natural?_of_ne_nil (by simpa using hne), digitsFrom?_toUpper, ← natural?_of_ne_nil hne, natural?_hex]

theorem length_upperHex {width m : Nat} (hwidth : 0 < width) (h : m < 16 ^ width) :
    (upperHex width m).length = width := by
  rw [upperHex, List.length_map, length_hex hwidth h]

theorem charOfCode?_toNat (a : Char) : charOfCode? a.toNat = some a := by
  rw [charOfCode?, dif_pos (show a.toNat.isValidChar from a.valid)]
  exact congrArg some (Char.ext (UInt32.ofNat_toNat))

-- What stands for a character after a backslash.
def escapeCode (a : Char) : List Char :=
  match escapeLetters.lookup a with
  | some letter => [letter]
  | none =>
    if a.toNat ≤ 0xFF then 'x' :: upperHex 2 a.toNat
    else if a.toNat ≤ 0xFFFF then 'u' :: upperHex 4 a.toNat
    else 'U' :: upperHex 8 a.toNat

theorem escape?_letter {a letter : Char} (h : escapeLetters.lookup a = some letter) (r : List Char) :
    escape? (letter :: r) = some (a, r) := by
  have hletters : ∀ entry ∈ escapeLetters,
      escapeWidths.lookup entry.2 = none ∧ escapes.lookup entry.2 = some entry.1 := by decide
  obtain ⟨before, after, hsplit, -⟩ := List.lookup_eq_some_iff.mp h
  obtain ⟨hwidth, hescape⟩ := hletters (a, letter) (by simp [hsplit])
  dsimp only at hwidth hescape
  simp [escape?, hwidth, hescape]

theorem escape?_hex {a letter : Char} {width : Nat} (hletter : escapeWidths.lookup letter = some width)
    (hwidth : 0 < width) (ha : a.toNat < 16 ^ width) (r : List Char) :
    escape? (letter :: upperHex width a.toNat ++ r) = some (a, r) := by
  simp [escape?, hletter, length_upperHex hwidth ha, natural?_upperHex, charOfCode?_toNat]

theorem escape?_code (a : Char) (r : List Char) : escape? (escapeCode a ++ r) = some (a, r) := by
  have hvalid : a.toNat.isValidChar := a.valid
  rw [escapeCode]
  split
  next letter h => exact escape?_letter h r
  next =>
    split
    · exact escape?_hex rfl (by decide) (by omega) r
    · split
      · exact escape?_hex rfl (by decide) (by omega) r
      · exact escape?_hex rfl (by decide) (by rcases hvalid with h | h <;> omega) r

theorem isSome_of_digitsFrom? {read n : Nat} (h : digitsFrom? 16 read s = some n) : ∀ x ∈ s, (digit? 16 x).isSome := by
  induction s generalizing read with
  | nil => simp
  | cons a s ih =>
      obtain ⟨value, hvalue, hrest⟩ := Option.bind_eq_some_iff.mp h
      exact List.forall_mem_cons.mpr ⟨by rw [hvalue]; rfl, ih hrest⟩

theorem inline_upperHex (width n : Nat) : ∀ x ∈ upperHex width n, isLineEnd x = false := by
  intro x hx
  have hdigits := natural?_upperHex width n
  rw [natural?_of_ne_nil (List.ne_nil_of_mem hx)] at hdigits
  have hdigit := isSome_of_digitsFrom? hdigits x hx
  refine Bool.eq_false_iff.mpr fun hend => ?_
  simp only [isLineEnd, Bool.or_eq_true, decide_eq_true_eq] at hend
  rcases hend with (rfl | rfl) | rfl <;> exact absurd hdigit (by decide)

-- A code is more than nothing, and it does not end the line.
theorem inline_escapeCode (a : Char) : escapeCode a ≠ [] ∧ ∀ x ∈ escapeCode a, isLineEnd x = false := by
  have hletters : ∀ entry ∈ escapeLetters, isLineEnd entry.2 = false := by decide
  rw [escapeCode]
  split
  next letter h =>
    obtain ⟨before, after, hsplit, -⟩ := List.lookup_eq_some_iff.mp h
    exact ⟨List.cons_ne_nil _ _, List.forall_mem_singleton.mpr (hletters (a, letter) (by simp [hsplit]))⟩
  next =>
    split
    · exact ⟨List.cons_ne_nil _ _, List.forall_mem_cons.mpr ⟨rfl, inline_upperHex _ _⟩⟩
    · split <;> exact ⟨List.cons_ne_nil _ _, List.forall_mem_cons.mpr ⟨rfl, inline_upperHex _ _⟩⟩

theorem escaped_eq (a : Char) : (isGap a = false ∨ a = ' ') ∧ a ≠ '"' ∧ a ≠ '\\' ∧ escaped a = [a] ∨
    escaped a = '\\' :: escapeCode a := by
  rw [escaped]
  split
  next h =>
    simp only [Bool.and_eq_true, Bool.not_eq_true', decide_eq_true_eq] at h
    obtain ⟨⟨⟨hprintable, hbreak⟩, hquote⟩, hslash⟩ := h
    refine .inl ⟨?_, hquote, hslash, rfl⟩
    cases hgap : isGap a with
    | false => exact .inl rfl
    | true => exact .inr (eq_blank_of_isGap hgap hprintable hbreak)
  next => exact .inr rfl

theorem quotedStretch?_escaped (ha : a ≠ ' ') (fuel : Nat) (r : List Char) :
    quotedStretch? false (fuel + 1) (escaped a ++ r) =
      (quotedStretch? false fuel r).map fun (s, after) => (a :: s, after) := by
  rcases escaped_eq a with ⟨hgap, hquote, hslash, heq⟩ | heq
  · rw [heq]
    simp [quotedStretch?, hgap.resolve_right ha, hquote, hslash]
  · obtain ⟨hne, hinline⟩ := inline_escapeCode a
    have hhead : ((escapeCode a ++ r).head?).any isLineEnd = false := by
      obtain ⟨x, code, hcode⟩ := List.exists_cons_of_ne_nil hne
      simp [hcode, hinline x (by simp [hcode])]
    rw [heq, List.cons_append]
    rw [quotedStretch?.eq_def]
    dsimp only
    rw [if_neg (by decide), if_neg (by decide), if_neg (by decide), if_pos rfl, hhead, if_neg (by decide), escape?_code]
    simp only [Option.bind_eq_bind, Option.bind_some]
    cases quotedStretch? false fuel r <;> rfl

theorem inline_escaped (ha : a ≠ ' ') : escaped a ≠ [] ∧ ∀ x ∈ escaped a, isLineEnd x = false := by
  rcases escaped_eq a with ⟨hgap, -, -, heq⟩ | heq
  · rw [heq]
    exact ⟨List.cons_ne_nil _ _, List.forall_mem_singleton.mpr (Bool.or_eq_false_iff.mp (hgap.resolve_right ha)).2⟩
  · rw [heq]
    exact ⟨List.cons_ne_nil _ _, List.forall_mem_cons.mpr ⟨rfl, (inline_escapeCode a).2⟩⟩

theorem stretch_double (hw : ∀ x ∈ w, x ≠ ' ') : Stretch false w (w.flatMap escaped) := by
  induction w with
  | nil => exact stretch_nil
  | cons a w ih =>
      obtain ⟨ha, hw⟩ := List.forall_mem_cons.mp hw
      rw [List.flatMap_cons]
      exact (ih hw).cons (quotedStretch?_escaped ha) (inline_escaped ha).1 (inline_escaped ha).2

/-! ### Gaps -/

-- The second text is a gap that comes to the first.
structure Gap (g written : List Char) : Prop where
  gap : ∀ x ∈ written, isGap x
  folds : foldGap written = g
  ne : g ≠ []
  length : g.length ≤ written.length
  column : ∀ c : Cursor, ∀ r, c.rest = written ++ r → 0 < c.column → 0 < (c.skip written.length).column

theorem Gap.written_ne {g : List Char} (h : Gap g written) : written ≠ [] := by
  rintro rfl
  exact h.ne h.folds.symm

theorem gap_blanks {g : List Char} (hne : g ≠ []) (hg : ∀ x ∈ g, x = ' ') : Gap g g where
  gap := fun x hx => by rw [hg x hx]; rfl
  folds := foldGap_blanks hg
  ne := hne
  length := Nat.le_refl _
  column := by
    intro c r hrest hcolumn
    rw [column_skip_inline hrest fun x hx => by rw [hg x hx]; rfl]
    omega

def isSeparator (x : Char) : Bool := x = '\u2028' || x = '\u2029'

theorem foldBreaks_separators {g : List Char} (hg : ∀ x ∈ g, isSeparator x) : foldBreaks g = g := by
  cases g with
  | nil => rfl
  | cons a g =>
      have ha : a ≠ '\n' := by
        rintro rfl
        exact absurd (hg _ List.mem_cons_self) (by decide)
      simp [foldBreaks, ha]

theorem isLineEnd_of_isSeparator {x : Char} (h : isSeparator x) : isLineEnd x := by
  simp only [isSeparator, Bool.or_eq_true, decide_eq_true_eq] at h
  rcases h with rfl | rfl <;> rfl

-- Breaks that count as more than a new line are kept, and the indentation after them is dropped.
theorem gap_separators {g : List Char} (hne : g ≠ []) (hg : ∀ x ∈ g, isSeparator x) (hcolumn : 0 < column) :
    Gap g (g ++ indentation column) where
  gap := by
    intro x hx
    rcases List.mem_append.mp hx with hx | hx
    · exact Bool.or_eq_true_iff.mpr (.inr (isLineEnd_of_isSeparator (hg x hx)))
    · rw [List.eq_of_mem_replicate hx]
      rfl
  folds := by
    have hany : (g ++ indentation column).any isLineEnd := by
      obtain ⟨a, g, rfl⟩ := List.exists_cons_of_ne_nil hne
      simp [isLineEnd_of_isSeparator (hg a List.mem_cons_self)]
    have hends : g.filter isLineEnd = g := List.filter_eq_self.mpr fun x hx => isLineEnd_of_isSeparator (hg x hx)
    have hblanks : (indentation column).filter isLineEnd = [] :=
      List.filter_eq_nil_iff.mpr fun x hx => by simp [isLineEnd_of_mem_replicate x hx]
    rw [foldGap, if_pos hany, List.filter_append, hends, hblanks, List.append_nil, foldBreaks_separators hg]
  ne := hne
  length := by simp
  column := by
    intro c r hrest _
    have hlast := isLineEnd_of_isSeparator (hg _ (List.getLast_mem hne))
    have hsplit : g ++ indentation column = g.dropLast ++ g.getLast hne :: indentation column := by
      rw [List.append_cons, List.dropLast_concat_getLast]
    rw [hsplit] at hrest ⊢
    rw [(skip_lines hrest hlast isLineEnd_of_mem_replicate).2.1, indentation, List.length_replicate]
    exact hcolumn

/-! ### Texts -/

-- The second text is read as the first, up to the closing quote.
inductive Body (single : Bool) : List Char → List Char → Prop where
  | stretch {w written : List Char} (hw : Stretch single w written) : Body single w written
  | gap {w written g gap s b : List Char} (hw : Stretch single w written) (hg : Gap g gap)
    (hstops : Stops isGap (b ++ [quote single])) (hs : Body single s b) :
    Body single (w ++ (g ++ s)) (written ++ (gap ++ b))

theorem quoted?_stretch {c : Cursor} {text : List Char} (hw : Stretch single w written) (hrest : c.rest = written ++ r)
    (hr : EndsStretch single r) (hcolumn : 0 < c.column) :
    quoted? single (fuel + 1) text c =
      if r.head? = some (quote single) then some ⟨text ++ w, (c.skip written.length).next, false⟩
      else
        let gap := (c.skip written.length).upTo isGap
        quoted? single fuel (text ++ w ++ foldGap gap) ((c.skip written.length).skipWhile isGap) := by
  have hne : c.rest ≠ [] := by
    rw [hrest]
    rcases hr with ⟨x, t, rfl, -⟩ | ⟨t, rfl, -⟩ <;> simp
  have hreads := hw.reads (c.rest.length + 1) r (by rw [hrest, List.length_append]; omega) hr
  rw [← hrest] at hreads
  rw [quoted?, if_neg (by simp [atDocumentMark_of_column hcolumn, hne]), hreads]
  simp only [Option.bind_eq_bind, Option.bind_some, moveTo_eq hrest, rest_skip hrest, quote]
  rfl

theorem quoted?_of_body (h : Body single s b) (htail : tail.head? ≠ some (quote single)) (fuel : Nat)
    (text : List Char) (c : Cursor) (hfuel : s.length < fuel) (hrest : c.rest = b ++ quote single :: tail)
    (hcolumn : 0 < c.column) :
    quoted? single fuel text c = some ⟨text ++ s, c.skip (b.length + 1), false⟩ := by
  induction h generalizing fuel text c with
  | @stretch w written hw =>
      obtain ⟨fuel, rfl⟩ := Nat.exists_eq_add_one_of_ne_zero (Nat.ne_of_gt (Nat.zero_lt_of_lt hfuel))
      rw [quoted?_stretch hw hrest (.inr ⟨tail, rfl, htail⟩) hcolumn, List.head?_cons, if_pos rfl, skip_add]
      rfl
  | @gap w written g gap s b hw hg hstops hs ih =>
      obtain ⟨fuel, rfl⟩ := Nat.exists_eq_add_one_of_ne_zero (Nat.ne_of_gt (Nat.zero_lt_of_lt hfuel))
      have hbefore : c.rest = written ++ (gap ++ (b ++ quote single :: tail)) := by
        simpa only [List.append_assoc] using hrest
      obtain ⟨x, gap', hgap⟩ := List.exists_cons_of_ne_nil hg.written_ne
      have hx := hg.gap x (by simp [hgap])
      have hends : EndsStretch single (gap ++ (b ++ quote single :: tail)) := .inl ⟨x, _, by rw [hgap]; rfl, hx⟩
      have hquote : (gap ++ (b ++ quote single :: tail)).head? ≠ some (quote single) := by
        rw [hgap]
        intro heq
        obtain rfl := Option.some.inj heq
        exact absurd hx (by cases single <;> decide)
      have hstops : Stops isGap (b ++ quote single :: tail) := by
        rw [List.append_cons]
        exact hstops.append (by simp)
      have hafter := rest_skip hbefore
      have hshorter : s.length < fuel := by
        have := List.length_pos_iff.mpr hg.ne
        simp only [List.length_append] at hfuel
        omega
      have hinline := column_skip_inline hbefore hw.inline
      rw [quoted?_stretch hw hbefore hends hcolumn, if_neg hquote]
      dsimp only
      rw [upTo_eq hafter hg.gap hstops, skipWhile_eq hafter hg.gap hstops, hg.folds,
        ih fuel _ _ hshorter (rest_skip hafter) (hg.column _ _ hafter (by omega)), ← skip_add, ← skip_add]
      simp only [List.append_assoc, List.length_append, Nat.add_assoc]

theorem Body.length_le (h : Body single s b) : s.length ≤ b.length := by
  induction h with
  | stretch hw => exact hw.length
  | gap hw hg _ _ ih =>
      have hw := hw.length
      have hg := hg.length
      simp only [List.length_append]
      omega

-- From the opening quote to behind the closing one.
theorem quoted?_eq {c : Cursor} (h : Body single s b) (htail : tail.head? ≠ some (quote single))
    (hrest : c.rest = quote single :: (b ++ quote single :: tail)) :
    quoted? single (c.rest.length + 1) [] c.next = some ⟨s, c.skip (b.length + 2), false⟩ := by
  have hnext := next_inline hrest (show isLineEnd (quote single) = false by cases single <;> rfl)
  have hlength := h.length_le
  have hfuel : s.length < c.rest.length + 1 := by
    rw [hrest, List.length_cons, List.length_append]
    omega
  rw [quoted?_of_body h htail _ _ _ hfuel (by rw [hnext]) (by rw [hnext]; exact Nat.succ_pos _)]
  rfl

/-! ### Styles -/

theorem stops_escaped (hs : Stops (· = ' ') s) : Stops isGap (s.flatMap escaped ++ [quote false]) := by
  cases s with
  | nil => exact stops_cons rfl
  | cons a s =>
      have ha : a ≠ ' ' := by simpa using hs a rfl
      rw [List.flatMap_cons]
      rcases escaped_eq a with ⟨hgap, -, -, heq⟩ | heq <;> rw [heq]
      · exact stops_cons (hgap.resolve_right ha)
      · exact stops_cons rfl

theorem flatMap_blanks {write : Char → List Char} {g : List Char} (hwrite : write ' ' = [' '])
    (hg : ∀ x ∈ g, x = ' ') : g.flatMap write = g := by
  induction g with
  | nil => rfl
  | cons a g ih =>
      obtain ⟨ha, hg⟩ := List.forall_mem_cons.mp hg
      rw [List.flatMap_cons, ha, hwrite, ih hg, List.singleton_append]

-- In double quotes the gaps stand as they are.
theorem body_double (s : List Char) : Body false s (s.flatMap escaped) := by
  induction hlength : s.length using Nat.strong_induction_on generalizing s with
  | _ n ih =>
      obtain ⟨w, g, v, rfl, hw, hg, hnone, hv⟩ := exists_runs (· = ' ') s
      have hstretch := stretch_double fun x hx => by simpa using hw x hx
      by_cases hgne : g = []
      · rw [hgne, hnone hgne, List.append_nil, List.append_nil]
        exact .stretch hstretch
      · have hblanks : ∀ x ∈ g, x = ' ' := fun x hx => by simpa using hg x hx
        have hwritten : g.flatMap escaped = g := flatMap_blanks rfl hblanks
        have hpos := List.length_pos_iff.mpr hgne
        rw [List.flatMap_append, List.flatMap_append, hwritten]
        exact .gap hstretch (gap_blanks hgne hblanks) (stops_escaped hv)
          (ih v.length (by simp [← hlength]; omega) v rfl)

-- What may stand in single quotes: no breaks but separators, and no blanks beside them.
structure Single (s : List Char) : Prop where
  blanks : ∀ x ∈ s, isGap x → x = ' ' ∨ isSeparator x
  breaks : ∀ x ∈ s, isBreak x → isSeparator x
  before : ∀ p q x, s = p ++ ' ' :: x :: q → isSeparator x = false
  after : ∀ p q x, s = p ++ x :: ' ' :: q → isSeparator x = false

theorem Single.suffix {p u : List Char} (h : Single (p ++ u)) : Single u where
  blanks := fun x hx => h.blanks x (List.mem_append_right p hx)
  breaks := fun x hx => h.breaks x (List.mem_append_right p hx)
  before := fun q r x heq => h.before (p ++ q) r x (by rw [heq, List.append_assoc])
  after := fun q r x heq => h.after (p ++ q) r x (by rw [heq, List.append_assoc])

theorem anyNext_cons (p : Char → Char → Bool) (a : Char) (t : List Char) :
    anyNext p (a :: t) = (t.head?.any (p a) || anyNext p t) := by
  cases t <;> simp [anyNext]

theorem anyNext_eq_false {p : Char → Char → Bool} (h : anyNext p s = false) {before after : List Char} {a b : Char}
    (hs : s = before ++ a :: b :: after) : p a b = false := by
  subst hs
  induction before with
  | nil =>
      rw [List.nil_append, anyNext_cons] at h
      exact (Bool.or_eq_false_iff.mp h).1
  | cons x before ih =>
      rw [List.cons_append, anyNext_cons] at h
      exact ih (Bool.or_eq_false_iff.mp h).2

theorem isBreak_of_isSeparator {x : Char} (h : isSeparator x) : isBreak x := by
  simp only [isSeparator, Bool.or_eq_true, decide_eq_true_eq] at h
  rcases h with rfl | rfl <;> rfl

theorem single_of_singleAllowed {s : List Char} (hline : '\n' ∉ s) (h : singleAllowed s) : Single s := by
  simp only [singleAllowed, needsEscapes, Bool.not_eq_true', Bool.or_eq_false_iff] at h
  obtain ⟨hafter, hbefore, hprintable⟩ := h
  have hchar : ∀ x ∈ s, isPrintable x ∧ x ≠ '\n' := fun x hx =>
    ⟨by simpa using List.any_eq_false.mp hprintable x hx, fun heq => hline (heq ▸ hx)⟩
  refine ⟨fun x hx hgap => ?_, fun x hx hbreak => ?_, fun p q x hs => ?_, fun p q x hs => ?_⟩
  · simp only [isGap, isBlank, isLineEnd, Bool.or_eq_true, decide_eq_true_eq] at hgap
    rcases hgap with (rfl | rfl) | (rfl | rfl) | rfl
    · exact .inl rfl
    · exact absurd (hchar _ hx).1 (by decide)
    · exact absurd rfl (hchar _ hx).2
    · exact .inr rfl
    · exact .inr rfl
  · simp only [isBreak, Bool.or_eq_true, decide_eq_true_eq] at hbreak
    rcases hbreak with (((rfl | rfl) | rfl) | rfl) | rfl
    · exact absurd rfl (hchar _ hx).2
    · exact absurd (hchar _ hx).1 (by decide)
    · exact absurd (hchar _ hx).1 (by decide)
    · rfl
    · rfl
  · have hnext := anyNext_eq_false hbefore hs
    refine Bool.eq_false_iff.mpr fun hx => ?_
    simp [isBreak_of_isSeparator hx] at hnext
  · have hnext := anyNext_eq_false hafter hs
    refine Bool.eq_false_iff.mpr fun hx => ?_
    simp [isBreak_of_isSeparator hx] at hnext

-- A gap is all of blanks or all of separators.
theorem Single.uniform {g v : List Char} (hs : Single (g ++ v)) (hg : ∀ x ∈ g, isGap x) :
    (∀ x ∈ g, x = ' ') ∨ ∀ x ∈ g, isSeparator x := by
  induction g with
  | nil => simp
  | cons a g ih =>
      obtain ⟨ha, hg⟩ := List.forall_mem_cons.mp hg
      have ih := ih (Single.suffix (p := [a]) hs) hg
      cases g with
      | nil => simpa using hs.blanks a (by simp) ha
      | cons b g =>
          rcases hs.blanks a (by simp) ha with rfl | hsep
          · have hb := hs.before [] (g ++ v) b rfl
            refine .inl (List.forall_mem_cons.mpr ⟨rfl, ih.resolve_right fun h => ?_⟩)
            simp [h b List.mem_cons_self] at hb
          · refine .inr (List.forall_mem_cons.mpr ⟨hsep, ih.resolve_left fun h => ?_⟩)
            obtain rfl := h b List.mem_cons_self
            have ha := hs.after [] (g ++ v) a rfl
            simp [hsep] at ha

/-! ### Lines -/

variable {write : Char → List Char}

theorem indentLines_inline (hw : ∀ x ∈ w, isBreak x = false) :
    indentLines column write false (w ++ r) = w.flatMap write ++ indentLines column write false r := by
  induction w with
  | nil => rfl
  | cons a w ih =>
      obtain ⟨ha, hw⟩ := List.forall_mem_cons.mp hw
      simp [indentLines, ha, ih hw]

theorem indentLines_breaks {g : List Char} (hne : g ≠ []) (hg : ∀ x ∈ g, isBreak x) (fresh : Bool) :
    indentLines column write fresh (g ++ r) = g ++ indentLines column write true r := by
  induction g generalizing fresh with
  | nil => exact absurd rfl hne
  | cons a g ih =>
      obtain ⟨ha, hg⟩ := List.forall_mem_cons.mp hg
      rw [List.cons_append, indentLines, if_pos ha]
      cases g with
      | nil => rfl
      | cons b g =>
          rw [ih (List.cons_ne_nil b g) hg]
          rfl

theorem indentLines_fresh (hstops : Stops isBreak r) (hne : r ≠ []) :
    indentLines column write true r = indentation column ++ indentLines column write false r := by
  obtain ⟨a, r, rfl⟩ := List.exists_cons_of_ne_nil hne
  simp [indentLines, hstops a rfl]

theorem any_getLast?_eq_false {p : Char → Bool} (h : ∀ a ∈ s, p a = false) : s.getLast?.any p = false := by
  cases hlast : s.getLast? with
  | none => rfl
  | some a => exact h a (List.mem_of_getLast? hlast)

-- A text in single quotes, without the first of them, and the last.
def singleBody (column : Nat) (s : List Char) : List Char :=
  indentLines column doubled false s ++ if s.getLast?.any isBreak then indentation column else []

theorem singleBody_append {v : List Char} (hw : ∀ x ∈ w, isBreak x = false) :
    singleBody column (w ++ v) = w.flatMap doubled ++ singleBody column v := by
  rw [singleBody, singleBody, indentLines_inline hw, List.append_assoc, List.getLast?_append]
  cases v with
  | nil => simp [any_getLast?_eq_false hw]
  | cons a v => rw [List.getLast?_eq_some_getLast (List.cons_ne_nil a v), Option.some_or]

theorem singleBody_breaks {g v : List Char} (hne : g ≠ []) (hg : ∀ x ∈ g, isBreak x) (hstops : Stops isBreak v) :
    singleBody column (g ++ v) = g ++ (indentation column ++ singleBody column v) := by
  rw [singleBody, singleBody, indentLines_breaks hne hg]
  cases v with
  | nil =>
      have hlast : isBreak (g.getLast hne) := hg _ (List.getLast_mem hne)
      simp [List.getLast?_eq_some_getLast hne, hlast, indentLines]
  | cons a v =>
      rw [indentLines_fresh hstops (List.cons_ne_nil a v), List.getLast?_append,
        List.getLast?_eq_some_getLast (List.cons_ne_nil a v), Option.some_or]
      simp only [List.append_assoc]

theorem stops_singleBody (hs : Stops isGap s) (hbreaks : Stops isBreak s) :
    Stops isGap (singleBody column s ++ [quote true]) := by
  cases s with
  | nil => exact stops_cons rfl
  | cons a s =>
      have hbody : singleBody column (a :: s) = [a].flatMap doubled ++ singleBody column s :=
        singleBody_append (w := [a]) (List.forall_mem_singleton.mpr (hbreaks a rfl))
      rw [hbody, List.flatMap_singleton, doubled]
      split
      · exact stops_cons rfl
      · exact stops_cons (hs a rfl)

theorem body_single {s : List Char} (hs : Single s) (hcolumn : 0 < column ∨ ∀ x ∈ s, isSeparator x = false) :
    Body true s (singleBody column s) := by
  have hbreak {u : List Char} (hu : Single u) : ∀ x ∈ u, isGap x = false → isBreak x = false := by
    refine fun x hx hgap => Bool.eq_false_iff.mpr fun hbreak => Bool.eq_false_iff.mp hgap ?_
    exact Bool.or_eq_true_iff.mpr (.inr (isLineEnd_of_isSeparator (hu.breaks x hx hbreak)))
  induction hlength : s.length using Nat.strong_induction_on generalizing s with
  | _ n ih =>
      obtain ⟨w, g, v, rfl, hw, hg, hnone, hv⟩ := exists_runs isGap s
      have hwbreak : ∀ x ∈ w, isBreak x = false := fun x hx => hbreak hs x (List.mem_append_left _ hx) (hw x hx)
      have hgv : Single (g ++ v) := hs.suffix
      have hvs : Single v := hgv.suffix
      have hvbreak : Stops isBreak v := fun x hx => hbreak hvs x (List.mem_of_head? hx) (hv x hx)
      rw [singleBody_append hwbreak]
      by_cases hgne : g = []
      · rw [hgne, hnone hgne]
        simpa [singleBody, indentLines] using Body.stretch (stretch_single hw)
      · have hpos := List.length_pos_iff.mpr hgne
        have hrest := ih v.length (by simp [← hlength]; omega) hvs
          (hcolumn.imp_right fun h x hx => h x (by simp [hx])) rfl
        rcases hgv.uniform hg with hblanks | hseparators
        · have hgbreak : ∀ x ∈ g, isBreak x = false := fun x hx => by rw [hblanks x hx]; rfl
          rw [singleBody_append hgbreak, flatMap_blanks rfl hblanks]
          exact .gap (stretch_single hw) (gap_blanks hgne hblanks) (stops_singleBody hv hvbreak) hrest
        · have hpositive : 0 < column := by
            refine hcolumn.resolve_right fun h => ?_
            obtain ⟨x, g', rfl⟩ := List.exists_cons_of_ne_nil hgne
            have hx := h x (by simp)
            simp [hseparators x List.mem_cons_self] at hx
          rw [singleBody_breaks hgne (fun x hx => isBreak_of_isSeparator (hseparators x hx)) hvbreak,
            ← List.append_assoc g]
          exact .gap (stretch_single hw) (gap_separators hgne hseparators hpositive) (stops_singleBody hv hvbreak) hrest

end ScraperTimeline.Yaml
