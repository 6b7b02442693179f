import ScraperTimeline.Proofs.Yaml.Quoted
import Mathlib.Data.List.Basic

/-!
Literal blocks. Their lines start at one column, which is marked where it cannot be seen, and what becomes of the
breaks at the end is marked too.
-/
namespace ScraperTimeline.Yaml
open Text Cursor

variable {c : Cursor} {s g v w x y : List Char} {column n k fuel : Nat}

/-! ### Breaks -/

theorem length_upTo_blanks (h : c.rest = List.replicate n ' ' ++ y) : n ≤ (c.upTo (· = ' ')).length := by
  rw [upTo, h, List.takeWhile_append_of_pos (by simp), List.length_append, List.length_replicate]
  omega

theorem length_upTo_blanks_eq (h : c.rest = List.replicate n ' ' ++ y) (hy : Stops (· = ' ') y) :
    (c.upTo (· = ' ')).length = n := by
  rw [upTo_eq h (by simp) hy, List.length_replicate]

theorem skip_blanks (h : c.rest = List.replicate n ' ' ++ y) :
    c.skip n = ⟨y, c.index + n, c.line, c.column + n⟩ := by
  simpa using skip_inline h isLineEnd_of_mem_replicate

-- Where the lines start is known: empty lines are passed and the indentation after them, all of it or what is left
-- of it where the block ends.
theorem blockBreaks?_known (least : Nat) (hg : ∀ a ∈ g, isLineEnd a) (hy : Stops isLineEnd y) (hk : 0 < k)
    (hn : n = k ∨ n < k ∧ Stops isBlank y) (widest : Nat) (breaks : List Char) (c : Cursor)
    (hrest : c.rest = g ++ (List.replicate n ' ' ++ y)) (hcolumn : c.column = 0) (hfuel : g.length < fuel) :
    blockBreaks? least k fuel widest breaks c = some (k, breaks ++ g, c.skip (g.length + n)) := by
  induction g generalizing fuel widest breaks c with
  | nil =>
      obtain ⟨fuel, rfl⟩ := Nat.exists_eq_add_one_of_ne_zero (Nat.ne_of_gt hfuel)
      have hspaces : min (c.upTo (· = ' ')).length (k - c.column) = n := by
        rcases hn with rfl | ⟨hlt, hy⟩
        · have := length_upTo_blanks hrest
          omega
        · have := length_upTo_blanks_eq hrest (hy.mono (by simp +contextual [isBlank]))
          omega
      have htab : ¬ (n < k ∧ y.head? = some '\t') := by
        rintro ⟨hlt, hhead⟩
        exact absurd ((hn.resolve_left (Nat.ne_of_lt hlt)).2 _ hhead) (by decide)
      rw [blockBreaks?, if_neg (Nat.ne_of_gt hk), hspaces, skip_blanks hrest, List.length_nil, Nat.zero_add,
        skip_blanks hrest]
      simp only [hcolumn, Nat.zero_add, Nat.ne_of_gt hk, decide_false, Bool.false_or, Bool.and_eq_true,
        decide_eq_true_eq, if_neg htab, List.append_nil]
      cases y with
      | nil => rfl
      | cons a y =>
          dsimp only
          rw [hy a rfl, if_neg Bool.false_ne_true]
          rfl
  | cons a g ih =>
      obtain ⟨fuel, rfl⟩ := Nat.exists_eq_add_one_of_ne_zero (Nat.ne_of_gt (Nat.zero_lt_of_lt hfuel))
      obtain ⟨ha, hg⟩ := List.forall_mem_cons.mp hg
      have hblank : a ≠ ' ' ∧ a ≠ '\t' := by
        constructor <;> rintro rfl <;> exact absurd ha (by decide)
      have hspaces : (c.upTo (· = ' ')).length = 0 :=
        length_upTo_blanks_eq (n := 0) hrest (stops_cons (by simpa using hblank.1))
      have hnext := next_lineEnd hrest ha
      rw [blockBreaks?, if_neg (Nat.ne_of_gt hk), hspaces, Nat.zero_min, skip]
      rw [hrest, List.cons_append, List.head?_cons, if_neg (by simp [hblank.2])]
      dsimp only
      rw [if_pos ha, ih hg _ _ _ (by rw [hnext]; rfl) (by rw [hnext]) (Nat.lt_of_succ_lt_succ hfuel), List.append_assoc,
        List.length_cons, Nat.succ_add, skip]
      rfl

-- Where the lines start is seen from the first one.
theorem blockBreaks?_seen {least : Nat} (hrest : c.rest = List.replicate k ' ' ++ y) (hy : Stops isGap y)
    (hcolumn : c.column = 0) (hleast : least ≤ k) (hfuel : 0 < fuel) :
    blockBreaks? least 0 fuel 0 [] c = some (k, [], c.skip k) := by
  obtain ⟨fuel, rfl⟩ := Nat.exists_eq_add_one_of_ne_zero (Nat.ne_of_gt hfuel)
  have hspaces := length_upTo_blanks_eq hrest (hy.mono (by simp +contextual [isGap, isBlank]))
  have htab : y.head? ≠ some '\t' := fun hhead => absurd (hy _ hhead) (by decide)
  rw [blockBreaks?, if_pos rfl, hspaces, skip_blanks hrest]
  simp only [hcolumn, Nat.zero_add, decide_eq_false htab, Bool.and_false, if_neg Bool.false_ne_true, if_pos,
    Nat.max_eq_left hleast, Nat.zero_max]
  cases y with
  | nil => rfl
  | cons a y =>
      have ha : isLineEnd a = false := (Bool.or_eq_false_iff.mp (hy a rfl)).2
      simp [ha]

/-! ### Lines -/

-- The lines of a text as they stand in the block.
def blockText (k : Nat) (fresh : Bool) (s : List Char) : List Char := indentLines k (fun a => [a]) fresh s

theorem blockText_break {a : Char} (ha : isBreak a) (fresh : Bool) :
    blockText k fresh (s ++ [a]) = blockText k fresh s ++ [a] := by
  induction s generalizing fresh with
  | nil => simp [blockText, indentLines, ha]
  | cons b s ih =>
      simp only [blockText] at ih ⊢
      rw [List.cons_append, indentLines, indentLines]
      split <;> simp [ih]

theorem blockText_inline (hw : ∀ a ∈ w, isBreak a = false) :
    blockText k false (w ++ v) = w ++ blockText k false v := by
  rw [blockText, indentLines_inline hw, List.flatMap_singleton']
  rfl

-- The lines after the first, from where the block starts or goes on.
theorem blockLines?_line {b : Char} (fuel : Nat) (text lead before : List Char) (blank : Bool)
    (hw : ∀ a ∈ w, isLineEnd a = false) (hne : w ≠ []) (hb : isLineEnd b) (hg : ∀ a ∈ g, isLineEnd a)
    (hy : Stops isLineEnd y) (hk : 0 < k) (hn : n = k ∨ n < k ∧ Stops isBlank y)
    (hrest : c.rest = w ++ b :: g ++ (List.replicate n ' ' ++ y)) (hcolumn : c.column = k) :
    blockLines? false k (fuel + 1) text lead before blank c =
      blockLines? false k fuel (text ++ lead ++ before ++ w) [b] g (c.rest.head?.any isBlank)
        (c.skip (w ++ b :: g ++ List.replicate n ' ').length) := by
  have hbefore : c.rest = w ++ (b :: (g ++ (List.replicate n ' ' ++ y))) := by simpa using hrest
  have hstop : Stops (!isLineEnd ·) (b :: (g ++ (List.replicate n ' ' ++ y))) := stops_cons (by simpa using hb)
  have hinline : ∀ a ∈ w, (!isLineEnd a) := fun a ha => by simpa using hw a ha
  have hend := skip_inline hbefore hw
  have hnext := next_lineEnd (congrArg rest hend) hb
  have hne' : c.rest ≠ [] := by
    rw [hbefore]
    simp [hne]
  have hskip : c.skip (w ++ b :: g ++ List.replicate n ' ').length = (c.skip w.length).next.skip (g.length + n) := by
    rw [List.append_assoc, skip_length_append, List.cons_append, List.length_cons, skip, List.length_append,
      List.length_replicate]
  rw [hskip, blockLines?, if_pos (by simp [hcolumn, hne']), skipWhile_eq hbefore hinline hstop,
    upTo_eq hbefore hinline hstop]
  simp only [Bool.false_and, if_neg Bool.false_ne_true]
  rw [blockBreaks?_known 0 hg hy hk hn 0 [] _ (congrArg rest hnext) (congrArg column hnext)
    (by rw [hend]; simp; omega)]
  simp only [Option.bind_eq_bind, Option.bind_some, List.nil_append, hend, List.take_succ_cons, List.take_zero]

theorem blockText_breaks (hne : g ≠ []) (hg : ∀ a ∈ g, isBreak a) (fresh : Bool) :
    blockText k fresh (g ++ v) = g ++ blockText k true v := indentLines_breaks hne hg fresh

theorem blockText_fresh (hstops : Stops isBreak v) (hne : v ≠ []) :
    blockText k true v = List.replicate k ' ' ++ blockText k false v := indentLines_fresh hstops hne

theorem stops_blockText {p : Char → Bool} (hstops : Stops p v) (hbreak : Stops isBreak v) (hne : v ≠ [])
    (r : List Char) : Stops p (blockText k false v ++ r) := by
  obtain ⟨a, v, rfl⟩ := List.exists_cons_of_ne_nil hne
  rw [← List.singleton_append, blockText_inline (List.forall_mem_singleton.mpr (hbreak a rfl))]
  exact stops_cons (hstops a rfl)

theorem any_getLast?_append {p : Char → Bool} (s : List Char) (hne : g ≠ []) (h : ∀ a ∈ g, p a) :
    (s ++ g).getLast?.any p := by
  rw [List.getLast?_append_of_ne_nil _ hne, List.getLast?_eq_some_getLast hne, Option.any_some]
  exact h _ (List.getLast_mem hne)

theorem blockLines?_lastLine {b : Char} (fuel : Nat) (text lead before : List Char) (blank : Bool)
    (hw : ∀ a ∈ w, isLineEnd a = false) (hne : w ≠ []) (hb : isLineEnd b) (hg : ∀ a ∈ g, isLineEnd a) (hk : 0 < k)
    (hn : n < k) (hx : Stops isGap x) (hrest : c.rest = w ++ b :: g ++ (List.replicate n ' ' ++ x))
    (hcolumn : c.column = k) (hfuel : 0 < fuel) :
    blockLines? false k (fuel + 1) text lead before blank c =
      some (text ++ lead ++ before ++ w, [b], g, c.skip (w ++ b :: g ++ List.replicate n ' ').length) := by
  have hstop : Stops isBlank x := hx.mono (by simp +contextual [isGap])
  have hend : Stops isLineEnd x := hx.mono (by simp +contextual [isGap])
  have hended := any_getLast?_append w (List.cons_ne_nil b g) (List.forall_mem_cons.mpr ⟨hb, hg⟩)
  rw [blockLines?_line fuel text lead before blank hw hne hb hg hend hk (.inr ⟨hn, hstop⟩) hrest hcolumn]
  obtain ⟨fuel, rfl⟩ := Nat.exists_eq_add_one_of_ne_zero (Nat.ne_of_gt hfuel)
  rw [blockLines?, (skip_ended hended hrest).2.1, if_neg (by simp [Nat.ne_of_lt hn])]

-- From the first line to the end of the block, the breaks at whose end are kept apart.
theorem blockLines?_eq {u : List Char} (hbreaks : ∀ a ∈ u, isBreak a = isLineEnd a) (hstops : Stops isLineEnd u)
    (hlast : u.getLast?.any isLineEnd) (hk : 0 < k) (hn : n < k) (hx : Stops isGap x) (text lead before : List Char)
    (blank : Bool) (c : Cursor) (hrest : c.rest = blockText k false u ++ (List.replicate n ' ' ++ x))
    (hcolumn : c.column = k) (hfuel : u.length < fuel) : ∃ p b breaks,
      u = p ++ b :: breaks ∧ p ≠ [] ∧ p.getLast?.any isLineEnd = false ∧ isLineEnd b ∧
      (∀ a ∈ breaks, isLineEnd a) ∧
      blockLines? false k fuel text lead before blank c =
        some (text ++ lead ++ before ++ p, [b], breaks,
          c.skip (blockText k false u ++ List.replicate n ' ').length) := by
  induction hlength : u.length using Nat.strong_induction_on generalizing u fuel text lead before blank c with
  | _ m ih =>
      obtain ⟨fuel, rfl⟩ := Nat.exists_eq_add_one_of_ne_zero (Nat.ne_of_gt (Nat.zero_lt_of_lt hfuel))
      obtain ⟨w, g, v, rfl, hw, hg, hnone, hv⟩ := exists_runs isLineEnd u
      have hgne : g ≠ [] := by
        rintro rfl
        obtain rfl := hnone rfl
        obtain ⟨a, ha, hend⟩ := (Option.any_eq_true _ _).mp hlast
        simp [hw a (by simpa using List.mem_of_getLast? ha)] at hend
      have hwne : w ≠ [] := by
        rintro rfl
        obtain ⟨a, g, rfl⟩ := List.exists_cons_of_ne_nil hgne
        have ha := hstops a rfl
        simp [hg a List.mem_cons_self] at ha
      have hwb : ∀ a ∈ w, isBreak a = false := fun a ha => by rw [hbreaks a (by simp [ha]), hw a ha]
      have hgb : ∀ a ∈ g, isBreak a := fun a ha => by rw [hbreaks a (by simp [ha]), hg a ha]
      obtain ⟨b, g, rfl⟩ := List.exists_cons_of_ne_nil hgne
      obtain ⟨hb, hg⟩ := List.forall_mem_cons.mp hg
      simp only [List.length_append, List.length_cons] at hfuel hlength
      rw [blockText_inline hwb, blockText_breaks hgne hgb] at hrest ⊢
      by_cases hvne : v = []
      · -- The last line.
        obtain rfl := hvne
        have hrest : c.rest = w ++ b :: g ++ (List.replicate n ' ' ++ x) := by
          simpa [blockText, indentLines] using hrest
        refine ⟨w, b, g, by simp, hwne, any_getLast?_eq_false hw, hb, hg, ?_⟩
        rw [blockLines?_lastLine fuel text lead before blank hw hwne hb hg hk hn hx hrest hcolumn (by omega)]
        simp [blockText, indentLines]
      · have hvbreak : Stops isBreak v := fun a ha => by rw [hbreaks a (by simp [List.mem_of_head? ha]), hv a ha]
        rw [blockText_fresh hvbreak hvne] at hrest ⊢
        have hafter := stops_blockText (k := k) hv hvbreak hvne (List.replicate n ' ' ++ x)
        have hrest : c.rest =
            w ++ b :: g ++ (List.replicate k ' ' ++ (blockText k false v ++ (List.replicate n ' ' ++ x))) := by
          simpa using hrest
        obtain ⟨hafter', hcolumn', -⟩ :=
          skip_ended (any_getLast?_append w hgne (List.forall_mem_cons.mpr ⟨hb, hg⟩)) hrest
        have hvlast : v.getLast?.any isLineEnd := by
          rw [← List.append_assoc, List.getLast?_append_of_ne_nil _ hvne] at hlast
          exact hlast
        obtain ⟨p, b', breaks, rfl, hpne, hp, hb', hbreaks', hlines⟩ := ih v.length (by omega)
          (fun a ha => hbreaks a (by simp [ha])) hv hvlast (text ++ lead ++ before ++ w) [b] g
          (c.rest.head?.any isBlank) _ hafter' hcolumn' (show v.length < fuel by omega) rfl
        refine ⟨w ++ (b :: g ++ p), b', breaks, by simp, by simp, ?_, hb', hbreaks', ?_⟩
        · rw [← List.append_assoc, List.getLast?_append_of_ne_nil _ hpne]
          exact hp
        rw [blockLines?_line fuel text lead before blank hw hwne hb hg hafter hk (.inl rfl) hrest hcolumn, hlines,
          ← skip_length_append]
        simp only [List.append_assoc, List.cons_append, List.nil_append]

/-! ### Ends -/

-- A text whose last line is ended.
def ended (s : List Char) : List Char := if s.getLast?.any isBreak then s else s ++ ['\n']

-- What the marks of a text say of the breaks at its end.
def chompingOf (s : List Char) : Chomping :=
  match s.reverse with
  | [] => .strip
  | [last] => if isBreak last then .keep else .strip
  | last :: before :: _ => if !isBreak last then .strip else if isBreak before then .keep else .clip

def hintOf (s : List Char) : Option Nat := if s.head?.any (fun c => c = ' ' || isBreak c) then some 2 else none

def chompingMark : Chomping → List Char
  | .clip => []
  | .strip => ['-']
  | .keep => ['+']

theorem literalMarks_eq (s : List Char) :
    literalMarks s = (if (hintOf s).isSome then ['2'] else []) ++ chompingMark (chompingOf s) := by
  rw [literalMarks, hintOf, chompingOf]
  congr 1
  · split <;> rfl
  · rcases s.reverse with _ | ⟨last, _ | ⟨before, _⟩⟩
    · rfl
    · dsimp only
      split <;> rfl
    · dsimp only
      split
      · rfl
      · split <;> rfl

theorem blockMarks?_literalMarks (s r : List Char) :
    blockMarks? (literalMarks s ++ '\n' :: r) = some (chompingOf s, hintOf s, '\n' :: r) := by
  have hhint : hintOf s = some 2 ∨ hintOf s = none := by
    rw [hintOf]
    split
    · exact .inl rfl
    · exact .inr rfl
  rw [literalMarks_eq]
  rcases hhint with h | h <;> rw [h] <;> cases chompingOf s <;> rfl

def chomped (chomping : Chomping) (lead breaks : List Char) : List Char :=
  match chomping with
  | .strip => []
  | .clip => lead
  | .keep => lead ++ breaks

theorem chompingOf_inline (h : s.getLast?.any isBreak = false) : chompingOf s = .strip := by
  rcases List.eq_nil_or_concat' s with rfl | ⟨t, a, rfl⟩
  · rfl
  · have ha : isBreak a = false := by simpa using h
    rcases List.eq_nil_or_concat' t with rfl | ⟨t, b, rfl⟩ <;> simp [chompingOf, ha]

theorem chompingOf_clip {a b : Char} (ha : isBreak a = false) (hb : isBreak b) : chompingOf (s ++ [a, b]) = .clip := by
  simp [chompingOf, ha, hb]

theorem chompingOf_keep {a b : Char} (ha : isBreak a) (hb : isBreak b) : chompingOf (s ++ [a, b]) = .keep := by
  simp [chompingOf, ha, hb]

-- The breaks at the end come out as they were.
theorem append_chomped {p breaks : List Char} {b : Char} (h : ended s = p ++ b :: breaks)
    (hp : p.getLast?.any isBreak = false) (hne : p ≠ []) (hb : isBreak b) (hbreaks : ∀ a ∈ breaks, isBreak a) :
    p ++ chomped (chompingOf s) [b] breaks = s := by
  rw [ended] at h
  obtain ⟨p, a, rfl⟩ := (List.eq_nil_or_concat' p).resolve_left hne
  have ha : isBreak a = false := by simpa using hp
  split at h
  next =>
    subst h
    rcases List.eq_nil_or_concat' breaks with rfl | ⟨before, last, rfl⟩
    · have hclip : chompingOf (p ++ [a] ++ [b]) = .clip := by simpa using chompingOf_clip (s := p) ha hb
      rw [hclip]
      simp [chomped]
    · have hlast := hbreaks last (by simp)
      have hkeep : chompingOf (p ++ [a] ++ b :: (before ++ [last])) = .keep := by
        rcases List.eq_nil_or_concat' before with rfl | ⟨before, second, rfl⟩
        · simpa using chompingOf_keep (s := p ++ [a]) hb hlast
        · simpa using chompingOf_keep (s := p ++ [a] ++ b :: before) (hbreaks second (by simp)) hlast
      rw [hkeep]
      simp [chomped]
  next hinline =>
    have hinline := Bool.eq_false_iff.mpr hinline
    rw [chompingOf_inline hinline, chomped, List.append_nil]
    rcases List.eq_nil_or_concat' breaks with rfl | ⟨before, last, rfl⟩
    · exact (List.append_inj_left' h rfl).symm
    · have hends : s ++ ['\n'] = (p ++ [a] ++ b :: before) ++ [last] := by simpa using h
      have hs := (List.append_inj' hends rfl).1
      have hbreak : s.getLast?.any isBreak := by
        rw [hs]
        exact any_getLast?_append _ (List.cons_ne_nil _ _)
          (List.forall_mem_cons.mpr ⟨hb, fun x hx => hbreaks x (List.mem_append_left _ hx)⟩)
      simp [hinline] at hbreak

theorem chompingOf_breaks (hne : s ≠ []) (h : ∀ a ∈ s, isBreak a) : chompingOf s = .keep := by
  have hreverse : ∀ a ∈ s.reverse, isBreak a := fun a ha => h a (List.mem_reverse.mp ha)
  rw [chompingOf]
  split
  next heq => exact absurd (List.reverse_eq_nil_iff.mp heq) hne
  next last heq =>
    rw [heq] at hreverse
    simp [hreverse last]
  next last before _ heq =>
    rw [heq] at hreverse
    simp [hreverse last, hreverse before]

/-! ### Blocks -/

theorem literal_eq (k : Nat) (s : List Char) :
    literal k s = '|' :: (literalMarks s ++ '\n' :: blockText k true (ended s)) := by
  rw [literal, ended]
  split
  · simp [blockText]
  · rw [blockText_break rfl]
    simp [blockText]

theorem hintOf_cases (h : ended s = g ++ v) (hne : s ≠ []) (hg : ∀ a ∈ g, isBreak a) (hv : Stops isBreak v) :
    hintOf s = some 2 ∨ hintOf s = none ∧ g = [] ∧ v ≠ [] ∧ Stops (· = ' ') v := by
  obtain ⟨a, t, rfl⟩ := List.exists_cons_of_ne_nil hne
  obtain ⟨t', hended⟩ : ∃ t', ended (a :: t) = a :: t' := by
    rw [ended]
    split
    · exact ⟨t, rfl⟩
    · exact ⟨t ++ ['\n'], rfl⟩
  rw [hended] at h
  cases g with
  | cons b g =>
      obtain ⟨rfl, -⟩ := List.cons_eq_cons.mp h
      simp [hintOf, hg a List.mem_cons_self]
  | nil =>
      obtain rfl : a :: t' = v := h
      have ha : isBreak a = false := hv a rfl
      by_cases hblank : a = ' '
      · simp [hintOf, hblank]
      · exact .inr ⟨by simp [hintOf, hblank, ha], rfl, List.cons_ne_nil _ _, stops_cons (by simpa using hblank)⟩

-- Where the lines start, or zero where that is not known.
def startOf (indent : Int) : Option Nat → Nat
  | some n => indent.toNat + n
  | none => 0

theorem blockBreaks?_hint {least : Nat} {indent : Int} (hk : k = indent.toNat + 2) (hleast : least ≤ k)
    (hg : ∀ a ∈ g, isLineEnd a) (hy : Stops isLineEnd y) (hn : n = k ∨ n < k ∧ Stops isBlank y)
    (hhint : hintOf s = some 2 ∨ hintOf s = none ∧ g = [] ∧ n = k ∧ Stops isGap y)
    (hrest : c.rest = g ++ (List.replicate n ' ' ++ y)) (hcolumn : c.column = 0) :
    blockBreaks? least (startOf indent (hintOf s)) (c.rest.length + 1) 0 [] c =
      some (k, g, c.skip (g.length + n)) := by
  rcases hhint with hhint | ⟨hhint, rfl, rfl, hgap⟩ <;> rw [hhint, startOf]
  · have hfuel : g.length < c.rest.length + 1 := by
      rw [hrest, List.length_append]
      omega
    rw [← hk, blockBreaks?_known least hg hy (by omega) hn 0 [] c hrest hcolumn hfuel, List.nil_append]
  · rw [blockBreaks?_seen hrest hgap hcolumn hleast (Nat.succ_pos _), List.length_nil, Nat.zero_add]

theorem isBreak_eq_isLineEnd {a : Char} (h : isPrintable a) : isBreak a = isLineEnd a := by
  have hcarriage : a ≠ '\r' := by
    rintro rfl
    exact absurd h (by decide)
  have hnext : a ≠ '\u0085' := by
    rintro rfl
    exact absurd h (by decide)
  simp [isBreak, isLineEnd, hcarriage, hnext]

theorem isPrintable_ended (hs : literalAllowed s) : ∀ a ∈ ended s, isPrintable a := by
  simp only [literalAllowed, needsEscapes, Bool.not_eq_true', Bool.or_eq_false_iff, List.any_eq_false] at hs
  have hprintable : ∀ a ∈ s, isPrintable a := fun a ha => by simpa using hs.2.2 a ha
  rw [ended]
  split
  · exact hprintable
  · intro a ha
    rcases List.mem_append.mp ha with ha | ha
    · exact hprintable a ha
    · rw [List.mem_singleton.mp ha]
      decide

theorem subset_ended (s : List Char) : s ⊆ ended s := by
  rw [ended]
  split
  · exact List.Subset.refl s
  · exact List.subset_append_left s _

theorem isBreak_getLast?_ended (s : List Char) : (ended s).getLast?.any isBreak := by
  rw [ended]
  split
  · assumption
  · simp [isBreak]

theorem length_blockText (fresh : Bool) (s : List Char) : s.length ≤ (blockText k fresh s).length := by
  induction s generalizing fresh with
  | nil => exact Nat.zero_le _
  | cons a s ih =>
      rw [blockText, indentLines]
      split
      · exact Nat.succ_le_succ (ih true)
      · have := ih false
        simp only [blockText, List.length_append, List.length_cons, List.length_nil] at this ⊢
        omega

theorem isLineEnd_getLast?_ended (hs : literalAllowed s) : (ended s).getLast?.any isLineEnd := by
  obtain ⟨a, ha, hbreak⟩ := (Option.any_eq_true _ _).mp (isBreak_getLast?_ended s)
  rw [ha, Option.any_some, ← isBreak_eq_isLineEnd (isPrintable_ended hs a (List.mem_of_getLast? ha)), hbreak]

theorem isLineEnd_getLast?_literal (hs : literalAllowed s) : (literal k s).getLast?.any isLineEnd := by
  obtain ⟨a, ha, hend⟩ := (Option.any_eq_true _ _).mp (isLineEnd_getLast?_ended hs)
  obtain ⟨t, heq⟩ := List.getLast?_eq_some_iff.mp ha
  have hbreak : isBreak a := by
    rw [isBreak_eq_isLineEnd (isPrintable_ended hs a (List.mem_of_getLast? ha)), hend]
  have hsplit : literal k s = '|' :: (literalMarks s ++ '\n' :: blockText k true t) ++ [a] := by
    rw [literal_eq, heq, blockText_break hbreak]
    simp
  rw [hsplit]
  exact any_getLast?_append _ (List.cons_ne_nil _ _) (List.forall_mem_singleton.mpr hend)

-- What is read after the line of the bar.
def blockBody? (indent : Int) (chomping : Chomping) (hint : Option Nat) (c : Cursor) : Option Scanned := do
  let (k, breaks, c) ← blockBreaks? (max (indent + 1).toNat 1) (startOf indent hint) (c.rest.length + 1) 0 [] c
  let (text, lead, breaks, c) ← blockLines? false k (c.rest.length + 1) [] [] breaks false c
  some ⟨text ++ chomped chomping lead breaks, c, true⟩

-- The marks and the end of their line are passed.
theorem blockScalar?_marks {r : List Char} (indent : Int) (hrest : c.rest = '|' :: (literalMarks s ++ '\n' :: r)) :
    ∃ d : Cursor, d = c.skip ('|' :: (literalMarks s ++ ['\n'])).length ∧ d.rest = r ∧ d.column = 0 ∧
      blockScalar? false indent c.next = blockBody? indent (chompingOf s) (hintOf s) d := by
  have hnext := (next_eq hrest).1
  have hafter := rest_skip hnext
  have hend := next_lineEnd hafter rfl
  refine ⟨(c.next.skip (literalMarks s).length).next, ?_, by rw [hend], by rw [hend], ?_⟩
  · rw [List.length_cons, skip, skip_length_append]
    rfl
  · have hblank : Stops isBlank (c.next.skip (literalMarks s).length).rest := hafter ▸ stops_cons rfl
    rw [blockScalar?, hnext, blockMarks?_literalMarks]
    simp only [Option.bind_eq_bind, Option.bind_some, moveTo_eq hnext, skipWhile_eq_self hblank, atLineEnd]
    rw [hafter, List.head?_cons, if_neg (show ¬ some '\n' = some '#' by decide), if_neg (by simp [hafter, isLineEnd])]
    rfl

theorem column_skip_breaks (hg : ∀ a ∈ g, isLineEnd a) (hcolumn : c.column = 0)
    (hrest : c.rest = g ++ (List.replicate n ' ' ++ y)) : (c.skip (g.length + n)).column = n := by
  cases g with
  | nil =>
      rw [List.length_nil, Nat.zero_add, skip_blanks hrest]
      exact (congrArg (· + n) hcolumn).trans (Nat.zero_add n)
  | cons a g =>
      have hends := (skip_ended (any_getLast?_append [] (List.cons_ne_nil a g) hg) hrest).2.1
      rwa [List.nil_append, List.length_append, List.length_replicate] at hends

theorem blockBody?_breaks {indent : Int} (hne : s ≠ []) (hbreak : ∀ a ∈ s, isBreak a) (hends : ∀ a ∈ s, isLineEnd a)
    (hk : k = indent.toNat + 2) (hn : n < k) (hx : Stops isGap x) (hcolumn : c.column = 0)
    (hrest : c.rest = s ++ (List.replicate n ' ' ++ x)) :
    blockBody? indent (chompingOf s) (hintOf s) c = some ⟨s, c.skip (s ++ List.replicate n ' ').length, true⟩ := by
  have hhint : hintOf s = some 2 := by
    obtain ⟨a, t, rfl⟩ := List.exists_cons_of_ne_nil hne
    simp [hintOf, hbreak a List.mem_cons_self]
  have hend := hx.mono (q := isLineEnd) (by simp +contextual [isGap])
  have hblank := hx.mono (q := isBlank) (by simp +contextual [isGap])
  have hcolumn' := column_skip_breaks hends hcolumn hrest
  rw [blockBody?, blockBreaks?_hint hk (by omega) hends hend (.inr ⟨hn, hblank⟩) (.inl hhint) hrest hcolumn]
  simp only [Option.bind_eq_bind, Option.bind_some]
  rw [blockLines?, hcolumn', if_neg (by simp [Nat.ne_of_lt hn])]
  simp [chompingOf_breaks hne hbreak, chomped]

theorem blockBody?_lines {indent : Int} (hs : s ≠ []) (hsplit : ended s = g ++ v) (hne : v ≠ [])
    (hprintable : ∀ a ∈ ended s, isPrintable a) (hlast : (ended s).getLast?.any isLineEnd)
    (hg : ∀ a ∈ g, isLineEnd a) (hv : Stops isLineEnd v)
    (hk : k = indent.toNat + 2) (hn : n < k) (hx : Stops isGap x) (hcolumn : c.column = 0)
    (hrest : c.rest = g ++ (List.replicate k ' ' ++ (blockText k false v ++ (List.replicate n ' ' ++ x)))) :
    blockBody? indent (chompingOf s) (hintOf s) c =
      some ⟨s, c.skip (g ++ (List.replicate k ' ' ++ blockText k false v) ++ List.replicate n ' ').length, true⟩ := by
  rw [hsplit] at hprintable
  have hbreaks : ∀ a ∈ g ++ v, isBreak a = isLineEnd a := fun a ha => isBreak_eq_isLineEnd (hprintable a ha)
  have hgb : ∀ a ∈ g, isBreak a := fun a ha => by rw [hbreaks a (List.mem_append_left v ha), hg a ha]
  have hvb : Stops isBreak v := fun a ha => by rw [hbreaks a (List.mem_append_right g (List.mem_of_head? ha)), hv a ha]
  have hfirst : hintOf s = some 2 ∨ hintOf s = none ∧ g = [] ∧ k = k ∧
      Stops isGap (blockText k false v ++ (List.replicate n ' ' ++ x)) := by
    refine (hintOf_cases hsplit hs hgb hvb).imp_right fun ⟨hhint, hnil, _, hblank⟩ => ⟨hhint, hnil, rfl, ?_⟩
    refine stops_blockText (fun a ha => ?_) hvb hne _
    have htab : a ≠ '\t' := by
      rintro rfl
      exact absurd (hprintable _ (List.mem_append_right g (List.mem_of_head? ha))) (by decide)
    have hspace : a ≠ ' ' := by simpa using hblank a ha
    simp [isGap, isBlank, htab, hspace, hv a ha]
  have hafter := stops_blockText (k := k) hv hvb hne (List.replicate n ' ' ++ x)
  have hbefore : c.rest = (g ++ List.replicate k ' ') ++ (blockText k false v ++ (List.replicate n ' ' ++ x)) := by
    simpa using hrest
  have hstart : (c.skip (g.length + k)).rest = blockText k false v ++ (List.replicate n ' ' ++ x) := by
    simpa using rest_skip hbefore
  have hend : v.getLast?.any isLineEnd := by rwa [hsplit, List.getLast?_append_of_ne_nil _ hne] at hlast
  have hfuel : v.length < (c.skip (g.length + k)).rest.length + 1 := by
    have := length_blockText (k := k) false v
    rw [hstart, List.length_append]
    omega
  obtain ⟨p, b, breaks, rfl, hpne, hp, hb, hmore, hlines⟩ := blockLines?_eq
    (fun a ha => hbreaks a (List.mem_append_right g ha)) hv hend (by omega) hn hx [] [] g false _ hstart
    (column_skip_breaks hg hcolumn hrest) hfuel
  have hwhole : (g ++ p) ++ chomped (chompingOf s) [b] breaks = s := by
    refine append_chomped (by rw [hsplit, List.append_assoc]) ?_ (by simp [hpne]) ?_ fun a ha => ?_
    · rw [List.getLast?_append_of_ne_nil _ hpne]
      cases hlast : p.getLast? with
      | none => rfl
      | some a =>
          rw [hlast, Option.any_some] at hp
          rw [Option.any_some, hbreaks a (by simp [List.mem_of_getLast? hlast]), hp]
    · rw [hbreaks b (by simp), hb]
    · rw [hbreaks a (by simp [ha]), hmore a ha]
  rw [blockBody?, blockBreaks?_hint hk (by omega) hg hafter (.inl rfl) hfirst hrest hcolumn]
  simp only [Option.bind_eq_bind, Option.bind_some]
  rw [hlines, Option.bind_some]
  simp only [List.nil_append, hwhole, ← skip_add]
  simp [Nat.add_assoc]

-- A text with several lines is read back from its block, up to the token that follows.
theorem blockScalar?_eq {indent : Int} (hs : literalAllowed s) (hline : '\n' ∈ s) (hk : k = indent.toNat + 2)
    (hbelow : Below n x indent) (hrest : c.rest = literal k s ++ (List.replicate n ' ' ++ x)) :
    blockScalar? false indent c.next = some ⟨s, c.skip (literal k s ++ List.replicate n ' ').length, true⟩ := by
  have hne : s ≠ [] := List.ne_nil_of_mem hline
  have hn : n < k := by rcases hbelow with ⟨-, rfl⟩ | ⟨-, hle⟩ <;> omega
  have hprintable : ∀ a ∈ ended s, isPrintable a := isPrintable_ended hs
  have hlast := isLineEnd_getLast?_ended hs
  obtain ⟨g, v, hsplit, hg, hv⟩ := exists_span isLineEnd (ended s)
  have hfirst : blockText k true (g ++ v) = g ++ blockText k true v := by
    cases g with
    | nil => rfl
    | cons a g =>
        refine blockText_breaks (List.cons_ne_nil a g) (fun b hb => ?_) true
        rw [isBreak_eq_isLineEnd (hprintable b (hsplit ▸ List.mem_append_left v hb)), hg b hb]
  rw [literal_eq, hsplit, hfirst] at hrest ⊢
  obtain ⟨d, rfl, hd, hcolumn, heq⟩ := blockScalar?_marks (s := s) indent (c := c)
    (r := g ++ blockText k true v ++ (List.replicate n ' ' ++ x)) (by simpa using hrest)
  rw [heq]
  have hpassed : '|' :: (literalMarks s ++ '\n' :: (g ++ blockText k true v)) ++ List.replicate n ' ' =
      '|' :: (literalMarks s ++ ['\n']) ++ (g ++ blockText k true v ++ List.replicate n ' ') := by simp
  rw [hpassed, skip_length_append]
  by_cases hvne : v = []
  · -- Nothing but breaks.
    obtain rfl := hvne
    rw [List.append_nil] at hsplit
    have hends : ∀ a ∈ s, isBreak a ∧ isLineEnd a := fun a ha => by
      have hmem := subset_ended s ha
      rw [isBreak_eq_isLineEnd (hprintable a hmem), hg a (hsplit ▸ hmem)]
      exact ⟨rfl, rfl⟩
    obtain rfl : s = g := by
      rw [← hsplit, ended, if_pos]
      exact any_getLast?_append [] hne fun a ha => (hends a ha).1
    have hempty : blockText k true [] = [] := rfl
    rw [hempty, List.append_nil] at hd ⊢
    exact blockBody?_breaks hne (fun a ha => (hends a ha).1) hg hk hn hbelow.stops hcolumn hd
  · have hvb : Stops isBreak v := fun a ha => by
      rw [isBreak_eq_isLineEnd (hprintable a (hsplit ▸ List.mem_append_right g (List.mem_of_head? ha))), hv a ha]
    rw [blockText_fresh hvb hvne] at hd ⊢
    exact blockBody?_lines hne hsplit hvne hprintable hlast hg hv hk hn hbelow.stops hcolumn (by simpa using hd)

end ScraperTimeline.Yaml
