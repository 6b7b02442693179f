import ScraperTimeline.Proofs.Yaml.Plain

/-!
Scanning from token to token. Between two tokens gaps are passed, keys that have become too long are given up, and
blocks are closed that the next token is no longer inside of.
-/
namespace ScraperTimeline.Yaml
open Cursor

variable {c : Cursor} {r x : List Char} {column n fuel : Nat}

/-! ### Blocks -/

-- What has been scanned, and the columns of the blocks around the place. The tokens are kept last first.
structure Blocks where
  tokens : List Token
  indent : Int
  outer : List Int

namespace Blocks

variable {σ : Blocks} {t : Token}

def add (ts : List Token) (σ : Blocks) : Blocks := { σ with tokens := ts.reverse ++ σ.tokens }

-- Opens a block at a column, unless the column is that of the block around it.
def openAt (column : Nat) (t : Token) (σ : Blocks) : Blocks :=
  if (column : Int) ≤ σ.indent then σ else ⟨t :: σ.tokens, column, σ.indent :: σ.outer⟩

def close (column : Int) (σ : Blocks) : Blocks := go σ.tokens σ.indent σ.outer
where
  go (tokens : List Token) (indent : Int) : List Int → Blocks
    | [] => ⟨tokens, indent, []⟩
    | outer :: rest => if column < indent then go (.blockEnd :: tokens) outer rest else ⟨tokens, indent, outer :: rest⟩

theorem add_add (s t : List Token) (σ : Blocks) : (σ.add s).add t = σ.add (s ++ t) := by simp [add]

@[simp] theorem indent_add (ts : List Token) (σ : Blocks) : (σ.add ts).indent = σ.indent := rfl

theorem openAt_of_le (h : (column : Int) ≤ σ.indent) : σ.openAt column t = σ := if_pos h

theorem openAt_of_lt (h : σ.indent < column) :
    σ.openAt column t = ⟨t :: σ.tokens, column, σ.indent :: σ.outer⟩ := if_neg (by omega)

theorem indent_openAt (h : σ.indent ≤ column) : (σ.openAt column t).indent = column := by
  rw [openAt]
  split
  · omega
  · rfl

theorem close_of_le {column : Int} (h : σ.indent ≤ column) : σ.close column = σ := by
  obtain ⟨tokens, indent, outer⟩ := σ
  cases outer with
  | nil => rfl
  | cons outer rest => exact if_neg (by simpa using h)

-- A block that was opened is closed before those around it.
theorem close_openAt {m : Int} (hopen : σ.indent < column) (hclose : m < column) (ts : List Token) :
    ((σ.openAt column t).add ts).close m = (σ.add (t :: ts ++ [.blockEnd])).close m := by
  rw [openAt_of_lt hopen]
  simp [close, close.go, add, hclose]

theorem close_close {m k : Int} (h : m ≤ k) (σ : Blocks) : (σ.close k).close m = σ.close m := by
  obtain ⟨tokens, indent, outer⟩ := σ
  show ((close.go k tokens indent outer)).close m = close.go m tokens indent outer
  induction outer generalizing tokens indent with
  | nil => rfl
  | cons outer rest ih =>
      rw [close.go]
      split
      · rw [ih, close.go, if_pos (by omega)]
      · rfl

end Blocks

variable {σ : Blocks} {k : Option KeyStart} {allowed : Bool} {ts : List Token}

-- The state outside flow collections.
def scanning (k : Option KeyStart) (allowed : Bool) (c : Cursor) (σ : Blocks) : Scan :=
  { cursor := c, tokens := σ.tokens, keys := [k], keyAllowed := allowed, indent := σ.indent, outerIndents := σ.outer }

-- The state before a token that no key can have started before.
abbrev ready (allowed : Bool) (c : Cursor) (σ : Blocks) : Scan := scanning none allowed c σ

@[simp] theorem cursor_scanning : (scanning k allowed c σ).cursor = c := rfl

@[simp] theorem tokens_scanning : (scanning k allowed c σ).tokens = σ.tokens := rfl

@[simp] theorem keys_scanning : (scanning k allowed c σ).keys = [k] := rfl

@[simp] theorem keyAllowed_scanning : (scanning k allowed c σ).keyAllowed = allowed := rfl

@[simp] theorem indent_scanning : (scanning k allowed c σ).indent = σ.indent := rfl

@[simp] theorem inFlow_scanning : (scanning k allowed c σ).inFlow = false := rfl

theorem closeBlocks_scanning (column : Int) :
    (scanning k allowed c σ).closeBlocks column = scanning k allowed c (σ.close column) := by
  obtain ⟨tokens, indent, outer⟩ := σ
  show Scan.closeBlocks.go column outer (scanning k allowed c ⟨tokens, indent, outer⟩) =
    scanning k allowed c (Blocks.close.go column tokens indent outer)
  induction outer generalizing tokens indent with
  | nil => rfl
  | cons outer rest ih =>
      rw [Scan.closeBlocks.go, Blocks.close.go, indent_scanning]
      split
      · exact ih (.blockEnd :: tokens) outer
      · rfl

/-! ### Gaps -/

-- A place where nothing is left to pass before a token or the end.
def AtToken (x : List Char) : Prop := x = [] ∨ ∃ a r, x = a :: r ∧ StartsToken a

theorem AtToken.stops (h : AtToken x) : Stops isGap x := by
  rcases h with rfl | ⟨a, r, rfl, ha⟩
  · exact stops_nil
  · exact stops_cons ha.1

theorem Below.atToken {indent : Int} (h : Below n x indent) : AtToken x :=
  h.imp (fun h => h.1) fun ⟨⟨a, r, heq, ha⟩, _⟩ => ⟨a, r, heq, ha⟩

theorem AtToken.head?_ne (h : AtToken x) : x.head? ≠ some '#' ∧ x.head? ≠ some '\ufeff' := by
  rcases h with rfl | ⟨a, r, rfl, -, hhash, hmark⟩
  · simp
  · simp [hhash, hmark]

theorem toToken_blanks {s : Scan} (fuel : Nat) (hx : AtToken x) (hrest : s.cursor.rest = List.replicate n ' ' ++ x) :
    s.toToken (fuel + 1) = { s with cursor := s.cursor.skip n } := by
  have hmark : ¬ (decide (s.cursor.index = 0) && decide (s.cursor.rest.head? = some '\ufeff')) := by
    cases n with
    | zero =>
        rw [List.replicate_zero, List.nil_append] at hrest
        simp [hrest, hx.head?_ne.2]
    | succ n => simp [hrest, List.replicate_succ]
  have hskip :
      s.cursor.skipWhile (fun x => x = ' ' || ((s.inFlow || !s.keyAllowed) && x = '\t')) = s.cursor.skip n := by
    simpa using skipWhile_eq hrest (by simp) (hx.stops.mono (by simp +contextual [isGap, isBlank]))
  have hafter : (s.cursor.skip n).rest = x := by simpa using rest_skip hrest
  have hinline : x.head?.any isLineEnd = false := by
    cases hhead : x.head? with
    | none => rfl
    | some a => exact (Bool.or_eq_false_iff.mp (hx.stops a hhead)).2
  rw [Scan.toToken]
  simp only [if_neg hmark, hskip, hafter, if_neg hx.head?_ne.1, hinline, if_neg Bool.false_ne_true]

theorem toToken_line {s : Scan} (fuel : Nat) (hx : AtToken x)
    (hrest : s.cursor.rest = '\n' :: List.replicate n ' ' ++ x) :
    s.toToken (fuel + 2) =
      { s with cursor := s.cursor.skip (n + 1), keyAllowed := s.keyAllowed || !s.inFlow } := by
  have hmark : ¬ (decide (s.cursor.index = 0) && decide (s.cursor.rest.head? = some '\ufeff')) := by simp [hrest]
  have hskip : s.cursor.skipWhile (fun x => x = ' ' || ((s.inFlow || !s.keyAllowed) && x = '\t')) = s.cursor :=
    skipWhile_eq_self (hrest ▸ stops_cons (by simp))
  have hnext : s.cursor.next.rest = List.replicate n ' ' ++ x := (next_eq hrest).1
  have hhash : s.cursor.rest.head? ≠ some '#' := by simp [hrest]
  have hend : s.cursor.rest.head?.any isLineEnd = true := by simp [hrest, isLineEnd]
  rw [Scan.toToken]
  simp only [if_neg hmark, hskip, if_neg hhash, if_pos hend]
  rw [toToken_blanks _ hx hnext]
  rfl

/-! ### Between tokens -/

-- What is done between the end of a token and the start of the next one.
def settle? (s : Scan) : Option Scan :=
  ((s.toToken (s.cursor.rest.length + 1)).dropStaleKeys?).map fun s => s.closeBlocks s.cursor.column

-- A place where a key may have started, but need not have, and no later than on a line.
def Optional (line : Nat) (k : Option KeyStart) : Prop := ∀ start ∈ k, start.required = false ∧ start.line ≤ line

theorem dropStaleKeys?_kept (h : ∀ start ∈ k, Scan.isStale c start = false) :
    (scanning k allowed c σ).dropStaleKeys? = some (scanning k allowed c σ) := by
  cases k with
  | none => rfl
  | some start => simp [Scan.dropStaleKeys?, scanning, h start rfl]

theorem dropStaleKeys?_dropped {line : Nat} (h : Optional line k) (hline : line < c.line) :
    (scanning k allowed c σ).dropStaleKeys? = some (ready allowed c σ) := by
  cases k with
  | none => rfl
  | some start =>
      obtain ⟨hrequired, hle⟩ := h start rfl
      have hstale : start.line < c.line := by omega
      simp [Scan.dropStaleKeys?, scanning, ready, Scan.isStale, hrequired, hstale]

theorem settle?_eq {k' : Option KeyStart} {allowed' : Bool} {d : Cursor}
    (htoken : (scanning k allowed c σ).toToken (c.rest.length + 1) = scanning k allowed' d σ)
    (hkeys : (scanning k allowed' d σ).dropStaleKeys? = some (scanning k' allowed' d σ)) :
    settle? (scanning k allowed c σ) = some (scanning k' allowed' d (σ.close d.column)) := by
  rw [← closeBlocks_scanning, settle?]
  change ((Scan.toToken (c.rest.length + 1) _).dropStaleKeys?).map _ = _
  rw [htoken, hkeys]
  rfl

-- Blanks are passed, and what may be a key is kept.
theorem settle?_blanks (hx : AtToken x) (hrest : c.rest = List.replicate n ' ' ++ x)
    (hkept : ∀ start ∈ k, Scan.isStale (c.skip n) start = false) :
    settle? (scanning k allowed c σ) = some (scanning k allowed (c.skip n) (σ.close (c.column + n))) := by
  have hcolumn : (c.skip n).column = c.column + n := by
    simpa using column_skip_inline hrest isLineEnd_of_mem_replicate
  have htoken : (scanning k allowed c σ).toToken (c.rest.length + 1) = scanning k allowed (c.skip n) σ :=
    toToken_blanks _ hx hrest
  have hsettle := settle?_eq htoken (dropStaleKeys?_kept hkept)
  rwa [hcolumn, Int.natCast_add] at hsettle

-- The rest of a line is passed, and no key has started there.
theorem settle?_line (hx : AtToken x) (hrest : c.rest = '\n' :: List.replicate n ' ' ++ x) (hk : Optional c.line k) :
    settle? (scanning k allowed c σ) = some (ready true (c.skip (n + 1)) (σ.close n)) := by
  obtain ⟨-, hcolumn, hline⟩ := skip_lines (c := c) (s := []) (r := x) hrest rfl isLineEnd_of_mem_replicate
  rw [List.nil_append, List.length_cons, List.length_replicate] at hcolumn hline
  have htoken : (scanning k allowed c σ).toToken (c.rest.length + 1) = scanning k true (c.skip (n + 1)) σ := by
    rw [show c.rest.length + 1 = (List.replicate n ' ' ++ x).length + 2 by rw [hrest]; rfl, toToken_line _ hx hrest]
    simp [scanning, Scan.inFlow]
  have hsettle := settle?_eq htoken (dropStaleKeys?_dropped hk hline)
  rwa [hcolumn] at hsettle

-- Where the next token is reached already, no key has started before its line.
theorem settle?_passed {line : Nat} (hx : AtToken c.rest) (hk : Optional line k) (hline : line < c.line) :
    settle? (scanning k allowed c σ) = some (ready allowed c (σ.close c.column)) :=
  settle?_eq (toToken_blanks (n := 0) _ hx rfl) (dropStaleKeys?_dropped hk hline)

-- Scans on from a token or the end.
def resume? (fuel : Nat) (s : Scan) : Option (List Token) :=
  if s.cursor.rest = [] then s.toTop?.map fun s => (s.push .streamEnd).tokens.reverse
  else s.token?.bind (Scan.run? fuel)

theorem run?_succ (fuel : Nat) (s : Scan) : Scan.run? (fuel + 1) s = (settle? s).bind (resume? fuel) := by
  rw [Scan.run?, settle?, Option.bind_map, Option.bind_eq_bind]
  congr 1
  funext s
  simp only [Function.comp_apply, resume?]
  split
  · cases ((s.closeBlocks s.cursor.column).toTop?) <;> rfl
  · rfl

-- From the state the rest of the text is scanned to the end, and the tokens are all of those in the text.
def Resumes (s : Scan) (ts : List Token) : Prop :=
  ∀ fuel, s.cursor.rest.length ≤ fuel → resume? fuel s = some ts

theorem Resumes.token {s s' s'' : Scan} (h : Resumes s'' ts) (htoken : s.token? = some s')
    (hsettle : settle? s' = some s'') (hshorter : s''.cursor.rest.length < s.cursor.rest.length) : Resumes s ts := by
  intro fuel hfuel
  obtain ⟨fuel, rfl⟩ := Nat.exists_eq_add_one_of_ne_zero (show fuel ≠ 0 by omega)
  have hne : s.cursor.rest ≠ [] := List.ne_nil_of_length_pos (Nat.zero_lt_of_lt hshorter)
  rw [resume?, if_neg hne, htoken, Option.bind_some, run?_succ, hsettle, Option.bind_some]
  exact h fuel (by omega)

theorem resumes_end_iff (hrest : c.rest = []) :
    Resumes (ready allowed c σ) ts ↔ (σ.close (-1)).tokens.reverse ++ [.streamEnd] = ts := by
  have hend (fuel : Nat) :
      resume? fuel (ready allowed c σ) = some ((σ.close (-1)).tokens.reverse ++ [.streamEnd]) := by
    have htop : (ready allowed c σ).toTop? = some (ready false c (σ.close (-1))) := by
      rw [Scan.toTop?, ready, closeBlocks_scanning]
      rfl
    rw [resume?, cursor_scanning, if_pos hrest, htop]
    simp [Scan.push, ready, scanning]
  constructor
  · intro h
    exact Option.some.inj ((hend _).symm.trans (h _ (Nat.le_refl _)))
  · rintro rfl fuel -
    exact hend fuel

/-! ### After a node -/

-- After a node, and blocks that end with it, the text goes on at a column and is scanned to the end.
def Continues (n : Nat) (x : List Char) (σ : Blocks) (ts : List Token) : Prop :=
  ∀ c : Cursor, c.rest = x → c.column = n → Resumes (ready true c (σ.close n)) ts

theorem continues_end (σ : Blocks) : Continues 0 [] σ ((σ.close (-1)).tokens.reverse ++ [.streamEnd]) := by
  intro c hrest _
  rw [resumes_end_iff hrest, σ.close_close (by decide)]

-- A block ends before what is not inside of it.
theorem Continues.openAt {t : Token} {us : List Token} (hbelow : Below n x σ.indent) (hopen : σ.indent < column)
    (h : Continues n x (σ.add (t :: ts ++ [.blockEnd])) us) : Continues n x ((σ.openAt column t).add ts) us := by
  intro c hrest hcolumn
  have hafter := h c hrest hcolumn
  rcases hbelow with ⟨rfl, rfl⟩ | ⟨-, hle⟩
  · rw [resumes_end_iff hrest] at hafter ⊢
    rw [← hafter, Blocks.close_close (by decide), Blocks.close_close (by decide),
      Blocks.close_openAt hopen (by omega)]
  · rwa [Blocks.close_openAt hopen (by omega)]

end ScraperTimeline.Yaml
