import ScraperTimeline.Yaml.Cursor

/-!
The text of scalars: unquoted, in quotes, and in blocks. Breaks inside the first two are folded: one
break becomes a blank, and of several the first is dropped.
-/
namespace ScraperTimeline.Yaml
open Text

/-- What breaks come to when the lines around them are joined. -/
def foldBreaks : List Char → List Char
  | [] => []
  | '\n' :: [] => [' ']
  | '\n' :: more => more
  | first :: more => first :: more

/-- What a gap between two words comes to: blanks stay unless there is a break among them. -/
def foldGap (gap : List Char) : List Char :=
  if gap.any isLineEnd then foldBreaks (gap.filter isLineEnd) else gap

-- Blanks after the first break of a gap, each line of them by itself.
def hasTabBefore (column : Nat) (gap : List Char) : Bool :=
  let lines := gap.dropWhile (!isLineEnd ·)
  (go 0 lines)
where
  go (at_ : Nat) : List Char → Bool
    | [] => false
    | c :: rest =>
      if isLineEnd c then go 0 rest
      else (c = '\t' && decide (at_ < column)) || go (at_ + 1) rest

/-! ### Unquoted scalars -/

def flowEnds : List Char := [',', '[', ']', '{', '}']

/-- A stretch of an unquoted scalar without gaps, and what follows it. Inside flow collections a colon
right before an indicator is refused. -/
def plainStretch? (inFlow : Bool) : List Char → Option (List Char × List Char)
  | [] => some ([], [])
  | c :: rest =>
    if isGap c then some ([], c :: rest)
    else if inFlow && c = ':' && rest.head?.any (fun d => d = '?' || d ∈ flowEnds) then none
    else if (c = ':' && startsGap rest) || (inFlow && c ∈ flowEnds) then some ([], c :: rest)
    else (plainStretch? inFlow rest).map fun (word, after) => (c :: word, after)

/-- A scanned scalar: its text, where it ends, and whether a line was begun after its last word. -/
structure Scanned where
  text : List Char
  after : Cursor
  freshLine : Bool

/-- Reads an unquoted scalar whose further lines start at `column` or later, from a place where a
stretch may start. `pending` is the gap before that stretch. -/
def plain? (inFlow : Bool) (column : Nat) : Nat → List Char → List Char → Cursor → Option Scanned
  | 0, _, _, _ => none
  | fuel + 1, text, pending, c =>
    let stop : Option Scanned := some ⟨text, c, pending.any isLineEnd⟩
    if c.atDocumentMark || c.rest.head? = some '#' then stop
    else do
      let (word, rest) ← plainStretch? inFlow c.rest
      if word = [] then stop
      else
        let text := text ++ foldGap pending ++ word
        let c := c.moveTo rest
        let gap := c.upTo isGap
        let c := c.skipWhile isGap
        if gap = [] then some ⟨text, c, false⟩
        else if hasTabBefore column gap then none
        else if !inFlow && c.column < column then some ⟨text, c, gap.any isLineEnd⟩
        else plain? inFlow column fuel text gap c

/-! ### Quoted scalars -/

/-- The characters that stand for a letter after a backslash. -/
def escapes : List (Char × Char) :=
  [('0', '\x00'), ('a', '\x07'), ('b', '\x08'), ('t', '\t'), ('\t', '\t'), ('n', '\n'),
    ('v', '\x0b'), ('f', '\x0c'), ('r', '\r'), ('e', '\x1b'), (' ', ' '), ('"', '"'), ('/', '/'),
    ('\\', '\\'), ('N', '\u0085'), ('_', '\u00a0'), ('L', '\u2028'), ('P', '\u2029')]

/-- The number of hexadecimal digits after a letter. -/
def escapeWidths : List (Char × Nat) := [('x', 2), ('u', 4), ('U', 8)]

/-- The character with a code, if there is one. -/
def charOfCode? (code : Nat) : Option Char :=
  if h : code.isValidChar then some ⟨UInt32.ofNat code, by
    rcases h with h | ⟨h, h'⟩
    · left; simp [UInt32.toNat_ofNat_of_lt' (show code < 2 ^ 32 by omega)]; omega
    · right; simp [UInt32.toNat_ofNat_of_lt' (show code < 2 ^ 32 by omega)]; omega⟩
  else none

/-- The character of an escape whose backslash is passed, and what follows. -/
def escape? : List Char → Option (Char × List Char)
  | [] => none
  | letter :: rest =>
    match escapeWidths.lookup letter with
    | some width => do
      if rest.length < width then none
      else
        let code ← natural? 16 (rest.take width)
        return (← charOfCode? code, rest.drop width)
    | none => (escapes.lookup letter).map (·, rest)

/-- A stretch inside quotes without gaps. The flag tells whether it ended in an escaped break. -/
def quotedStretch? (single : Bool) : Nat → List Char → Option (List Char × Bool × List Char)
  | 0, _ => none
  | _, [] => some ([], false, [])
  | fuel + 1, c :: rest =>
    if isGap c then some ([], false, c :: rest)
    else if single then
      if c = '\'' then
        match rest with
        | '\'' :: rest => (quotedStretch? single fuel rest).map fun (s, r) => ('\'' :: s, r)
        | rest => some ([], false, c :: rest)
      else (quotedStretch? single fuel rest).map fun (s, r) => (c :: s, r)
    else if c = '"' then some ([], false, c :: rest)
    else if c = '\\' then
      if rest.head?.any isLineEnd then some ([], true, rest.drop 1)
      else do
        let (d, rest) ← escape? rest
        let (s, r) ← quotedStretch? single fuel rest
        return (d :: s, r)
    else (quotedStretch? single fuel rest).map fun (s, r) => (c :: s, r)

/-- Reads a scalar in quotes, the first of which is passed. -/
def quoted? (single : Bool) : Nat → List Char → Cursor → Option Scanned
  | 0, _, _ => none
  | fuel + 1, text, c =>
    if c.atDocumentMark || c.rest = [] then none
    else do
      let (s, escapedBreak, rest) ← quotedStretch? single (c.rest.length + 1) c.rest
      let text := text ++ s
      let c := c.moveTo rest
      if c.rest.head? = some (if single then '\'' else '"') then some ⟨text, c.next, false⟩
      else
        let gap := c.upTo isGap
        let joined := if escapedBreak then gap.filter isLineEnd else foldGap gap
        quoted? single fuel (text ++ joined) (c.skipWhile isGap)

/-! ### Block scalars -/

/-- What becomes of the breaks at the end of a block. -/
inductive Chomping where
  | clip | strip | keep
deriving DecidableEq, Repr

def chomping? : List Char → Option (Chomping × List Char)
  | '+' :: rest => some (.keep, rest)
  | '-' :: rest => some (.strip, rest)
  | _ => none

-- An indentation mark: a digit, which may not be zero.
def indentMark? : List Char → Option (Option Nat × List Char)
  | '0' :: _ => none
  | c :: rest => if isDigit c then some (digit? 10 c, rest) else some (none, c :: rest)
  | [] => some (none, [])

/-- The marks after a bar: chomping and indentation in either order, each at most once. -/
def blockMarks? (text : List Char) : Option (Chomping × Option Nat × List Char) :=
  match chomping? text with
  | some (chomping, rest) => (indentMark? rest).map fun (n, rest) => (chomping, n, rest)
  | none => (indentMark? text).map fun (n, rest) =>
    match n with
    | none => (.clip, none, rest)
    | some _ =>
      match chomping? rest with
      | some (chomping, rest) => (chomping, n, rest)
      | none => (.clip, n, rest)

/-- Passes over empty lines and the indentation after them. An indentation of zero is not yet known: it
becomes the widest one seen, but not less than `least`. -/
def blockBreaks? (least indent : Nat) :
    Nat → Nat → List Char → Cursor → Option (Nat × List Char × Cursor)
  | 0, _, _, _ => none
  | fuel + 1, widest, breaks, c =>
    let spaces := (c.upTo (· = ' ')).length
    let c := c.skip (if indent = 0 then spaces else min spaces (indent - c.column))
    let widest := max widest c.column
    if (indent = 0 || decide (c.column < indent)) && c.rest.head? = some '\t' then none
    else match c.rest with
      | x :: _ =>
        if isLineEnd x then blockBreaks? least indent fuel widest (breaks ++ [x]) c.next
        else some (if indent = 0 then max widest least else indent, breaks, c)
      | [] => some (if indent = 0 then max widest least else indent, breaks, c)

/-- The lines of a block. Folding joins two lines that start with no blank; `lead` is the break after
the line before, and `breaks` those of the empty lines after it. -/
def blockLines? (folded : Bool) (indent : Nat) :
    Nat → List Char → List Char → List Char → Bool → Cursor →
      Option (List Char × List Char × List Char × Cursor)
  | 0, _, _, _, _, _ => none
  | fuel + 1, text, lead, breaks, afterBlank, c =>
    if c.column = indent && c.rest ≠ [] then do
      let blank := c.rest.head?.any isBlank
      let joint :=
        if folded && lead.head? = some '\n' && !afterBlank && !blank then
          if breaks = [] then [' '] else []
        else lead
      let line := c.upTo (!isLineEnd ·)
      let c := c.skipWhile (!isLineEnd ·)
      let lead := c.rest.take 1
      let (_, more, c) ← blockBreaks? 0 indent (c.rest.length + 1) 0 [] c.next
      blockLines? folded indent fuel (text ++ joint ++ breaks ++ line) lead more blank c
    else some (text, lead, breaks, c)

/-- Reads a block scalar whose bar is passed, inside a block at `column`. -/
def blockScalar? (folded : Bool) (column : Int) (c : Cursor) : Option Scanned := do
  let (chomping, mark, rest) ← blockMarks? c.rest
  let c := (c.moveTo rest).skipWhile isBlank
  let c := if c.rest.head? = some '#' then c.skipWhile (!isLineEnd ·) else c
  if !c.atLineEnd then none
  else
    let indent := match mark with
      | some n => column.toNat + n
      | none => 0
    let c := c.next
    let least := max (column + 1).toNat 1
    let (indent, breaks, c) ← blockBreaks? least indent (c.rest.length + 1) 0 [] c
    let (text, lead, breaks, c) ←
      blockLines? folded indent (c.rest.length + 1) [] [] breaks false c
    let ending := match chomping with
      | .strip => []
      | .clip => lead
      | .keep => lead ++ breaks
    some ⟨text ++ ending, c, true⟩

end ScraperTimeline.Yaml
