import ScraperTimeline.Text.Digits

/-!
Regular expressions. A text is matched by derivatives: after each character, what is left of the pattern
has to match what is left of the text.
-/
namespace ScraperTimeline.Text

inductive Pattern where
  | never
  | nothing
  | set (negated : Bool) (ranges : List (Char × Char))
  | seq (first second : Pattern)
  | alt (left right : Pattern)
  | many (item : Pattern)
deriving DecidableEq, Repr

namespace Pattern

def inSet (negated : Bool) (ranges : List (Char × Char)) (c : Char) : Bool :=
  (ranges.any fun (first, last) => first ≤ c && c ≤ last) != negated

def matchesEmpty : Pattern → Bool
  | never => false
  | nothing => true
  | set .. => false
  | seq a b => a.matchesEmpty && b.matchesEmpty
  | alt a b => a.matchesEmpty || b.matchesEmpty
  | many _ => true

-- A sequence and a choice, without parts that make no difference.
def join : Pattern → Pattern → Pattern
  | never, _ => never
  | nothing, b => b
  | a, b => seq a b

def choice : Pattern → Pattern → Pattern
  | never, b => b
  | a, never => a
  | a, b => if a = b then a else alt a b

/-- What is left of a pattern after a character. -/
def after (c : Char) : Pattern → Pattern
  | never => never
  | nothing => never
  | set negated ranges => if inSet negated ranges c then nothing else never
  | seq a b =>
    if a.matchesEmpty then choice (join (a.after c) b) (b.after c) else join (a.after c) b
  | alt a b => choice (a.after c) (b.after c)
  | many a => join (a.after c) (many a)

/-- Whether the whole text matches. -/
def accepts (p : Pattern) (text : List Char) : Bool :=
  (text.foldl (fun p c => p.after c) p).matchesEmpty

/-- Any single character. -/
def any : Pattern := set true []

/-- Any text at all. -/
def anything : Pattern := many any

def repeated (item : Pattern) : Nat → Pattern
  | 0 => nothing
  | n + 1 => seq item (repeated item n)

def optional (item : Pattern) : Pattern := alt nothing item

def upTo (item : Pattern) : Nat → Pattern
  | 0 => nothing
  | n + 1 => optional (seq item (upTo item n))

/-! ### Reading -/

/-- Classes named by a letter after a backslash. -/
def classes : List (Char × List (Char × Char)) :=
  [('d', [('0', '9')]), ('w', [('0', '9'), ('A', 'Z'), ('a', 'z'), ('_', '_')]),
    ('s', [('\t', '\r'), (' ', ' ')])]

def controls : List (Char × Char) := [('n', '\n'), ('r', '\r'), ('t', '\t'), ('f', '\x0c'), ('v', '\x0b')]

-- The set after a backslash: a class, its complement, or one character.
def escaped? (c : Char) : Option (Bool × List (Char × Char)) :=
  match classes.lookup c, classes.lookup c.toLower with
  | some ranges, _ => some (false, ranges)
  | none, some ranges => some (true, ranges)
  | none, none =>
    match controls.lookup c with
    | some d => some (false, [(d, d)])
    | none => if c.isAlphanum then none else some (false, [(c, c)])

/-- The ranges of a bracket up to its end. -/
def ranges? : List Char → Option (List (Char × Char) × List Char)
  | [] => none
  | ']' :: rest => some ([], rest)
  | '\\' :: c :: rest => do
    let (negated, ranges) ← escaped? c
    if negated then none
    else
      let (more, rest) ← ranges? rest
      return (ranges ++ more, rest)
  | '[' :: _ => none
  | [_] => none
  | a :: b :: rest =>
    match b, rest with
    | '-', ']' :: rest => some ([(a, a), ('-', '-')], rest)
    | '-', c :: rest => do
      let (more, rest) ← ranges? rest
      if c = '\\' ∨ c < a then none else return ((a, c) :: more, rest)
    | b, rest => do
      let (more, rest) ← ranges? (b :: rest)
      return ((a, a) :: more, rest)

-- The counts in braces: exactly, at least, or between.
def counted? (item : Pattern) (text : List Char) : Option (Pattern × List Char) :=
  let first := text.takeWhile isDigit
  let rest := text.dropWhile isDigit
  (natural? 10 first).bind fun least =>
    match rest with
    | '}' :: rest => some (repeated item least, rest)
    | ',' :: '}' :: rest => some (seq (repeated item least) (many item), rest)
    | ',' :: rest => do
      let most ← natural? 10 (rest.takeWhile isDigit)
      match rest.dropWhile isDigit with
      | '}' :: rest =>
        if most < least then none
        else return (seq (repeated item least) (upTo item (most - least)), rest)
      | _ => none
    | _ => none

-- The repetition after an item.
def quantified? (item : Pattern) : List Char → Option (Pattern × List Char)
  | '*' :: rest => some (many item, rest)
  | '+' :: rest => some (seq item (many item), rest)
  | '?' :: rest => some (optional item, rest)
  | '{' :: rest => counted? item rest
  | rest => some (item, rest)

mutual

/-- Reads alternatives up to a closing parenthesis or the end. -/
def alternatives? : Nat → List Char → Option (Pattern × List Char)
  | 0, _ => none
  | fuel + 1, text => do
    let (p, rest) ← sequence? fuel text
    match rest with
    | '|' :: rest =>
      let (q, rest) ← alternatives? fuel rest
      return (alt p q, rest)
    | rest => return (p, rest)

def sequence? : Nat → List Char → Option (Pattern × List Char)
  | 0, _ => none
  | fuel + 1, text =>
    if text.head?.all (· ∈ ['|', ')', '$']) then some (nothing, text)
    else do
      let (item, rest) ← item? fuel text
      let (item, rest) ← quantified? item rest
      let (more, rest) ← sequence? fuel rest
      return (join item more, rest)

def item? : Nat → List Char → Option (Pattern × List Char)
  | 0, _ => none
  | fuel + 1, text =>
    match text with
    | '(' :: rest => do
      let rest := match rest with
        | '?' :: ':' :: rest => rest
        | rest => rest
      match ← alternatives? fuel rest with
      | (p, ')' :: rest) => return (p, rest)
      | _ => none
    | '[' :: '^' :: rest => (ranges? rest).map fun (ranges, rest) => (set true ranges, rest)
    | '[' :: rest => (ranges? rest).map fun (ranges, rest) => (set false ranges, rest)
    | '.' :: rest => some (set true [('\n', '\n')], rest)
    | '\\' :: c :: rest => (escaped? c).map fun (negated, ranges) => (set negated ranges, rest)
    | c :: rest => if c ∈ ['*', '+', '?', '^', '$', '\\', ')'] then none else some (set false [(c, c)], rest)
    | [] => none

end

/-- Reads branches, each of which may be tied to the start and to the end of the text. -/
def branches? : Nat → List Char → Option Pattern
  | 0, _ => none
  | fuel + 1, text => do
    let (fromStart, text) := match text with
      | '^' :: rest => (true, rest)
      | text => (false, text)
    let (p, rest) ← sequence? (3 * text.length + 3) text
    let (toEnd, rest) := match rest with
      | '$' :: rest => (true, rest)
      | rest => (false, rest)
    let p := if toEnd then p else seq p anything
    let p := if fromStart then p else seq anything p
    match rest with
    | [] => return p
    | '|' :: rest => return alt p (← branches? fuel rest)
    | _ => none

/-- Reads the pattern of the texts in which an expression matches somewhere. -/
def read? (text : List Char) : Option Pattern := branches? (text.length + 1) text

end Pattern
end ScraperTimeline.Text
