import ScraperTimeline.Yaml.ScalarText

/-!
Tokens of a YAML document. Indentation becomes explicit: blocks are opened and closed by tokens of
their own. Whether a token starts a mapping key is known only at the colon after it, so the tokens
that open the key are then put in before it.
-/
namespace ScraperTimeline.Yaml
open Text

inductive Token where
  | version (major minor : Nat)
  | tagHandle (handle lead : List Char)
  | documentStart
  | documentEnd
  | blockSequence
  | blockMapping
  | blockEnd
  | flowSequence
  | flowSequenceEnd
  | flowMapping
  | flowMappingEnd
  | entry
  | comma
  | key
  | value
  | alias (name : List Char)
  | anchor (name : List Char)
  | tag (handle suffix : List Char)
  | scalar (text : List Char) (plain : Bool)
  | streamEnd
deriving DecidableEq, Repr

/-- A place where a key may have started. It has to be one if nothing else can stand there. -/
structure KeyStart where
  position : Nat
  index : Nat
  line : Nat
  column : Nat
  required : Bool

/-- The state of scanning. The tokens are kept last first. -/
structure Scan where
  cursor : Cursor
  tokens : List Token := []
  /-- The possible key of each open flow collection and of the block around them. -/
  keys : List (Option KeyStart) := [none]
  keyAllowed : Bool := true
  /-- The column of the block, -1 outside all of them. -/
  indent : Int := -1
  outerIndents : List Int := []

namespace Scan

def inFlow (s : Scan) : Bool := 1 < s.keys.length

def push (t : Token) (s : Scan) : Scan := { s with tokens := t :: s.tokens }

-- Puts a token in before those from a position on.
def insert (position : Nat) (t : Token) (s : Scan) : Scan :=
  let later := s.tokens.length - position
  { s with tokens := s.tokens.take later ++ t :: s.tokens.drop later }

/-- Passes over blanks, comments and breaks. Tabs count as blanks only where no key may start. -/
def toToken : Nat → Scan → Scan
  | 0, s => s
  | fuel + 1, s =>
    let c := if s.cursor.index = 0 && s.cursor.rest.head? = some '\ufeff' then s.cursor.next else s.cursor
    let c := c.skipWhile fun x => x = ' ' || ((s.inFlow || !s.keyAllowed) && x = '\t')
    let c := if c.rest.head? = some '#' then c.skipWhile (!isLineEnd ·) else c
    if c.rest.head?.any isLineEnd then
      toToken fuel { s with cursor := c.next, keyAllowed := s.keyAllowed || !s.inFlow }
    else { s with cursor := c }

/-- A key ends on its line and within 1024 characters. -/
def isStale (c : Cursor) (k : KeyStart) : Bool := k.line < c.line || k.index + 1024 < c.index

/-- Gives up the keys that have become too long, unless one of them is required. -/
def dropStaleKeys? (s : Scan) : Option Scan :=
  let stale (k : Option KeyStart) : Bool := k.any (isStale s.cursor)
  if s.keys.any fun k => stale k && k.any (·.required) then none
  else some { s with keys := s.keys.map fun k => if stale k then none else k }

/-- Gives up the innermost key, unless it is required. -/
def dropKey? (s : Scan) : Option Scan :=
  match s.keys with
  | [] => some s
  | k :: outer => if k.any (·.required) then none else some { s with keys := none :: outer }

/-- Notes that a key may start here. -/
def saveKey? (s : Scan) : Option Scan :=
  if s.keyAllowed then do
    let s ← s.dropKey?
    let k : KeyStart :=
      ⟨s.tokens.length, s.cursor.index, s.cursor.line, s.cursor.column,
        !s.inFlow && s.indent = s.cursor.column⟩
    return { s with keys := some k :: s.keys.drop 1 }
  else some s

/-- Opens a block at a column further in; its token goes before a position. -/
def openBlock (column : Nat) (position : Nat) (t : Token) (s : Scan) : Scan :=
  if s.inFlow || decide ((column : Int) ≤ s.indent) then s
  else { s.insert position t with indent := column, outerIndents := s.indent :: s.outerIndents }

/-- Closes the blocks further in than a column. -/
def closeBlocks (column : Int) (s : Scan) : Scan :=
  if s.inFlow then s else go s.outerIndents s
where
  go : List Int → Scan → Scan
    | [], s => s
    | outer :: rest, s =>
      if column < s.indent then
        go rest { s.push .blockEnd with indent := outer, outerIndents := rest }
      else s

/-- Passes over the characters of an indicator and adds its token. -/
def indicator (length : Nat) (t : Token) (s : Scan) : Scan :=
  { s.push t with cursor := s.cursor.skip length }

-- What starts outside all blocks: directives, document marks and the end.
def toTop? (s : Scan) : Option Scan := do
  return { ← (s.closeBlocks (-1)).dropKey? with keyAllowed := false }

def documentMark? (t : Token) (s : Scan) : Option Scan := do return (← s.toTop?).indicator 3 t

def flowStart? (t : Token) (s : Scan) : Option Scan := do
  let s ← s.saveKey?
  return { s.indicator 1 t with keys := none :: s.keys, keyAllowed := true }

def flowEnd? (t : Token) (s : Scan) : Option Scan := do
  let s ← s.dropKey?
  let keys := if s.inFlow then s.keys.drop 1 else s.keys
  return { s.indicator 1 t with keys := keys, keyAllowed := false }

def comma? (s : Scan) : Option Scan := do
  return { (← s.dropKey?).indicator 1 .comma with keyAllowed := true }

def entry? (s : Scan) : Option Scan := do
  if !s.inFlow && !s.keyAllowed then none
  else
    let s := s.openBlock s.cursor.column s.tokens.length .blockSequence
    return { (← s.dropKey?).indicator 1 .entry with keyAllowed := true }

def key? (s : Scan) : Option Scan := do
  if !s.inFlow && !s.keyAllowed then none
  else
    let s := s.openBlock s.cursor.column s.tokens.length .blockMapping
    let s ← s.dropKey?
    return { s.indicator 1 .key with keyAllowed := !s.inFlow }

/-- At a colon the possible key before it becomes one. -/
def value? (s : Scan) : Option Scan :=
  match s.keys with
  | some k :: outer =>
    let s := (s.insert k.position .key).openBlock k.column k.position .blockMapping
    some { s.indicator 1 .value with keys := none :: outer, keyAllowed := false }
  | _ =>
    if !s.inFlow && !s.keyAllowed then none
    else
      let s := s.openBlock s.cursor.column s.tokens.length .blockMapping
      some { s.indicator 1 .value with keyAllowed := !s.inFlow }

/-- A name after `&` or `*`, which is passed. -/
def name? (c : Cursor) : Option (List Char × Cursor) :=
  let name := c.upTo isNameChar
  let c := c.skipWhile isNameChar
  if name = [] then none
  else if c.atGap || c.rest.head?.any (· ∈ ['?', ':', ',', ']', '}', '%', '@', '\x60']) then
    some (name, c)
  else none

def anchor? (make : List Char → Token) (s : Scan) : Option Scan := do
  let s ← s.saveKey?
  let (name, c) ← name? s.cursor.next
  return { s.push (make name) with cursor := c, keyAllowed := false }

def scalar? (plain : Bool) (scanned : Scanned) (s : Scan) : Scan :=
  { s.push (.scalar scanned.text plain) with
    cursor := scanned.after, keyAllowed := scanned.freshLine }

def blockScalar? (folded : Bool) (s : Scan) : Option Scan := do
  let s ← s.dropKey?
  return s.scalar? false (← Yaml.blockScalar? folded s.indent s.cursor.next)

def quoted? (single : Bool) (s : Scan) : Option Scan := do
  let s ← s.saveKey?
  return s.scalar? false (← Yaml.quoted? single (s.cursor.rest.length + 1) [] s.cursor.next)

def plain? (s : Scan) : Option Scan := do
  let s ← s.saveKey?
  return s.scalar? true
    (← Yaml.plain? s.inFlow (s.indent + 1).toNat (s.cursor.rest.length + 1) [] [] s.cursor)

end Scan

/-! ### Tags and directives -/

/-- The characters of a tag, apart from escapes. -/
def isTagChar (verbatim : Bool) (c : Char) : Bool :=
  isNameChar c || c ∈ ";/?:@&=+$.!~*'()".toList || (verbatim && (c = ',' || c = '[' || c = ']'))

-- One byte written as a percent sign and two hexadecimal digits.
def escapedByte? : List Char → Option (Nat × List Char)
  | '%' :: a :: b :: rest => (natural? 16 [a, b]).map (·, rest)
  | _ => none

-- The bytes after the first of one character.
def trailingBytes? : Nat → Nat → List Char → Option (Nat × List Char)
  | 0, code, rest => some (code, rest)
  | n + 1, code, rest => do
    let (byte, rest) ← escapedByte? rest
    if byte / 64 = 2 then trailingBytes? n (code * 64 + byte % 64) rest else none

/-- A character whose bytes are all escaped. -/
def escapedChar? (text : List Char) : Option (Char × List Char) := do
  let (byte, rest) ← escapedByte? text
  let (more, code) ←
    if byte < 0x80 then some (0, byte)
    else if byte / 32 = 6 then some (1, byte % 32)
    else if byte / 16 = 14 then some (2, byte % 16)
    else if byte / 8 = 30 then some (3, byte % 8)
    else none
  let (code, rest) ← trailingBytes? more code rest
  return (← charOfCode? code, rest)

/-- The characters of a tag, and what follows them. -/
def tagChars? (verbatim : Bool) : Nat → List Char → Option (List Char × List Char)
  | 0, _ => none
  | _, [] => some ([], [])
  | fuel + 1, c :: rest =>
    if c = '%' then do
      let (d, rest) ← escapedChar? (c :: rest)
      let (s, r) ← tagChars? verbatim fuel rest
      return (d :: s, r)
    else if isTagChar verbatim c then (tagChars? verbatim fuel rest).map fun (s, r) => (c :: s, r)
    else some ([], c :: rest)

def tagText? (verbatim : Bool) (c : Cursor) : Option (List Char × Cursor) :=
  (tagChars? verbatim (c.rest.length + 1) c.rest).map fun (s, rest) => (s, c.moveTo rest)

/-- A handle: an exclamation mark, alone or with a name and a second one. -/
def handle (c : Cursor) : List Char × Cursor :=
  let name := c.next.upTo isNameChar
  let c := c.next.skipWhile isNameChar
  if c.rest.head? = some '!' then ('!' :: name ++ ['!'], c.next) else ('!' :: name, c)

/-- A tag's handle and suffix: verbatim in angle brackets, after a handle, or local. -/
def tag? (c : Cursor) : Option (List Char × List Char × Cursor) :=
  if c.next.rest.head? = some '<' then do
    let (suffix, c) ← tagText? true (c.skip 2)
    if suffix = [] ∨ c.rest.head? ≠ some '>' then none
    else return ([], suffix, c.next)
  else
    let (h, after) := handle c
    if 1 < h.length ∧ h.getLast? = some '!' then do
      let (suffix, c) ← tagText? false after
      if suffix = [] then none else return (h, suffix, c)
    else do
      let (more, c) ← tagText? false after
      let suffix := h.drop 1 ++ more
      return if suffix = [] then ([], ['!'], c) else (['!'], suffix, c)

def Scan.tag? (s : Scan) : Option Scan := do
  let s ← s.saveKey?
  let (h, suffix, c) ← Yaml.tag? s.cursor
  if c.atGap || (s.inFlow && c.rest.head? = some ',') then
    return { s.push (.tag h suffix) with cursor := c, keyAllowed := false }
  else none

-- A part of a version number, of at most nine digits.
def versionPart? (c : Cursor) : Option (Nat × Cursor) :=
  let shown := c.upTo isDigit
  if 9 < shown.length then none else (natural? 10 shown).map (·, c.skipWhile isDigit)

def versionDirective? (c : Cursor) : Option (Token × Cursor) := do
  let (major, c) ← versionPart? (c.skipWhile isBlank)
  if c.rest.head? ≠ some '.' then none
  else
    let (minor, c) ← versionPart? c.next
    return (.version major minor, c)

def tagDirective? (c : Cursor) : Option (Token × Cursor) := do
  let c := c.skipWhile isBlank
  if c.rest.head? ≠ some '!' then none
  else
    let (h, c) := handle c
    if (1 < h.length ∧ h.getLast? ≠ some '!') ∨ !c.rest.head?.any isBlank then none
    else
      let (lead, c) ← tagText? true (c.skipWhile isBlank)
      if lead = [] ∨ !c.atGap then none else return (.tagHandle h lead, c)

/-- A directive, whose percent sign is passed, up to the end of its line. -/
def directive? (c : Cursor) : Option (Token × Cursor) := do
  let name := c.upTo isNameChar
  let c := c.skipWhile isNameChar
  if !c.atGap then none
  else
    let (t, c) ←
      if name = "YAML".toList then versionDirective? c
      else if name = "TAG".toList then tagDirective? c
      else none
    let c := c.skipWhile isBlank
    let c := if c.rest.head? = some '#' then c.skipWhile (!isLineEnd ·) else c
    if c.atLineEnd then return (t, c.next) else none

def Scan.directive? (s : Scan) : Option Scan := do
  let s ← s.toTop?
  let (t, c) ← Yaml.directive? s.cursor.next
  return { s.push t with cursor := c }

/-! ### Scanning -/

/-- Characters that start no unquoted scalar, or only before some others. -/
def indicators : List Char :=
  ['-', '?', ':', ',', '[', ']', '{', '}', '#', '&', '*', '!', '|', '>', '\'', '"', '%', '@', '\x60']

/-- Holds where an unquoted scalar may start. -/
def startsPlain (inFlow : Bool) (c : Char) (rest : List Char) : Bool :=
  !(isGap c || c ∈ indicators) || (c = '-' && !rest.head?.any isBlank) ||
    (!inFlow && (c = '?' || c = ':') && !startsGap rest)

/-- Scans the token that starts at the cursor. -/
def Scan.token? (s : Scan) : Option Scan :=
  match s.cursor.rest with
  | [] => none
  | c :: rest =>
    if s.cursor.column = 0 && c = '%' then s.directive?
    else if s.cursor.column = 0 && isDocumentMark '-' (c :: rest) then s.documentMark? .documentStart
    else if s.cursor.column = 0 && isDocumentMark '.' (c :: rest) then s.documentMark? .documentEnd
    else if c = '[' then s.flowStart? .flowSequence
    else if c = '{' then s.flowStart? .flowMapping
    else if c = ']' then s.flowEnd? .flowSequenceEnd
    else if c = '}' then s.flowEnd? .flowMappingEnd
    else if c = ',' then s.comma?
    else if c = '-' && startsGap rest then s.entry?
    else if c = '?' && (s.inFlow || startsGap rest) then s.key?
    else if c = ':' && (s.inFlow || startsGap rest) then s.value?
    else if c = '*' then s.anchor? .alias
    else if c = '&' then s.anchor? .anchor
    else if c = '!' then s.tag?
    else if c = '|' && !s.inFlow then s.blockScalar? false
    else if c = '>' && !s.inFlow then s.blockScalar? true
    else if c = '\'' then s.quoted? true
    else if c = '"' then s.quoted? false
    else if startsPlain s.inFlow c rest then s.plain?
    else none

/-- Scans to the end; each token takes at least one character. -/
def Scan.run? : Nat → Scan → Option (List Token)
  | 0, _ => none
  | fuel + 1, s => do
    let s ← (s.toToken (s.cursor.rest.length + 1)).dropStaleKeys?
    let s := s.closeBlocks s.cursor.column
    if s.cursor.rest = [] then
      return ((← s.toTop?).push .streamEnd).tokens.reverse
    else run? fuel (← s.token?)

/-- The tokens of a text, the end of the stream as the last one. -/
def tokens? (text : List Char) : Option (List Token) :=
  if text.all isAllowed then
    Scan.run? (text.length + 1) { cursor := Cursor.start (unifyBreaks text) }
  else none

end ScraperTimeline.Yaml
