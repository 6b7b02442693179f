import ScraperTimeline.Text.Digits

/-!
A place in YAML text. Line breaks are first brought to one form, so that each is one character; the
line and paragraph separators stay as they are, because they are kept inside scalars.
-/
namespace ScraperTimeline.Yaml

/-- Writes every break that counts as a new line as a line feed. -/
def unifyBreaks : List Char → List Char
  | [] => []
  | '\r' :: '\n' :: rest => '\n' :: unifyBreaks rest
  | c :: rest => (if c = '\r' ∨ c = '\u0085' then '\n' else c) :: unifyBreaks rest

/-- Characters that may occur in a document at all. -/
def isAllowed (c : Char) : Bool :=
  c = '\t' || c = '\n' || c = '\r' || (' ' ≤ c && c ≤ '~') || c = '\u0085' ||
    ('\u00a0' ≤ c && c ≤ '\ufffd') || 0x10000 ≤ c.toNat

/-- Breaks in unified text. -/
def isLineEnd (c : Char) : Bool := c = '\n' || c = '\u2028' || c = '\u2029'

def isBlank (c : Char) : Bool := c = ' ' || c = '\t'

def isGap (c : Char) : Bool := isBlank c || isLineEnd c

/-- Characters of names: anchors, handles and directives. -/
def isNameChar (c : Char) : Bool := c.isAlphanum || c = '_' || c = '-'

/-- The rest of a text, and where it starts. -/
structure Cursor where
  rest : List Char
  index : Nat
  line : Nat
  column : Nat

namespace Cursor

def start (text : List Char) : Cursor := ⟨text, 0, 0, 0⟩

/-- Passes over one character. -/
def next (c : Cursor) : Cursor :=
  match c.rest with
  | [] => c
  | x :: rest =>
    if isLineEnd x then ⟨rest, c.index + 1, c.line + 1, 0⟩
    else ⟨rest, c.index + 1, c.line, c.column + 1⟩

/-- Passes over a number of characters. -/
def skip : Nat → Cursor → Cursor
  | 0, c => c
  | n + 1, c => skip n c.next

/-- The characters up to the first one without the property. -/
def upTo (p : Char → Bool) (c : Cursor) : List Char := c.rest.takeWhile p

def skipWhile (p : Char → Bool) (c : Cursor) : Cursor := c.skip (c.upTo p).length

/-- Passes on to where only `rest` is left. -/
def moveTo (rest : List Char) (c : Cursor) : Cursor := c.skip (c.rest.length - rest.length)

/-- Holds at the end of a line or of the text. -/
def atLineEnd (c : Cursor) : Bool := c.rest.head?.all isLineEnd

-- Holds before a blank, a break or the end.
def atGap (c : Cursor) : Bool := c.rest.head?.all isGap

end Cursor

/-- Holds of texts whose first character, if any, is a blank or a break. -/
def startsGap (text : List Char) : Bool := text.head?.all isGap

/-- The marks that start and end a document stand at the start of a line. -/
def isDocumentMark (mark : Char) : List Char → Bool
  | a :: b :: c :: rest => a = mark && b = mark && c = mark && startsGap rest
  | _ => false

def Cursor.atDocumentMark (c : Cursor) : Bool :=
  c.column = 0 && (isDocumentMark '-' c.rest || isDocumentMark '.' c.rest)

end ScraperTimeline.Yaml
