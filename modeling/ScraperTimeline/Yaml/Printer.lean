import ScraperTimeline.Yaml.Scalar

/-!
Trees as YAML in block style: two blanks a level, sequences not indented under their key, and for
each string the simplest form that reads back.
-/
namespace ScraperTimeline.Yaml

/-- Line breaks, those of Unicode among them. -/
def isBreak (c : Char) : Bool :=
  c = '\n' || c = '\r' || c = '\u0085' || c = '\u2028' || c = '\u2029'

def isSpaceOrBreak (c : Char) : Bool := c = ' ' || c = '\t' || isBreak c || c = '\x00'

/-- Characters that may stand outside double quotes. -/
def isPrintable (c : Char) : Bool :=
  c = '\n' || (' ' ≤ c && c ≤ '~') || ('\u00a0' ≤ c && c ≤ '\ud7ff') ||
    ('\ue000' ≤ c && c ≤ '\ufffd' && c ≠ '\ufeff') || 0x10000 ≤ c.toNat

/-- The ways in which a string can be written. -/
inductive Style where
  | plain | single | double | literal
deriving DecidableEq, Repr

-- The characters of a text, each with the one before and the one after it.
def neighbours (before : Option Char) : List Char → List (Option Char × Char × Option Char)
  | [] => []
  | c :: rest => (before, c, rest.head?) :: neighbours (some c) rest

def anyNext (p : Char → Char → Bool) (s : List Char) : Bool := (s.zip (s.drop 1)).any fun (a, b) => p a b

def endsWord (next : Option Char) : Bool := next.all isSpaceOrBreak

/-- Indicators that an unquoted scalar may not start with. -/
def openingIndicators : List Char :=
  ['#', ',', '[', ']', '{', '}', '&', '*', '!', '|', '>', '\'', '"', '%', '@', '\x60']

-- A character that would be read as an indicator at its place.
def isIndicator : Option Char × Char × Option Char → Bool
  | (none, c, next) =>
    c ∈ openingIndicators || ((c = '?' || c = ':' || c = '-') && endsWord next)
  | (some before, c, next) => (c = ':' && endsWord next) || (c = '#' && isSpaceOrBreak before)

def hasIndicator (s : List Char) : Bool :=
  ['-', '-', '-'].isPrefixOf s || ['.', '.', '.'].isPrefixOf s || (neighbours none s).any isIndicator

def hasSpaceBeforeBreak (s : List Char) : Bool := anyNext (fun a b => a = ' ' && isBreak b) s

def hasSpaceAfterBreak (s : List Char) : Bool := anyNext (fun a b => isBreak a && b = ' ') s

def hasBlankEnd (s : List Char) : Bool :=
  s.head?.any (fun c => c = ' ' || isBreak c) || s.getLast?.any fun c => c = ' ' || isBreak c

def needsEscapes (s : List Char) : Bool := hasSpaceBeforeBreak s || s.any fun c => !isPrintable c

def plainAllowed (s : List Char) : Bool :=
  !(hasIndicator s || hasBlankEnd s || needsEscapes s || s.any isBreak)

def singleAllowed (s : List Char) : Bool := !(hasSpaceAfterBreak s || needsEscapes s)

def literalAllowed (s : List Char) : Bool := !(s.getLast? = some ' ' || needsEscapes s)

/-- The style of a string: literal if it has several lines, else plain where that reads back, and
quoted where the style is not allowed. -/
def styleOf (s : List Char) : Style :=
  if '\n' ∈ s then (if literalAllowed s then .literal else .double)
  else if readsAsString s && plainAllowed s then .plain
  else if singleAllowed s then .single
  else .double

/-- The letters of the escapes inside double quotes. -/
def escapeLetters : List (Char × Char) :=
  [('\x00', '0'), ('\x07', 'a'), ('\x08', 'b'), ('\t', 't'), ('\n', 'n'), ('\x0b', 'v'),
    ('\x0c', 'f'), ('\r', 'r'), ('\x1b', 'e'), ('"', '"'), ('\\', '\\'), ('\u0085', 'N'),
    ('\u00a0', '_'), ('\u2028', 'L'), ('\u2029', 'P')]

def upperHex (width n : Nat) : List Char := (Text.hex width n).map Char.toUpper

def escaped (c : Char) : List Char :=
  if isPrintable c && !isBreak c && c ≠ '"' && c ≠ '\\' then [c]
  else '\\' :: match escapeLetters.lookup c with
    | some letter => [letter]
    | none =>
      if c.toNat ≤ 0xFF then 'x' :: upperHex 2 c.toNat
      else if c.toNat ≤ 0xFFFF then 'u' :: upperHex 4 c.toNat
      else 'U' :: upperHex 8 c.toNat

def doubleQuoted (s : List Char) : List Char := '"' :: s.flatMap escaped ++ ['"']

def indentation (level : Nat) : List Char := List.replicate level ' '

/-- Text in which every line but the first starts at a column, empty lines apart. The flag tells
whether a break was just written. -/
def indentLines (column : Nat) (write : Char → List Char) : Bool → List Char → List Char
  | _, [] => []
  | fresh, c :: rest =>
    if isBreak c then c :: indentLines column write true rest
    else (if fresh then indentation column else []) ++ write c ++ indentLines column write false rest

def singleQuoted (column : Nat) (s : List Char) : List Char :=
  '\'' :: indentLines column (fun c => if c = '\'' then ['\'', '\''] else [c]) false s ++
    (if s.getLast?.any isBreak then indentation column else []) ++ ['\'']

/-- The marks after the bar: the indentation if the text starts with a blank, and what becomes of the
breaks at its end: none there, several kept, or just one. -/
def literalMarks (s : List Char) : List Char :=
  (if s.head?.any (fun c => c = ' ' || isBreak c) then ['2'] else []) ++
    match s.reverse with
    | [] => ['-']
    | [last] => if isBreak last then ['+'] else ['-']
    | last :: before :: _ =>
      if !isBreak last then ['-'] else if isBreak before then ['+'] else []

/-- A literal block with its lines at a column, the last one ended. -/
def literal (column : Nat) (s : List Char) : List Char :=
  '|' :: literalMarks s ++ '\n' :: indentLines column (fun c => [c]) true s ++
    (if s.getLast?.any isBreak then [] else ['\n'])

/-- A string and the end of its line; further lines start at the column. -/
def stringLine (column : Nat) (s : List Char) : List Char :=
  match styleOf s with
  | .plain => s ++ ['\n']
  | .single => singleQuoted column s ++ ['\n']
  | .double => doubleQuoted s ++ ['\n']
  | .literal => literal column s

/-- A key that fits before a colon has one line and at most 128 bytes. -/
def isSimpleKey (key : String) : Bool := !key.toList.any isBreak && key.utf8ByteSize ≤ 128

-- A simple key, which is never a block.
def simpleKey (s : List Char) : List Char :=
  match styleOf s with
  | .plain => s
  | .single => singleQuoted 0 s
  | _ => doubleQuoted s

/-- A scalar or an empty collection, and the end of its line. -/
def scalarLine (column : Nat) : Tree → List Char
  | .null => "null\n".toList
  | .bool true => "true\n".toList
  | .bool false => "false\n".toList
  | .int n => Text.decimal n.toInt ++ ['\n']
  | .float x => Decimal.Layout.yaml.write x ++ ['\n']
  | .string s => stringLine column s.toList
  | .seq _ => "[]\n".toList
  | .map _ => "\x7b\x7d\n".toList

/-- The column at which the value of a simple key starts: a sequence is not indented. -/
def valueColumn (column : Nat) : Tree → Nat
  | .seq (_ :: _) => column
  | _ => column + 2

/-- What stands between the colon after a simple key and its value. -/
def valueLead (column : Nat) : Tree → List Char
  | .seq (_ :: _) => '\n' :: indentation column
  | .map (_ :: _) => '\n' :: indentation (column + 2)
  | _ => [' ']

/-- All of a field before its value, the key before a colon if it is simple and after a question mark
otherwise, and the column of the value. -/
def fieldLead (column : Nat) (key : String) (value : Tree) : List Char × Nat :=
  if isSimpleKey key then
    (simpleKey key.toList ++ ':' :: valueLead column value, valueColumn column value)
  else
    ('?' :: ' ' :: stringLine (column + 2) key.toList ++ indentation column ++ [':', ' '], column + 2)

mutual

/-- A node whose lines start at the column, the first after what stands there already. -/
def block (column : Nat) : Tree → List Char
  | .seq (first :: rest) => '-' :: ' ' :: block (column + 2) first ++ itemLines column rest
  | .map ((key, value) :: rest) =>
    (fieldLead column key value).1 ++ block (fieldLead column key value).2 value ++
      fieldLines column rest
  | t => scalarLine column t

def itemLines (column : Nat) : List Tree → List Char
  | [] => []
  | t :: rest => indentation column ++ '-' :: ' ' :: block (column + 2) t ++ itemLines column rest

def fieldLines (column : Nat) : List (String × Tree) → List Char
  | [] => []
  | (key, value) :: rest =>
    indentation column ++ (fieldLead column key value).1 ++
      block (fieldLead column key value).2 value ++ fieldLines column rest

end

end ScraperTimeline.Yaml

namespace ScraperTimeline.Tree

/-- The YAML document of a tree. -/
def toYaml (t : Tree) : String :=
  String.ofList <| match t with
    | .seq (_ :: _) | .map (_ :: _) => Yaml.block 0 t
    | t => Yaml.scalarLine 2 t

end ScraperTimeline.Tree
