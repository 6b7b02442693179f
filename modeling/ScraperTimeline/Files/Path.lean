import ScraperTimeline.Text.Split

/-!
Paths. As text a path is a number of pieces between slashes, of which an empty one and a single dot lead
nowhere and two dots lead back.
-/
namespace ScraperTimeline

/-- The way from the root to a place, the innermost name first. -/
abbrev Path := List String

namespace Path

/-- The text of the way from the root. -/
def text (p : Path) : String := "/" ++ "/".intercalate p.reverse

/-- The text of the way from a place. -/
def wayText (p : Path) : String := "/".intercalate p.reverse

/-! ### Text -/

def pieces (text : String) : List String := (Text.split '/' text.toList).map String.ofList

def isAbsolute (text : String) : Bool := text.toList.head? = some '/'

def leadsNowhere (piece : String) : Bool := piece = "" || piece = "."

/-- The pieces of a text that lead somewhere. -/
def names (text : String) : List String := (pieces text).filter (!leadsNowhere ·)

/-- A path below a base, unless it starts at the root itself. -/
def within (base text : String) : String :=
  if isAbsolute text ∨ base.isEmpty then text
  else if base.toList.getLast? = some '/' then base ++ text
  else base ++ "/" ++ text

/-- Where a path starts: at the root, or where it is, which a dot in front may say. -/
def anchor (text : String) : String :=
  if isAbsolute text then "/" else if (pieces text).head? = some "." then "." else ""

-- What comes after some names, from the next piece on that leads somewhere.
def after? : List String → List String → Option (List String)
  | [], ps => some (ps.dropWhile leadsNowhere)
  | name :: names, ps =>
    match ps.dropWhile leadsNowhere with
    | piece :: rest => if piece = name then after? names rest else none
    | [] => none

/-- What the path of a file says below a base, name by name. Every path is below an empty base. -/
def below? (base text : String) : Option String :=
  if base.isEmpty then some text
  else if anchor base = anchor text then (after? (names base) (pieces text)).map ("/".intercalate ·)
  else none

-- The pieces up to the last one that leads somewhere.
def trimEnd (ps : List String) : List String := (ps.reverse.dropWhile leadsNowhere).reverse

/-- The text without its last name, if it has one. A dot in front counts as a name. -/
def parent? (text : String) : Option String :=
  let shown (first : List String) (ps : List String) := "/".intercalate (first ++ trimEnd ps.dropLast)
  match pieces text with
  | [] => none
  | first :: rest =>
    if first = "" then
      match trimEnd rest with
      | [] => none
      | ps => some ("/" ++ shown [] ps)
    else if first = "." then
      match trimEnd rest with
      | [] => some ""
      | ps => some (shown ["."] ps)
    else some (shown [] (trimEnd (first :: rest)))

/-- A step from a place along one piece of text. -/
def step (p : Path) (piece : String) : Path :=
  if leadsNowhere piece then p else if piece = ".." then p.tail else piece :: p

/-! ### Names -/

-- A file name before and after its last dot. A dot in front does not count.
def dotted (name : String) : String × Option String :=
  match (Text.split '.' name.toList).reverse with
  | last :: before =>
    let stem := Text.join ['.'] before.reverse
    if stem = [] then (name, none) else (String.ofList stem, some (String.ofList last))
  | [] => (name, none)

def stem (name : String) : String := (dotted name).1

/-- What follows the last dot of a file name. -/
def extension? (name : String) : Option String := (dotted name).2

end Path
end ScraperTimeline
