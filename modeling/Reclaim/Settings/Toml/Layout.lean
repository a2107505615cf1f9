/-!
# The layout of TOML documents

Blanks, comments and line ends. A line ends with a line feed, which a carriage return may precede; a
carriage return on its own is no line end and does not occur in a document.
-/

namespace Reclaim.Toml

/-- Reads something off the front of a text. -/
abbrev Reader (α : Type) := List Char → Option (α × List Char)

def isBlank (c : Char) : Bool := c == ' ' || c == '\t'

/-- Control characters other than the tab do not occur in a document. -/
def isControl (c : Char) : Bool := (c.val < 0x20 && c != '\t') || c.val == 0x7F

def isLineBreak (c : Char) : Bool := c == '\n' || c == '\r'

def skipBlanks (cs : List Char) : List Char := cs.dropWhile isBlank

/-- Passes over a comment, if there is one. -/
def skipComment (cs : List Char) : Option (List Char) :=
  match cs with
  | '#' :: rest =>
    if (rest.takeWhile (!isLineBreak ·)).any isControl then none
    else some (rest.dropWhile (!isLineBreak ·))
  | _ => some cs

/-- Passes over a line break. -/
def skipLineBreak? : List Char → Option (List Char)
  | '\n' :: rest => some rest
  | '\r' :: '\n' :: rest => some rest
  | _ => none

/-- Passes over blanks and line breaks. -/
def skipSpace : List Char → List Char
  | '\n' :: cs => skipSpace cs
  | '\r' :: '\n' :: cs => skipSpace cs
  | c :: cs => if isBlank c then skipSpace cs else c :: cs
  | [] => []

/-- Passes over the rest of a line that holds nothing more. -/
def endLine (cs : List Char) : Option (List Char) := do
  let rest ← skipComment (skipBlanks cs)
  if rest.isEmpty then some [] else skipLineBreak? rest

/-- Passes over blanks, comments and line breaks, from inside a comment if `comment` holds. -/
def skipGapFrom : Bool → List Char → Option (List Char)
  | _, [] => some []
  | _, '\n' :: cs => skipGapFrom false cs
  | _, '\r' :: '\n' :: cs => skipGapFrom false cs
  | true, c :: cs => if isControl c then none else skipGapFrom true cs
  | false, '#' :: cs => skipGapFrom true cs
  | false, c :: cs => if isBlank c then skipGapFrom false cs else some (c :: cs)

/-- Passes over blanks, comments and line breaks. -/
def skipGap (cs : List Char) : Option (List Char) := skipGapFrom false cs

end Reclaim.Toml
