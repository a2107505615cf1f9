import Reclaim.Settings.Toml.Moment
import Reclaim.Settings.Toml.Number
import Reclaim.Settings.Toml.Tree

/-!
# TOML documents

A reader for the TOML that configuration files are written in: tables and arrays of tables, dotted
and quoted keys, strings of all four kinds, integers in four bases, reals, booleans, moments, arrays
and inline tables. Any text that is not a document is an error.
-/

namespace Reclaim.Toml

/-! ## Values -/

def isTokenChar (c : Char) : Bool :=
  c.isAlphanum || c == '_' || c == '+' || c == '-' || c == '.' || c == ':'

/-- A token that is not quoted, and what follows it. One space may stand in front of a digit, as
between a date and a time. -/
def token (cs : List Char) : List Char × List Char :=
  let front := cs.takeWhile isTokenChar
  match cs.dropWhile isTokenChar with
  | ' ' :: c :: rest =>
    if c.isDigit then
      (front ++ ' ' :: (c :: rest).takeWhile isTokenChar, (c :: rest).dropWhile isTokenChar)
    else (front, ' ' :: c :: rest)
  | rest => (front, rest)

/-- A token that is not quoted: a boolean, a number or a moment. -/
def plain? (cs : List Char) : Option Setting :=
  if cs == ['t', 'r', 'u', 'e'] then some (.flag true)
  else if cs == ['f', 'a', 'l', 's', 'e'] then some (.flag false)
  else if isMoment cs then some .moment
  else number? cs

mutual

/-- A value with at most `depth` levels of arrays and inline tables. -/
def value : Nat → Nat → Reader Setting
  | 0, _, _ => none
  | n + 1, depth, cs =>
    match cs, depth with
    | '[' :: _, 0 | '\x7b' :: _, 0 => none
    | '[' :: rest, depth + 1 => (items n depth rest).map fun (xs, r) => (.items xs, r)
    | '\x7b' :: rest, depth + 1 =>
      (inlineFields n depth [] rest).map fun (fields, r) => (.table (settings fields), r)
    | c :: _, _ =>
      if c == quote || c == tick then (string cs).map fun (s, r) => (.text s, r)
      else (plain? (token cs).1).map (·, (token cs).2)
    | [], _ => none

/-- The items of an array after its bracket. -/
def items : Nat → Nat → Reader (List Setting)
  | 0, _, _ => none
  | n + 1, depth, cs => do
    match ← skipGap cs with
    | ']' :: rest => some ([], rest)
    | rest =>
      let (v, rest) ← value n depth rest
      match ← skipGap rest with
      | ',' :: rest => do
        let (vs, rest) ← items n depth rest
        some (v :: vs, rest)
      | ']' :: rest => some ([v], rest)
      | _ => none

/-- The fields of an inline table after its brace. It may go over several lines, but not inside a
key. -/
def inlineFields : Nat → Nat → Fields → Reader Fields
  | 0, _, _, _ => none
  | n + 1, depth, fields, cs => do
    match ← skipGap cs with
    | '\x7d' :: rest => some (fields, rest)
    | rest =>
      let (path, rest) ← key rest
      match ← skipGap rest with
      | '=' :: rest =>
        let (v, rest) ← value n depth (← skipGap rest)
        let fields ← assign v path true fields
        match ← skipGap rest with
        | ',' :: rest => inlineFields n depth fields rest
        | '\x7d' :: rest => some (fields, rest)
        | _ => none
      | _ => none

end

/-! ## Documents -/

/-- Reads the lines of a document into `root`, where `path` is the table that is open. -/
def lines : Nat → List String → Fields → List Char → Option Fields
  | 0, _, _, _ => none
  | n + 1, path, root, cs =>
    match skipBlanks cs with
    | [] => some root
    | '[' :: '[' :: rest => do
      let (path, rest) ← key rest
      match rest with
      | ']' :: ']' :: rest => do lines n path (← descend openItem path root) (← endLine rest)
      | _ => none
    | '[' :: rest => do
      let (path, rest) ← key rest
      match rest with
      | ']' :: rest => do lines n path (← descend openTable path root) (← endLine rest)
      | _ => none
    | c :: rest =>
      if c == '#' || isLineBreak c then do lines n path root (← endLine (c :: rest))
      else do
        let (name, rest) ← key (c :: rest)
        match rest with
        | '=' :: rest => do
          let (v, rest) ← value n maxDepth (skipBlanks rest)
          let root ← if path.isEmpty then assign v name true root
            else descend (assignIn name v) path root
          lines n path root (← endLine rest)
        | _ => none

/-- The fields of a document. A byte order mark at its start does not count. -/
def parse? (s : String) : Option (List (String × Setting)) :=
  let cs := match s.toList with
    | '\uFEFF' :: cs => cs
    | cs => cs
  (lines (cs.length + 1) [] [] cs).map settings

end Reclaim.Toml
