import Reclaim.Settings.Toml.Layout

/-!
# Strings and keys of TOML documents

Strings of one line or several, with escapes between double quotes and without between apostrophes.
A key has parts divided by dots, and each part is a bare word or a string of one line.
-/

namespace Reclaim.Toml

/-- The value of a digit. -/
def digit? (base : Nat) (c : Char) : Option Nat :=
  let d := if c.isDigit then some (c.toNat - '0'.toNat)
    else if 'a' ≤ c && c ≤ 'f' then some (c.toNat - 'a'.toNat + 10)
    else if 'A' ≤ c && c ≤ 'F' then some (c.toNat - 'A'.toNat + 10)
    else none
  d.filter (· < base)

/-! ## Strings -/

/-- The double quote. -/
def quote : Char := '\x22'

/-- The apostrophe, which quotes a string without escapes. -/
def tick : Char := '\x27'

/-- The character whose code `ds` spells. -/
def charOfHex? (ds : List Char) : Option Char := do
  let codes ← ds.mapM (digit? 16)
  let code := codes.foldl (fun acc d => acc * 16 + d) 0
  if code.isValidChar then some (Char.ofNat code) else none

/-- A character given by a code of `n` digits. -/
def coded (n : Nat) (cs : List Char) : Option (Char × List Char) :=
  if (cs.take n).length < n then none else (charOfHex? (cs.take n)).map (·, cs.drop n)

/-- Reads an escape after its backslash. -/
def escape : Reader Char
  | 'b' :: cs => some ('\x08', cs)
  | 't' :: cs => some ('\t', cs)
  | 'n' :: cs => some ('\n', cs)
  | 'f' :: cs => some ('\x0c', cs)
  | 'r' :: cs => some ('\r', cs)
  | 'e' :: cs => some ('\x1b', cs)
  | '\x22' :: cs => some ('\x22', cs)
  | '\\' :: cs => some ('\\', cs)
  | 'x' :: cs => coded 2 cs
  | 'u' :: cs => coded 4 cs
  | 'U' :: cs => coded 8 cs
  | _ => none

/-- Splits the text at the quote that ends a string of one line. A backslash keeps the character
after it from being one. -/
def basicBody : Reader (List Char)
  | [] => none
  | '\\' :: c :: cs => (basicBody cs).map fun (s, rest) => ('\\' :: c :: s, rest)
  | c :: cs =>
    if c == quote then some ([], cs) else (basicBody cs).map fun (s, rest) => (c :: s, rest)

/-- What stands between the quotes of a string of one line, with its escapes read in at most `n`
steps. -/
def unescape : Nat → List Char → Option (List Char)
  | _, [] => some []
  | 0, _ :: _ => none
  | n + 1, c :: cs =>
    if c == '\\' then do
      let (e, rest) ← escape cs
      return e :: (← unescape n rest)
    else if isControl c then none
    else do return c :: (← unescape n cs)

/-- The rest of a string of one line with escapes. -/
def basicString (cs : List Char) : Option (List Char × List Char) := do
  let (body, rest) ← basicBody cs
  return (← unescape body.length body, rest)

/-- The rest of a string of one line without escapes. -/
def literalString (cs : List Char) : Option (List Char × List Char) :=
  let s := cs.takeWhile (· != tick)
  match cs.dropWhile (· != tick) with
  | _ :: rest => if s.any isControl then none else some (s, rest)
  | [] => none

/-- Does the text begin with three of `q`? Up to two more of them still belong to the string; these
and what follows the closing three. -/
def closing? (q : Char) (cs : List Char) : Option (List Char × List Char) :=
  match cs with
  | a :: b :: c :: rest =>
    if a == q && b == q && c == q then
      let extra := (rest.take 2).takeWhile (· == q)
      some (extra, rest.drop extra.length)
    else none
  | _ => none

/-- Splits the text at the three quotes that end a string of several lines. If it has escapes, a
backslash keeps the character after it from being one of them. -/
def longBody (q : Char) (escapes : Bool) : Reader (List Char)
  | [] => none
  | c :: cs =>
    match closing? q (c :: cs) with
    | some (extra, rest) => some (extra, rest)
    | none =>
      if escapes && c == '\\' then
        match cs with
        | d :: cs => (longBody q escapes cs).map fun (s, rest) => (c :: d :: s, rest)
        | [] => none
      else (longBody q escapes cs).map fun (s, rest) => (c :: s, rest)

/-- What stands between the quotes of a string of several lines, read in at most `n` steps. A
backslash at the end of a line takes the line break and the space after it out of the string. -/
def unfoldLines (escapes : Bool) : Nat → List Char → Option (List Char)
  | _, [] => some []
  | 0, _ :: _ => none
  | n + 1, c :: cs =>
    if escapes && c == '\\' then
      match skipLineBreak? (skipBlanks cs) with
      | some rest => unfoldLines escapes n (skipSpace rest)
      | none => do
        let (e, rest) ← escape cs
        return e :: (← unfoldLines escapes n rest)
    else match skipLineBreak? (c :: cs) with
      | some rest => do return '\n' :: (← unfoldLines escapes n rest)
      | none => if isControl c then none else do return c :: (← unfoldLines escapes n cs)

/-- The rest of a string of several lines. A line break right after the opening quotes does not
count. -/
def longString (q : Char) (escapes : Bool) (cs : List Char) : Option (List Char × List Char) := do
  let (body, rest) ← longBody q escapes ((skipLineBreak? cs).getD cs)
  return (← unfoldLines escapes body.length body, rest)

/-- A string of any kind. -/
def string (cs : List Char) : Option (String × List Char) :=
  let chars := match cs with
    | '\x22' :: '\x22' :: '\x22' :: rest => longString quote true rest
    | '\x22' :: rest => basicString rest
    | '\x27' :: '\x27' :: '\x27' :: rest => longString tick false rest
    | '\x27' :: rest => literalString rest
    | _ => none
  chars.map fun (s, rest) => (String.ofList s, rest)

/-! ## Keys -/

def isBare (c : Char) : Bool := c.isAlphanum || c == '_' || c == '-'

/-- One part of a key. -/
def keyPart (cs : List Char) : Option (String × List Char) :=
  match cs with
  | '\x22' :: rest => (basicString rest).map fun (s, r) => (String.ofList s, r)
  | '\x27' :: rest => (literalString rest).map fun (s, r) => (String.ofList s, r)
  | _ =>
    let k := cs.takeWhile isBare
    if k.isEmpty then none else some (String.ofList k, cs.dropWhile isBare)

/-- A key of at most `n` parts. Blanks around them do not count. -/
def keyParts : Nat → Reader (List String)
  | 0, _ => none
  | n + 1, cs => do
    let (k, rest) ← keyPart (skipBlanks cs)
    match skipBlanks rest with
    | '.' :: rest => do
      let (ks, rest) ← keyParts n rest
      some (k :: ks, rest)
    | rest => some ([k], rest)

/-- How many parts a key has at most, and how deep arrays and inline tables lie in each other at
most. -/
def maxDepth : Nat := 80

def key : Reader (List String) := keyParts maxDepth

end Reclaim.Toml
