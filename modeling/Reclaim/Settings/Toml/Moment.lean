import Reclaim.Settings.Toml.Layout

/-!
# Dates and times of TOML documents

A moment is a date, a time of day, or a date and a time, to which an offset from universal time may
be added. No setting is one, so only their form is checked.
-/

namespace Reclaim.Toml

/-- The number that exactly `n` digits spell. -/
def fixedDigits (n : Nat) (cs : List Char) : Option (Nat × List Char) :=
  let ds := cs.take n
  if ds.length = n ∧ ds.all Char.isDigit then
    some (ds.foldl (fun acc c => acc * 10 + (c.toNat - '0'.toNat)) 0, cs.drop n)
  else none

/-- Two digits that spell a number from `low` to `high`. -/
def pairWithin (low high : Nat) (cs : List Char) : Option (Nat × List Char) := do
  let (n, rest) ← fixedDigits 2 cs
  if low ≤ n ∧ n ≤ high then some (n, rest) else none

/-- Passes over a character. -/
def skipChar (c : Char) : List Char → Option (List Char)
  | d :: rest => if d == c then some rest else none
  | [] => none

def isLeapYear (year : Nat) : Bool := year % 4 == 0 && (year % 100 != 0 || year % 400 == 0)

/-- The days of a month. -/
def daysIn (year month : Nat) : Nat :=
  match month with
  | 2 => if isLeapYear year then 29 else 28
  | 4 | 6 | 9 | 11 => 30
  | _ => 31

/-- Passes over a date: year, month and day. -/
def skipDate (cs : List Char) : Option (List Char) := do
  let (year, rest) ← fixedDigits 4 cs
  let (month, rest) ← pairWithin 1 12 (← skipChar '-' rest)
  let (_, rest) ← pairWithin 1 (daysIn year month) (← skipChar '-' rest)
  some rest

/-- Passes over the decimal places of the seconds, if there are any. -/
def skipPlaces : List Char → Option (List Char)
  | '.' :: c :: rest => if c.isDigit then some (rest.dropWhile Char.isDigit) else none
  | '.' :: [] => none
  | rest => some rest

/-- Passes over a time of day: hour, minute, and seconds if there are any. A minute may have a leap
second. -/
def skipTime (cs : List Char) : Option (List Char) := do
  let (_, rest) ← pairWithin 0 23 cs
  let (_, rest) ← pairWithin 0 59 (← skipChar ':' rest)
  match rest with
  | ':' :: rest => do
    let (_, rest) ← pairWithin 0 60 rest
    skipPlaces rest
  | rest => some rest

/-- Is this an offset from universal time, or nothing? -/
def isOffset : List Char → Bool
  | [] => true
  | ['Z'] | ['z'] => true
  | c :: rest =>
    (c == '+' || c == '-') && (skipHours rest == some [])
where
  skipHours (cs : List Char) : Option (List Char) := do
    let (_, rest) ← pairWithin 0 23 cs
    let (_, rest) ← pairWithin 0 59 (← skipChar ':' rest)
    some rest

/-- Does `c` divide the date from the time? -/
def isDateEnd (c : Char) : Bool := c == 'T' || c == 't' || c == ' '

/-- Does a whole token spell a moment? -/
def isMoment (cs : List Char) : Bool :=
  match skipDate cs with
  | some [] => true
  | some (c :: rest) => isDateEnd c && (skipTime rest).any isOffset
  | none => skipTime cs == some []

end Reclaim.Toml
