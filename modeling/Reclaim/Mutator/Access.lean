import Reclaim.Mutator
import Reclaim.Text.Lossy

/-!
# Reading objects

What a program can ask of a value without changing anything. A value that is not an object of the
kind asked for gives nothing.
-/

namespace Reclaim

/-- The tag of the object that `v` refers to, if it has one.
mirrors runtime:283-285 -/
def tag? (v : Value) : ReadM (Option Tag) := do
  match v.ref? with
  | none => return none
  | some obj => return Tag.ofCode? (← rawTag obj)

/-- The pair that `v` refers to.
mirrors runtime:287-291 -/
def pair? (v : Value) : ReadM (Option Nat) := do
  match ← tag? v with
  | some .pair => return v.ref?
  | _ => return none

/-- What the field of a pair holds. -/
def pairField? (field : Nat) (v : Value) : ReadM (Option Value) := do
  match ← pair? v with
  | some obj => some <$> loadValue (obj + field)
  | none => return none

/-- mirrors runtime:294-297 -/
def car? (v : Value) : ReadM (Option Value) := pairField? carField v

/-- mirrors runtime:300-303 -/
def cdr? (v : Value) : ReadM (Option Value) := pairField? cdrField v

/-- The text of a string or a symbol.
mirrors runtime:322-330 -/
def text? (v : Value) : ReadM (Option String) := do
  match ← tag? v, v.ref? with
  | some .string, some obj | some .symbol, some obj => return some (Text.decode (← readText obj))
  | _, _ => return none

/-- The character whose code is the lowest 32 bits of a character's object word above the tag.
mirrors runtime:333-338 -/
def char? (v : Value) : ReadM (Option Char) := do
  match ← tag? v, v.ref? with
  | some .char, some obj =>
    let code := (← auxOf obj).toUInt32
    return if h : code.isValidChar then some ⟨code, h⟩ else none
  | _, _ => return none

/-- The items of the list from `v` on.
mirrors runtime:341-348 -/
def listFrom? : Nat → Value → ReadM (Option (List Value))
  | 0, _ => throw .endless
  | n + 1, v => do
    if v.isNil then return some []
    match ← car? v, ← cdr? v with
    | some item, some rest => return (← listFrom? n rest).map (item :: ·)
    | _, _ => return none

/-- The items of a proper list, nothing if `v` is none. A list that runs in a circle has no end; any
other has at most as many pairs as the arena has words.
mirrors runtime:341-348 -/
def list? (v : Value) : ReadM (Option (List Value)) := do listFrom? ((← read).size + 1) v

end Reclaim
