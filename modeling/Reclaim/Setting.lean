import Reclaim.Word

/-!
# Values of a configuration document

What a document can hold, and how a record or a choice among names is written in it. Two kinds of
documents are read (`Dialect`), and they differ in what stands for a record and for an empty body.

Results:
* `Setting.natBelow?_eq_some_iff`: a bounded count is read exactly if it is one.
-/

namespace Reclaim

/-- A value of a configuration document. -/
inductive Setting where
  | text (s : String)
  | integer (n : Int)
  /-- A number that is not an integer; no setting is one. -/
  | real
  /-- A number too large to be held. Whoever reads it refuses it, even where any value would do. -/
  | tooLarge
  | flag (b : Bool)
  /-- A date, a time of day, or both. -/
  | moment
  | null
  | items (xs : List Setting)
  | table (fields : List (String × Setting))
  deriving Inhabited

/-- The kinds of documents. -/
inductive Dialect where
  | json
  | toml
  deriving DecidableEq, Repr

namespace Setting

def text? : Setting → Option String
  | text s => some s
  | _ => none

def flag? : Setting → Option Bool
  | flag b => some b
  | _ => none

/-- An integer from zero up to, not including, `bound`. -/
def natBelow? (bound : Nat) : Setting → Option Nat
  | integer n => if 0 ≤ n ∧ n < bound then some n.toNat else none
  | _ => none

/-- A count that fits a machine word. -/
def count? (v : Setting) : Option Nat := v.natBelow? wordValues

/-- The body of a name that needs none: nothing at all in JSON, an empty table or list in TOML. -/
def isEmptyBody : Dialect → Setting → Bool
  | .json, null => true
  | .toml, items [] => true
  | .toml, table [] => true
  | _, _ => false

/-- One of several names: a text, or a table with that name as its only key and nothing below it. -/
def name? (d : Dialect) : Setting → Option String
  | text s => some s
  | table [(key, body)] => if body.isEmptyBody d then some key else none
  | _ => none

/-- The fields of a record. In TOML the record may also be the list of its fields, `keys` in that
order: those at the end may be missing, and items beyond the last field are never looked at. A
moment counts as a record with one field that nobody knows. -/
def fields? (d : Dialect) (keys : List String) : Setting → Option (List (String × Setting))
  | table fields => some fields
  | items xs =>
    match d with
    | .json => none
    | .toml => some (keys.zip xs)
  | moment => some [("", moment)]
  | _ => none

mutual

/-- Can the value be read to its end? -/
def isReadable : Setting → Bool
  | tooLarge => false
  | items xs => allReadable xs
  | table fields => fieldsReadable fields
  | _ => true

def allReadable : List Setting → Bool
  | [] => true
  | x :: xs => x.isReadable && allReadable xs

def fieldsReadable : List (String × Setting) → Bool
  | [] => true
  | (_, x) :: fields => x.isReadable && fieldsReadable fields

end

theorem natBelow?_eq_some_iff {bound n : Nat} {v : Setting} :
    v.natBelow? bound = some n ↔ v = integer n ∧ n < bound := by
  unfold natBelow?
  split
  · rename_i m
    split
    · rename_i h
      simp only [Option.some.injEq, integer.injEq]
      omega
    · rename_i h
      simp only [reduceCtorEq, integer.injEq, false_iff]
      omega
  · rename_i h
    simp only [reduceCtorEq, false_iff]
    rintro ⟨rfl, -⟩
    exact h _ rfl

end Setting

end Reclaim
