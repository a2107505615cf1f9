import Reclaim.Mutator.Construct

/-!
# Global variables

A bucket of the global table holds a list of entries, each a pair of the name, as a string, and the
value. Binding a name anew changes its entry in place. Which bucket a name falls into does not
matter, as long as it is always the same one.
-/

namespace Reclaim

/-- The entry for `name` in the list from `link` on.
mirrors runtime:378-390 -/
def entryFrom? (name : String) : Nat → Value → ReadM (Option Value)
  | 0, _ => throw .endless
  | n + 1, link => do
    match ← car? link with
    | none => return none
    | some entry =>
      let key ← match ← car? entry with
        | some key => text? key
        | none => pure none
      if key = some name then return some entry
      match ← cdr? link with
      | some rest => entryFrom? name n rest
      | none => return none

namespace MutatorM

/-- The entry for `name` in `bucket`.
mirrors runtime:378-390 -/
def entryAt? (bucket : Nat) (name : String) : GcM Collector (Option Value) := do
  let link ← getRoot (.global bucket)
  entryFrom? name ((← GcM.heapSize) + 1) link

/-- The value bound to `name` in `bucket`.
mirrors runtime:374-376 -/
def lookupAt? (bucket : Nat) (name : String) : GcM Collector (Option Value) := do
  match ← entryAt? bucket name with
  | some entry => cdr? entry
  | none => return none

/-- Binds `name` to `v` in `bucket`.
mirrors runtime:356-371 -/
def defineAt (bucket : Nat) (name : String) (v : Value) : MutatorM Unit := do
  check
  match ← entryAt? bucket name with
  | some entry => setCdr entry v
  | none =>
    let (v, key) ← keeping v (string name)
    let entry ← cons key v
    let head ← getRoot (.global bucket)
    let link ← cons entry (if head.isUndef then .nil else head)
    writeRoot (.global bucket) link

/-- The bucket of `name`.
mirrors roots:110-114 -/
def bucketOf (name : String) : GcM Collector Nat := do
  return (← GcM.roots).bucket (Text.encode name)

/-- mirrors runtime:374-376 -/
def lookup? (name : String) : GcM Collector (Option Value) := do
  lookupAt? (← bucketOf name) name

/-- mirrors runtime:356-371 -/
def define (name : String) (v : Value) : MutatorM Unit := do
  defineAt (← bucketOf name) name v

end MutatorM

end Reclaim
