import Reclaim.Tables
import Reclaim.Trace

/-!
# The mark phase

Starting from the roots, every reference is followed to an object that is not yet marked; the object
is marked and kept on a bounded stack until its own fields are visited. How objects are marked is up
to the collector: it gives `claim`, which marks an object and tells whether it was unmarked before.
-/

namespace Reclaim.Marking

variable {σ : Type}

/-- Follows one reference.
mirrors mark_sweep:66-74 -/
def shade (claim : Nat → GcM σ Bool) (v : Value) : GcM (σ × MarkStack) Value := do
  match v.ref? with
  | none => return v
  | some obj =>
    if ← claim obj then
      let stack ← GcM.scratch
      if stack.isFull then GcM.fail stack.overflow
      GcM.modifyScratch fun stack => stack.push obj
    return v

/-- The object to visit next. -/
def next? : GcM (σ × MarkStack) (Option Nat) := do
  match (← GcM.scratch).top? with
  | none => return none
  | some obj =>
    GcM.modifyScratch MarkStack.pop
    return some obj

/-- Visits the objects on the stack, and those that come to lie on it, until none is left.
mirrors mark_sweep:102-115 -/
def drain (visit : Value → GcM (σ × MarkStack) Value) : Nat → GcM (σ × MarkStack) Unit
  | 0 => throw .endless
  | n + 1 => do
    match ← next? with
    | none => pure ()
    | some obj =>
      traceObject visit obj
      drain visit n

/-- Marks every object that is reachable from the roots. An object is pushed only when it is
claimed, so no more objects are visited than the arena has words. mirrors mark_sweep:102-115 -/
def mark (capacity : Nat) (claim : Nat → GcM σ Bool) : GcM σ Unit := do
  let bound := (← GcM.heapSize) + 1
  let _ ← GcM.withScratch (MarkStack.empty capacity) do
    traceRoots (shade claim)
    drain (shade claim) bound

end Reclaim.Marking
