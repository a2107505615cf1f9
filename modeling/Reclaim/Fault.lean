import Reclaim.Word
import Reclaim.Strategy

/-!
# Why an operation stops

A `Failure` is a condition that the heap reports to its client: the state reached so far is kept,
and all but two of the failures are fatal to the heap. A `Fault` is any reason why a computation
gives no answer: a reported failure, an access outside the arena or a root table (`trap`), or a walk
that would never end (`endless`). A table that no memory holds is never made, and asking for it is a
trap too (`reserve`). So is a failure that would have to tell of more bytes than one word can count.
-/

namespace Reclaim

/-- What the heap, the collectors and the root set report.
mirrors error:8-71 -/
inductive Failure where
  /-- No room for a block of `requested` bytes, header included, even after collecting. -/
  | heapExhausted (strategy : Strategy) (requested : UInt64)
  /-- One block is larger than the space it has to lie in. -/
  | objectTooLarge (requested limit : UInt64)
  | markStackOverflow (capacity : Nat)
  /-- The remembered set is full of entries that it must keep. -/
  | rememberedSetFull (capacity : Nat)
  /-- The zero count table is full even after a scan. -/
  | zeroCountTableFull (capacity : Nat)
  | stackOverflow (capacity : Nat)
  | stackUnderflow
  /-- The object at `address` has a tag that no object has. -/
  | corruptObject (address : Nat) (tag : UInt8)
  /-- An earlier fatal failure made the heap unusable. -/
  | poisoned
  deriving DecidableEq, Repr

namespace Failure

def message : Failure → String
  | heapExhausted s requested =>
  s!"heap exhausted: {s.name} could not allocate {requested.toNat} bytes"
  | objectTooLarge requested limit =>
    s!"object of {requested.toNat} bytes exceeds the {limit.toNat} byte allocation limit"
  | markStackOverflow capacity => s!"mark stack overflow (capacity {capacity})"
  | rememberedSetFull capacity => s!"remembered set full (capacity {capacity})"
  | zeroCountTableFull capacity => s!"zero count table full (capacity {capacity})"
  | stackOverflow capacity => s!"operand stack overflow (capacity {capacity})"
  | stackUnderflow => "operand stack underflow"
  | corruptObject address tag =>
    s!"object corrupted at {showAddress address}: unknown tag {tag.toNat}"
  | poisoned => "heap is poisoned by an earlier fatal error"

/-- Does the failure leave the heap unusable? The bounds of the operand stack are checked before
anything is written, so only those two failures are recoverable.
mirrors error:78-80 -/
def isFatal : Failure → Bool
  | stackOverflow _ | stackUnderflow => false
  | _ => true

end Failure

/-- Why a computation gives no answer. -/
inductive Fault where
  /-- A reported failure. -/
  | failed (f : Failure)
  /-- An access outside the arena or a root table, an address below zero, a table too large for any
  memory, or a number of bytes too large for one word. -/
  | trap
  /-- A walk over the heap that would never end. -/
  | endless
  deriving DecidableEq, Repr

/-- A table has fewer words than this: its bytes must number less than `2^63`. -/
def tableLimit : Nat := 0x1000000000000000

/-- Sets memory aside for a table of `n` words. -/
def reserve (n : Nat) : Except Fault Unit := if n < tableLimit then .ok () else .error .trap

/-- Runs `x`; a failure becomes its result, and the state is kept either way. -/
def attempt {σ α : Type} (x : EStateM Fault σ α) : EStateM Fault σ (Except Failure α) := fun s =>
  match x s with
  | .ok a s => .ok (.ok a) s
  | .error (.failed f) s => .ok (.error f) s
  | .error e s => .error e s

/-- The bytes of what fits into memory can be counted. -/
theorem countable_of_lt {n : Nat} (h : n < tableLimit) : n * wordBytes < wordValues := by
  unfold tableLimit at h
  simp only [wordBytes, wordValues]
  omega

theorem reserve_eq_ok_iff {n : Nat} : reserve n = .ok () ↔ n < tableLimit := by
  unfold reserve
  split <;> simp_all

end Reclaim
