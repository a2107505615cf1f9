import Reclaim.Fault
import Reclaim.Value
import Reclaim.Text.Digest

/-!
# Roots

The operand stack and the table of global variables: every slot from which objects are reachable.
The topmost values of the stack may be *parked*: put there only to survive the next allocation.

Results:
* `Roots.references_eq`: the slots to visit are those of all slots that hold references, in order.
-/

namespace Reclaim

/-- One root.
mirrors roots:10-15 -/
inductive RootSlot where
  /-- A slot of the operand stack, counted from the bottom. -/
  | stack (i : Nat)
  /-- A bucket of the global table. -/
  | global (i : Nat)
  deriving DecidableEq, Repr

/-- mirrors roots:18-24 -/
structure Roots where
  stack : Array Value
  /-- The most values that the stack holds. -/
  capacity : Nat
  /-- How many values at the top of the stack are parked. -/
  parked : Nat
  globals : Array Value
  /-- Spreads names over the buckets of the table. -/
  hash : List UInt8 → UInt64
  deriving Inhabited

/-- Computations on the roots. -/
abbrev RootsM := EStateM Fault Roots

namespace Roots

/-- An empty stack and a table of unbound buckets, at least one.
mirrors roots:28-35 -/
def empty (capacity tableSize : Nat) (hash : List UInt8 → UInt64 := Text.Digest.digest) : Roots :=
  ⟨#[], capacity, 0, Array.replicate (max tableSize 1) Value.undef, hash⟩

/-- New roots; the stack grows as needed, the table is made at once. -/
def create (capacity tableSize : Nat) (hash : List UInt8 → UInt64 := Text.Digest.digest) :
    Except Fault Roots := do
  reserve tableSize
  return empty capacity tableSize hash

/-- mirrors roots:84-86 -/
def depth (r : Roots) : Nat := r.stack.size

/-- mirrors roots:89-91 -/
def tableSize (r : Roots) : Nat := r.globals.size

/-- The value `depth` slots below the top of the stack.
mirrors roots:74-81 -/
def peek? (r : Roots) (depth : Nat) : Option Value :=
  if depth < r.depth then r.stack[r.depth - 1 - depth]? else none

/-- The parked values, bottom first.
mirrors roots:68-71 -/
def parkedValues (r : Roots) : List Value :=
  (r.stack.extract (r.depth - min r.parked r.depth) r.depth).toList

/-- The value of a slot that exists.
mirrors roots:94-99 -/
def get? (r : Roots) : RootSlot → Option Value
  | .stack i => r.stack[i]?
  | .global i => r.globals[i]?

/-- The bucket that a name falls into.
mirrors roots:110-114 -/
def bucket (r : Roots) (name : List UInt8) : Nat := (r.hash name).toNat % r.tableSize

/-- No values on the stack, every bucket unbound.
mirrors roots:125-129 -/
def cleared (r : Roots) : Roots :=
  { r with stack := #[], parked := 0, globals := Array.replicate r.globals.size Value.undef }

/-- Every slot in the order in which collectors visit them: the stack from the top down, then the
buckets. -/
def slots (r : Roots) : List RootSlot :=
  (List.range r.depth).reverse.map .stack ++ (List.range r.tableSize).map .global

/-- Does a slot hold a reference? -/
def holdsRef (r : Roots) (slot : RootSlot) : Bool := (r.get? slot).any Value.isRef

/-- The slots that hold references, in the order in which collectors visit them. -/
def references (r : Roots) : List RootSlot :=
  let add (vs : Array Value) (slot : Nat → RootSlot) (i : Nat) (acc : List RootSlot) :
      List RootSlot :=
    if (vs.getD i .undef).isRef then slot i :: acc else acc
  r.depth.fold (fun i _ acc => add r.stack .stack i acc) []
    ++ r.tableSize.foldRev (fun i _ acc => add r.globals .global i acc) []

/-- Every slot, the stack from the bottom up. -/
def slotsUpward (r : Roots) : List RootSlot :=
  (List.range r.depth).map .stack ++ (List.range r.tableSize).map .global

end Roots

/-! ## Operations -/

/-- Pushes a value. The stack grows as needed, up to its capacity and to what memory holds.
mirrors roots:38-46 -/
def pushRoot (v : Value) : RootsM Unit := fun r =>
  if r.stack.size < r.capacity then
    if r.stack.size + 1 < tableLimit then .ok () { r with stack := r.stack.push v }
      else .error .trap r
  else .error (.failed (.stackOverflow r.capacity)) r

/-- mirrors roots:49-51 -/
def popRoot : RootsM Value := fun r =>
  match r.stack.back? with
  | some v => .ok v { r with stack := r.stack.pop }
  | none => .error (.failed .stackUnderflow) r

/-- Pushes a value that only has to survive the next allocation.
mirrors roots:54-58 -/
def park (v : Value) : RootsM Unit := do
  pushRoot v
  modify fun r => { r with parked := r.parked + 1 }

/-- Takes back the value parked last.
mirrors roots:61-65 -/
def unpark : RootsM Value := do
  let v ← popRoot
  modify fun r => { r with parked := r.parked - 1 }
  return v

/-- mirrors roots:94-99 -/
def getRoot (slot : RootSlot) : RootsM Value := fun r =>
  match r.get? slot with
  | some v => .ok v r
  | none => .error .trap r

/-- mirrors roots:102-107 -/
def setRoot (slot : RootSlot) (v : Value) : RootsM Unit := fun r =>
  match slot with
  | .stack i =>
    if i < r.stack.size then .ok () { r with stack := r.stack.setIfInBounds i v }
      else .error .trap r
  | .global i =>
    if i < r.globals.size then .ok () { r with globals := r.globals.setIfInBounds i v }
    else .error .trap r

/-! ## Laws -/

namespace Roots

theorem fold_references (p : Nat → Bool) (slot : Nat → RootSlot) (n : Nat) :
    n.fold (fun i _ acc => if p i then slot i :: acc else acc) [] =
    ((List.range n).reverse.filter p).map slot := by
  induction n with
  | zero => rfl
  | succ n ih =>
    rw [Nat.fold_succ, ih, List.range_succ, List.reverse_append]
    by_cases h : p n <;> simp [h]

theorem foldRev_references (p : Nat → Bool) (slot : Nat → RootSlot) (n : Nat)
    (acc : List RootSlot) :
    n.foldRev (fun i _ acc => if p i then slot i :: acc else acc) acc
      = ((List.range n).filter p).map slot ++ acc := by
  induction n generalizing acc with
  | zero => rfl
  | succ n ih =>
    rw [Nat.foldRev_succ, ih, List.range_succ]
    by_cases h : p n <;> simp [h]

/-- The slots that hold references are found in the order of all slots. -/
theorem references_eq (r : Roots) : r.references = r.slots.filter r.holdsRef := by
  have hs : ∀ i, (r.stack.getD i .undef).isRef = r.holdsRef (.stack i) := by
    intro i
    by_cases h : i < r.stack.size
    · simp [holdsRef, get?, h]
    · simp [holdsRef, get?, h]; rfl
  have hg : ∀ i, (r.globals.getD i .undef).isRef = r.holdsRef (.global i) := by
    intro i
    by_cases h : i < r.globals.size
    · simp [holdsRef, get?, h]
    · simp [holdsRef, get?, h]; rfl
  simp only [references, fold_references, foldRev_references, slots, List.filter_append,
    List.filter_map,
    List.append_nil]
  congr 2
  · exact List.filter_congr fun i _ => hs i
  · exact List.filter_congr fun i _ => hg i

end Roots

end Reclaim
