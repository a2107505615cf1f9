import Reclaim.Machine
import Reclaim.Object

/-!
# Visiting references

A visitor is given a reference and answers with the value that takes its place. Roots are visited
from the top of the stack down, then bucket by bucket; the fields of an object in their order. A
slot takes its new value as soon as its visit succeeds.
-/

namespace Reclaim

variable {σ : Type}

/-- Replaces what `field` holds by what `visit` makes of it. -/
def visitField (visit : Value → GcM σ Value) (field : Nat) : GcM σ Unit := do
  let v ← loadValue field
  storeValue field (← visit v)

/-- Visits every field of `obj` that held a reference when the visit began.
mirrors trace:88-98 -/
def traceObject (visit : Value → GcM σ Value) (obj : Nat) : GcM σ Unit := do
  (← pointerFields obj).forM (visitField visit)

/-- Replaces what `slot` holds by what `visit` makes of it. -/
def visitRoot (visit : Value → GcM σ Value) (slot : RootSlot) : GcM σ Unit := do
  let v ← getRoot slot
  setRoot slot (← visit v)

/-- Visits every root that held a reference when the visit began.
mirrors trace:13-28 -/
def traceRoots (visit : Value → GcM σ Value) : GcM σ Unit := do
  (← GcM.roots).references.forM (visitRoot visit)

/-! ## Headers

A collector keeps words of its own in front of each object, counted back from the object word. -/

def loadHeader (obj offset : Nat) : ReadM Word := do load (← back obj offset)

def storeHeader (obj offset : Nat) (w : Word) : HeapM Unit := do store (← back obj offset) w

/-- The address in the header word at `offset`, unless the word is zero.
mirrors mark_compact:41-46 -/
def forwardingAt (offset obj : Nat) : ReadM (Option Nat) := do
  let a := (← loadHeader obj offset).toNat
  return if a = 0 then none else some a

/-- The reference `v` after the object it refers to was given a new address, if it was.
mirrors mark_compact:58-64 -/
def redirectAt (offset : Nat) (v : Value) : ReadM Value := do
  match v.ref? with
  | none => return v
  | some obj =>
    match ← forwardingAt offset obj with
    | none => return v
    | some moved => return .ofRef moved

/-- The blocks from `scan` up to `top`: the objects in them with the block sizes. An object lies
`header` words into its block and its size is kept `offset` words before it.
mirrors generational:83-91 -/
def blocksFrom (header offset top : Nat) : Nat → Nat → ReadM (List (Nat × Nat))
  | 0, _ => throw .endless
  | n + 1, scan =>
    if scan < top then do
      let obj := scan + header
      let size := (← loadHeader obj offset).toNat
      return (obj, size) :: (← blocksFrom header offset top n (scan + size))
    else pure []

/-- The blocks that a bump allocator has handed out. -/
def blocksOf (header offset : Nat) (b : Bump) : ReadM (List (Nat × Nat)) :=
  blocksFrom header offset b.top (b.used + 1) b.region.first

end Reclaim
