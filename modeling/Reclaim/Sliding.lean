import Reclaim.Marking
import Reclaim.ObjectInfo

/-!
# Sliding mark-compact

Objects are handed out from the bottom of the arena up. A collection marks what is reachable, gives
every marked object its new address in the order of their old ones, redirects all references and
slides the objects down. Survivors keep their order, and what is free is one run at the top.

| header word | content                              |
|-------------|--------------------------------------|
| -3          | block size in words, header included |
| -2          | new address, or zero                 |
| -1          | mark                                 |
-/

namespace Reclaim

/-- mirrors mark_compact:67-70 -/
structure Sliding where
  space : Bump
  markCapacity : Nat
  deriving DecidableEq, Repr, Inhabited

namespace Sliding

def headerWords : Nat := 3
def sizeOffset : Nat := 3
def forwardOffset : Nat := 2
def markOffset : Nat := 1

/-- mirrors mark_compact:74-79 -/
def build (c : Config) (words : Nat) : Sliding :=
  ⟨Bump.empty (Region.ofLength 0 words), c.markStackCapacity⟩

/-- mirrors mark_compact:31-33 -/
def blockSize (obj : Nat) : ReadM Nat := do return (← loadHeader obj sizeOffset).toNat

/-- mirrors mark_compact:36-38 -/
def isMarked (obj : Nat) : ReadM Bool := do return (← loadHeader obj markOffset) != 0

/-- Marks `obj` and tells whether it was unmarked.
mirrors mark_compact:48-56 -/
def claim (obj : Nat) : GcM σ Bool := do
  if ← isMarked obj then return false
  storeHeader obj markOffset 1
  return true

/-- The objects handed out, with their block sizes.
mirrors mark_compact:206-214 -/
def objects (s : Sliding) : ReadM (List (Nat × Nat)) := blocksOf headerWords sizeOffset s.space

/-- Gives the objects their new addresses from `top` on; the address after the last of them.
mirrors mark_compact:99-106 -/
def assign : Nat → List Nat → HeapM Nat
  | top, [] => return top
  | top, obj :: rest => do
    storeHeader obj forwardOffset (UInt64.ofNat (top + headerWords))
    assign (top + (← blockSize obj)) rest

/-- Directs a reference to the new address of its object.
mirrors mark_compact:58-64 -/
def redirect (v : Value) : GcM σ Value := redirectAt forwardOffset v

/-- Moves one object to its new address and clears its marks there.
mirrors mark_compact:122-132 -/
def slide (obj : Nat) : HeapM Unit := do
  match ← forwardingAt forwardOffset obj with
  | none => pure ()
  | some target =>
    let size ← blockSize obj
    copyWords (← back obj headerWords) (← back target headerWords) size
    storeHeader target forwardOffset 0
    storeHeader target markOffset 0

/-- mirrors mark_compact:134-165 -/
def collect : GcM Sliding Unit := do
  let s ← GcM.own
  Marking.mark s.markCapacity claim
  let live ← ((← s.objects).map Prod.fst).filterM fun obj => isMarked obj
  let top ← assign s.space.region.first live
  traceRoots redirect
  live.forM (traceObject redirect)
  live.forM fun obj => slide obj
  let space := s.space.withTop top
  GcM.modifyOwn fun s => { s with space }
  GcM.recordCycle .full (s.space.used - space.used) space.used

/-- mirrors mark_compact:177-200 -/
def allocate (words : Nat) : GcM Sliding Nat := do
  let s ← GcM.own
  let size := words + headerWords
  let limit := s.space.region.length
  if limit < size then GcM.tooLarge size limit
  if (← GcM.stressed) || !s.space.fits size then collect
  match (← GcM.own).space.allocate? size with
  | none => GcM.exhausted .markCompact size
  | some (block, space) =>
    GcM.modifyOwn fun s => { s with space }
    let obj := block + headerWords
    storeHeader obj sizeOffset (UInt64.ofNat size)
    storeHeader obj forwardOffset 0
    storeHeader obj markOffset 0
    clearWords obj words
    return obj

/-- mirrors mark_compact:216-221 -/
def describe (obj : Nat) : ReadM ObjectInfo := do return { size := ← blockSize obj }

end Sliding

end Reclaim
