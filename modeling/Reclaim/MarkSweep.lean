import Reclaim.FreeList
import Reclaim.Marking
import Reclaim.ObjectInfo

/-!
# Mark-sweep

Objects are carved out of a free list over the whole arena. A collection marks what is reachable in
a bitmap beside the arena, then walks the arena block by block and builds the free list anew from
the blocks that are not marked.

| header word | content                              |
|-------------|--------------------------------------|
| -1          | block size in words, header included |
-/

namespace Reclaim

/-- mirrors mark_sweep:78-83 -/
structure MarkSweep where
  region : Region
  freeList : FreeList
  markCapacity : Nat
  deriving DecidableEq, Repr, Inhabited

namespace MarkSweep

def headerWords : Nat := 1

/-- Hands the arena to the free list.
mirrors mark_sweep:87-95 -/
def build (c : Config) (h : Arena) : MarkSweep × Arena :=
  let (freeList, h') := FreeList.ofRegion h.region c.fit h
  (⟨h.region, freeList, c.markStackCapacity⟩, h')

/-- mirrors mark_sweep:20-22 -/
def blockSize (obj : Nat) : ReadM Nat := do return (← loadHeader obj headerWords).toNat

/-- The mark of an address; an address beyond the bitmap is a trap.
mirrors mark_sweep:49-51 -/
def isMarked (a : Nat) : GcM (MarkSweep × MarkBitmap) Bool := do
  match (← GcM.scratch).marked? a with
  | some b => return b
  | none => throw .trap

/-- Marks `obj` and tells whether it was unmarked.
mirrors mark_sweep:40-45 -/
def claim (obj : Nat) : GcM (MarkSweep × MarkBitmap) Bool := do
  if ← isMarked obj then return false
  GcM.modifyScratch fun marks => marks.mark obj
  return true

/-- Walks the blocks from `scan` on: a marked one adds to `live`, any other goes to the free list.
mirrors mark_sweep:117-131 -/
def sweepFrom (limit : Nat) : Nat → Nat → Nat → GcM (MarkSweep × MarkBitmap) Nat
  | 0, _, _ => throw .endless
  | n + 1, scan, live => do
    if scan < limit then
      let size ← loadNat scan
      if ← isMarked (scan + headerWords) then sweepFrom limit n (scan + size) (live + size)
      else
        let (s, _) ← GcM.own
        let freeList ← s.freeList.pushBack scan size
        GcM.modifyOwn fun (s, marks) => ({ s with freeList }, marks)
        sweepFrom limit n (scan + size) live
    else return live

/-- Builds the free list from the unmarked blocks; the words of the marked ones.
mirrors mark_sweep:117-131 -/
def sweep : GcM (MarkSweep × MarkBitmap) Nat := do
  GcM.modifyOwn fun (s, marks) => ({ s with freeList := s.freeList.reset }, marks)
  let (s, _) ← GcM.own
  sweepFrom s.region.limit (s.region.length + 1) s.region.first 0

/-- mirrors mark_sweep:133-155 -/
def collect : GcM MarkSweep Unit := do
  let s ← GcM.own
  let (live, _) ← GcM.withScratch (MarkBitmap.empty s.region.length) do
    Marking.mark s.markCapacity claim
    sweep
  let freed := (← GcM.own).freeList.freeWords - s.freeList.freeWords
  GcM.recordCycle .full freed live

/-- A block of at least `size` words from the free list. -/
def take? (size : Nat) : GcM MarkSweep (Option (Nat × Nat)) := do
  let (found, freeList) ← (← GcM.own).freeList.take size
  GcM.modifyOwn fun s => { s with freeList }
  return found

/-- A block of at least `size` words, after a collection if there was none.
mirrors mark_sweep:178-189 -/
def acquire (size : Nat) : GcM MarkSweep (Nat × Nat) := do
  match ← take? size with
  | some found => return found
  | none =>
    collect
    match ← take? size with
    | some found => return found
    | none => GcM.exhausted .markSweep size

/-- mirrors mark_sweep:167-195 -/
def allocate (words : Nat) : GcM MarkSweep Nat := do
  let s ← GcM.own
  let size := max (words + headerWords) FreeList.minChunk
  if s.region.length < size then GcM.tooLarge size s.region.length
  if ← GcM.stressed then collect
  let (block, actual) ← acquire size
  let obj := block + headerWords
  store block (UInt64.ofNat actual)
  clearWords obj (actual - headerWords)
  return obj

/-- The objects that are not free, with their block sizes.
mirrors mark_sweep:201-206 -/
def objects (s : MarkSweep) : ReadM (List (Nat × Nat)) := do
  return (← s.freeList.allocated s.region).map fun (block, size) => (block + headerWords, size)

/-- mirrors mark_sweep:208-213 -/
def describe (obj : Nat) : ReadM ObjectInfo := do return { size := ← blockSize obj }

end MarkSweep

end Reclaim
