import Reclaim.ObjectInfo
import Reclaim.Trace

/-!
# Semispace copying

The arena is split into two halves. Objects are handed out from one of them; a collection copies
everything that is reachable into the other, in the order in which it is found, and then the halves
change roles.

| header word | content                              |
|-------------|--------------------------------------|
| -2          | block size in words, header included |
| -1          | address of the copy, or zero         |
-/

namespace Reclaim

/-- The two halves of the arena.
mirrors copying:78-81 -/
structure Semispace where
  /-- The half that objects are handed out from. -/
  space : Bump
  /-- The half to copy into. -/
  spare : Region
  deriving DecidableEq, Repr, Inhabited

namespace Semispace

def headerWords : Nat := 2
def sizeOffset : Nat := 2
def forwardOffset : Nat := 1

/-- Two equal halves; a word may be left over.
mirrors copying:85-91 -/
def ofWords (words : Nat) : Semispace :=
  let half := words / 2
  ⟨Bump.empty (Region.ofLength 0 half), Region.ofLength half half⟩

/-- mirrors copying:28-30 -/
def blockSize (obj : Nat) : ReadM Nat := do return (← loadHeader obj sizeOffset).toNat

/-- Records that `obj` was copied to `target`; zero means that it was not.
mirrors copying:41-43 -/
def setForwarding (obj target : Nat) : HeapM Unit :=
  storeHeader obj forwardOffset (UInt64.ofNat target)

/-- Copies the object that `v` refers to, unless that was done before, and refers to the copy.
mirrors copying:52-74 -/
def forward (v : Value) : GcM (Semispace × Bump) Value := do
  match v.ref? with
  | none => return v
  | some obj =>
    match ← forwardingAt forwardOffset obj with
    | some moved => return .ofRef moved
    | none =>
      let size ← blockSize obj
      match (← GcM.scratch).allocate? size with
      | none => GcM.exhausted .copying size
      | some (dst, copies) =>
        GcM.setScratch copies
        copyWords (← back obj headerWords) dst size
        let moved := dst + headerWords
        setForwarding moved 0
        setForwarding obj moved
        return .ofRef moved

/-- Visits the copies from `scan` on, and those that are added meanwhile. -/
def scanCopies : Nat → Nat → GcM (Semispace × Bump) Unit
  | 0, _ => throw .endless
  | n + 1, scan => do
    if scan < (← GcM.scratch).top then
      let obj := scan + headerWords
      let size ← blockSize obj
      traceObject forward obj
      scanCopies n (scan + size)

/-- Copies everything reachable into the spare half and exchanges the halves.
mirrors copying:98-138 -/
def evacuate : GcM Semispace Unit := do
  let s ← GcM.own
  let ((), copies) ← GcM.withScratch (Bump.empty s.spare) do
    traceRoots forward
    scanCopies (s.spare.length + 1) s.spare.first
  GcM.modifyOwn fun _ => ⟨copies, s.space.region⟩
  GcM.recordCycle .full (s.space.used - copies.used) copies.used

/-- mirrors copying:150-171 -/
def allocate (words : Nat) : GcM Semispace Nat := do
  let s ← GcM.own
  let size := words + headerWords
  if s.spare.length < size then GcM.tooLarge size s.spare.length
  if (← GcM.stressed) || !s.space.fits size then evacuate
  match (← GcM.own).space.allocate? size with
  | none => GcM.exhausted .copying size
  | some (block, space) =>
    GcM.modifyOwn fun s => { s with space }
    let obj := block + headerWords
    storeHeader obj sizeOffset (UInt64.ofNat size)
    setForwarding obj 0
    clearWords obj words
    return obj

/-- The objects handed out, with their block sizes.
mirrors copying:177-185 -/
def objects (s : Semispace) : ReadM (List (Nat × Nat)) := blocksOf headerWords sizeOffset s.space

/-- mirrors copying:187-192 -/
def describe (obj : Nat) : ReadM ObjectInfo := do return { size := ← blockSize obj }

end Semispace

end Reclaim
