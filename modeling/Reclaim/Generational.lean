import Reclaim.Marking
import Reclaim.ObjectInfo

/-!
# Generational collection

The arena holds two halves of a nursery and, above them, tenured space. Objects are handed out in
the nursery. A minor collection copies the live ones into the other half, a year older, and promotes
those that have reached the threshold. Tenured objects that refer to the nursery are kept in a
remembered set and count as roots of a minor collection. When tenured space could no longer take in
a full nursery, a major collection compacts it in place.

| header word | content                                 |
|-------------|-----------------------------------------|
| -3          | new address, or zero                    |
| -2          | block size in words, header included    |
| -1          | flags: age, remembered, tenured, marked |
-/

namespace Reclaim

/-- mirrors generational:168-175 -/
structure Generational where
  /-- The half of the nursery that objects are handed out from. -/
  nursery : Bump
  /-- The half that survivors are copied to. -/
  survivorSpace : Region
  tenured : Bump
  remembered : RememberedSet
  markCapacity : Nat
  /-- The age at which an object is promoted. -/
  threshold : Nat
  deriving DecidableEq, Repr, Inhabited

namespace Generational

def headerWords : Nat := 3
def forwardOffset : Nat := 3
def sizeOffset : Nat := 2
def flagsOffset : Nat := 1

def ageMask : Word := 0xFF
def rememberedFlag : Word := 0x100
def tenuredFlag : Word := 0x200
def markedFlag : Word := 0x400

/-- The nursery takes two parts of the arena, of at most a third each; the rest is tenured space.
mirrors generational:179-190 -/
def build (c : Config) (words : Nat) : Generational :=
  let half := words / max c.nurseryFraction 3
  { nursery := Bump.empty (Region.ofLength 0 half)
    survivorSpace := Region.ofLength half half
    tenured := Bump.empty (Region.ofLength (2 * half) (words - 2 * half))
    remembered := RememberedSet.empty c.rememberedSetCapacity
    markCapacity := c.markStackCapacity
    threshold := c.tenuringThreshold }

/-! ## Headers -/

/-- mirrors generational:46-48 -/
def blockSize (obj : Nat) : ReadM Nat := do return (← loadHeader obj sizeOffset).toNat

/-- mirrors generational:51-53 -/
def flags (obj : Nat) : ReadM Word := loadHeader obj flagsOffset

def hasFlag (flag : Word) (obj : Nat) : ReadM Bool := do return (← flags obj) &&& flag != 0

/-- mirrors generational:56-60 -/
def setFlag (flag : Word) (on : Bool) (obj : Nat) : HeapM Unit := do
  let old ← flags obj
  storeHeader obj flagsOffset (if on then old ||| flag else old &&& ~~~flag)

/-- mirrors generational:63-68 -/
def forwarding (obj : Nat) : ReadM (Option Nat) := forwardingAt forwardOffset obj

/-- Records the new address of `obj`; zero means that it has none.
mirrors generational:71-73 -/
def setForwarding (obj target : Nat) : HeapM Unit :=
  storeHeader obj forwardOffset (UInt64.ofNat target)

/-- Does a field of `obj` refer into `young`? This goes by address, since in the middle of a
collection the header at a new address need not be written yet. mirrors generational:79-81 -/
def pointsInto (young : Region) (obj : Nat) : ReadM Bool := anyChild young.contains obj

/-! ## The remembered set -/

/-- Keeps those of `entries` that still refer into `young`, and takes the flag off the others. An
entry that cannot be read is kept; the first such failure is reported as well. mirrors
generational:219-230 -/
def keepYoung (young : Region) : List Nat → GcM Generational (List Nat × Option Failure)
  | [] => return ([], none)
  | obj :: rest => do
    match ← attempt (pointsInto young obj : GcM Generational Bool) with
    | .ok true =>
      let (kept, failed) ← keepYoung young rest
      return (obj :: kept, failed)
    | .ok false =>
      setFlag rememberedFlag false obj
      keepYoung young rest
    | .error f =>
      let (kept, _) ← keepYoung young rest
      return (obj :: kept, some f)

/-- Drops the entries that no longer refer into `young`.
mirrors generational:217-243 -/
def cleanRemembered (young : Region) : GcM Generational Unit := do
  let (entries, failed) ← keepYoung young (← GcM.own).remembered.toList
  GcM.modifyOwn fun g => { g with remembered := g.remembered.withEntries entries }
  if let some f := failed then GcM.fail f

/-- Adds `obj` to the set, which must have room. -/
def addRemembered (obj : Nat) : GcM Generational Unit := do
  let set := (← GcM.own).remembered
  if set.isFull then GcM.fail set.full
  GcM.modifyOwn fun g => { g with remembered := g.remembered.insert obj }

/-- Adds `obj`, making room first if the set is full.
mirrors generational:207-214 -/
def remember (young : Region) (obj : Nat) : GcM Generational Unit := do
  if (← GcM.own).remembered.isFull then cleanRemembered young
  addRemembered obj
  setFlag rememberedFlag true obj

/-! ## Minor collection -/

/-- The state of a minor collection: where survivors and promoted objects are copied to.
mirrors generational:119-124 -/
structure Evacuation where
  survivors : Bump
  tenured : Bump
  threshold : Nat
  /-- Words promoted. -/
  promoted : Nat
  deriving DecidableEq, Repr, Inhabited

/-- The flags of an object that survives once more: its age goes up, to 255 at most, and it becomes
tenured when it has reached the threshold.
mirrors generational:127-164 -/
def agedFlags (threshold : Nat) (old : Word) : Word :=
  let age := min ((old &&& ageMask) + 1) ageMask
  let new := (old &&& ~~~ageMask) ||| age
  if threshold ≤ age.toNat then new ||| tenuredFlag else new

/-- Is a survivor with these flags before the collection promoted by it? -/
def isPromoted (threshold : Nat) (old : Word) : Bool :=
  threshold ≤ (min ((old &&& ageMask) + 1) ageMask).toNat

/-- Takes room for a survivor of `size` words. -/
def place? (ev : Evacuation) (old : Word) (size : Nat) : Option (Nat × Evacuation) :=
  if isPromoted ev.threshold old then
    (ev.tenured.allocate? size).map fun (dst, tenured) =>
      (dst, { ev with tenured, promoted := ev.promoted + size })
  else
    (ev.survivors.allocate? size).map fun (dst, survivors) => (dst, { ev with survivors })

/-- Copies the nursery object that `v` refers to, unless that was done before, and refers to the
copy. A tenured object stays where it is.
mirrors generational:127-164 -/
def forward (v : Value) : GcM (Generational × Evacuation) Value := do
  match v.ref? with
  | none => return v
  | some obj =>
    let old ← flags obj
    if old &&& tenuredFlag != 0 then return v
    match ← forwarding obj with
    | some moved => return .ofRef moved
    | none =>
      let size ← blockSize obj
      let ev ← GcM.scratch
      match place? ev old size with
      | none => GcM.exhausted .generational size
      | some (dst, ev') =>
        GcM.setScratch ev'
        copyWords (← back obj headerWords) dst size
        let moved := dst + headerWords
        setForwarding moved 0
        storeHeader moved flagsOffset (agedFlags ev.threshold old)
        setForwarding obj moved
        return .ofRef moved

/-- Visits the survivors from `scan` on; where to go on.
mirrors generational:280-284 -/
def scanYoung : Nat → Nat → GcM (Generational × Evacuation) Nat
  | 0, _ => throw .endless
  | n + 1, scan => do
    if scan < (← GcM.scratch).survivors.top then
      let obj := scan + headerWords
      traceObject forward obj
      scanYoung n (scan + (← blockSize obj))
    else return scan

/-- Visits the promoted objects from `scan` on and remembers those that refer to survivors; where to
go on.
mirrors generational:285-292 -/
def scanOld (young : Region) : Nat → Nat → GcM (Generational × Evacuation) Nat
  | 0, _ => throw .endless
  | n + 1, scan => do
    if scan < (← GcM.scratch).tenured.top then
      let obj := scan + headerWords
      traceObject forward obj
      if !(← hasFlag rememberedFlag obj) then
        if ← pointsInto young obj then remember young obj
      scanOld young n (scan + (← blockSize obj))
    else return scan

/-- Visits survivors and promoted objects in turn until both are done.
mirrors generational:279-293 -/
def scanAll (young : Region) (bound : Nat) : Nat → Nat → Nat → GcM (Generational × Evacuation) Unit
  | 0, _, _ => throw .endless
  | n + 1, youngScan, oldScan => do
    let ev ← GcM.scratch
    if youngScan < ev.survivors.top || oldScan < ev.tenured.top then
      let youngScan ← scanYoung bound youngScan
      let oldScan ← scanOld young bound oldScan
      scanAll young bound n youngScan oldScan

/-- Empties the nursery half in use, promoting survivors whose age reaches `threshold`.
mirrors generational:251-308 -/
def evacuate (threshold : Nat) : GcM Generational Unit := do
  let g ← GcM.own
  let bound := (← GcM.heapSize) + 1
  let start : Evacuation := ⟨Bump.empty g.survivorSpace, g.tenured, threshold, 0⟩
  let ((), ev) ← GcM.withScratch start do
    traceRoots forward
    g.remembered.toList.forM (traceObject forward)
    scanAll g.survivorSpace bound bound g.survivorSpace.first g.tenured.top
  GcM.modifyOwn fun g' =>
    { g' with nursery := ev.survivors, survivorSpace := g.nursery.region, tenured := ev.tenured }
  GcM.recordCycle .minor (g.nursery.used - (ev.survivors.used + ev.promoted))
    (ev.survivors.used + ev.tenured.used)

/-- mirrors generational:246-248 -/
def collectMinor : GcM Generational Unit := do evacuate (← GcM.own).threshold

/-! ## Major collection -/

/-- Marks `obj` and tells whether it was unmarked.
mirrors generational:93-101 -/
def claim (obj : Nat) : GcM Generational Bool := do
  if ← hasFlag markedFlag obj then return false
  setFlag markedFlag true obj
  return true

/-- The marked objects that `space` has handed out.
mirrors generational:331-340 -/
def markedIn (space : Bump) : ReadM (List Nat) := do
  ((← blocksOf headerWords sizeOffset space).map Prod.fst).filterM (hasFlag markedFlag)

/-- Sets the remembered flag of each object by whether it refers into `young`; how many do.
mirrors generational:343-349 -/
def flagRemembered (young : Region) : List Nat → HeapM Nat
  | [] => return 0
  | obj :: rest => do
    let hit ← pointsInto young obj
    setFlag rememberedFlag hit obj
    return (if hit then 1 else 0) + (← flagRemembered young rest)

/-- Gives the objects their new addresses from `top` on; the address after the last of them.
mirrors generational:356-361 -/
def assign : Nat → List Nat → HeapM Nat
  | top, [] => return top
  | top, obj :: rest => do
    setForwarding obj (top + headerWords)
    assign (top + (← blockSize obj)) rest

/-- Directs a reference to the new address of its object.
mirrors generational:103-109 -/
def redirect (v : Value) : GcM Generational Value := redirectAt forwardOffset v

/-- Moves one object to its new address, takes its mark off and remembers it if it is flagged so.
mirrors generational:384-396 -/
def slide (obj : Nat) : GcM Generational Unit := do
  match ← forwarding obj with
  | none => pure ()
  | some target =>
    let size ← blockSize obj
    copyWords (← back obj headerWords) (← back target headerWords) size
    setForwarding target 0
    setFlag markedFlag false target
    if ← hasFlag rememberedFlag target then addRemembered target

/-- Marks the whole heap and compacts tenured space.
mirrors generational:311-407 -/
def collectMajor : GcM Generational Unit := do
  let g ← GcM.own
  Marking.mark g.markCapacity claim
  let liveOld ← markedIn g.tenured
  let liveYoung ← markedIn g.nursery
  let remembered ← flagRemembered g.nursery.region liveOld
  if g.remembered.capacity < remembered then
    GcM.fail g.remembered.full
  let top ← assign g.tenured.region.first liveOld
  GcM.modifyOwn fun g => { g with remembered := g.remembered.clear }
  traceRoots redirect
  liveOld.forM (traceObject redirect)
  liveYoung.forM fun obj => do
    traceObject redirect obj
    setFlag markedFlag false obj
  liveOld.forM slide
  let tenured := g.tenured.withTop top
  GcM.modifyOwn fun g => { g with tenured }
  GcM.recordCycle .major (g.tenured.used - tenured.used) (g.nursery.used + tenured.used)

/-! ## Operations -/

/-- A minor collection, and a major one if tenured space could not take in a full nursery after it.
mirrors generational:445-451 -/
def collect : GcM Generational Unit := do
  collectMinor
  let g ← GcM.own
  if !g.tenured.fits g.nursery.region.length then collectMajor

/-- mirrors generational:453-456 -/
def collectFull : GcM Generational Unit := do
  collectMinor
  collectMajor

/-- mirrors generational:419-443 -/
def allocate (words : Nat) : GcM Generational Nat := do
  let g ← GcM.own
  let size := words + headerWords
  let limit := g.nursery.region.length
  if limit < size then GcM.tooLarge size limit
  if (← GcM.stressed) || !g.nursery.fits size then collect
  -- survivors alone may fill the nursery: then all of them are promoted
  if !(← GcM.own).nursery.fits size then evacuate 0
  match (← GcM.own).nursery.allocate? size with
  | none => GcM.exhausted .generational size
  | some (block, nursery) =>
    GcM.modifyOwn fun g => { g with nursery }
    let obj := block + headerWords
    setForwarding obj 0
    storeHeader obj sizeOffset (UInt64.ofNat size)
    storeHeader obj flagsOffset 0
    clearWords obj words
    return obj

/-- Stores into a field of `owner`, and remembers `owner` if it is tenured and `v` is not.
mirrors generational:458-475 -/
def writeField (owner field : Nat) (v : Value) : GcM Generational Unit := do
  storeValue field v
  let ownerFlags ← flags owner
  let young := (← GcM.own).nursery.region
  if ownerFlags &&& tenuredFlag != 0 && ownerFlags &&& rememberedFlag == 0
      && v.ref?.any young.contains then
    remember young owner

/-- The objects of the nursery, then those of tenured space, with their block sizes.
mirrors generational:477-480 -/
def objects (g : Generational) : ReadM (List (Nat × Nat)) := do
  return (← blocksOf headerWords sizeOffset g.nursery) ++
    (← blocksOf headerWords sizeOffset g.tenured)

/-- mirrors generational:482-491 -/
def describe (obj : Nat) : ReadM ObjectInfo := do
  let f ← flags obj
  return {
    size := ← blockSize obj
    age := some (f &&& ageMask).toNat
    tenured := some (f &&& tenuredFlag != 0)
    remembered := some (f &&& rememberedFlag != 0) }

/-- Empties the remembered set.
mirrors generational:493-496 -/
def released (g : Generational) : Generational := { g with remembered := g.remembered.clear }

end Generational

end Reclaim
