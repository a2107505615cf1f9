import Reclaim.FreeList
import Reclaim.ObjectInfo
import Reclaim.Tables
import Reclaim.Trace

/-!
# Reference counting

Objects are carved out of a free list and count the references to them. Counting is either

* *eager*: heap fields, root slots and the operand stack are counted, and an object is reclaimed as
  soon as its count drops to zero, with everything that only it kept alive; or
* *deferred*: heap fields alone are counted. Objects whose count is zero, new ones included, wait in
  a zero count table. A scan counts the roots for a moment, reclaims every waiting object that is
  still at zero, and takes the roots out of the counts again. What only roots keep alive leaves the
  table and enters it again when a root lets go of it.

Neither reclaims cycles.

| eager | deferred | header word                          |
|-------|----------|--------------------------------------|
| -2    | -3       | block size in words, header included |
| -1    | -2       | count, signed                        |
|       | -1       | is the object in the table?          |
-/

namespace Reclaim

/-- When counts are kept.
mirrors ref_count:37-42 -/
inductive CountMode where
  | eager
  | deferred
  deriving DecidableEq, Repr, Inhabited

/-- mirrors ref_count:91-97 -/
structure Counting where
  mode : CountMode
  region : Region
  freeList : FreeList
  zeroCounts : ZeroCountTable
  deriving DecidableEq, Repr, Inhabited

namespace CountMode

/-- mirrors ref_count:101-107 -/
def headerWords : CountMode → Nat
  | eager => 2
  | deferred => 3

/-- mirrors ref_count:312-317 -/
def strategy : CountMode → Strategy
  | eager => .counting
  | deferred => .deferredCounting

end CountMode

namespace Counting

/-- Hands the arena to the free list.
mirrors ref_count:101-113 -/
def build (mode : CountMode) (c : Config) (h : Arena) : Counting × Arena :=
  let (freeList, h') := FreeList.ofRegion h.region c.fit h
  (⟨mode, h.region, freeList, ZeroCountTable.empty c.zeroCountCapacity⟩, h')

/-! ## Headers -/

/-- Where the deferred mode notes that an object is in the table. -/
def queuedOffset : Nat := 1

/-- mirrors ref_count:131-133 -/
def countOffset (mode : CountMode) : Nat := mode.headerWords - 1

/-- mirrors ref_count:136-138 -/
def count (mode : CountMode) (obj : Nat) : ReadM Int := do
  return (← loadHeader obj (countOffset mode)).toInt64.toInt

/-- mirrors ref_count:141-143 -/
def setCount (mode : CountMode) (obj : Nat) (n : Int) : HeapM Unit :=
  storeHeader obj (countOffset mode) (UInt64.ofInt n)

/-- mirrors ref_count:146-148 -/
def isQueued (mode : CountMode) (obj : Nat) : ReadM Bool :=
  match mode with
  | .eager => pure false
  | .deferred => do return (← loadHeader obj queuedOffset) != 0

/-- mirrors ref_count:151-153 -/
def setQueued (obj : Nat) (queued : Bool) : HeapM Unit :=
  storeHeader obj queuedOffset (if queued then 1 else 0)

/-- mirrors ref_count:156-158 -/
def blockSize (mode : CountMode) (obj : Nat) : ReadM Nat := do
  return (← loadHeader obj mode.headerWords).toNat

/-- Adds `n` to the count of `obj`; the new count. -/
def adjust (mode : CountMode) (obj : Nat) (n : Int) : HeapM Int := do
  let c := (← count mode obj) + n
  setCount mode obj c
  return c

/-- Counts one more reference, if `v` is one.
mirrors ref_count:160-165 -/
def increment (mode : CountMode) (v : Value) : HeapM Unit := do
  if let some obj := v.ref? then
    let _ ← adjust mode obj 1

/-- Counts one reference less, whatever the count becomes.
mirrors ref_count:275-282 -/
def decrement (mode : CountMode) (v : Value) : HeapM Unit := do
  if let some obj := v.ref? then
    let _ ← adjust mode obj (-1)

/-! ## Reclaiming -/

/-- Puts `obj` into the table, which must have room.
mirrors ref_count:192-193 -/
def queue (obj : Nat) : GcM Counting Unit := do
  let table := (← GcM.own).zeroCounts
  if table.isFull then GcM.fail table.full
  GcM.modifyOwn fun c => { c with zeroCounts := c.zeroCounts.insert obj }
  setQueued obj true

/-- Takes the reference in `field` of a reclaimed object out of the counts. A child that drops to
zero joins `pending`, or the table if counting is deferred and the table has room. mirrors
ref_count:203-222 -/
def dropField (pending : List Nat) (field : Nat) : GcM Counting (List Nat) := do
  match (← loadValue field).ref? with
  | none => return pending
  | some child =>
    let c ← GcM.own
    if (← adjust c.mode child (-1)) ≠ 0 then return pending
    match c.mode with
    | .eager => return child :: pending
    | .deferred =>
      if ← isQueued c.mode child then return pending
      if c.zeroCounts.isFull then return child :: pending
      queue child
      return pending

/-- Gives the block of `obj` back to the free list; its words.
mirrors ref_count:223-226 -/
def free (obj : Nat) : GcM Counting Nat := do
  let c ← GcM.own
  let block ← back obj c.mode.headerWords
  let size ← blockSize c.mode obj
  let freeList ← c.freeList.give block size
  GcM.modifyOwn fun c => { c with freeList }
  return size

/-- Reclaims the objects of `pending`, the first one first, and what dies with them; the words
freed, added to `freed`. mirrors ref_count:202-228 -/
def releaseAll : Nat → List Nat → Nat → GcM Counting Nat
  | _, [], freed => return freed
  | 0, _ :: _, _ => throw .endless
  | n + 1, obj :: pending, freed => do
    let pending ← (← pointerFields obj).foldlM dropField pending
    releaseAll n pending (freed + (← free obj))

/-- Reclaims `obj` and what dies with it; the words freed. Each object dies once, so no more than
the arena has words. mirrors ref_count:199-229 -/
def release (obj : Nat) : GcM Counting Nat := do
  releaseAll ((← GcM.heapSize) + 1) [obj] 0

/-! ## Scanning the zero count table -/

/-- Goes through the table from entry `i` on and reclaims what is not counted. Was anything
reclaimed, and how many words in all? mirrors ref_count:258-269 -/
def scanPass : Nat → Nat → Bool → Nat → GcM Counting (Bool × Nat)
  | 0, _, _, _ => throw .endless
  | n + 1, i, progress, freed => do
    let c ← GcM.own
    match c.zeroCounts.entries[i]? with
    | none => return (progress, freed)
    | some obj =>
      if (← count c.mode obj) ≤ 0 then
        GcM.modifyOwn fun c => { c with zeroCounts := c.zeroCounts.swapRemove i }
        scanPass n i true (freed + (← release obj))
      else scanPass n (i + 1) progress freed

/-- Goes through the table until nothing more is reclaimed; the words freed.
mirrors ref_count:257-273 -/
def scanTable (bound : Nat) : Nat → Nat → GcM Counting Nat
  | 0, _ => throw .endless
  | n + 1, freed => do
    let (progress, freed) ← scanPass bound 0 false freed
    if progress then scanTable bound n freed else return freed

/-- Keeps those of `entries` that are not counted but parked, and takes the others out of the table.
mirrors ref_count:288-294 -/
def keepParked (mode : CountMode) (parked : List Value) : List Nat → HeapM (List Nat)
  | [] => return []
  | obj :: rest => do
    if (← count mode obj) = 0 ∧ Value.ofRef obj ∈ parked then
      return obj :: (← keepParked mode parked rest)
    else
      setQueued obj false
      keepParked mode parked rest

/-- Reclaims every object in the table to which no root and no field refers. Parked values are taken
back without a barrier, so they stay in the table.
mirrors ref_count:240-301 -/
def scan : GcM Counting Unit := do
  let c ← GcM.own
  let bound := 2 * ((← GcM.heapSize) + c.zeroCounts.length) + 2
  traceRoots fun v => do
    increment c.mode v
    return v
  let freed ← scanTable bound bound 0
  traceRoots fun v => do
    decrement c.mode v
    return v
  let entries ← keepParked c.mode (← GcM.roots).parkedValues (← GcM.own).zeroCounts.entries.toList
  GcM.modifyOwn fun c => { c with zeroCounts := { c.zeroCounts with entries := entries.toArray } }
  let c ← GcM.own
  GcM.recordCycle .zeroCounts freed (c.region.length - c.freeList.freeWords)

/-- Puts `obj` into the table unless it is there, after a scan if the table is full.
mirrors ref_count:185-195 -/
def enqueue (obj : Nat) : GcM Counting Unit := do
  let c ← GcM.own
  if !(← isQueued c.mode obj) then
    if c.zeroCounts.isFull then scan
    queue obj

/-- One reference less: at zero the object is reclaimed, or queued if counting is deferred.
mirrors ref_count:167-182 -/
def letGo (v : Value) : GcM Counting Unit := do
  if let some obj := v.ref? then
    let mode := (← GcM.own).mode
    if (← adjust mode obj (-1)) = 0 then
      match mode with
      | .eager =>
        let _ ← release obj
      | .deferred => enqueue obj

/-- A root let go of `v`: if nothing else counts, it is queued.
mirrors ref_count:232-237 -/
def unroot (v : Value) : GcM Counting Unit := do
  if let some obj := v.ref? then
    if (← count (← GcM.own).mode obj) = 0 then enqueue obj

/-! ## Operations -/

/-- A block of at least `size` words from the free list. -/
def take? (size : Nat) : GcM Counting (Option (Nat × Nat)) := do
  let (found, freeList) ← (← GcM.own).freeList.take size
  GcM.modifyOwn fun c => { c with freeList }
  return found

/-- A block of at least `size` words. The deferred mode scans beforehand if it must, and again if no
block was found.
mirrors ref_count:332-351 -/
def acquire (size : Nat) : GcM Counting (Nat × Nat) := do
  let c ← GcM.own
  match c.mode with
  | .eager =>
    match ← take? size with
    | some found => return found
    | none => GcM.exhausted c.mode.strategy size
  | .deferred =>
    if (← GcM.stressed) || c.zeroCounts.isFull then scan
    match ← take? size with
    | some found => return found
    | none =>
      scan
      match ← take? size with
      | some found => return found
      | none => GcM.exhausted c.mode.strategy size

/-- mirrors ref_count:323-364 -/
def allocate (words : Nat) : GcM Counting Nat := do
  let c ← GcM.own
  let size := words + c.mode.headerWords
  if c.region.length < size then GcM.tooLarge size c.region.length
  let (block, actual) ← acquire size
  let obj := block + c.mode.headerWords
  store block (UInt64.ofNat actual)
  clearWords (block + 1) (actual - 1)
  if c.mode = .deferred then
    let table := (← GcM.own).zeroCounts
    if table.isFull then
      let freeList ← (← GcM.own).freeList.give block actual
      GcM.modifyOwn fun c => { c with freeList }
      GcM.fail table.full
    queue obj
  return obj

/-- mirrors ref_count:366-371 -/
def collect : GcM Counting Unit := do
  match (← GcM.own).mode with
  | .eager => pure ()
  | .deferred => scan

/-- Stores into a field that held a value before.
mirrors ref_count:373-384 -/
def writeField (field : Nat) (v : Value) : GcM Counting Unit := do
  increment (← GcM.own).mode v
  let old ← loadValue field
  storeValue field v
  letGo old

/-- Stores into a root slot.
mirrors ref_count:386-401 -/
def writeRoot (slot : RootSlot) (v : Value) : GcM Counting Unit := do
  match (← GcM.own).mode with
  | .eager =>
    increment .eager v
    let old ← getRoot slot
    setRoot slot v
    letGo old
  | .deferred =>
    let old ← getRoot slot
    setRoot slot v
    unroot old

/-- Stores into a field of a new object.
mirrors ref_count:403-407 -/
def initField (field : Nat) (v : Value) : GcM Counting Unit := do
  increment (← GcM.own).mode v
  storeValue field v

/-- mirrors ref_count:409-415 -/
def push (v : Value) : GcM Counting Unit := do
  pushRoot v
  match (← GcM.own).mode with
  | .eager => increment .eager v
  | .deferred => pure ()

/-- mirrors ref_count:417-424 -/
def pop : GcM Counting Value := do
  let v ← popRoot
  match (← GcM.own).mode with
  | .eager => letGo v
  | .deferred => unroot v
  return v

/-- Counts the references of an object that was filled with a copy of another one.
mirrors ref_count:426-432 -/
def countCopied (obj : Nat) : GcM Counting Unit := do
  let mode := (← GcM.own).mode
  (← pointerFields obj).forM fun field => do increment mode (← loadValue field)

/-- The objects that are not free, with their block sizes.
mirrors ref_count:434-439 -/
def objects (c : Counting) : ReadM (List (Nat × Nat)) := do
  return (← c.freeList.allocated c.region).map fun (block, size) =>
    (block + c.mode.headerWords, size)

/-- mirrors ref_count:441-448 -/
def describe (c : Counting) (obj : Nat) : ReadM ObjectInfo := do
  let size ← blockSize c.mode obj
  let n ← count c.mode obj
  let queued ← match c.mode with
    | .eager => pure none
    | .deferred => some <$> isQueued c.mode obj
  return { size, count := some n, queued }

/-- Forgets the table and the free list.
mirrors ref_count:450-453 -/
def released (c : Counting) : Counting :=
  { c with zeroCounts := c.zeroCounts.clear, freeList := c.freeList.reset }

end Counting

end Reclaim
