import Reclaim.Counting
import Reclaim.Generational
import Reclaim.MarkSweep
import Reclaim.Semispace
import Reclaim.Sliding

/-!
# Collectors

A collector is the state of one of the strategies. Its operations are those of the strategy; a
strategy that has nothing of its own to do on a store, a push, a pop or a copy leaves it at the
plain store, push or pop.
-/

namespace Reclaim

/-- The state of a collector of any strategy. -/
inductive Collector where
  | semispace (s : Semispace)
  | markSweep (s : MarkSweep)
  | sliding (s : Sliding)
  | generational (s : Generational)
  | counting (s : Counting)
  deriving DecidableEq, Repr, Inhabited

namespace Collector

/-- The collector that `c` selects, and the arena after it has laid out its spaces.
mirrors collector:81-94 -/
def build (c : Config) (h : Arena) : Collector × Arena :=
  match c.strategy with
  | .copying => (.semispace (Semispace.ofWords h.size), h)
  | .markSweep => (MarkSweep.build c h).map .markSweep id
  | .markCompact => (.sliding (Sliding.build c h.size), h)
  | .generational => (.generational (Generational.build c h.size), h)
  | .counting => (Counting.build .eager c h).map .counting id
  | .deferredCounting => (Counting.build .deferred c h).map .counting id

/-- mirrors collector:247 -/
def strategy : Collector → Strategy
  | semispace _ => .copying
  | markSweep _ => .markSweep
  | sliding _ => .markCompact
  | generational _ => .generational
  | counting s => s.mode.strategy

/-- Words in front of every object.
mirrors collector:250 -/
def headerWords : Collector → Nat
  | semispace _ => Semispace.headerWords
  | markSweep _ => MarkSweep.headerWords
  | sliding _ => Sliding.headerWords
  | generational _ => Generational.headerWords
  | counting s => s.mode.headerWords

/-- Runs a computation of one strategy on its state. -/
def within {σ α : Type} (wrap : σ → Collector) (s : σ) (x : GcM σ α) : GcM Collector α := fun m =>
  match x (m.withOwn s) with
  | .ok a m => .ok a (m.withOwn (wrap m.own))
  | .error e m => .error e (m.withOwn (wrap m.own))

/-- A new object of `words` zeroed words, after a collection if need be.
mirrors collector:253 -/
def allocate (words : Nat) : GcM Collector Nat := do
  match ← GcM.own with
  | semispace s => within semispace s (Semispace.allocate words)
  | markSweep s => within markSweep s (MarkSweep.allocate words)
  | sliding s => within sliding s (Sliding.allocate words)
  | generational s => within generational s (Generational.allocate words)
  | counting s => within counting s (Counting.allocate words)

/-- The strategy's regular collection.
mirrors collector:256 -/
def collect : GcM Collector Unit := do
  match ← GcM.own with
  | semispace s => within semispace s Semispace.evacuate
  | markSweep s => within markSweep s MarkSweep.collect
  | sliding s => within sliding s Sliding.collect
  | generational s => within generational s Generational.collect
  | counting s => within counting s Counting.collect

/-- A collection of every space.
mirrors collector:259-261 -/
def collectFull : GcM Collector Unit := do
  match ← GcM.own with
  | generational s => within generational s Generational.collectFull
  | _ => collect

/-- Stores `v` into a field of `owner`.
mirrors collector:264-274 -/
def writeField (owner field : Nat) (v : Value) : GcM Collector Unit := do
  match ← GcM.own with
  | generational s => within generational s (Generational.writeField owner field v)
  | counting s => within counting s (Counting.writeField field v)
  | _ => storeValue field v

/-- Stores `v` into a root slot.
mirrors collector:277-285 -/
def writeRoot (slot : RootSlot) (v : Value) : GcM Collector Unit := do
  match ← GcM.own with
  | counting s => within counting s (Counting.writeRoot slot v)
  | _ => setRoot slot v

/-- Stores `v` into a field of a new object.
mirrors collector:288-291 -/
def initField (field : Nat) (v : Value) : GcM Collector Unit := do
  match ← GcM.own with
  | counting s => within counting s (Counting.initField field v)
  | _ => storeValue field v

/-- Pushes `v` onto the operand stack.
mirrors collector:294-296 -/
def push (v : Value) : GcM Collector Unit := do
  match ← GcM.own with
  | counting s => within counting s (Counting.push v)
  | _ => pushRoot v

/-- Pops the operand stack.
mirrors collector:299-301 -/
def pop : GcM Collector Value := do
  match ← GcM.own with
  | counting s => within counting s Counting.pop
  | _ => popRoot

/-- Takes note that `obj` was filled with a copy of another object.
mirrors collector:304-307 -/
def noteCopy (obj : Nat) : GcM Collector Unit := do
  match ← GcM.own with
  | counting s => within counting s (Counting.countCopied obj)
  | _ => pure ()

/-- The objects held, with their block sizes.
mirrors collector:310 -/
def objects : Collector → ReadM (List (Nat × Nat))
  | semispace s => s.objects
  | markSweep s => s.objects
  | sliding s => s.objects
  | generational s => s.objects
  | counting s => s.objects

/-- mirrors collector:313 -/
def describe : Collector → Nat → ReadM ObjectInfo
  | semispace _ => Semispace.describe
  | markSweep _ => MarkSweep.describe
  | sliding _ => Sliding.describe
  | generational _ => Generational.describe
  | counting s => s.describe

/-- The collector after its tables were given up.
mirrors collector:316-318 -/
def released : Collector → Collector
  | generational s => .generational s.released
  | counting s => .counting s.released
  | c => c

end Collector

/-- The machine that `c` describes: a fresh arena, empty roots and the collector it selects. -/
def Machine.ofConfig (c : Config) (hash : List UInt8 → UInt64 := Text.Digest.digest) :
    Machine Collector :=
  let (own, heap) := Collector.build c (Arena.ofBytes c.heapSize)
  { heap
    roots := Roots.empty c.stackCapacity c.globalTableSize hash
    stress := c.stress
    stats := {}
    own }

/-- Sets memory aside for the tables that are made along with a heap: the arena, the globals, and
the remembered set of the strategy that has one. -/
def Config.reserve (c : Config) : Except Fault Unit := do
  Reclaim.reserve c.heapWords
  Reclaim.reserve c.globalTableSize
  if c.strategy = .generational then Reclaim.reserve c.rememberedSetCapacity

/-- A new machine, if there is memory for its tables. -/
def Machine.create (c : Config) (hash : List UInt8 → UInt64 := Text.Digest.digest) :
    Except Fault (Machine Collector) := do
  c.reserve
  return ofConfig c hash

end Reclaim
