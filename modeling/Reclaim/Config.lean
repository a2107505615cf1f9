import Reclaim.FreeList
import Reclaim.Strategy

/-!
# Heap configuration
-/

namespace Reclaim

/-- How a heap is laid out and bounded.
mirrors heap:89-112 -/
structure Config where
  strategy : Strategy := .markSweep
  /-- Size of the arena in bytes. -/
  heapSize : Nat := 16384
  /-- Collect before every allocation. -/
  stress : Bool := false
  /-- Slots of the operand stack. -/
  stackCapacity : Nat := 1048576
  /-- Buckets of the global table. -/
  globalTableSize : Nat := 3000
  markStackCapacity : Nat := 1000
  rememberedSetCapacity : Nat := 100
  zeroCountCapacity : Nat := 1024
  /-- Minor collections that an object survives before it is promoted. -/
  tenuringThreshold : Nat := 15
  /-- Each half of the nursery is this fraction of the heap. -/
  nurseryFraction : Nat := 5
  fit : Fit := .first
  deriving DecidableEq, Repr, Inhabited

namespace Config

/-- The default configuration with another strategy and arena.
mirrors heap:134-140 -/
def ofSize (strategy : Strategy) (heapSize : Nat) : Config := { strategy, heapSize }

/-- Whole words of the arena.
mirrors heap:143-145 -/
def heapWords (c : Config) : Nat := c.heapSize / wordBytes

end Config

end Reclaim
