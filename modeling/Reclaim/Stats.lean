import Reclaim.Word

/-!
# Measurements

What a heap counts: collections by kind, blocks and bytes handed out, bytes reclaimed, and the bytes
in use after the last collection. All counters are 64-bit words.
-/

namespace Reclaim

/-- The kinds of collection cycle.
mirrors collector:119-128 -/
inductive CycleKind where
  /-- Over the whole heap. -/
  | full
  /-- Over the nursery. -/
  | minor
  /-- Over the tenured space. -/
  | major
  /-- Over the zero count table. -/
  | zeroCounts
  deriving DecidableEq, Repr

/-- mirrors collector:132-153 -/
structure Stats where
  collections : UInt64 := 0
  minorCollections : UInt64 := 0
  majorCollections : UInt64 := 0
  allocations : UInt64 := 0
  allocatedBytes : UInt64 := 0
  lastReclaimed : UInt64 := 0
  totalReclaimed : UInt64 := 0
  liveBytes : UInt64 := 0
  deriving DecidableEq, Repr, Inhabited

namespace Stats

/-- After a block of `words` words was handed out.
mirrors collector:157-160 -/
def recordAllocation (s : Stats) (words : Nat) : Stats :=
  { s with
    allocations := s.allocations + 1
    allocatedBytes := s.allocatedBytes + byteCount words }

/-- After a cycle that reclaimed `reclaimed` words and left `live` words in use.
mirrors collector:163-197 -/
def recordCycle (s : Stats) (kind : CycleKind) (reclaimed live : Nat) : Stats :=
  { s with
    collections := s.collections + 1
    minorCollections := if kind = .minor then s.minorCollections + 1 else s.minorCollections
    majorCollections := if kind = .major then s.majorCollections + 1 else s.majorCollections
    lastReclaimed := byteCount reclaimed
    totalReclaimed := s.totalReclaimed + byteCount reclaimed
    liveBytes := byteCount live }

end Stats

end Reclaim
