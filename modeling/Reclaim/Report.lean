import Reclaim.Decimal.Fixed
import Reclaim.Mutator.Inspect
import Reclaim.Workload

/-!
# The report of a run
-/

namespace Reclaim

/-- A span of time. -/
structure Duration where
  seconds : UInt64
  /-- Below a thousand million. -/
  nanos : Nat
  deriving DecidableEq, Repr, Inhabited

namespace Duration

def zero : Duration := ⟨0, 0⟩

/-- Nanoseconds beyond a second carry over, as long as the seconds fit a word. -/
def ofParts (seconds nanos : Nat) : Except Fault Duration :=
  let whole := seconds + nanos / 1000000000
  if whole < wordValues then .ok ⟨UInt64.ofNat whole, nanos % 1000000000⟩ else .error .trap

def isZero (d : Duration) : Bool := d == zero

def inSeconds (d : Duration) : Float := d.seconds.toFloat + d.nanos.toFloat / 1e9

def inMilliseconds (d : Duration) : Float := d.inSeconds * 1000.0

end Duration

/-- What a run cost.
mirrors report:10-17 -/
structure Report where
  strategy : Strategy
  workload : Workload
  stats : Stats
  liveObjects : Nat
  liveBytes : UInt64
  /-- Time spent collecting. -/
  pause : Duration
  total : Duration

namespace Report

/-- The report on a heap after a workload.
mirrors report:21-31 -/
def ofMutator (m : Mutator) (workload : Workload) (pause total : Duration) :
    Except Fault Report := do
  let blocks ← m.objects
  return {
    strategy := m.strategy
    workload
    stats := m.machine.stats
    liveObjects := blocks.length
    liveBytes := Mutator.bytesOf blocks
    pause
    total }

/-- The share of the time spent collecting, in percent.
mirrors report:34-39 -/
def gcShare (r : Report) : Float :=
  if r.total.isZero then 0.0 else r.pause.inSeconds / r.total.inSeconds * 100.0

/-- Times have three decimals, the share has one.
mirrors report:43-74 -/
def lines (r : Report) : List String :=
  let s := r.stats
  [ s!"strategy:      {r.strategy.name}",
    s!"workload:      {r.workload.name}",
    s!"allocations:   {s.allocations} ({s.allocatedBytes} bytes)",
    s!"GC count:      {s.collections} (minor {s.minorCollections}, major {s.majorCollections})",
    s!"reclaimed:     {s.totalReclaimed} bytes",
    s!"live:          {r.liveObjects} objects, {r.liveBytes} bytes",
    s!"GC time:       {Decimal.ofFloat 3 r.pause.inMilliseconds} ms ({Decimal.ofFloat 1 r.gcShare}%)",
    s!"total time:    {Decimal.ofFloat 3 r.total.inMilliseconds} ms" ]

def text (r : Report) : String := String.intercalate "\n" r.lines

end Report

end Reclaim
