/-!
# Reclamation strategies

The six ways of reclaiming storage and the names by which they are selected.
-/

namespace Reclaim

/-- A reclamation strategy.
mirrors collector:21-35 -/
inductive Strategy where
  /-- Semispace copying. -/
  | copying
  /-- Mark-sweep over a free list. -/
  | markSweep
  /-- Sliding mark-compact. -/
  | markCompact
  /-- A copying nursery beside a compacted tenured space. -/
  | generational
  /-- Eager reference counting. -/
  | counting
  /-- Reference counting deferred to scans of a zero count table. -/
  | deferredCounting
  deriving DecidableEq, Repr, Inhabited

namespace Strategy

/-- Every strategy, in the order in which they are listed to users.
mirrors collector:39-46 -/
def all : List Strategy :=
  [copying, markSweep, markCompact, generational, counting, deferredCounting]

/-- The strategy selected by `name`; a name that selects nothing means mark-sweep.
mirrors collector:49-58 -/
def ofName (name : String) : Strategy :=
  match name with
  | "copy" | "copying" => copying
  | "mc" | "mark-compact" => markCompact
  | "gen" | "generational" => generational
  | "ref" | "reference-count" => counting
  | "zct" | "reference-count-zct" => deferredCounting
  | _ => markSweep

/-- The short selection name.
mirrors collector:61-70 -/
def name : Strategy → String
  | copying => "copy"
  | markSweep => "ms"
  | markCompact => "mc"
  | generational => "gen"
  | counting => "ref"
  | deferredCounting => "zct"

/-- Can a collection change the address of an object?
mirrors collector:73-78 -/
def isMoving : Strategy → Bool
  | copying | markCompact | generational => true
  | markSweep | counting | deferredCounting => false

instance : ToString Strategy := ⟨name⟩

end Strategy

end Reclaim
