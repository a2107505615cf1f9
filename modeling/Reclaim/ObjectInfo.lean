/-!
# What a collector knows about an object
-/

namespace Reclaim

/-- The header of an object, in the terms of the collector that keeps it.
mirrors collector:202-215 -/
structure ObjectInfo where
  /-- Words of the block, header included. -/
  size : Nat
  /-- Minor collections survived. -/
  age : Option Nat := none
  /-- Does the object lie in tenured space? -/
  tenured : Option Bool := none
  /-- Is it in the remembered set? -/
  remembered : Option Bool := none
  /-- Counted references. -/
  count : Option Int := none
  /-- Is it in the zero count table? -/
  queued : Option Bool := none
  deriving DecidableEq, Repr, Inhabited

end Reclaim
