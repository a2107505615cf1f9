import Reclaim.Arena
import Reclaim.Config
import Reclaim.Roots
import Reclaim.Stats

/-!
# The machine a collector works on

The arena, the roots, the stress switch and the measurements, together with the collector's own
state. A computation in `GcM σ` that fails leaves the machine as far as it got.

Heap and root computations lift into `GcM σ` and then touch nothing but the heap or the roots. A
collection cycle runs with some state of its own beside the collector's (`withScratch`), which is
gone when the cycle ends.
-/

namespace Reclaim

variable {σ τ α : Type}

/-- mirrors collector:218-227 -/
structure Machine (σ : Type) where
  heap : Arena
  roots : Roots
  /-- Collect before every allocation. -/
  stress : Bool
  stats : Stats
  /-- The collector's own state. -/
  own : σ

/-- Computations of a collector whose own state is a `σ`. -/
abbrev GcM (σ : Type) := EStateM Fault (Machine σ)

/-- The same machine with another collector state. -/
def Machine.withOwn (m : Machine σ) (own : τ) : Machine τ :=
  ⟨m.heap, m.roots, m.stress, m.stats, own⟩

/-- A heap computation changes the heap alone. -/
instance : MonadLift HeapM (GcM σ) where
  monadLift x := fun ⟨heap, roots, stress, stats, own⟩ =>
    match x heap with
    | .ok a heap => .ok a ⟨heap, roots, stress, stats, own⟩
    | .error e heap => .error e ⟨heap, roots, stress, stats, own⟩

/-- A root computation changes the roots alone. -/
instance : MonadLift RootsM (GcM σ) where
  monadLift x := fun ⟨heap, roots, stress, stats, own⟩ =>
    match x roots with
    | .ok a roots => .ok a ⟨heap, roots, stress, stats, own⟩
    | .error e roots => .error e ⟨heap, roots, stress, stats, own⟩

namespace GcM

def fail (f : Failure) : GcM σ α := throw (.failed f)

/-- The bytes in `n` words. It is a trap if one word cannot count them. -/
def bytes (n : Nat) : GcM σ UInt64 :=
  if n * wordBytes < wordValues then return byteCount n else throw .trap

/-- Reports that a block of `size` words is larger than the `limit` words it has to lie in. -/
def tooLarge (size limit : Nat) : GcM σ α := do
  let requested ← bytes size
  fail (.objectTooLarge requested (← bytes limit))

/-- Reports that there is no room for a block of `size` words. -/
def exhausted (strategy : Strategy) (size : Nat) : GcM σ α := do
  fail (.heapExhausted strategy (← bytes size))

def own : GcM σ σ := do return (← get).own

def modifyOwn (f : σ → σ) : GcM σ Unit := fun ⟨heap, roots, stress, stats, own⟩ =>
  .ok () ⟨heap, roots, stress, stats, f own⟩

def roots : GcM σ Roots := do return (← get).roots

def heapSize : GcM σ Nat := do return (← get).heap.size

def stressed : GcM σ Bool := do return (← get).stress

/-- mirrors collector:163-197 -/
def recordCycle (kind : CycleKind) (reclaimed live : Nat) : GcM σ Unit :=
  modify fun m => { m with stats := m.stats.recordCycle kind reclaimed live }

/-! ## State of one cycle -/

/-- Runs `x` with `t` beside the collector's state, and tells what became of it. -/
def withScratch (t : τ) (x : GcM (σ × τ) α) : GcM σ (α × τ) := fun m =>
  match x (m.withOwn (m.own, t)) with
  | .ok a m => .ok (a, m.own.2) (m.withOwn m.own.1)
  | .error e m => .error e (m.withOwn m.own.1)

/-- What does not know of the cycle's state leaves it alone. -/
instance (priority := low) : MonadLift (GcM σ) (GcM (σ × τ)) where
  monadLift x := fun m =>
    let t := m.own.2
    match x (m.withOwn m.own.1) with
    | .ok a m => .ok a (m.withOwn (m.own, t))
    | .error e m => .error e (m.withOwn (m.own, t))

def scratch : GcM (σ × τ) τ := do return (← get).own.2

def setScratch (t : τ) : GcM (σ × τ) Unit := modifyOwn fun (s, _) => (s, t)

def modifyScratch (f : τ → τ) : GcM (σ × τ) Unit := modifyOwn fun (s, t) => (s, f t)

end GcM

end Reclaim
