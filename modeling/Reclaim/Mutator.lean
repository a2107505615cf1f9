import Reclaim.Collector

/-!
# The mutator's handle

Everything a program does with the heap goes through a `Mutator`: allocation, stores, the operand
stack. A fatal failure poisons it, and from then on every operation that could change something is
refused. A collection may move objects, so what has to survive an allocation must lie on the operand
stack or in a global.
-/

namespace Reclaim

/-- mirrors runtime:22-26 -/
structure Mutator where
  machine : Machine Collector
  /-- Has a fatal failure made the heap unusable? -/
  poisoned : Bool

/-- Computations of a program on its heap. -/
abbrev MutatorM := EStateM Fault Mutator

/-- What a collector does without a guard. -/
instance : MonadLift (GcM Collector) MutatorM where
  monadLift x := fun ⟨machine, poisoned⟩ =>
    match x machine with
    | .ok a machine => .ok a ⟨machine, poisoned⟩
    | .error e machine => .error e ⟨machine, poisoned⟩

namespace Mutator

def ofConfig (c : Config) (hash : List UInt8 → UInt64 := Text.Digest.digest) : Mutator :=
  ⟨Machine.ofConfig c hash, false⟩

/-- A new heap, if there is memory for its tables. Any `hash` may spread the names of its globals.
mirrors runtime:37-55 -/
def create (c : Config) (hash : List UInt8 → UInt64 := Text.Digest.digest) :
    Except Fault Mutator := do
  return ⟨← Machine.create c hash, false⟩

/-- A new heap of `heapSize` bytes under the strategy called `name`.
mirrors runtime:32-34 -/
def select (name : String) (heapSize : Nat) : Except Fault Mutator :=
  create (Config.ofSize (Strategy.ofName name) heapSize)

/-- mirrors runtime:58-60 -/
def strategy (m : Mutator) : Strategy := m.machine.own.strategy

/-- mirrors runtime:178-180 -/
def depth (m : Mutator) : Nat := m.machine.roots.depth

def peek? (m : Mutator) (depth : Nat) : Option Value := m.machine.roots.peek? depth

/-- Runs a reader on the arena. -/
def view {α : Type} (m : Mutator) (x : ReadM α) : Except Fault α := x m.machine.heap

end Mutator

namespace MutatorM

variable {α : Type}

/-- Refuses to go on if the heap is poisoned.
mirrors runtime:77-83 -/
def check : MutatorM Unit := do
  if (← get).poisoned then throw (.failed .poisoned)

/-- Runs `x`; a fatal failure poisons the heap.
mirrors runtime:85-95 -/
def guarded (x : MutatorM α) : MutatorM α := fun m =>
  match x m with
  | .ok a m => .ok a m
  | .error (.failed f) m => .error (.failed f) { m with poisoned := m.poisoned || f.isFatal }
  | .error e m => .error e m

/-- An operation of the collector, refused if the heap is poisoned and guarded otherwise. -/
def operate (x : GcM Collector α) : MutatorM α := do
  check
  guarded x

/-- mirrors runtime:63-65 -/
def setStress (on : Bool) : MutatorM Unit :=
  modify fun m => { m with machine := { m.machine with stress := on } }

/-! ## Allocation and collection -/

/-- A new object of `words` words.
mirrors runtime:106-113 -/
def allocateWords (words : Nat) : MutatorM Nat := do
  let obj ← operate (Collector.allocate words)
  modify fun m =>
    let size := words + m.machine.own.headerWords
    { m with machine := { m.machine with stats := m.machine.stats.recordAllocation size } }
  return obj

/-- A new object of `bytes` bytes, rounded up to words, at least one. Its words are zero, and its
object word is left to the caller.
mirrors runtime:102-104 -/
def allocate (bytes : Nat) : MutatorM Nat := allocateWords (max (wordsFor bytes) 1)

/-- mirrors runtime:116-120 -/
def collect : MutatorM Unit := operate Collector.collect

/-- mirrors runtime:123-127 -/
def collectFull : MutatorM Unit := operate Collector.collectFull

/-! ## Stores -/

/-- mirrors runtime:132-137 -/
def writeField (owner field : Nat) (v : Value) : MutatorM Unit :=
  operate (Collector.writeField owner field v)

/-- mirrors runtime:140-146 -/
def writeRoot (slot : RootSlot) (v : Value) : MutatorM Unit :=
  operate (Collector.writeRoot slot v)

/-- The first store into a field of a new object.
mirrors runtime:148-151 -/
def initField (field : Nat) (v : Value) : MutatorM Unit := guarded (Collector.initField field v)

/-! ## Operand stack -/

/-- mirrors runtime:156-160 -/
def push (v : Value) : MutatorM Unit := operate (Collector.push v)

/-- mirrors runtime:166-170 -/
def pop : MutatorM Value := operate Collector.pop

/-- Runs `x` with `v` parked on the stack, and gives `v` back as it is afterwards.
mirrors runtime:184-203 -/
def keeping (v : Value) (x : MutatorM α) : MutatorM (Value × α) := do
  park v
  let result ← attempt x
  let v ← unpark
  match result with
  | .ok a => return (v, a)
  | .error f => throw (.failed f)

end MutatorM

end Reclaim
