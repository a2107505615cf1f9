import Reclaim.Proofs.Construction

/-!
# Scripts

A script is a program that keeps no addresses. What a step works on is an immediate value, or what
is at the end of a path that starts on the operand stack or at a global variable; what a step makes
goes at once onto the stack, into a slot of it or into a global variable. So the same script can be
carried out by anything that has the operations of a `Runtime`: by the mutator of a heap, and by a
`Memory`, where an object is a number and nothing is ever moved or given up.

A path that leads nowhere, and a slot that does not exist, leave a step without anything to do.

Results:
* `Runtime.Each.step`: what holds of every operation of a runtime holds of every step.
* `Runtime.mutator`, `Runtime.memory`: the two runtimes.
* `Script.after?`: the state after a script, unless there was a fatal failure on the way.
-/

namespace Reclaim

/-! ## Steps -/

/-- One of the two fields of a pair. -/
inductive Half where
  | car
  | cdr
  deriving DecidableEq, Repr

namespace Half

/-- Where the field is, counted from the object word. -/
def field : Half → Nat
  | car => carField
  | cdr => cdrField

/-- This one of two things. -/
def pick {α : Type} : Half → α → α → α
  | car, a, _ => a
  | cdr, _, b => b

theorem field_eq (half : Half) : half.field = 1 ∨ half.field = 2 := by
  cases half <;> simp [field, carField, cdrField]

end Half

/-- Where a path starts: at a slot of the operand stack, counted from the bottom, or at a global
variable. -/
inductive Origin where
  | slot (i : Nat)
  | global (name : String)

/-- What a step is given. -/
inductive Operand where
  | plain (v : Value) (h : v.ref? = none)
  | path (start : Origin) (halves : List Half)

/-- How a new object is made. -/
inductive Recipe where
  | cons (car cdr : Operand)
  | char (c : Char)
  | string (s : String)
  | symbol (s : String)
  | lambda (entry params : Int) (variadic : Bool)
  | duplicate (a : Operand)

/-- Where a value goes. -/
inductive Sink where
  | push
  | slot (i : Nat)
  | global (name : String)

inductive Step where
  /-- A value is pushed, stored into a slot or bound to a name. -/
  | put (a : Operand) (sink : Sink)
  /-- And so is a new object. -/
  | make (recipe : Recipe) (sink : Sink)
  | setField (half : Half) (pair a : Operand)
  | pop
  | lookup (name : String)
  | collect
  | collectFull

/-! ## Runtimes -/

/-- What a script can ask for. The values are those of `α`. -/
structure Runtime (m : Type → Type) (α : Type) where
  plain : Value → α
  slot? : Nat → m (Option α)
  lookup? : String → m (Option α)
  field? : Half → α → m (Option α)
  push : α → m Unit
  pop : m α
  writeSlot : Nat → α → m Unit
  define : String → α → m Unit
  setField : Half → α → α → m Unit
  cons : α → α → m α
  char : Char → m α
  string : String → m α
  symbol : String → m α
  lambda : Int → Int → Bool → m α
  duplicate : α → m α
  collect : m Unit
  collectFull : m Unit

section Run

variable {m : Type → Type} {α : Type} [Monad m]

/-- The value at the end of a path. -/
def Runtime.follow? (r : Runtime m α) : List Half → α → m (Option α)
  | [], a => return some a
  | half :: halves, a => do
    match ← r.field? half a with
    | some b => r.follow? halves b
    | none => return none

def Origin.read (r : Runtime m α) : Origin → m (Option α)
  | slot i => r.slot? i
  | global name => r.lookup? name

def Operand.read (r : Runtime m α) : Operand → m (Option α)
  | plain v _ => return some (r.plain v)
  | path start halves => do
    match ← start.read r with
    | some a => r.follow? halves a
    | none => return none

def Recipe.make (r : Runtime m α) : Recipe → m (Option α)
  | cons car cdr => do
    match ← car.read r, ← cdr.read r with
    | some a, some b => some <$> r.cons a b
    | _, _ => return none
  | char c => some <$> r.char c
  | string s => some <$> r.string s
  | symbol s => some <$> r.symbol s
  | lambda entry params variadic => some <$> r.lambda entry params variadic
  | duplicate a => do
    match ← a.read r with
    | some a => some <$> r.duplicate a
    | none => return none

def Sink.take (r : Runtime m α) (a : α) : Sink → m Unit
  | push => r.push a
  | slot i => do
    match ← r.slot? i with
    | some _ => r.writeSlot i a
    | none => return ()
  | global name => r.define name a

def Step.run (r : Runtime m α) : Step → m Unit
  | put a sink => do
    match ← a.read r with
    | some a => sink.take r a
    | none => return ()
  | make recipe sink => do
    match ← recipe.make r with
    | some a => sink.take r a
    | none => return ()
  | setField half pair a => do
    match ← pair.read r, ← a.read r with
    | some pair, some a => r.setField half pair a
    | _, _ => return ()
  | pop => do
    let _ ← r.pop
  | lookup name => do
    let _ ← r.lookup? name
  | collect => r.collect
  | collectFull => r.collectFull

end Run

/-! ## What holds of every step -/

section Each

variable {m : Type → Type} {α : Type} [Monad m]

/-- The texts that a recipe makes are among those of `T`. -/
def Recipe.Spells (T : String → Prop) : Recipe → Prop
  | string s | symbol s => T s
  | _ => True

def Step.Spells (T : String → Prop) : Step → Prop
  | make recipe _ => recipe.Spells T
  | _ => True

theorem Step.spells_any (step : Step) : step.Spells fun _ => True := by
  cases step with
  | make recipe sink => cases recipe <;> trivial
  | _ => trivial

/-- The operations of the runtime have the property `P`, as long as the texts that are made are
among those of `T`, and `P` is kept when one computation follows another. -/
structure Runtime.Each (r : Runtime m α) (P : ∀ β : Type, m β → Prop)
    (T : String → Prop) : Prop where
  pure : ∀ {β : Type} (b : β), P β (pure b)
  bind : ∀ {β γ : Type} {x : m β} {f : β → m γ}, P β x → (∀ b, P γ (f b)) → P γ (x >>= f)
  slot? : ∀ i, P _ (r.slot? i)
  lookup? : ∀ name, P _ (r.lookup? name)
  field? : ∀ half a, P _ (r.field? half a)
  push : ∀ a, P _ (r.push a)
  pop : P _ r.pop
  writeSlot : ∀ i a, P _ (r.writeSlot i a)
  define : ∀ name a, P _ (r.define name a)
  setField : ∀ half a b, P _ (r.setField half a b)
  cons : ∀ a b, P _ (r.cons a b)
  char : ∀ c, P _ (r.char c)
  string : ∀ s, T s → P _ (r.string s)
  symbol : ∀ s, T s → P _ (r.symbol s)
  lambda : ∀ entry params variadic, P _ (r.lambda entry params variadic)
  duplicate : ∀ a, P _ (r.duplicate a)
  collect : P _ r.collect
  collectFull : P _ r.collectFull

namespace Runtime.Each

variable {r : Runtime m α} {P : ∀ β : Type, m β → Prop} {T : String → Prop} {β γ : Type}

/-- What follows something that may be missing. -/
theorem found {x : m (Option β)} {f : Option β → m γ} (hr : r.Each P T) (hx : P _ x)
    (hnone : P _ (f none)) (hsome : ∀ b, P _ (f (some b))) :
    P _ (x >>= f) := hr.bind hx fun b => by cases b <;> [exact hnone; exact hsome _]

theorem some [LawfulMonad m] {x : m β} (hr : r.Each P T) (hx : P _ x) :
    P _ (Option.some <$> x) := by
  rw [map_eq_pure_bind]
  exact hr.bind hx fun _ => hr.pure _

theorem follow? (hr : r.Each P T) (halves : List Half) (a : α) : P _ (r.follow? halves a) := by
  induction halves generalizing a with
  | nil => exact hr.pure _
  | cons half halves ih => exact hr.found (hr.field? half a) (hr.pure _) ih

theorem operand (hr : r.Each P T) (a : Operand) : P _ (a.read r) := by
  cases a with
  | plain v hv => exact hr.pure _
  | path start halves =>
    have hstart : P _ (start.read r) := by cases start <;> [exact hr.slot? _; exact hr.lookup? _]
    exact hr.found hstart (hr.pure _) (hr.follow? halves)

theorem sink (hr : r.Each P T) (sink : Sink) (a : α) : P _ (sink.take r a) := by
  cases sink with
  | push => exact hr.push a
  | slot i => exact hr.found (hr.slot? i) (hr.pure _) fun _ => hr.writeSlot i a
  | global name => exact hr.define name a

theorem recipe [LawfulMonad m] (hr : r.Each P T) (recipe : Recipe) (ht : recipe.Spells T) :
    P _ (recipe.make r) := by
  cases recipe with
  | cons car cdr =>
    refine hr.found (hr.operand car) ?_ fun a => ?_
    · exact hr.found (hr.operand cdr) (hr.pure _) fun _ => hr.pure _
    · exact hr.found (hr.operand cdr) (hr.pure _) fun b => hr.some (hr.cons a b)
  | char c => exact hr.some (hr.char c)
  | string s => exact hr.some (hr.string s ht)
  | symbol s => exact hr.some (hr.symbol s ht)
  | lambda entry params variadic => exact hr.some (hr.lambda entry params variadic)
  | duplicate a => exact hr.found (hr.operand a) (hr.pure _) fun a => hr.some (hr.duplicate a)

theorem step [LawfulMonad m] (hr : r.Each P T) (step : Step) (ht : step.Spells T) :
    P _ (step.run r) := by
  cases step with
  | put a sink => exact hr.found (hr.operand a) (hr.pure _) (hr.sink sink)
  | make recipe sink => exact hr.found (hr.recipe recipe ht) (hr.pure _) (hr.sink sink)
  | setField half pair a =>
    refine hr.found (hr.operand pair) ?_ fun v => ?_
    · exact hr.found (hr.operand a) (hr.pure _) fun _ => hr.pure _
    · exact hr.found (hr.operand a) (hr.pure _) fun w => hr.setField half v w
  | pop => exact hr.bind hr.pop fun _ => hr.pure _
  | lookup name => exact hr.bind (hr.lookup? name) fun _ => hr.pure _
  | collect => exact hr.collect
  | collectFull => exact hr.collectFull

end Runtime.Each

end Each

/-- The state after the steps. There is none after a fatal failure, nor after a step that does not
come to an end. -/
def Script.after? {σ α : Type} (r : Runtime (EStateM Fault σ) α) : List Step → σ → Option σ
  | [], s => some s
  | step :: steps, s =>
    match step.run r s with
    | .ok _ s' => after? r steps s'
    | .error (.failed f) s' => if f.isFatal then none else after? r steps s'
    | .error _ _ => none

namespace Script

variable {σ α : Type} {r : Runtime (EStateM Fault σ) α} {step : Step} {steps : List Step} {s s' : σ}

theorem after?_ok (h : step.run r s = .ok () s') :
    after? r (step :: steps) s = after? r steps s' := by rw [after?, h]

theorem after?_failed {f : Failure} (h : step.run r s = .error (.failed f) s') :
    after? r (step :: steps) s = if f.isFatal then none else after? r steps s' := by rw [after?, h]

theorem after?_stuck {e : Fault} (h : step.run r s = .error e s') (he : ∀ f, e ≠ .failed f) :
    after? r (step :: steps) s = none := by
  rw [after?, h]
  cases e with
  | failed f => exact absurd rfl (he f)
  | trap | endless => rfl

end Script

/-! ## The mutator of a heap -/

/-- The runtime proper. -/
def Runtime.mutator : Runtime MutatorM Value where
  plain := id
  slot? i := do return (← get).machine.roots.get? (.stack i)
  lookup? name := MutatorM.lookup? name
  field? half v := pairField? half.field v
  push := MutatorM.push
  pop := MutatorM.pop
  writeSlot i v := MutatorM.writeRoot (.stack i) v
  define := MutatorM.define
  setField half pair v := MutatorM.setPairField half.field pair v
  cons := MutatorM.cons
  char := MutatorM.char
  string := MutatorM.string
  symbol := MutatorM.symbol
  lambda := MutatorM.lambda
  duplicate := MutatorM.duplicate
  collect := MutatorM.collect
  collectFull := MutatorM.collectFull

namespace Runtime

-- `rfl` would carry out the search for the name
theorem mutator_lookup? (name : String) :
    mutator.lookup? name = liftM (MutatorM.lookup? name) := by rw [mutator]

theorem mutator_field? (half : Half) (v : Value) :
    mutator.field? half v = liftM (pairField? half.field v) := by rw [mutator]

end Runtime

/-- A new heap after a script, unless there was a fatal failure on the way. -/
def Script.on? (c : Config) (steps : List Step) (hash : List UInt8 → UInt64 := Text.Digest.digest) :
    Option Mutator :=
  match Mutator.create c hash with
  | .ok u => after? .mutator steps u
  | .error _ => none

/-- Why a step stops, if it does. -/
def Step.stop? (step : Step) (u : Mutator) : Option Fault :=
  match step.run .mutator u with
  | .ok _ _ => none
  | .error e _ => some e

/-- The step reports a fatal failure. -/
def Step.Ruins (step : Step) (u : Mutator) : Prop := ∃ f, f.isFatal = true ∧
    step.stop? u = some (.failed f)

/-! ## A memory without addresses -/

/-- A value of a memory: an immediate one, or the number of an object. -/
inductive Part where
  | plain (v : Value)
  | node (n : Nat)
  deriving DecidableEq

/-- An object of a memory: a pair, or the words of an object without references. -/
inductive Node where
  | pair (car cdr : Part)
  | leaf (words : List Word)
  deriving DecidableEq

/-- Objects are numbered in the order in which they were made. -/
structure Memory where
  nodes : List Node
  /-- The operand stack, bottom first. -/
  stack : List Part
  capacity : Nat
  globals : String → Option Part

abbrev MemoryM := EStateM Fault Memory

namespace Memory

def empty (capacity : Nat) : Memory := ⟨[], [], capacity, fun _ => none⟩

/-- The pair with this number, and its fields. -/
def pair? (m : Memory) : Part → Option (Nat × Part × Part)
  | .plain _ => none
  | .node n =>
    match m.nodes[n]? with
    | some (.pair a b) => some (n, a, b)
    | _ => none

def field? (m : Memory) (half : Half) (a : Part) : Option Part :=
  (m.pair? a).map fun (_, car, cdr) => half.pick car cdr

def setField (m : Memory) (half : Half) (pair a : Part) : Memory :=
  match m.pair? pair with
  | some (n, car, cdr) => { m with nodes := m.nodes.set n (half.pick (.pair a cdr) (.pair car a)) }
  | none => m

/-- Values that are parked, or pushed, need room on the stack. -/
def room (n : Nat) : MemoryM Unit := fun m =>
  match Roots.parking m.stack.length m.capacity n with
  | .ok _ => .ok () m
  | .error e => .error e m

def add (x : Node) : MemoryM Part := fun m => .ok (.node m.nodes.length) { m with
      nodes := m.nodes ++ [x] }

def push (a : Part) : MemoryM Unit := do
  room 1
  modify fun m => { m with stack := m.stack ++ [a] }

def pop : MemoryM Part := fun m =>
  match m.stack.getLast? with
  | some a => .ok a { m with stack := m.stack.dropLast }
  | none => .error (.failed .stackUnderflow) m

/-- The memory with another value for a name. -/
def assign (m : Memory) (name : String) (a : Part) : Memory :=
  { m with globals := fun n => if n = name then some a else m.globals n }

theorem assign_self {m : Memory} {name n : String} {a : Part} (h : n = name) :
    (m.assign name a).globals n = some a := if_pos h

theorem assign_other {m : Memory} {name n : String} {a : Part} (h : n ≠ name) :
    (m.assign name a).globals n = m.globals n := if_neg h

/-- A new name takes two values to park, one that is bound already takes none. -/
def define (name : String) (a : Part) : MemoryM Unit := do
  if ((← get).globals name).isNone then room 2
  modify fun m => m.assign name a

def cons (a b : Part) : MemoryM Part := do
  room 2
  add (.pair a b)

def duplicate : Part → MemoryM Part
  | .plain v => return .plain v
  | .node n => do
    room 1
    match (← get).nodes[n]? with
    | some x => add x
    | none => return .node n

end Memory

/-- The words of a text. -/
def textNode (tag : Tag) (s : String) : Node :=
  .leaf (objectWord tag (UInt64.ofNat (Text.encode s).length) :: Text.pack (Text.encode s))

/-- A memory can hold the text. -/
def Text.Fits (s : String) : Prop := textWords (encode s).length < tableLimit

instance (s : String) : Decidable (Text.Fits s) := inferInstanceAs (Decidable (_ < _))

/-- A text that no memory holds is never made. -/
def Memory.text (tag : Tag) (s : String) : MemoryM Part :=
  if Text.Fits s then add (textNode tag s) else throw .trap

def Runtime.memory : Runtime MemoryM Part where
  plain := .plain
  slot? i := do return (← get).stack[i]?
  lookup? name := do return (← get).globals name
  field? half a := do return (← get).field? half a
  push := Memory.push
  pop := Memory.pop
  writeSlot i a := modify fun m => { m with stack := m.stack.set i a }
  define := Memory.define
  setField half pair a := modify fun m => m.setField half pair a
  cons := Memory.cons
  char c := Memory.add (.leaf [objectWord .char c.val.toUInt64])
  string := Memory.text .string
  symbol := Memory.text .symbol
  lambda entry params variadic :=
    Memory.add (.leaf [objectWord .lambda (if variadic then 1 else 0), (Value.int entry).bits,
      (Value.int params).bits])
  duplicate := Memory.duplicate
  collect := pure ()
  collectFull := pure ()

end Reclaim
