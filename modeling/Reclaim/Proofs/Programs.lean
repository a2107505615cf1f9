import Reclaim.Proofs.Chains
import Reclaim.Proofs.Session

/-!
# Programs and their names

Programs that leave the global table to `define`, on a heap that spreads names over it by any hash.
Beside the heap a `Ledger` is kept, a map from names to values: a definition that succeeds enters
its value, and after every command the values follow their objects to new addresses.

Results:
* `Program.steady`: the invariant of a collector holds throughout a program.
-/

namespace Reclaim

namespace Command

/-- The command ends with results, or with a failure that the heap reports. -/
def Answers (cmd : Command) (u : Mutator) (done : Bool) (vs : List Value) (u' : Mutator) : Prop :=
  match done with
  | true => cmd.run u = .ok vs u'
  | false => vs = [] ∧ ∃ f, cmd.run u = .error (.failed f) u'

/-- The command writes into a bucket of the global table, or into the list of a bucket, without
being a definition. -/
def Meddles (cmd : Command) (u : Mutator) : Prop :=
  match cmd with
  | writeRoot (.global _) _ => True
  | setCar pair _ | setCdr pair _ =>
    ∃ (b o : Nat) (head : Value), u.machine.roots.globals[b]? = some head ∧
      pair.ref? = some o ∧
      (u.machine.heap.Link head o ∨ u.machine.heap.Entry head o)
  | _ => False

/-- A program that holds on to the objects of `H` may give the command. An object word has 56 bits
for the length of a text, so no longer name can be told from another. -/
structure Permitted (cmd : Command) (u : Mutator) (H : Nat → Prop) : Prop where
  operands : ∀ v ∈ cmd.operands, u.Allows H v
  apart : ¬ cmd.Meddles u
  short : ∀ name v, cmd = .define name v → (Text.encode name).length < 0x100000000000000

/-- The command writes into field `i` of the object `o`. -/
def Writes (cmd : Command) (u : Mutator) (o i : Nat) : Prop :=
  match cmd with
  | setCar pair _ => pair.ref? = some o ∧ i = 1
  | setCdr pair _ => pair.ref? = some o ∧ i = 2
  | define name _ =>
    MutatorM.entryAt? (u.bucket name) name u.machine = .ok (some (.ofRef o)) u.machine ∧ i = 2
  | _ => False

/-- Slots of the stack follow their values to the addresses `ρ`, but for one that the command
writes. -/
def MapsStack (cmd : Command) (ρ : Nat → Nat) (r r' : Roots) : Prop :=
  ∀ (i : Nat) (v v' : Value), r.stack[i]? = some v → r'.stack[i]? = some v' →
    (∀ w, cmd ≠ .writeRoot (.stack i) w) → v' = v.rename ρ

/-- Slots of the stack that exist before and after a command keep their values, but for one that the
command writes. -/
def KeepsStack (cmd : Command) (r r' : Roots) : Prop :=
  ∀ (i : Nat) (v v' : Value), r.stack[i]? = some v → r'.stack[i]? = some v' →
    (∀ w, cmd ≠ .writeRoot (.stack i) w) → v' = v

namespace KeepsStack

variable {cmd : Command} {r r' : Roots}

theorem of_eq (h : r'.stack = r.stack) : cmd.KeepsStack r r' := by
  intro i v v' hv hv' _
  rw [h] at hv'
  exact Option.some.inj (hv'.symm.trans hv)

theorem push (r : Roots) (v : Value) : cmd.KeepsStack r { r with stack := r.stack.push v } := by
  intro i w w' hw hw' _
  obtain ⟨hlt, -⟩ := Array.getElem?_eq_some_iff.mp hw
  rw [Array.getElem?_push, if_neg (by omega)] at hw'
  exact Option.some.inj (hw'.symm.trans hw)

theorem pop (r : Roots) : cmd.KeepsStack r { r with stack := r.stack.pop } := by
  intro i w w' hw hw' _
  rw [Array.getElem?_pop] at hw'
  split at hw'
  · exact Option.some.inj (hw'.symm.trans hw)
  · cases hw'

theorem set (r : Roots) (slot : RootSlot) (v : Value) :
    (writeRoot slot v).KeepsStack r (r.set slot v) := by
  intro i w w' hw hw' hcmd
  have hne : RootSlot.stack i ≠ slot := by
    rintro rfl
    exact hcmd v rfl
  have hkeep : (r.set slot v).get? (.stack i) = r.get? (.stack i) := Roots.get?_set_of_ne hne
  exact Option.some.inj (hw'.symm.trans (hkeep.trans hw))

/-- Where no object moves, slots that keep their values follow them. -/
theorem maps {S : Nat → Prop} (h : cmd.KeepsStack r r') (hr : r.Within S) :
    cmd.MapsStack id r r' := by
  intro i v v' hv hv' hcmd
  have hself : v.rename id = v := (hr (.stack i) v hv).rename_self fun _ _ => rfl
  rw [hself]
  exact h i v v' hv hv' hcmd

end KeepsStack

/-- What names are bound to after a command, when objects have moved to the addresses `ρ`: only a
definition that is done changes what its own name is bound to. -/
def rebinds (cmd : Command) (done : Bool) (ρ : Nat → Nat) (Γ : String → Option Value)
    (name : String) : Option Value :=
  match cmd with
  | define bound v =>
    if done = true ∧ name = bound then some (v.rename ρ) else (Γ name).map (Value.rename ρ)
  | _ => (Γ name).map (Value.rename ρ)

end Command

/-- The roots, or the operands of a command that is done, reached the object `o`, and the roots
reach it again at `ρ o`. -/
def Mutator.Carries (u : Mutator) (cmd : Command) (done : Bool) (u' : Mutator) (ρ : Nat → Nat)
    (o : Nat) : Prop :=
  u.machine.Live (if done then cmd.operands else []) o ∧ u'.machine.Reachable (ρ o)

/-- The relocations of a command: `ρ` tells where the objects are that are reached before and after.
They hold what they held, but for the fields that the command writes; they are where they were, if
there was no collection; and slots of the stack follow them. -/
structure Mutator.Relocates (u : Mutator) (cmd : Command) (done : Bool) (u' : Mutator)
    (ρ : Nat → Nat) :
    Prop where
  tracks : Tracks ρ (u.Carries cmd done u' ρ) (cmd.Writes u) u.machine.heap u'.machine.heap
  quiet : u'.machine.stats.collections = u.machine.stats.collections → ∀ o,
    u.Carries cmd done u' ρ o → ρ o = o
  stack : cmd.MapsStack ρ u.machine.roots u'.machine.roots

/-- The heap `u` and the objects `H` that a program still holds on to, after some commands. -/
inductive Program (c : Config) : Mutator → (Nat → Prop) → Prop where
  | start {u : Mutator} : c.Makes u → Program c u fun _ => False
  | step {u u' : Mutator} {H : Nat → Prop} {cmd : Command} {done : Bool} {vs : List Value} :
      Program c u H →
      cmd.Permitted u H → cmd.Answers u done vs u' → u'.poisoned = false →
        Program c u' (u.held u' H vs)

section Steady

variable {I : Machine Collector → (Nat → Prop) → Prop} {N : Machine Collector → Nat → Nat → Prop}
  {S : Nat → Prop} {u : Mutator}
  {c : Config} {H : Nat → Prop}

theorem Program.steady (hl : Laws Collector.operations I N)
    (hstart : ∀ u, c.Makes u → ∃ S, I u.machine S) (hp : Program c u H) : Steady I u H := by
  induction hp with
  | start hc => exact Session.steady hl hstart (.start hc)
  | @step u u' H cmd done vs _ hvalid hans hu' ih =>
    obtain ⟨S, hi, hH⟩ := ih.good
    have hend : Ends cmd.run u _ _ :=
      cmd.run_ends hl hi ih.clean (.inr ih.parked) fun v hv =>
        (hvalid.operands v hv).within hl hi hH
    have hleaves : Leaves I u S vs u' := by
      cases done with
      | true => exact hend.ok hans
      | false =>
        obtain ⟨rfl, f, hrun⟩ := hans
        exact (hend.error hrun).leaves hu'
    exact hleaves.steady ih.parked hH

end Steady

end Reclaim
