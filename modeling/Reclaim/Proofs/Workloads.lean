import Reclaim.Proofs.Generational.Barrier
import Reclaim.Proofs.Generational.Remembered
import Reclaim.Proofs.MarkSweep.Barren
import Reclaim.Proofs.Semispace.Operations
import Reclaim.Proofs.Sliding.Operations
import Reclaim.Proofs.Trees

/-!
# Workloads find what they made

A workload builds lists, trees, texts or bindings, while collections move and reclaim what they
like, and then checks what the heap holds. Its checks are part of what it does, so a run says two
things: it ends well, with nothing left on the stack, or some operation of the heap fails. It is
never stopped by a check of its own (`Sound`).

What a loop preserves is said about the data on the stack and in the global table (`Presents`); each
pass through its body is a few operations on them.

Results:
* `Sound.loop`: what each pass through a loop preserves.
* `run_sound`, `run_vacant`: a workload on a heap that obeys the laws, and on one without room.
* `workload_checks_hold`: every workload, under every configuration.
-/

namespace Reclaim

namespace Workload

/-! ## Soundness -/

/-- What a workload leaves: an empty stack, and a heap that is not poisoned. -/
def Settled (u : Mutator) : Prop := u.depth = 0 ∧ u.poisoned = false

variable {α β : Type}

/-- The computation ends as `Q` says, or an operation of the heap fails. No check of the workload
does, and there is no trap. -/
def Sound (x : RunM α) (u : Mutator) (Q : α → Mutator → Prop) : Prop :=
  match x u with
  | .ok a u' => Q a u'
  | .error e _ => ∃ f, e = .fault (.failed f)

theorem lift_run {y : MutatorM α} {u u' : Mutator} {a : α} (hy : y u = .ok a u') :
    (liftM y : RunM α) u = .ok a u' := by
  simp only [liftM, monadLift, MonadLift.monadLift, hy]

theorem lift_fails {y : MutatorM α} {u u' : Mutator} {e : Fault} (hy : y u = .error e u') :
    (liftM y : RunM α) u = .error (.fault e) u' := by
  simp only [liftM, monadLift, MonadLift.monadLift, hy]

namespace Sound

variable {x : RunM α} {k : α → RunM β} {y : MutatorM α} {u u' : Mutator} {a : α}
  {Q R : α → Mutator → Prop} {P : β → Mutator → Prop}

theorem of_eq (hx : x u = .ok a u') (hq : Q a u') : Sound x u Q := by
  simpa [Sound, hx] using hq

theorem pure (hq : Q a u) : Sound (Pure.pure a) u Q := of_eq rfl hq

theorem bind (hx : Sound x u R) (hk : ∀ a u', R a u' → Sound (k a) u' P) : Sound (x >>= k) u P := by
  unfold Sound at hx
  cases h : x u with
  | ok a u' =>
    rw [h] at hx
    simpa [Sound, Bind.bind, EStateM.bind, h] using hk a u' hx
  | error e u' =>
    rw [h] at hx
    simpa [Sound, Bind.bind, EStateM.bind, h] using hx

theorem step (hx : x u = .ok a u') (hk : Sound (k a) u' P) : Sound (x >>= k) u P :=
  (of_eq (Q := fun b t => b = a ∧ t = u') hx ⟨rfl, rfl⟩).bind fun _ _ h => h.1 ▸ h.2 ▸ hk

theorem mono (hx : Sound x u R) (hq : ∀ a u', R a u' → Q a u') : Sound x u Q := by
  unfold Sound at hx ⊢
  split at hx
  · exact hq _ _ hx
  · exact hx

/-- Operations of the heap may fail. -/
theorem lift (hy : Ends y u Q fun e _ => Reported e) : Sound (liftM y : RunM α) u Q := by
  unfold Ends at hy
  unfold Sound
  cases h : y u with
  | ok a u' =>
    rw [h] at hy
    simpa only [lift_run h] using hy
  | error e u' =>
    rw [h] at hy
    obtain ⟨f, rfl⟩ := hy
    simp only [lift_fails h]
    exact ⟨f, rfl⟩

/-- What each pass through a loop preserves. -/
theorem loop {body : Nat → RunM Unit} (I : Nat → Mutator → Prop) {i n : Nat}
    (hbody : ∀ j u, i ≤ j → j < i + n → I j u → Sound (body j) u fun _ => I (j + 1)) (hi : I i u) :
    Sound (repeatFrom body i n) u fun _ => I (i + n) := by
  induction n generalizing i u with
  | zero => exact .pure hi
  | succ n ih =>
    refine (hbody i u (Nat.le_refl i) (by omega) hi).bind fun _ u₁ h₁ => ?_
    refine (ih (i := i + 1) (fun j u hle hlt => hbody j u (by omega) (by omega)) h₁).mono
      fun _ u' h => ?_
    rwa [Nat.add_assoc, Nat.add_comm 1 n] at h

end Sound

theorem gc_run {x : GcM Collector α} {u : Mutator} {a : α} (hx : x u.machine = .ok a u.machine) :
    (liftM x : RunM α) u = .ok a u :=
  lift_run (y := liftM x) (MutatorM.gc_lift hx)

theorem read_run {x : ReadM α} {u : Mutator} {a : α} (hx : x u.machine.heap = .ok a) :
    (liftM x : RunM α) u = .ok a u :=
  lift_run (y := liftM x) (MutatorM.read_lift hx)

theorem get_run (u : Mutator) : (get : RunM Mutator) u = .ok u u := rfl

theorem require_run (a : α) (d : Defect) (u : Mutator) : require (some a) d u = .ok a u := rfl

theorem root_run {w : Workload} {u : Mutator} {v : Value} (hv : u.peek? 0 = some v) :
    root w u = .ok v u := by
  have hrun : root w u = require (u.peek? 0) (.rootVanished w) u := rfl
  rw [hrun, hv, require_run]

theorem ensure_run {b : Bool} {d : Defect} {u : Mutator} (hb : b = true) :
    ensure b d u = .ok () u := by
  rw [ensure, if_pos hb]
  rfl

/-! ## Lists and names -/

/-- The integers below `n`, from the last down to zero. -/
def countdown : Nat → List Value
  | 0 => []
  | n + 1 => .int n :: countdown n

theorem length_countdown (n : Nat) : (countdown n).length = n := by
  induction n with
  | zero => rfl
  | succ n ih => rw [countdown, List.length_cons, ih]

theorem checkItems_run (n : Nat) (u : Mutator) : checkItems n (countdown n) u = .ok () u := by
  induction n with
  | zero => rfl
  | succ n ih =>
    have hstep : checkItems (n + 1) (countdown (n + 1)) u = checkItems n (countdown n) u := by
      rw [countdown, checkItems, ensure, if_pos (beq_self_eq_true _)]
      rfl
    rw [hstep, ih]

/-- What the names stand for after `n` steps. -/
def bindings : Nat → String → Option Datum
  | 0, _ => none
  | n + 1, name =>
    if name = globalName (n % nameCount) then some (.pair (.plain (.int n)) (.plain .nil))
      else bindings n name

theorem globalName_inj : ∀ i < nameCount, ∀ j < nameCount, globalName i = globalName j →
    i = j := by decide +kernel

theorem globalName_short : ∀ i < nameCount, (Text.encode (globalName i)).length <
    0x100000000000000 := by decide +kernel

theorem bindings_textless (n : Nat) (name : String) (d : Datum) (h : bindings n name = some d) :
    d.Textless := by
  induction n with
  | zero => cases h
  | succ n ih =>
    rw [bindings] at h
    split at h
    · cases h
      exact ⟨trivial, trivial⟩
    · exact ih h

/-- Each name stands for the last step that bound it. -/
theorem bindings_last {n k : Nat} (hk : k < nameCount) (hn : k < n) :
    bindings n (globalName k) = some (.pair (.plain (.int (lastBinding n k))) (.plain .nil)) := by
  induction n with
  | zero => omega
  | succ n ih =>
    rw [bindings]
    split
    · rename_i hname
      have hkn := globalName_inj k hk (n % nameCount) (Nat.mod_lt _ (by decide)) hname
      have hlast : lastBinding (n + 1) k = n := by
        rw [lastBinding, nameCount] at *
        omega
      rw [hlast]
    · rename_i hother
      have hne : k ≠ n % nameCount := fun h => hother (by rw [← h])
      have hlast : lastBinding (n + 1) k = lastBinding n k := by
        rw [lastBinding, lastBinding, nameCount] at *
        omega
      have hlt : k < n := by
        rw [nameCount] at *
        omega
      rw [hlast, ih hlt]

/-! ## Runs of the workloads -/

section Workloads

variable {I : Machine Collector → (Nat → Prop) → Prop} {N : Machine Collector → Nat → Nat → Prop}
  {S : Nat → Prop}
  {u : Mutator} {Δ : String → Option Datum}

theorem settled_of_presents (hp : Presents I u S [] Δ) : Settled u := ⟨hp.size_eq, hp.clean⟩

theorem runList_sound (hl : Laws Collector.operations I N) (hp : Presents I u S [] Δ) (n : Nat) :
    Sound (runList n) u fun _ u' => Settled u' := by
  refine (Sound.lift (hp.push hl (by decide) (.of_not_ref rfl) (.plain rfl))).bind
    fun _ u₁ hp₁ => ?_
  have hslot : u₁.depth - 1 = 0 := by rw [Mutator.depth, Roots.depth, hp₁.size_eq]; rfl
  refine .step (get_run u₁) ?_
  dsimp only
  rw [hslot]
  refine (Sound.loop (fun i u => ∃ S, Presents I u S [.ofList (countdown i)] Δ)
    (i := 0) ?_ ⟨S, hp₁⟩).bind ?_
  · rintro i u - - ⟨S, hp⟩
    obtain ⟨tail, -, hpeek, htail, hs⟩ := hp.top hl
    refine .step (root_run hpeek) ?_
    have hroom : [Datum.ofList (countdown i)].length + 2 < tableLimit := by
      rw [List.length_singleton]
      decide
    refine (Sound.lift (hp.cons hl hroom (.of_not_ref (int_plain i)) htail
      (.plain (int_plain i)) hs)).bind ?_
    rintro l u₁ ⟨S₁, hp₁, hv, hs₁, -⟩
    have hnext := hp₁.replace hl hv hs₁
    exact .lift hnext
  · rintro - u₂ ⟨S₂, hp₂⟩
    rw [Nat.zero_add] at hp₂
    obtain ⟨l, -, hpeek, hv, hs⟩ := hp₂.top hl
    refine .step (root_run hpeek) (.step (read_run (hs.list?_run (hl.apart hp₂.inv) hv)) ?_)
    refine .step (require_run (countdown n) _ u₂) ?_
    refine .step (ensure_run (beq_iff_eq.mpr (length_countdown n))) (.step (checkItems_run n u₂) ?_)
    refine (Sound.lift (hp₂.pop hl)).bind fun _ u₃ h => .pure ?_
    exact h.elim fun _ => settled_of_presents

theorem runChurn_sound (hl : Laws Collector.operations I N) (hp : Presents I u S [] Δ) (n : Nat) :
    Sound (runChurn n) u fun _ u' => Settled u' := by
  refine (Sound.loop (fun _ u => ∃ S, Presents I u S [] Δ) (i := 0) ?_ ⟨S, hp⟩).bind ?_
  · rintro i u - - ⟨S, hp⟩
    refine (Sound.lift (hp.string hl (by decide +kernel))).bind ?_
    rintro text u₁ ⟨S₁, hp₁, hv₁, hs₁⟩
    refine (Sound.lift (hp₁.push hl (by decide) hv₁ hs₁)).bind fun _ u₂ hp₂ => ?_
    obtain ⟨text, -, hpeek₂, hv₂, hs₂⟩ := hp₂.top hl
    refine .step (root_run hpeek₂) ?_
    refine (Sound.lift (hp₂.cons hl (by decide) hv₂ (.of_not_ref (int_plain i)) hs₂
      (.plain (int_plain i)))).bind ?_
    rintro pair u₃ ⟨S₃, hp₃, hv₃, hs₃, -⟩
    refine (Sound.lift (hp₃.push hl (by decide) hv₃ hs₃)).bind fun _ u₄ hp₄ => ?_
    obtain ⟨pair, -, hpeek₄, hv₄, hs₄⟩ := hp₄.top hl
    refine .step (root_run hpeek₄) (.step (read_run (cdr?_run (hl.apart hp₄.inv) hv₄)) ?_)
    refine .step (ensure_run (beq_iff_eq.mpr hs₄.cdr_plain)) ?_
    refine (Sound.lift (hp₄.pop hl)).bind ?_
    rintro - u₅ ⟨S₅, hp₅⟩
    exact (Sound.lift (hp₅.pop hl)).bind fun _ _ h => .pure h
  · rintro - u₂ ⟨S₂, hp₂⟩
    have hsettled := settled_of_presents hp₂
    exact .step (get_run u₂) (.of_eq (ensure_run (beq_iff_eq.mpr hsettled.1)) hsettled)

theorem runTree_sound (hl : Laws Collector.operations I N) (hpins : Collector.operations.Pins I)
    (hp : Presents I u S [] Δ) (n : Nat) :
    Sound (runTree n) u fun _ u' => Settled u' := by
  refine (Sound.lift (makeTree_ends hl hpins hp (by decide))).bind ?_
  rintro lasting u₁ ⟨S₁, hp₁, hv₁, hs₁⟩
  refine (Sound.lift (hp₁.push hl (by decide) hv₁ hs₁)).bind fun _ u₂ hp₂ => ?_
  refine (Sound.loop (fun _ u => ∃ S, Presents I u S [completeTree lastingDepth] Δ)
    (i := 0) ?_ ⟨S₁, hp₂⟩).bind ?_
  · rintro i u - - ⟨S, hp⟩
    refine (Sound.lift (makeTree_ends hl hpins hp (by decide))).bind ?_
    rintro temporary u₁ ⟨S₁, hp₁, hv₁, hs₁⟩
    refine (Sound.lift (hp₁.push hl (by decide) hv₁ hs₁)).bind fun _ u₂ hp₂ => ?_
    obtain ⟨top, -, hpeek, hv, hs⟩ := hp₂.top hl
    have htop : top? u₂ = .ok (some top) u₂ := by rw [← hpeek]; rfl
    refine .step htop (.step (read_run (treeNodes_run (hl.apart hp₂.inv) hv hs)) ?_)
    refine .step (ensure_run (beq_iff_eq.mpr (nodes_completeTree _))) ?_
    exact (Sound.lift (hp₂.pop hl)).bind fun _ _ h => .pure h
  · rintro - u₃ ⟨S₃, hp₃⟩
    obtain ⟨top, -, hpeek, hv, hs⟩ := hp₃.top hl
    refine .step (root_run hpeek) (.step (read_run (treeNodes_run (hl.apart hp₃.inv) hv hs)) ?_)
    refine .step (ensure_run (beq_iff_eq.mpr (nodes_completeTree _))) ?_
    refine (Sound.lift (hp₃.pop hl)).bind fun _ _ h => .pure ?_
    exact h.elim fun _ => settled_of_presents

theorem runGlobals_sound (hl : Laws Collector.operations I N)
    (hp : Presents I u S [] fun _ => none) (n : Nat) :
    Sound (runGlobals n) u fun _ u' => Settled u' := by
  refine (Sound.loop (fun i u => ∃ S, Presents I u S [] (bindings i)) (i := 0) ?_ ⟨S, hp⟩).bind ?_
  · rintro i u - - ⟨S, hp⟩
    refine (Sound.lift (hp.cons hl (by decide) (.of_not_ref (int_plain i)) (.of_not_ref rfl)
      (.plain (int_plain i)) (.plain rfl))).bind ?_
    rintro v u₁ ⟨S₁, hp₁, hv, hs, -⟩
    -- the data that are bound already have no texts in them, so that a rebinding cannot reach them
    have hnext := hp₁.define hl (by decide) hv hs ⟨trivial, trivial⟩ (by simp) (bindings_textless i)
      (globalName_short (i % nameCount) (Nat.mod_lt _ (by decide)))
    exact .lift hnext
  · rintro - u₂ ⟨S₂, hp₂⟩
    rw [Nat.zero_add] at hp₂
    refine (Sound.loop (fun _ u => ∃ S, Presents I u S [] (bindings n))
      (i := 0) ?_ ⟨S₂, hp₂⟩).mono ?_
    · rintro k u - hk ⟨S, hp⟩
      obtain ⟨v, hlook, hv, hs⟩ :=
        hp.lookup hl (bindings_last (n := n) (k := k) (by omega) (by omega))
      refine .step (gc_run hlook)
        (.step (require_run v _ u) (.step (read_run (car?_run (hl.apart hp.inv) hv)) ?_))
      exact .of_eq (ensure_run (beq_iff_eq.mpr hs.car_plain)) ⟨S, hp⟩
    · rintro - u₃ ⟨S₃, hp₃⟩
      exact settled_of_presents hp₃

/-- A workload on a new heap that obeys the laws. -/
theorem run_sound (hl : Laws Collector.operations I N) (hpins : Collector.operations.Pins I)
    (hp : Presents I u S [] fun _ => none) (w : Workload) (n : Nat) :
    Sound (w.run n) u fun _ u' => Settled u' := by
  cases w with
  | list => exact runList_sound hl hp n
  | churn => exact runChurn_sound hl hp n
  | tree => exact runTree_sound hl hpins hp n
  | globals => exact runGlobals_sound hl hp n

end Workloads

end Workload

/-! ## Heaps without room -/

namespace MarkSweep

variable {u : Mutator} {v w : Value} {α : Type}

/-- The computation fails and tells why. -/
def FailsReported (x : MutatorM α) (u : Mutator) : Prop :=
  Ends x u (fun _ _ => False) fun e _ => Reported e

theorem FailsReported.sound {x : MutatorM α} {Q : α → Mutator → Prop} (hx : FailsReported x u) :
    Workload.Sound (liftM x : Workload.RunM α) u Q :=
  .lift (hx.mono fun _ _ => False.elim)

theorem FailsReported.bind {β : Type} {x : MutatorM α} {k : α → MutatorM β}
    (hx : FailsReported x u) :
    FailsReported (x >>= k) u :=
  Ends.bind hx fun _ _ => False.elim

theorem FailsReported.keeping {x : MutatorM α} (hroom : u.machine.roots.stack.size + 1 < tableLimit)
    (hx : FailsReported x (MutatorM.parkedOn u v)) :
    FailsReported (MutatorM.keeping v x) u :=
  MutatorM.keeping_passes (fun _ => hx) (fun _ he => Roots.parking_reported hroom he) ⟨_, rfl⟩

/-- A heap without room, in good order, with these values on its stack. -/
structure Vacant (u : Mutator) (stack : Array Value) : Prop where
  barren : Barren u
  clean : u.poisoned = false
  stack : u.machine.roots.stack = stack

namespace Vacant

variable {stack : Array Value}

theorem allocateWords_fails (hv : Vacant u stack) {n : Nat} (hn : 1 ≤ n) (hlt : n < tableLimit) :
    FailsReported (MutatorM.allocateWords n) u := by
  obtain ⟨f, hstop⟩ := hv.barren.allocate_stops hn (Collector.countable_of_lt hlt)
  have hlift : (liftM (Collector.allocate n) : MutatorM Nat) u = .error (.failed f) u :=
    MutatorM.gc_lift_error hstop
  refine FailsReported.bind (Ends.step (MutatorM.check_run hv.clean) (.of_error (t := { u with
    poisoned := u.poisoned || f.isFatal }) ?_ ⟨f, rfl⟩))
  rw [MutatorM.guarded, hlift]

theorem parkedOn (hv : Vacant u stack) (hw : w.Within Nothing) :
    Vacant (MutatorM.parkedOn u w) (stack.push w) :=
  ⟨hv.barren.parkedOn hw, hv.clean, congrArg (·.push w) hv.stack⟩

theorem cons_fails (hv : Vacant u stack) (hroom : stack.size + 2 < tableLimit) {a b : Value}
    (ha : a.Within Nothing) (hb : b.Within Nothing) :
    FailsReported (MutatorM.cons a b) u := by
  have hpa := hv.parkedOn ha
  refine Ends.step (MutatorM.check_run hv.clean)
    (FailsReported.bind
      (.keeping ?_ (.keeping ?_ ((hpa.parkedOn hb).allocateWords_fails (by decide) (by decide)))))
  · rw [hv.stack]
    omega
  · rw [hpa.stack, Array.size_push]
    exact hroom

theorem push_ends (hv : Vacant u stack) (hroom : stack.size + 1 < tableLimit)
    (hw : w.Within Nothing) :
    Ends (MutatorM.push w) u (fun _ u' => Vacant u' (stack.push w)) fun e _ => Reported e := by
  obtain ⟨s, hs⟩ := id hv.barren
  have hpush : Collector.push w u.machine =
      (liftM (pushRoot w) : GcM Collector Unit) u.machine := by
    rw [Collector.push, bind_ok GcM.run_own, hs.own]
  by_cases hcap : u.machine.roots.stack.size < u.machine.roots.capacity
  · have hlim : u.machine.roots.stack.size + 1 < tableLimit := by rwa [hv.stack]
    refine .of_eq (MutatorM.operate_run hv.clean
      (hpush.trans (roots_lift (pushRoot_run hcap hlim)))) ?_
    exact ⟨hv.barren.withRoots (hv.barren.within.push hw _) _, hv.clean,
      congrArg (·.push w) hv.stack⟩
  · have hfull : pushRoot w u.machine.roots = .error
        (.failed (.stackOverflow u.machine.roots.capacity)) u.machine.roots := by
      rw [pushRoot, if_neg hcap]
    refine .of_error (MutatorM.operate_error hv.clean
      (hpush.trans (roots_lift_error hfull)) ?_) ⟨_, rfl⟩
    rintro f ⟨⟩
    rfl

theorem pop_run (hv : Vacant u (stack.push w)) : ∃ u', MutatorM.pop u = .ok w u' ∧
    Vacant u' stack := by
  obtain ⟨s, hs⟩ := id hv.barren
  have hpop : Collector.pop u.machine = (liftM popRoot : GcM Collector Value) u.machine := by
    rw [Collector.pop, bind_ok GcM.run_own, hs.own]
  have hback : u.machine.roots.stack.back? = some w := by rw [hv.stack, Array.back?_push]
  refine ⟨_, MutatorM.operate_run hv.clean (hpop.trans (roots_lift (popRoot_run hback))), ?_⟩
  exact ⟨hv.barren.withRoots (hv.barren.within.pop _) _, hv.clean,
    (congrArg Array.pop hv.stack).trans Array.pop_push⟩

end Vacant

end MarkSweep

namespace Workload

open MarkSweep (Vacant FailsReported)

variable {u : Mutator}

theorem settled_of_vacant (hv : Vacant u #[]) : Settled u :=
  ⟨congrArg Array.size hv.stack, hv.clean⟩

theorem makeTree_fails (hv : Vacant u #[]) (depth : Nat) : FailsReported (makeTree depth) u := by
  induction depth with
  | zero => exact hv.cons_fails (by decide) (.of_not_ref (int_plain 0)) (.of_not_ref rfl)
  | succ depth ih => exact ih.bind

/-- A loop that does not get through its first pass. -/
theorem Sound.halting {body : Nat → RunM Unit} (Q : Mutator → Prop) (n : Nat)
    (hbody : ∀ u, Q u → Sound (body 0) u fun _ _ => False) (hu : Q u) :
    Sound (repeatFrom body 0 n) u fun _ u' => n = 0 ∧ Q u' := by
  cases n with
  | zero => exact .pure ⟨rfl, hu⟩
  | succ n => exact (hbody u hu).bind fun _ _ => False.elim

/-- A workload on a heap without room: nothing is done, or something fails. -/
theorem run_vacant (hv : Vacant u #[]) (w : Workload) (n : Nat) :
    Sound (w.run n) u fun _ u' => Settled u' := by
  cases w with
  | list =>
    refine (Sound.lift (hv.push_ends (by decide) (.of_not_ref (v := .nil) rfl))).bind
      fun _ u₁ hv₁ => ?_
    have hpeek : ∀ {u : Mutator}, Vacant u #[.nil] → u.peek? 0 = some .nil := by
      intro u hv
      rw [Mutator.peek?, Roots.peek?_zero, hv.stack]
      rfl
    refine .step (get_run u₁) ((Sound.halting (Vacant · #[.nil]) n (fun u hv => ?_) hv₁).bind ?_)
    · refine .step (root_run (hpeek hv)) ?_
      exact (hv.cons_fails (by decide) (.of_not_ref (int_plain _)) (.of_not_ref rfl)).sound.bind
        fun _ _ => False.elim
    · rintro - u₂ ⟨rfl, hv₂⟩
      have hempty : u₂.machine.heap.Shows .nil (.ofList []) := .plain rfl
      have hlist := hempty.list?_run (MarkSweep.Barren.apart u₂) (.of_not_ref rfl)
      obtain ⟨u₃, hpop, hv₃⟩ : ∃ u₃, MutatorM.pop u₂ = .ok .nil u₃ ∧ Vacant u₃ #[] :=
        Vacant.pop_run hv₂
      refine .step (root_run (hpeek hv₂))
        (.step (read_run hlist) (.step (require_run [] _ u₂) (.step (ensure_run rfl) ?_)))
      exact .step (checkItems_run 0 u₂) (.step (lift_run hpop) (.pure (settled_of_vacant hv₃)))
  | churn =>
    refine (Sound.halting (Vacant · #[]) n (fun u hv => ?_) hv).bind ?_
    · have hwords : 1 ≤ textWords (Text.encode "churn").length ∧
          textWords (Text.encode "churn").length < tableLimit := by
        decide +kernel
      have hstring : FailsReported (MutatorM.string "churn") u :=
        .bind (hv.allocateWords_fails hwords.1 hwords.2)
      exact hstring.sound.bind fun _ _ => False.elim
    · rintro - u₁ ⟨-, hv₁⟩
      have hsettled := settled_of_vacant hv₁
      exact .step (get_run u₁) (.of_eq (ensure_run (beq_iff_eq.mpr hsettled.1)) hsettled)
  | tree => exact (makeTree_fails hv lastingDepth).sound.bind fun _ _ => False.elim
  | globals =>
    refine (Sound.halting (Vacant · #[]) n (fun u hv => ?_) hv).bind ?_
    · exact (hv.cons_fails (by decide) (.of_not_ref (int_plain _)) (.of_not_ref rfl)).sound.bind
        fun _ _ => False.elim
    · rintro - u₁ ⟨rfl, hv₁⟩
      exact .pure (settled_of_vacant hv₁)

end Workload

/-! ## Every configuration -/

section Configurations

variable {c : Config} {u : Mutator} {w : Workload}

theorem Workload.run_created {I : Machine Collector → (Nat → Prop) → Prop}
    {N : Machine Collector → Nat → Nat → Prop} (hl : Laws Collector.operations I N)
    (hpins : Collector.operations.Pins I) (hc : c.Makes u) (hi : ∃ S, I u.machine S) (n : Nat) :
    Workload.Sound (w.run n) u fun _ u' => Workload.Settled u' :=
  hi.elim fun _ hi => Workload.run_sound hl hpins (.start hc hi) w n

/-- Counting, in either mode. -/
theorem Counting.workload_sound (mode : CountMode) (hstrat : c.strategy = mode.strategy)
    (hc : c.Makes u) (w : Workload) (n : Nat) :
    Workload.Sound (w.run n) u fun _ u' => Workload.Settled u' := by
  by_cases h2 : 2 ≤ c.heapWords
  · have hpins := (Counting.pins mode c.zeroCountCapacity).hosted Counting.hosts
    exact Workload.run_created ((Counting.laws mode c.zeroCountCapacity).hosted Counting.hosts)
      hpins hc (Counting.start_kept hstrat h2 hc) n
  · have hpins := Counting.barren_gentle.pins.hosted Counting.hosts
    exact Workload.run_created (Counting.barren_laws.hosted Counting.hosts) hpins hc
      ⟨_, Counting.start_barren hstrat (by omega) hc⟩ n

/-- A workload on a new heap, under any configuration and for any number of steps, comes to its end
and leaves an empty stack and a heap that is not poisoned, unless an operation of the heap fails.
Its own checks never do. -/
theorem workload_checks_hold (hc : c.Makes u) (w : Workload) (n : Nat) :
    (∃ u', w.run n u = .ok () u' ∧ u'.depth = 0 ∧ u'.poisoned = false) ∨ ∃ f u', w.run n u = .error
    (.fault (.failed f)) u' := by
  have hsound : Workload.Sound (w.run n) u fun _ u' => Workload.Settled u' := by
    cases hstrat : c.strategy with
    | copying =>
      have hpins := (Semispace.layout.gentle Semispace.laws).pins.hosted Semispace.hosts
      exact Workload.run_created (Semispace.laws.hosted Semispace.hosts) hpins hc
        (Semispace.start_kept hstrat hc) n
    | markSweep =>
      by_cases h2 : 2 ≤ c.heapWords
      · have hpins := (MarkSweep.layout.gentle MarkSweep.laws).pins.hosted MarkSweep.hosts
        exact Workload.run_created (MarkSweep.laws.hosted MarkSweep.hosts) hpins hc
          (MarkSweep.start_kept hstrat h2 hc) n
      · -- the laws do not hold of a heap without room for a chunk, but nothing is ever made there
        have hbarren := (MarkSweep.start_barren hstrat (by omega) hc).1
        obtain ⟨hash, rfl, -⟩ := hc.eq
        exact Workload.run_vacant ⟨hbarren, rfl, rfl⟩ w n
    | markCompact =>
      have hpins := (Sliding.layout.gentle Sliding.laws).pins.hosted Sliding.hosts
      exact Workload.run_created (Sliding.laws.hosted Sliding.hosts) hpins hc
        (Sliding.start_kept hstrat hc) n
    | generational =>
      have hpins := Generational.gentle.pins.hosted Generational.hosts
      exact Workload.run_created (Generational.laws.hosted Generational.hosts) hpins hc
        (Generational.start_intact hstrat hc) n
    | counting => exact Counting.workload_sound .eager hstrat hc w n
    | deferredCounting => exact Counting.workload_sound .deferred hstrat hc w n
  unfold Workload.Sound at hsound
  cases h : w.run n u with
  | ok a u' =>
    rw [h] at hsound
    exact .inl ⟨u', rfl, hsound⟩
  | error e u' =>
    rw [h] at hsound
    obtain ⟨f, rfl⟩ := hsound
    exact .inr ⟨f, u', rfl⟩

/-- A small copying heap that moves all its objects before every allocation. -/
def restless : Config :=
  { strategy := .copying, heapSize := 1024, stress := true, stackCapacity := 8,
    globalTableSize := 1 }

/-- A list is found again after its pairs have moved. -/
theorem restless_list : ∃ u u', Mutator.create restless = .ok u ∧
    Workload.list.run 3 u = .ok () u' ∧ u'.depth = 0 ∧ u'.poisoned = false := by
  have hended : (match Workload.list.run 3 (Mutator.ofConfig restless) with
      | .ok _ _ => true
      | .error _ _ => false) = true := by
    decide +kernel
  have hc : Mutator.create restless = .ok (Mutator.ofConfig restless) := rfl
  rcases workload_checks_hold ⟨_, hc⟩ .list 3 with ⟨u', hrun, hsettled⟩ | ⟨f, u', hrun⟩
  · exact ⟨_, u', hc, hrun, hsettled⟩
  · rw [hrun] at hended
    cases hended

end Configurations

end Reclaim
