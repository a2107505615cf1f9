import Reclaim.Mutator.Globals
import Reclaim.Proofs.Plain

/-!
# What a program does

The operations of the mutator, from the laws of its collector (`Laws`). `Ends x u Q E` says what is
known when `x` ends, with a result or without. An operation that meets a fatal failure poisons the
heap, and nothing more is said about it; the only other way to fail is that the operand stack has no
room for the values to park (`parking`).

Results:
* `keeping_ends`: what is parked on the stack survives, and comes back under its new address.
* `keeping_passes`: what a computation may fail with passes through, besides a full stack.
* `allocateWords_ends`: a new object.
-/

namespace Reclaim

variable {σ α β : Type}

/-- When `x` ends with a result, `Q` holds; when it stops for any reason, `E` holds. -/
def Ends (x : EStateM Fault σ α) (s : σ) (Q : α → σ → Prop) (E : Fault → σ → Prop) : Prop :=
  match x s with
  | .ok a s' => Q a s'
  | .error e s' => E e s'

namespace Ends

variable {x : EStateM Fault σ α} {f : α → EStateM Fault σ β} {s t : σ} {a : α} {Q R : α → σ → Prop}
  {P : β → σ → Prop} {E F : Fault → σ → Prop}

theorem of_eq (hx : x s = .ok a t) (hq : Q a t) : Ends x s Q E := by
  simpa [Ends, hx] using hq

theorem of_error {e : Fault} (hx : x s = .error e t) (he : E e t) : Ends x s Q E := by
  simpa [Ends, hx] using he

theorem pure (hq : Q a s) : Ends (Pure.pure a) s Q E := of_eq rfl hq

theorem ok (hx : Ends x s Q E) (h : x s = .ok a t) : Q a t := by
  simpa [Ends, h] using hx

theorem error {e : Fault} (hx : Ends x s Q E) (h : x s = .error e t) : E e t := by
  simpa [Ends, h] using hx

theorem bind (hx : Ends x s R E) (hf : ∀ a s', R a s' → Ends (f a) s' P E) :
    Ends (x >>= f) s P E := by
  cases h : x s with
  | ok a s' =>
    unfold Ends
    rw [bind_ok h]
    exact hf a s' (hx.ok h)
  | error e s' =>
    have hb : (x >>= f) s = .error e s' := by simp [Bind.bind, EStateM.bind, h]
    exact of_error hb (hx.error h)

theorem step (hx : x s = .ok a t) (hf : Ends (f a) t P E) : Ends (x >>= f) s P E := by
  unfold Ends
  rw [bind_ok hx]
  exact hf

theorem mono (hx : Ends x s R E) (hq : ∀ a s', R a s' → Q a s') : Ends x s Q E := by
  unfold Ends at hx ⊢
  split at hx
  · exact hq _ _ hx
  · exact hx

theorem mono_error (hx : Ends x s Q E) (he : ∀ e s', E e s' → F e s') : Ends x s Q F := by
  unfold Ends at hx ⊢
  split at hx
  · exact hx
  · exact he _ _ hx

/-- A result is what `x` gave. -/
theorem and_eq (hx : Ends x s Q E) : Ends x s (fun a s' => x s = .ok a s' ∧ Q a s') E := by
  cases h : x s with
  | ok a s' => exact .of_eq h ⟨rfl, hx.ok h⟩
  | error e s' => exact .of_error h (hx.error h)

/-- Two things that are known of `x`. -/
theorem and (hx : Ends x s Q E) (hx' : Ends x s R F) :
    Ends x s (fun a s' => Q a s' ∧ R a s') fun e s' => E e s' ∧ F e s' := by
  unfold Ends at hx hx' ⊢
  split at hx
  · rename_i h
    rw [h] at hx'
    exact ⟨hx, hx'⟩
  · rename_i h
    rw [h] at hx'
    exact ⟨hx, hx'⟩

/-- Two things that are known when `x` stops. -/
theorem and_error (hx : Ends x s Q E) (hx' : Ends x s R F) :
    Ends x s Q fun e s' => E e s' ∧ F e s' :=
  (hx.and hx').mono fun _ _ h => h.1

end Ends

/-! ## Computations of the collector -/

namespace Mutator

/-- The same mutator with another machine. -/
def withMachine (u : Mutator) (m : Machine Collector) : Mutator := { u with machine := m }

/-- The same mutator with another heap. -/
def withHeap (u : Mutator) (h : Arena) : Mutator := u.withMachine (u.machine.withHeap h)

variable (u : Mutator) (m m' : Machine Collector)

@[simp] theorem withHeap_machine (h : Arena) : (u.withHeap h).machine = u.machine.withHeap h := rfl
@[simp] theorem withHeap_poisoned (h : Arena) : (u.withHeap h).poisoned = u.poisoned := rfl
@[simp] theorem withMachine_machine : (u.withMachine m).machine = m := rfl
@[simp] theorem withMachine_poisoned : (u.withMachine m).poisoned = u.poisoned := rfl
@[simp] theorem withMachine_withMachine : (u.withMachine m).withMachine m' = u.withMachine m' := rfl
@[simp] theorem withMachine_self : u.withMachine u.machine = u := rfl

end Mutator

namespace MutatorM

variable {u : Mutator} {a : α} {Q : α → Mutator → Prop} {E : Fault → Mutator → Prop}

theorem gc_lift_eq (x : GcM Collector α) (u : Mutator) :
    (liftM x : MutatorM α) u = match x u.machine with
    | .ok a machine => .ok a (u.withMachine machine)
    | .error e machine => .error e (u.withMachine machine) := rfl

theorem gc_lift {x : GcM Collector α} {m : Machine Collector} (hx : x u.machine = .ok a m) :
    (liftM x : MutatorM α) u = .ok a (u.withMachine m) := by
  rw [gc_lift_eq, hx]

theorem gc_lift_error {x : GcM Collector α} {m : Machine Collector} {e : Fault}
    (hx : x u.machine = .error e m) :
    (liftM x : MutatorM α) u = .error e (u.withMachine m) := by
  rw [gc_lift_eq, hx]

theorem heap_lift {x : HeapM α} {h : Arena} (hx : x u.machine.heap = .ok a h) :
    (liftM x : MutatorM α) u = .ok a (u.withHeap h) :=
  gc_lift (x := liftM x) (Reclaim.heap_lift hx)

/-- The next of several computations on the heap. -/
theorem heap_lift_next {x : HeapM α} {h h' : Arena} (hx : x h = .ok a h') :
    (liftM x : MutatorM α) (u.withHeap h) = .ok a (u.withHeap h') :=
  heap_lift (u := u.withHeap h) hx

theorem read_lift {x : ReadM α} (hx : x u.machine.heap = .ok a) :
    (liftM x : MutatorM α) u = .ok a u :=
  gc_lift (x := liftM x) (Reclaim.read_lift hx)

theorem roots_lift {x : RootsM α} {r : Roots} (hx : x u.machine.roots = .ok a r) :
    (liftM x : MutatorM α) u = .ok a (u.withMachine (u.machine.withRoots r)) :=
  gc_lift (x := liftM x) (Reclaim.roots_lift hx)

theorem roots_lift_error {x : RootsM α} {r : Roots} {e : Fault}
    (hx : x u.machine.roots = .error e r) :
    (liftM x : MutatorM α) u = .error e (u.withMachine (u.machine.withRoots r)) :=
  gc_lift_error (x := liftM x) (Reclaim.roots_lift_error hx)

theorem check_run (hu : u.poisoned = false) : check u = .ok () u := by
  have hget : (get : MutatorM Mutator) u = .ok u u := rfl
  rw [check, bind_ok hget, hu]
  rfl

/-- What a guarded computation leaves: a fatal failure of the collector poisons the heap, and is
passed on. -/
theorem guarded_fails {x : GcM Collector α} {F : Failure → Machine Collector → Prop}
    (hx : Runs x u.machine (fun a m => Q a (u.withMachine m)) F)
    (hF : ∀ f m, F f m → f.isFatal = true) :
    Ends (guarded (liftM x)) u Q fun e u' => u'.poisoned = true ∧ ∃ f, e = .failed f ∧
      F f u'.machine := by
  unfold Runs at hx
  cases h : x u.machine with
  | ok a m =>
    rw [h] at hx
    refine .of_eq (a := a) (t := u.withMachine m) ?_ hx
    rw [guarded, gc_lift h]
  | error e m =>
    rw [h] at hx
    cases e with
    | failed f =>
      refine .of_error (e := .failed f) (t := { u.withMachine m with
        poisoned := u.poisoned || f.isFatal }) ?_ ⟨?_, f, rfl, hx⟩
      · rw [guarded, gc_lift_error h]
        rfl
      · rw [hF f m hx, Bool.or_true]
    | trap | endless => exact hx.elim

theorem guarded_ends {x : GcM Collector α}
    (hx : Runs x u.machine (fun a m => Q a (u.withMachine m)) Fatal)
    (hE : ∀ e u', u'.poisoned = true → E e u') : Ends (guarded (liftM x)) u Q E :=
  (guarded_fails hx fun _ _ h => h).mono_error fun e u' h => hE e u' h.1

theorem guarded_run {x : GcM Collector α} {m : Machine Collector} (hx : x u.machine = .ok a m) :
    guarded (liftM x) u = .ok a (u.withMachine m) := by
  rw [guarded, gc_lift hx]

theorem operate_fails {x : GcM Collector α} {F : Failure → Machine Collector → Prop}
    (hu : u.poisoned = false) (hx : Runs x u.machine (fun a m => Q a (u.withMachine m)) F)
    (hF : ∀ f m, F f m → f.isFatal = true) :
    Ends (operate x) u Q fun e u' => u'.poisoned = true ∧ ∃ f, e = .failed f ∧ F f u'.machine := by
  unfold operate
  exact .step (check_run hu) (guarded_fails hx hF)

theorem operate_ends {x : GcM Collector α} (hu : u.poisoned = false)
    (hx : Runs x u.machine (fun a m => Q a (u.withMachine m)) Fatal)
    (hE : ∀ e u', u'.poisoned = true → E e u') :
    Ends (operate x) u Q E := by
  unfold operate
  exact .step (check_run hu) (guarded_ends hx hE)

theorem operate_run {x : GcM Collector α} {m : Machine Collector} (hu : u.poisoned = false)
    (hx : x u.machine = .ok a m) :
    operate x u = .ok a (u.withMachine m) := by
  rw [operate, bind_ok (check_run hu), guarded, gc_lift hx]

/-- A failure that is not fatal leaves the heap as it is. -/
theorem operate_error {x : GcM Collector α} {e : Fault} (hu : u.poisoned = false)
    (hx : x u.machine = .error e u.machine) (he : ∀ f, e = .failed f → f.isFatal = false) :
    operate x u = .error e u := by
  rw [operate, bind_ok (check_run hu), guarded, gc_lift_error hx]
  cases e with
  | failed f =>
    cases u with
    | mk machine poisoned =>
      simp only [Mutator.withMachine] at hu ⊢
      rw [he f rfl, hu]
      rfl
  | trap => rfl
  | endless => rfl

end MutatorM

/-! ## Parked values -/

namespace Roots

/-- The roots with one more parked value. -/
def withParked (r : Roots) (v : Value) : Roots := { r with
      stack := r.stack.push v, parked := r.parked + 1 }

/-- The roots without the value parked last. -/
def withoutParked (r : Roots) : Roots := { r with stack := r.stack.pop, parked := r.parked - 1 }

/-- What comes of parking `n` values on a stack of `size` values. -/
def parking (size capacity : Nat) : Nat → Except Fault Unit
  | 0 => .ok ()
  | n + 1 =>
    if size < capacity then
      if size + 1 < tableLimit then parking (size + 1) capacity n else .error .trap
    else .error (.failed (.stackOverflow capacity))

variable {r : Roots} {v : Value}

/-- No room for one value is no room for more. -/
theorem parking_error {size capacity : Nat} {e : Fault}
    (he : parking size capacity 1 = .error e) (n : Nat) :
    parking size capacity (n + 1) = .error e := by
  simp only [parking] at he
  rw [parking]
  split at he
  · rename_i hcap
    rw [if_pos hcap]
    split at he
    · cases he
    · rename_i hlim
      rw [if_neg hlim]
      exact he
  · rename_i hcap
    rw [if_neg hcap]
    exact he

/-- The ways in which there is no room for a value. -/
theorem not_fatal_of_parking {size capacity n : Nat} {e : Fault}
    (he : parking size capacity n = .error e) (f : Failure) (hf : e = .failed f) :
    f.isFatal = false := by
  induction n generalizing size with
  | zero => cases he
  | succ n ih =>
    rw [parking] at he
    split at he
    · split at he
      · exact ih he
      · cases he
        cases hf
    · cases he
      cases hf
      rfl

theorem room_of_parking {size capacity n : Nat} (hn : parking size capacity (n + 1) = .ok ()) :
    size < capacity ∧ size + 1 < tableLimit := by
  rw [parking] at hn
  split at hn
  · split at hn
    · exact ⟨‹_›, ‹_›⟩
    · cases hn
  · cases hn

theorem get?_withParked {slot : RootSlot} {w : Value} (hw : r.get? slot = some w) :
    (r.withParked v).get? slot = some w := by
  cases slot with
  | stack i =>
    obtain ⟨hi, -⟩ := Array.getElem?_eq_some_iff.mp hw
    rw [get?, withParked, Array.getElem?_push, if_neg (by omega)]
    exact hw
  | global i => exact hw

theorem get?_withParked_self : (r.withParked v).get? (.stack r.stack.size) = some v := by
  simp [get?, withParked]

theorem refers_withParked {o : Nat} (ho : r.Refers o) : (r.withParked v).Refers o := by
  obtain ⟨slot, w, hw, hwo⟩ := ho
  exact ⟨slot, w, get?_withParked hw, hwo⟩

end Roots

theorem park_run {r : Roots} {v : Value} (hcap : r.stack.size < r.capacity)
    (hlim : r.stack.size + 1 < tableLimit) :
    park v r = .ok () (r.withParked v) := by
  rw [park, bind_ok (pushRoot_run hcap hlim)]
  rfl

/-- A value that there is no room for is not pushed. -/
theorem pushRoot_error {r : Roots} {v : Value} {e : Fault}
    (he : Roots.parking r.stack.size r.capacity 1 = .error e) :
    pushRoot v r = .error e r := by
  simp only [Roots.parking] at he
  rw [pushRoot]
  split
  · rename_i hcap
    rw [if_pos hcap] at he
    split
    · rename_i hlim
      rw [if_pos hlim] at he
      cases he
    · rename_i hlim
      rw [if_neg hlim] at he
      cases he
      rfl
  · rename_i hcap
    rw [if_neg hcap] at he
    cases he
    rfl

theorem park_error {r : Roots} {v : Value} {e : Fault}
    (he : Roots.parking r.stack.size r.capacity 1 = .error e) :
    park v r = .error e r := by
  simp [park, bind, EStateM.bind, pushRoot_error he]

theorem unpark_run {r : Roots} {v : Value} (hv : r.stack.back? = some v) :
    unpark r = .ok v r.withoutParked := by
  rw [unpark, bind_ok (popRoot_run hv)]
  rfl

section Keeping

variable {I : Machine Collector → (Nat → Prop) → Prop} {N : Machine Collector → Nat → Nat → Prop}
  {S S' : Nat → Prop} {ρ : Nat → Nat} {k : Nat} {m m' : Machine Collector} {v : Value}

/-- A value that is parked is live without being named. -/
theorem Machine.Live.withParked {m : Machine σ} {vs : List Value} {o : Nat}
    (ho : m.Live (v :: vs) o) :
    (m.withRoots (m.roots.withParked v)).Live vs o := by
  refine Reach.mono ?_ ho
  rintro o (h | ⟨w, hw, h⟩)
  · exact .inl (Roots.refers_withParked h)
  · rcases List.mem_cons.mp hw with rfl | hw
    · exact .inl ⟨_, _, Roots.get?_withParked_self, h⟩
    · exact .inr ⟨w, hw, h⟩

theorem Machine.Live.reachable {m : Machine σ} {o : Nat} (ho : m.Live [] o) : m.Reachable o := by
  refine Reach.mono ?_ ho
  rintro o (h | ⟨w, hw, -⟩)
  · exact h
  · cases hw

/-- What was parked comes back under its new address, and the other roots are as if it had not been
there. -/
theorem Carried.unpark {L : Nat → Prop} (hl : Laws Collector.operations I N)
    (h : Carried I L (m.withRoots (m.roots.withParked v)) m' S S' ρ k) :
    m'.roots.stack.back? = some (v.rename ρ) ∧
    Carried I L m (m'.withRoots m'.roots.withoutParked) S S' ρ k := by
  have hdepth : m'.roots.stack.size = m.roots.stack.size + 1 := by
    rw [h.roots.depth]
    simp [Roots.withParked]
  have hparked : m'.roots.parked = m.roots.parked + 1 := h.roots.parked
  obtain ⟨v', hv', rfl⟩ := h.roots.slot _ _ Roots.get?_withParked_self
  have hback : m'.roots.stack.back? = some (v.rename ρ) := by
    rw [Array.back?_eq_getElem?, hdepth]
    exact hv'
  have hlive : m.roots.Within L := fun slot w hw => h.live slot w (Roots.get?_withParked hw)
  refine ⟨hback, h.closed, hlive,
    hl.unpark h.inv (by omega) (by omega), h.renamed, h.kept, ?_, h.stress, h.cycles, h.quiet⟩
  refine ⟨?_, h.roots.table, h.roots.capacity, ?_, h.roots.hash, fun slot w hw => ?_⟩
  · simp only [Machine.withRoots_roots, Roots.withoutParked, Array.size_pop]
    omega
  · simp only [Machine.withRoots_roots, Roots.withoutParked]
    omega
  · obtain ⟨w', hw', rfl⟩ := h.roots.slot slot w (Roots.get?_withParked hw)
    refine ⟨_, ?_, rfl⟩
    cases slot with
    | stack i =>
      obtain ⟨hi, -⟩ := Array.getElem?_eq_some_iff.mp hw
      simp only [Machine.withRoots_roots, Roots.withoutParked, Roots.get?, Array.getElem?_pop]
      rw [if_pos (by omega)]
      exact hw'
    | global i => exact hw'

/-- Why an operation that parks `n` values stops: the heap is poisoned, or the stack has no room for
them. In the latter case nothing has changed. -/
def Stops (u : Mutator) (n : Nat) (e : Fault) (u' : Mutator) : Prop :=
  u'.poisoned = true ∨ (Roots.parking u.machine.roots.stack.size
    u.machine.roots.capacity n = .error e ∧
    ∀ f, e = .failed f → u' = u)

namespace MutatorM

variable {u : Mutator} {x : MutatorM α} {n : Nat}

/-- The mutator while `v` is parked. -/
def parkedOn (u : Mutator) (v : Value) : Mutator :=
  u.withMachine (u.machine.withRoots (u.machine.roots.withParked v))

/-- What was parked is on the stack. -/
theorem eq_of_park {u' : Mutator} (h : (liftM (park v) : MutatorM Unit) u = .ok () u') :
    u.machine.roots.stack.size + 1 < tableLimit ∧ u' = parkedOn u v := by
  cases hroom : Roots.parking u.machine.roots.stack.size u.machine.roots.capacity 1 with
  | ok =>
    obtain ⟨hcap, hlim⟩ := Roots.room_of_parking hroom
    have hrun : (liftM (park v) : MutatorM Unit) u = .ok () (parkedOn u v) :=
      roots_lift (park_run hcap hlim)
    cases h.symm.trans hrun
    exact ⟨hlim, rfl⟩
  | error e =>
    rw [roots_lift_error (park_error hroom)] at h
    cases h

/-- One value is parked, and then `n` more. -/
theorem parking_succ (hcap : u.machine.roots.stack.size < u.machine.roots.capacity)
    (hlim : u.machine.roots.stack.size + 1 < tableLimit) :
    Roots.parking u.machine.roots.stack.size u.machine.roots.capacity (n + 1)
      = Roots.parking (parkedOn u v).machine.roots.stack.size
      (parkedOn u v).machine.roots.capacity n := by
  rw [Roots.parking, if_pos hcap, if_pos hlim]
  simp [parkedOn, Roots.withParked]

/-- There is no room for the value to park. -/
theorem keeping_full {e : Fault}
    (he : Roots.parking u.machine.roots.stack.size u.machine.roots.capacity 1 = .error e) :
    keeping v x u = .error e u := by
  have hpark : (liftM (park v) : MutatorM Unit) u = .error e u := roots_lift_error (park_error he)
  simp [keeping, bind, EStateM.bind, hpark]

/-- What comes of a value that is parked while `x` runs. -/
theorem keeping_ok {a : α} {w : Value} {u' : Mutator}
    (hcap : u.machine.roots.stack.size < u.machine.roots.capacity)
    (hlim : u.machine.roots.stack.size + 1 < tableLimit) (hx : x (parkedOn u v) = .ok a u')
    (hback : u'.machine.roots.stack.back? = some w) :
    keeping v x u = .ok (w, a)
    (u'.withMachine (u'.machine.withRoots u'.machine.roots.withoutParked)) := by
  have hpark : (liftM (park v) : MutatorM Unit) u = .ok () (parkedOn u v) :=
    roots_lift (park_run hcap hlim)
  have hatt : attempt x (parkedOn u v) = .ok (.ok a) u' := by rw [attempt, hx]
  rw [keeping, bind_ok hpark, bind_ok hatt, bind_ok (roots_lift (unpark_run hback))]
  rfl

/-- If `x` stops while `v` is parked, so does the whole. -/
theorem keeping_stops {e : Fault} {u' : Mutator}
    (hcap : u.machine.roots.stack.size < u.machine.roots.capacity)
    (hlim : u.machine.roots.stack.size + 1 < tableLimit) (hx : x (parkedOn u v) = .error e u')
    (hstop : Stops (parkedOn u v) n e u') {Q : Value × α → Mutator → Prop} :
    Ends (keeping v x) u Q (Stops u (n + 1)) := by
  have hpark : (liftM (park v) : MutatorM Unit) u = .ok () (parkedOn u v) :=
    roots_lift (park_run hcap hlim)
  have hsucc := parking_succ (v := v) (n := n) hcap hlim
  unfold keeping
  refine .step hpark ?_
  -- a trap is passed on at once
  have hpass : ∀ k, (∀ f, e ≠ .failed f) → attempt x (parkedOn u v) = .error e u' →
      Ends (attempt x >>= k) (parkedOn u v) Q (Stops u (n + 1)) := by
    intro k hne hatt
    refine (Ends.of_error (Q := fun _ _ => False) hatt ?_).bind fun _ _ h => h.elim
    exact hstop.imp id fun h => ⟨hsucc.trans h.1, fun f hf => absurd hf (hne f)⟩
  cases e with
  | failed f =>
    have hatt : attempt x (parkedOn u v) = .ok (.error f) u' := by rw [attempt, hx]
    refine .step hatt ?_
    rcases hstop with hpo | ⟨hfull, hsame⟩
    · -- whatever happens, the heap stays poisoned
      have hkeep : Ends (liftM unpark : MutatorM Value) u' (fun _ u'' => u''.poisoned = true)
          fun _ u'' => u''.poisoned = true := by
        cases hun : unpark u'.machine.roots with
        | ok w r => exact .of_eq (roots_lift hun) hpo
        | error e r => exact .of_error (roots_lift_error hun) hpo
      refine (hkeep.mono_error fun _ _ h => .inl h).bind ?_
      intro w u'' hpo''
      exact .of_error rfl (.inl hpo'')
    · obtain rfl := hsame f rfl
      have hback : (parkedOn u v).machine.roots.stack.back? = some v := by
        simp [parkedOn, Roots.withParked]
      have hres : (u.machine.roots.withParked v).withoutParked = u.machine.roots := by
        simp [Roots.withParked, Roots.withoutParked]
      refine .step (roots_lift (unpark_run hback))
        (.of_error rfl (.inr ⟨hsucc.trans hfull, fun _ _ => ?_⟩))
      simp [parkedOn, hres]
  | trap => exact hpass _ (by simp) (by rw [attempt, hx])
  | endless => exact hpass _ (by simp) (by rw [attempt, hx])

/-- On an empty stack nothing is parked. -/
theorem unpark_gone (hback : u.machine.roots.stack.back? = none) :
    (liftM unpark : MutatorM Value) u = .error (.failed .stackUnderflow) u := by
  have hpop : popRoot u.machine.roots = .error (.failed .stackUnderflow) u.machine.roots := by
    rw [popRoot, hback]
  exact roots_lift_error (bind_error hpop)

/-- What was taken back was on top of the stack. -/
theorem eq_of_unpark {u' : Mutator} (h : (liftM unpark : MutatorM Value) u = .ok v u') :
    u.machine.roots.stack.back? = some v ∧
    u' = u.withMachine (u.machine.withRoots u.machine.roots.withoutParked) := by
  cases hback : u.machine.roots.stack.back? with
  | some w =>
    have hrun : (liftM unpark : MutatorM Value) u =
        .ok w (u.withMachine (u.machine.withRoots u.machine.roots.withoutParked)) :=
      roots_lift (unpark_run hback)
    cases h.symm.trans hrun
    exact ⟨rfl, rfl⟩
  | none =>
    rw [unpark_gone hback] at h
    cases h

/-- If `x` stops while `v` is parked, the reason is passed on, unless `v` is gone. -/
theorem keeping_blames {e : Fault} {u' : Mutator}
    (hcap : u.machine.roots.stack.size < u.machine.roots.capacity)
    (hlim : u.machine.roots.stack.size + 1 < tableLimit) (hx : x (parkedOn u v) = .error e u') :
    Ends (keeping v x) u (fun _ _ => False) fun e' _ => e' = e ∨ e' = .failed .stackUnderflow := by
  have hpark : (liftM (park v) : MutatorM Unit) u = .ok () (parkedOn u v) :=
    roots_lift (park_run hcap hlim)
  unfold keeping
  refine .step hpark ?_
  cases e with
  | failed f =>
    have hatt : attempt x (parkedOn u v) = .ok (.error f) u' := by rw [attempt, hx]
    refine .step hatt ?_
    cases hback : u'.machine.roots.stack.back? with
    | some w => exact .step (roots_lift (unpark_run hback)) (.of_error rfl (.inl rfl))
    | none => exact .of_error (bind_error (unpark_gone hback)) (.inr rfl)
  | trap | endless => exact .of_error (bind_error (by rw [attempt, hx])) (.inl rfl)

/-- A trap is passed on at once. -/
theorem keeping_trap {u' : Mutator} (hcap : u.machine.roots.stack.size < u.machine.roots.capacity)
    (hlim : u.machine.roots.stack.size + 1 < tableLimit) (hx : x (parkedOn u v) = .error .trap u') :
    keeping v x u = .error .trap u' := by
  have hpark : (liftM (park v) : MutatorM Unit) u = .ok () (parkedOn u v) :=
    roots_lift (park_run hcap hlim)
  have hatt : attempt x (parkedOn u v) = .error .trap u' := by rw [attempt, hx]
  rw [keeping, bind_ok hpark, bind_error hatt]

/-- A property of the faults of `x` is one of the faults with `v` parked, if parking and taking back
have it. -/
theorem keeping_passes {F : Fault → Prop} {Q : α → Prop}
    (hx : u.machine.roots.stack.size + 1 < tableLimit → Ends x (parkedOn u v)
      (fun a _ => Q a) fun e _ => F e)
        (hfull : ∀ e, Roots.parking u.machine.roots.stack.size u.machine.roots.capacity
          1 = .error e → F e) (hgone : F (.failed .stackUnderflow)) :
          Ends (keeping v x) u (fun r _ => Q r.2) fun e _ => F e := by
  cases hroom : Roots.parking u.machine.roots.stack.size u.machine.roots.capacity 1 with
  | error e => exact .of_error (keeping_full hroom) (hfull e hroom)
  | ok =>
    obtain ⟨hcap, hlim⟩ := Roots.room_of_parking hroom
    cases hrun : x (parkedOn u v) with
    | ok a u' =>
      cases hback : u'.machine.roots.stack.back? with
      | some w => exact .of_eq (keeping_ok hcap hlim hrun hback) ((hx hlim).ok hrun)
      | none =>
        have hpark : (liftM (park v) : MutatorM Unit) u = .ok () (parkedOn u v) :=
          roots_lift (park_run hcap hlim)
        have hatt : attempt x (parkedOn u v) = .ok (.ok a) u' := by rw [attempt, hrun]
        unfold keeping
        exact .step hpark (.step hatt (.of_error (bind_error (unpark_gone hback)) hgone))
    | error e u' =>
      refine ((keeping_blames hcap hlim hrun).mono fun _ _ h => h.elim).mono_error ?_
      rintro e' - (rfl | rfl)
      · exact (hx hlim).error hrun
      · exact hgone

/-- A value is parked while `x` runs, which may collect and parks `n` more values. -/
theorem keeping_ends {P : α → Machine Collector → (Nat → Prop) → (Nat → Nat) → Prop} {K : Nat}
    {L : Nat → Prop} (hl : Laws Collector.operations I N) (hi : I u.machine S) (hv : v.Within S)
    (hP : ∀ {a m S' ρ} r, P a m S' ρ → P a (m.withRoots r) S' ρ)
    (hx : I (parkedOn u v).machine S → Ends x (parkedOn u v)
      (fun a u' => u'.poisoned = false ∧ Roots.parking (parkedOn u v).machine.roots.stack.size
        (parkedOn u v).machine.roots.capacity n = .ok () ∧ ∃ ρ S' k, k ≤ K ∧
        Carried I L (parkedOn u v).machine u'.machine S S' ρ k ∧ P a u'.machine S' ρ)
        (Stops (parkedOn u v) n)) :
    Ends (keeping v x) u (fun r u' => u'.poisoned = false ∧
      Roots.parking u.machine.roots.stack.size u.machine.roots.capacity (n + 1) = .ok () ∧
      ∃ ρ S' k, k ≤ K ∧ Carried I L u.machine u'.machine S S' ρ k ∧ P r.2 u'.machine S' ρ ∧
        r.1 = v.rename ρ ∧ r.1.Within S')
      (Stops u (n + 1)) := by
  cases hroom : Roots.parking u.machine.roots.stack.size u.machine.roots.capacity 1 with
  | ok =>
    obtain ⟨hcap, hlim⟩ := Roots.room_of_parking hroom
    have hend := hx (hl.park hi hv hlim)
    cases hrun : x (parkedOn u v) with
    | ok a u' =>
      obtain ⟨hpo, hpark, ρ, S', k, hk, hmv, hPa⟩ := hend.ok hrun
      obtain ⟨hback, hmv'⟩ := hmv.unpark hl
      refine .of_eq (keeping_ok hcap hlim hrun hback)
        ⟨hpo, (parking_succ hcap hlim).trans hpark, ρ, S', k, hk, hmv', hP _ hPa,
        rfl, ?_⟩
      refine hl.roots hmv.inv (.stack u.machine.roots.stack.size) (v.rename ρ) ?_
      rw [Array.back?_eq_getElem?, hmv.roots.depth] at hback
      simpa [Roots.get?, parkedOn, Roots.withParked] using hback
    | error e u' => exact keeping_stops hcap hlim hrun (hend.error hrun)
  | error e =>
    exact .of_error (keeping_full hroom) (.inr ⟨Roots.parking_error hroom n, fun _ _ => rfl⟩)

end MutatorM

end Keeping

end Reclaim
