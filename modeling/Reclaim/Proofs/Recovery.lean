import Reclaim.Proofs.Footing
import Reclaim.Proofs.Poison

/-!
# Recoverable failures

A call that fails for want of room on the stack, or of a value there, leaves the heap as it was.
Nothing is assumed of the heap or of what the call is given.

A name that is bound for the first time is the one exception. Three objects are made for it, and
only one value is parked for the first of them, so that with a single free slot the failure comes
when that one is already made.

Results:
* `recoverable_failure_keeps_heap`: a recoverable failure, and the exception.
* `first_definition_interrupted`: the exception does occur.
-/

namespace Reclaim

variable {α β : Type}

/-- How many values the stack holds, and the frame that it stands in. -/
def Mutator.footing (u : Mutator) : Nat × Nat × Nat := u.machine.footing

namespace MutatorM

/-! ## Computations without a recoverable failure -/

/-- Whatever comes of the computation, the stack is as high as before, and a failure is fatal. -/
abbrev Footed (x : MutatorM α) : Prop := Keeps Mutator.footing Grave x

section Footed

variable {x : MutatorM α} {v w : Value} {n : Nat}

instance {m : Type → Type} [MonadLiftT m (GcM Collector)] {y : m α}
    [hy : GcM.Footed (liftM y : GcM Collector α)] :
    Footed (liftM y : MutatorM α) := by
  refine ⟨fun u => ?_⟩
  have hlift : (liftM y : MutatorM α) = liftM (liftM y : GcM Collector α) := rfl
  have h := hy.ends u.machine
  unfold Ends at h ⊢
  rw [hlift, gc_lift_eq]
  cases hr : (liftM y : GcM Collector α) u.machine <;> (rw [hr] at h; exact h)

instance : Footed check := by
  refine ⟨fun u => ?_⟩
  cases hu : u.poisoned with
  | false => exact .of_eq (check_run hu) rfl
  | true =>
    refine .of_error (check_poisoned hu) ⟨rfl, ?_⟩
    rintro _ ⟨⟩
    rfl

instance [hx : Footed x] : Footed (guarded x) := by
  refine ⟨fun u => ?_⟩
  have h := hx.ends u
  unfold Ends guarded at *
  cases hr : x u with
  | ok a u' =>
    rw [hr] at h
    exact h
  | error e u' =>
    rw [hr] at h
    cases e with
    | failed f => exact h
    | trap | endless => exact h

instance {y : GcM Collector α} [GcM.Footed y] : Footed (operate y) := by
  unfold operate; infer_instance

instance : Footed (allocateWords n) := by
  have hrecord : ∀ size, Footed (modify fun m : Mutator =>
      { m with machine := { m.machine with
        stats := m.machine.stats.recordAllocation
          (size + m.machine.own.headerWords) } } : MutatorM PUnit) :=
    fun _ => ⟨fun _ => .of_eq rfl rfl⟩
  unfold allocateWords
  infer_instance

instance : Footed (allocate n) := by unfold allocate; infer_instance
instance {c : Char} : Footed (char c) := by unfold char; infer_instance
instance {tag : Tag} {bytes : List UInt8} : Footed (text tag bytes) := by
  unfold text; infer_instance
instance {s : String} : Footed (string s) := by unfold string; infer_instance
instance {s : String} : Footed (symbol s) := by unfold symbol; infer_instance

instance {entry params : Int} {variadic : Bool} : Footed (lambda entry params variadic) := by
  unfold lambda; infer_instance

instance {field : Nat} : Footed (initField field v) := by unfold initField; infer_instance
instance {o field : Nat} : Footed (writeField o field v) := by unfold writeField; infer_instance
instance {slot : RootSlot} : Footed (writeRoot slot v) := by unfold writeRoot; infer_instance
instance : Footed collect := by unfold collect; infer_instance
instance : Footed collectFull := by unfold collectFull; infer_instance

instance {field : Nat} : Footed (setPairField field v w) := by
  refine Keeps.bind fun o => ?_
  split <;> infer_instance

instance : Footed (setCar v w) := by unfold setCar; infer_instance
instance : Footed (setCdr v w) := by unfold setCdr; infer_instance

end Footed

/-! ## Parked values -/

/-- The stack has room for `n` more values. -/
def Room (n : Nat) (u : Mutator) : Prop := u.machine.roots.stack.size + n ≤ u.machine.roots.capacity

theorem Room.congr {n : Nat} {u u' : Mutator} (h : u'.footing = u.footing) :
    Room n u' ↔ Room n u := by
  obtain ⟨h1, h2⟩ := Prod.mk.inj h
  rw [Room, Room, h1, (Prod.mk.inj h2).1]

/-- A computation that parks `n` values, one after the other, before it does anything else. In the
end the stack is as high as before; the only failure that is not fatal is that there is no room for
the values, which leaves everything as it is. -/
def Parks (n : Nat) (x : MutatorM α) : Prop := ∀ u,
    Ends x u (fun _ u' => u'.footing = u.footing ∧ (n ≠ 0 → Room n u)) fun e u' =>
  ∀ f, e = .failed f → u'.footing = u.footing ∧ (Mild f → u' = u ∧ ¬ Room n u)

variable {x : MutatorM α} {k : α → MutatorM β} {n : Nat} {v w : Value}

theorem Parks.of_footed [hx : Footed x] : Parks 0 x := by
  refine fun u => ((hx.ends u).mono fun _ _ h => ⟨h, fun h0 => absurd rfl h0⟩).mono_error
    fun e u' h f hf => ⟨h.1, fun hm => ?_⟩
  have hfatal : f.isFatal = true := h.2 f hf
  rw [hm] at hfatal
  cases hfatal

/-- What follows is without a recoverable failure. -/
theorem Parks.bind (hx : Parks n x) (hk : ∀ a, Footed (k a)) : Parks n (x >>= k) := by
  refine fun u => (hx u).bind fun a u₁ h₁ => ?_
  refine (((hk a).ends u₁).mono fun _ _ h => ⟨h.trans h₁.1, h₁.2⟩).mono_error fun e u' h f hf =>
    ⟨h.1.trans h₁.1, fun hm => ?_⟩
  have hfatal : f.isFatal = true := h.2 f hf
  rw [hm] at hfatal
  cases hfatal

/-- The mutator after the value parked last was taken back. -/
def unparked (u : Mutator) : Mutator :=
  u.withMachine (u.machine.withRoots u.machine.roots.withoutParked)

theorem unparked_parkedOn (u : Mutator) (v : Value) : unparked (parkedOn u v) = u := by
  have hroots : (u.machine.roots.withParked v).withoutParked = u.machine.roots := by
    simp [Roots.withParked, Roots.withoutParked]
  simp [unparked, parkedOn, hroots]

/-- A value can be taken back whenever the stack is as high as it was when the value was parked. -/
theorem unpark_of_footing {u u₁ : Mutator} (h₁ : u₁.footing = (parkedOn u v).footing) :
    (∃ w, (liftM unpark : MutatorM Value) u₁ = .ok w (unparked u₁)) ∧ (unparked u₁).footing =
    u.footing := by
  obtain ⟨hsize, hframe⟩ := Prod.mk.inj h₁
  obtain ⟨hcap, htable⟩ := Prod.mk.inj hframe
  have hone : u₁.machine.roots.stack.size = u.machine.roots.stack.size + 1 := by
    rw [hsize]
    simp [parkedOn, Roots.withParked]
  have hback : u₁.machine.roots.stack.back? =
      some u₁.machine.roots.stack[u.machine.roots.stack.size] := by
    rw [Array.back?_eq_getElem?, show u₁.machine.roots.stack.size - 1 =
      u.machine.roots.stack.size by omega]
    exact Array.getElem?_eq_getElem _
  refine ⟨⟨_, roots_lift (unpark_run hback)⟩, ?_⟩
  simp [Mutator.footing, Machine.footing, Machine.frame, Roots.frame, unparked,
    Roots.withoutParked, hone, hcap, htable, parkedOn, Roots.withParked]

/-- One more value is parked. -/
theorem Parks.keeping (hx : Parks n x) (v : Value) : Parks (n + 1) (keeping v x) := by
  intro u
  cases hroom : Roots.parking u.machine.roots.stack.size u.machine.roots.capacity 1 with
  | error e =>
    refine .of_error (keeping_full hroom) fun f hf => ⟨rfl, fun _ => ⟨rfl, fun hr => ?_⟩⟩
    subst hf
    unfold Room at hr
    simp only [Roots.parking,
      if_pos (show u.machine.roots.stack.size < u.machine.roots.capacity by omega)] at hroom
    split at hroom <;> cases hroom
  | ok =>
    obtain ⟨hcap, hlim⟩ := Roots.room_of_parking hroom
    have hpark : (liftM (park v) : MutatorM Unit) u = .ok () (parkedOn u v) :=
      roots_lift (park_run hcap hlim)
    have hsucc : Room n (parkedOn u v) ↔ Room (n + 1) u := by
      simp [Room, parkedOn, Roots.withParked, Nat.add_right_comm, Nat.add_assoc]
    have hx' := hx (parkedOn u v)
    unfold MutatorM.keeping
    refine .step hpark ?_
    cases hrun : x (parkedOn u v) with
    | ok a u₁ =>
      obtain ⟨h₁, hr⟩ := hx'.ok hrun
      obtain ⟨⟨w, hun⟩, h₂⟩ := unpark_of_footing h₁
      have hatt : attempt x (parkedOn u v) = .ok (.ok a) u₁ := by rw [attempt, hrun]
      refine .step hatt (.step hun (.pure ⟨h₂, fun _ => ?_⟩))
      cases n with
      | zero => exact hcap
      | succ n => exact hsucc.mp (hr (by omega))
    | error e u₁ =>
      cases e with
      | failed f =>
        obtain ⟨h₁, hm⟩ := hx'.error hrun f rfl
        obtain ⟨⟨w, hun⟩, h₂⟩ := unpark_of_footing h₁
        have hatt : attempt x (parkedOn u v) = .ok (.error f) u₁ := by rw [attempt, hrun]
        refine .step hatt (.step hun (.of_error rfl ?_))
        rintro _ ⟨⟩
        refine ⟨h₂, fun hmild => ?_⟩
        obtain ⟨rfl, hr⟩ := hm hmild
        exact ⟨unparked_parkedOn u v, fun h => hr (hsucc.mpr h)⟩
      | trap =>
        have hatt : attempt x (parkedOn u v) = .error .trap u₁ := by rw [attempt, hrun]
        exact .of_error (bind_error hatt) (by simp)
      | endless =>
        have hatt : attempt x (parkedOn u v) = .error .endless u₁ := by rw [attempt, hrun]
        exact .of_error (bind_error hatt) (by simp)

/-! ## Calls that park -/

theorem Parks.check (hx : Parks n x) : Parks n (check >>= fun _ => x) := by
  intro u
  cases hu : u.poisoned with
  | false => exact .step (check_run hu) (hx u)
  | true =>
    refine .of_error (bind_error (check_poisoned hu)) ?_
    rintro _ ⟨⟩
    exact ⟨rfl, fun hm => by cases hm⟩

theorem cons_parks (a b : Value) : Parks 2 (cons a b) := by
  unfold cons
  exact (((Parks.of_footed.keeping b).keeping a).bind fun r => inferInstance).check

theorem string_parks (v : Value) (name : String) : Parks 1 (keeping v (string name)) :=
  Parks.of_footed.keeping v

/-- A recoverable failure of the computation leaves everything as it is. -/
def Mends (x : MutatorM α) (u : Mutator) : Prop :=
  Ends x u (fun _ _ => True) fun e u' => ∀ f, e = .failed f → Mild f → u' = u

theorem Parks.mends (hx : Parks n x) (u : Mutator) : Mends x u :=
  ((hx u).mono fun _ _ _ => trivial).mono_error fun _ _ h f hf hm => ((h f hf).2 hm).1

theorem duplicate_mends (v : Value) (u : Mutator) : Mends (duplicate v) u := by
  have hcopy : ∀ words, Parks 1
      (MutatorM.keeping v (allocateWords words) >>= fun r => fillCopy words r.1 r.2) := by
    intro words
    refine (Parks.of_footed.keeping v).bind fun r => ?_
    unfold fillCopy
    split <;> infer_instance
  cases hv : v.ref? with
  | none => exact .of_eq (duplicate_immediate hv) trivial
  | some obj =>
    rw [duplicate_eq hv]
    cases hu : u.poisoned with
    | true =>
      refine .of_error (bind_error (check_poisoned hu)) ?_
      rintro _ ⟨⟩ hm
      cases hm
    | false =>
      refine .step (check_run hu) ?_
      cases hw : payloadWords obj u.machine.heap with
      | ok words => exact .step (read_lift hw) ((hcopy words).mends u)
      | error e =>
        exact .of_error (bind_error (gc_lift_error (read_lift_error hw))) fun _ _ _ => rfl

/-! ## The stack itself -/

theorem roots_only {σ : Type} {y : RootsM α} (hy : ∀ r e r', y r = .error e r' → r' = r)
    (m : Machine σ) :
    Ends (liftM y : GcM σ α) m (fun _ _ => True) fun e m' => ∀ f, e = .failed f →
      Mild f → m' = m := by
  cases hr : y m.roots with
  | ok a r => exact .of_eq (Reclaim.roots_lift hr) trivial
  | error e r =>
    obtain rfl := hy _ _ _ hr
    exact .of_error (Reclaim.roots_lift_error hr) fun _ _ _ => rfl

/-- A computation that uses the stack first, and does nothing to it if it fails. -/
theorem roots_first {σ : Type} {y : RootsM α} {k : α → GcM σ β}
    (hy : ∀ r e r', y r = .error e r' → r' = r) (hk : ∀ a, GcM.Footed (k a)) (m : Machine σ) :
    Ends (liftM y >>= k) m (fun _ _ => True) fun e m' => ∀ f, e = .failed f → Mild f → m' = m := by
  cases hr : y m.roots with
  | error e r =>
    obtain rfl := hy _ _ _ hr
    exact .of_error (bind_error (Reclaim.roots_lift_error hr)) fun _ _ _ => rfl
  | ok a r =>
    refine .step (Reclaim.roots_lift hr) ((((hk a).ends _).mono fun _ _ _ => trivial).mono_error ?_)
    intro e m' h f hf hm
    have hfatal : f.isFatal = true := h.2 f hf
    rw [hm] at hfatal
    cases hfatal

/-- What a strategy leaves as it is stays as it is. -/
theorem within_mends {σ : Type} {wrap : σ → Collector} {s : σ} {x : GcM σ α} {m : Machine Collector}
    (hs : m.own = wrap s) (hx : Ends x (m.withOwn s) (fun _ _ => True) fun e m' => ∀ f, e =
      .failed f → Mild f → m' = m.withOwn s) :
    Ends (Collector.within wrap s x) m (fun _ _ => True) fun e m' => ∀ f, e = .failed f →
      Mild f → m' = m := by
  cases hr : x (m.withOwn s) with
  | ok a m' => exact .of_eq (Collector.run_within hr) trivial
  | error e m' =>
    have hrun : Collector.within wrap s x m = .error e (m'.withOwn (wrap m'.own)) := by
      rw [Collector.within, hr]
    refine .of_error hrun fun f hf hm => ?_
    rw [hx.error hr f hf hm]
    cases m
    cases hs
    rfl

theorem operate_mends {y : GcM Collector α} {u : Mutator}
    (hy : Ends y u.machine (fun _ _ => True) fun e m' => ∀ f, e = .failed f →
      Mild f → m' = u.machine) : Mends (operate y) u := by
  cases hu : u.poisoned with
  | true =>
    refine .of_error (bind_error (check_poisoned hu)) ?_
    rintro _ ⟨⟩ hm
    cases hm
  | false =>
    unfold operate
    refine .step (check_run hu) ?_
    cases hr : y u.machine with
    | ok a m' => exact .of_eq (guarded_run hr) trivial
    | error e m' =>
      have hlift : (liftM y : MutatorM α) u = .error e (u.withMachine m') := gc_lift_error hr
      unfold Ends guarded
      rw [hlift]
      cases e with
      | failed f =>
        rintro _ ⟨⟩ hm
        rw [hy.error hr f rfl hm, show f.isFatal = false from hm, Bool.or_false]
        rfl
      | trap | endless =>
        intro f hf
        cases hf

theorem collector_push_mends (v : Value) (m : Machine Collector) :
    Ends (Collector.push v) m (fun _ _ => True) fun e m' => ∀ f, e = .failed f →
      Mild f → m' = m := by
  have hroots : ∀ r e r', pushRoot v r = .error e r' → r' = r := by
    intro r e r' h
    unfold pushRoot at h
    split at h
    · split at h <;> cases h
      rfl
    · cases h
      rfl
  unfold Collector.push
  refine .step GcM.run_own ?_
  cases hown : m.own with
  | counting s =>
    refine within_mends hown (roots_first hroots (fun _ => Keeps.bind fun c => ?_) _)
    split <;> infer_instance
  | _ => exact roots_only hroots m

theorem collector_pop_mends (m : Machine Collector) :
    Ends Collector.pop m (fun _ _ => True) fun e m' => ∀ f, e = .failed f → Mild f → m' = m := by
  have hroots : ∀ r e r', popRoot r = .error e r' → r' = r := by
    intro r e r' h
    unfold popRoot at h
    split at h <;> cases h
    rfl
  unfold Collector.pop
  refine .step GcM.run_own ?_
  cases hown : m.own with
  | counting s =>
    refine within_mends hown (roots_first hroots (fun v => Keeps.bind fun c => ?_) _)
    dsimp only
    split <;> infer_instance
  | _ => exact roots_only hroots m

theorem push_mends (v : Value) (u : Mutator) : Mends (push v) u :=
  operate_mends (collector_push_mends v u.machine)

theorem pop_mends (u : Mutator) : Mends pop u := operate_mends (collector_pop_mends u.machine)

/-! ## Binding a name -/

/-- Either nothing has changed, or the stack had room for one value and no more. -/
def Cramped (u : Mutator) (e : Fault) (u' : Mutator) : Prop := ∀ f, e = .failed f → Mild f →
  u' = u ∨ (Room 1 u ∧ ¬ Room 2 u)

theorem bindNew_cramped (bucket : Nat) (name : String) (v : Value) (u : Mutator) :
    Ends (bindNew bucket name v) u (fun _ _ => True) (Cramped u) := by
  unfold bindNew
  refine ((string_parks v name u).mono_error fun e u' h f hf hm => .inl ((h f hf).2 hm).1).bind ?_
  rintro ⟨v', key⟩ u₁ ⟨h₁, hroom₁⟩
  have hone : Room 1 u := hroom₁ (by omega)
  refine ((cons_parks key v' u₁).mono_error ?_).bind ?_
  · exact fun e u' h f hf hm =>
      .inr ⟨hone, fun htwo => ((h f hf).2 hm).2 ((Room.congr h₁).mpr htwo)⟩
  rintro entry u₂ ⟨h₂, hroom₂⟩
  have htwo : Room 2 u₂ := (Room.congr h₂).mpr (hroom₂ (by omega))
  -- from here on there is room for all that is parked
  have hhead : Footed (liftM (getRoot (.global bucket)) : MutatorM Value) := inferInstance
  refine ((hhead.ends u₂).mono_error ?_).bind ?_
  · exact fun e u' h f hf hm => absurd (h.2 f hf) (by rw [Grave, hm]; simp)
  rintro head u₃ h₃
  have hlink : Parks 2 (do
      let link ← cons entry (rest head)
      writeRoot (.global bucket) link) := (cons_parks entry (rest head)).bind fun _ => inferInstance
  refine ((hlink u₃).mono fun _ _ _ => trivial).mono_error fun e u' h f hf hm => ?_
  exact absurd ((Room.congr h₃).mpr htwo) ((h f hf).2 hm).2

theorem define_cramped (name : String) (v : Value) (u : Mutator) :
    Ends (define name v) u (fun _ _ => True) fun e u' => ∀ f, e = .failed f → Mild f → u' = u ∨
      (Room 1 u ∧ ¬ Room 2 u ∧ entryAt? (u.bucket name) name u.machine = .ok none u.machine) := by
  refine define_ends ?_
  rw [defineAt_eq]
  cases hu : u.poisoned with
  | true =>
    refine .of_error (bind_error (check_poisoned hu)) ?_
    rintro _ ⟨⟩ hm
    cases hm
  | false =>
    refine .step (check_run hu) ?_
    rcases entryAt?_quiet u (u.bucket name) name with ⟨r, hr⟩ | ⟨e, hne, he⟩
    · refine .step (gc_lift hr) ?_
      cases r with
      | some entry =>
        have hset : Footed (setCdr entry v) := inferInstance
        refine ((hset.ends u).mono fun _ _ _ => trivial).mono_error ?_
        exact fun e u' h f hf hm => absurd (h.2 f hf) (by rw [Grave, hm]; simp)
      | none =>
        refine (bindNew_cramped _ name v u).mono_error fun e u' h f hf hm =>
          (h f hf hm).imp id fun h => ?_
        exact ⟨h.1, h.2, hr⟩
    · exact .of_error (bind_error (gc_lift_error he)) fun f hf => absurd hf (hne f)

end MutatorM

/-! ## All calls -/

section Calls

open MutatorM

/-- A failure of a computation without recoverable failures is not recoverable. -/
theorem fatal_of_footed {x : MutatorM α} [hx : MutatorM.Footed x] {u u' : Mutator} {f : Failure}
    (hrun : x u = .error (.failed f) u') :
    f.isFatal = true := ((hx.ends u).error hrun).2 f rfl

theorem mends_of_bind {x : MutatorM α} {g : α → β} {u u' : Mutator} {f : Failure} (hx : Mends x u)
    (hf : f.isFatal = false) (hrun : (x >>= fun a => pure (g a)) u = .error (.failed f) u') :
    u' = u := by
  cases hr : x u with
  | ok a u₁ =>
    rw [bind_ok hr] at hrun
    cases hrun
  | error e u₁ =>
    rw [bind_error hr] at hrun
    cases hrun
    exact hx.error hr f rfl hf

/-- A call that fails for want of room, or of a value, on the stack leaves the heap as it was,
whatever state it was in; except that a name that has no entry yet, and for which there is room for
one value and no more, may leave the objects that were made for it. -/
theorem recoverable_failure_keeps_heap {call : Call} {u u' : Mutator} {f : Failure}
    (hrun : call.run u = .error (.failed f) u') (hf : f.isFatal = false) :
    u' = u ∨ ∃ name v, call = .command (.define name v) ∧ Room 1 u ∧ ¬ Room 2 u ∧
      entryAt? (u.bucket name) name u.machine = .ok none u.machine := by
  have hgrave : MutatorM.Footed call.run → u' = u := by
    intro hx
    rw [fatal_of_footed hrun] at hf
    cases hf
  cases call with
  | store owner field v => exact .inl (hgrave (by unfold Call.run; infer_instance))
  | command cmd =>
    cases cmd with
    | cons a b => exact .inl (mends_of_bind ((cons_parks a b).mends u) hf hrun)
    | duplicate v => exact .inl (mends_of_bind (duplicate_mends v u) hf hrun)
    | push v => exact .inl (mends_of_bind (push_mends v u) hf hrun)
    | pop => exact .inl (mends_of_bind (pop_mends u) hf hrun)
    | define name v =>
      cases hr : define name v u with
      | ok a u₁ =>
        have hok : (Call.command (.define name v)).run u = .ok [] u₁ := bind_ok hr
        rw [hok] at hrun
        cases hrun
      | error e u₁ =>
        have herr : (Call.command (.define name v)).run u = .error e u₁ := bind_error hr
        rw [herr] at hrun
        cases hrun
        exact ((define_cramped name v u).error hr f rfl hf).imp id fun h => ⟨name, v, rfl, h⟩
    | lookup name =>
      refine .inl (mends_of_bind (g := Option.toList) ?_ hf hrun)
      rcases lookup?_quiet u name with ⟨r, hr⟩ | ⟨e, hne, he⟩
      · exact .of_eq (gc_lift hr) trivial
      · exact .of_error (gc_lift_error he) fun f hf => absurd hf (hne f)
    | setStress on => cases hrun
    | peek depth => cases hrun
    | _ => exact .inl (hgrave (by unfold Call.run Command.run; infer_instance))

end Calls

/-- A heap with a stack of one slot. -/
def oneSlotStack : Config :=
  { strategy := .copying, heapSize := 1024, stackCapacity := 1, globalTableSize := 1 }

/-- There is no room for the second of two values to park, and nothing happens. -/
theorem oneSlotStack_cons_keeps_heap : ∃ u', (Call.command (.cons .nil .nil)).run
    (Mutator.ofConfig oneSlotStack)
      = .error (.failed (.stackOverflow 1)) u' ∧ u' = Mutator.ofConfig oneSlotStack := by
  have hrun : (Call.command (.cons .nil .nil)).run (Mutator.ofConfig oneSlotStack)
      = .error (.failed (.stackOverflow 1)) (Mutator.ofConfig oneSlotStack) := rfl
  obtain hsame | ⟨name, v, hcall, -⟩ := recoverable_failure_keeps_heap hrun rfl
  · exact ⟨_, hrun, hsame⟩
  · cases hcall

/-- The text of a new name has been made when there is no room for the second of two values to park:
the failure is recoverable, but one object more was allocated. -/
theorem first_definition_interrupted : ∃ f u', (Command.define "x" .nil).run
    (Mutator.ofConfig oneSlotStack) = .error (.failed f) u' ∧
    f.isFatal = false ∧ (Mutator.ofConfig oneSlotStack).machine.stats.allocations = 0 ∧
    u'.machine.stats.allocations = 1 := by
  refine ⟨.stackOverflow 1, _, Command.run_of_fault ?_, rfl, rfl, ?_⟩ <;> decide +kernel

end Reclaim
