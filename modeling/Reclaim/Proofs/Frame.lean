import Reclaim.Proofs.Recovery

/-!
# What no command changes

How many values the stack may hold, and how many buckets the global table has, is settled when a
heap is made. And it is failures that poison a heap: after a command that traps the heap is as clean
as it was before. Both hold of any heap, whatever its words are, and of any operands.

Results:
* `Command.run_orderly`: every command.
* `Session.frame`: the frame of a session is that of its configuration.
* `Session.framed`: it is a proper one, if the stack fits into memory.
* `MutatorM.Orderly.reported`: what stops an operation is told, if a poisoned heap or a full stack
  is all that it leaves.
-/

namespace Reclaim

variable {σ α β : Type}

/-- Whatever comes of the computation, the roots stand in the same frame. -/
abbrev RootsM.Framed (y : RootsM α) : Prop := Keeps Roots.frame (fun _ => True) y

/-- Whatever comes of the computation, the roots stand in the same frame. -/
abbrev GcM.Framed (x : GcM σ α) : Prop := Keeps Machine.frame (fun _ => True) x

section Framed

variable {v : Value}

instance : RootsM.Framed (pushRoot v) := by
  refine ⟨fun r => ?_⟩
  unfold Ends pushRoot
  by_cases hcap : r.stack.size < r.capacity
  · by_cases hlim : r.stack.size + 1 < tableLimit <;> simp [hcap, hlim, Roots.frame]
  · simp [hcap]

instance : RootsM.Framed popRoot := by
  refine ⟨fun r => ?_⟩
  unfold Ends popRoot
  cases r.stack.back? <;> simp [Roots.frame]

instance : RootsM.Framed (park v) := by
  have hcount : RootsM.Framed (modify fun r => { r with parked := r.parked + 1 }) :=
    ⟨fun _ => .of_eq rfl rfl⟩
  unfold park
  infer_instance

namespace GcM

instance (priority := low) {x : GcM σ α} [hx : Footed x] : Framed x := by
  refine ⟨fun m => ?_⟩
  exact ((hx.ends m).mono fun _ _ h => (Prod.mk.inj h).2).mono_error fun _ _ h =>
    ⟨(Prod.mk.inj h.1).2, fun _ _ => trivial⟩

instance {y : RootsM α} [hy : RootsM.Framed y] : Framed (liftM y : GcM σ α) := by
  refine ⟨fun m => ?_⟩
  have h := hy.ends m.roots
  unfold Ends at h ⊢
  rw [roots_lift_eq]
  cases hr : y m.roots <;> (rw [hr] at h; exact h)

end GcM

namespace Collector

instance {wrap : σ → Collector} {s : σ} {x : GcM σ α} [hx : GcM.Framed x] :
    GcM.Framed (within wrap s x) := by
  refine ⟨fun m => ?_⟩
  have h := hx.ends (m.withOwn s)
  unfold Ends at h ⊢
  unfold within
  cases hr : x (m.withOwn s) <;> (rw [hr] at h; exact h)

instance : GcM.Framed (Counting.push v) := by
  refine Keeps.bind fun _ => Keeps.bind fun c => ?_
  split <;> infer_instance

instance : GcM.Framed Counting.pop := by
  refine Keeps.bind fun v => Keeps.bind fun c => ?_
  dsimp only
  split <;> infer_instance

instance : GcM.Framed (push v) := by
  refine Keeps.bind fun c => ?_
  split <;> infer_instance

instance : GcM.Framed pop := by
  refine Keeps.bind fun c => ?_
  split <;> infer_instance

end Collector

end Framed

/-! ## Computations of the mutator -/

def Mutator.frame (u : Mutator) : Nat × Nat := u.machine.frame

namespace MutatorM

/-- Whatever comes of the computation, the roots stand in the same frame; and if it does not fail,
the heap is poisoned only if it was poisoned before. -/
class Orderly (x : MutatorM α) : Prop where
  ends : ∀ u, Ends x u (fun _ u' => u'.frame = u.frame ∧ u'.poisoned = u.poisoned)
    fun e u' => u'.frame = u.frame ∧ ((∀ f, e ≠ .failed f) → u'.poisoned = u.poisoned)

namespace Orderly

variable {x y : MutatorM α} {k : α → MutatorM β} {v w : Value} {n : Nat}

instance {a : α} : Orderly (pure a) := ⟨fun _ => .pure ⟨rfl, rfl⟩⟩
instance : Orderly (get : MutatorM Mutator) := ⟨fun _ => .of_eq rfl ⟨rfl, rfl⟩⟩

theorem bind [hx : Orderly x] (hk : ∀ a, Orderly (k a)) : Orderly (x >>= k) := by
  refine ⟨fun u => (hx.ends u).bind fun a u₁ h₁ => ?_⟩
  exact (((hk a).ends u₁).mono fun _ _ h => ⟨h.1.trans h₁.1, h.2.trans h₁.2⟩).mono_error
    fun _ _ h => ⟨h.1.trans h₁.1, fun he => (h.2 he).trans h₁.2⟩

instance [Orderly x] [hk : ∀ a, Orderly (k a)] : Orderly (x >>= k) := bind hk

instance {m : Type → Type} [MonadLiftT m (GcM Collector)] {y : m α}
    [hy : GcM.Framed (liftM y : GcM Collector α)] :
    Orderly (liftM y : MutatorM α) := by
  refine ⟨fun u => ?_⟩
  have hlift : (liftM y : MutatorM α) = liftM (liftM y : GcM Collector α) := rfl
  have h := hy.ends u.machine
  unfold Ends at h ⊢
  rw [hlift, gc_lift_eq]
  cases hr : (liftM y : GcM Collector α) u.machine with
  | ok a m =>
    rw [hr] at h
    exact ⟨h, rfl⟩
  | error e m =>
    rw [hr] at h
    exact ⟨h.1, fun _ => rfl⟩

instance : Orderly check := by
  refine ⟨fun u => ?_⟩
  cases hu : u.poisoned with
  | false => exact .of_eq (check_run hu) ⟨rfl, hu⟩
  | true => exact .of_error (check_poisoned hu) ⟨rfl, fun h => absurd rfl (h _)⟩

instance [hx : Orderly x] : Orderly (guarded x) := by
  refine ⟨fun u => ?_⟩
  have h := hx.ends u
  unfold Ends guarded at *
  cases hr : x u with
  | ok a u' =>
    rw [hr] at h
    exact h
  | error e u' =>
    rw [hr] at h
    cases e with
    | failed f => exact ⟨h.1, fun h => absurd rfl (h f)⟩
    | trap | endless => exact h

instance {y : GcM Collector α} [GcM.Framed y] : Orderly (operate y) := by
  unfold operate; infer_instance

/-- A failure is kept back while the parked value is taken from the stack, and then reported. -/
instance [hx : Orderly x] : Orderly (keeping v x) := by
  unfold keeping
  refine bind fun _ => ⟨fun u => ?_⟩
  have htry : Ends (attempt x) u (fun r u' => u'.frame = u.frame ∧ ∀ a, r = .ok a →
    u'.poisoned = u.poisoned)
      fun e u' => u'.frame = u.frame ∧ ((∀ f, e ≠ .failed f) → u'.poisoned = u.poisoned) := by
    have h := hx.ends u
    unfold Ends attempt at *
    cases hr : x u with
    | ok a u' =>
      rw [hr] at h
      exact ⟨h.1, fun _ _ => h.2⟩
    | error e u' =>
      rw [hr] at h
      cases e with
      | failed f => exact ⟨h.1, by simp⟩
      | trap | endless => exact h
  refine htry.bind fun r u₁ h₁ => ?_
  have hback : Ends (liftM unpark : MutatorM Value) u₁
    (fun _ u' => u'.frame = u₁.frame ∧ u'.poisoned = u₁.poisoned)
      fun e u' => u'.frame = u₁.frame ∧ ∃ f, e = .failed f := by
    cases hv : u₁.machine.roots.stack.back? with
    | some v => exact .of_eq (roots_lift (unpark_run hv)) ⟨rfl, rfl⟩
    | none =>
      have hpop : popRoot u₁.machine.roots = .error (.failed .stackUnderflow) u₁.machine.roots := by
        rw [popRoot, hv]
      exact .of_error (roots_lift_error (bind_error hpop)) ⟨rfl, _, rfl⟩
  refine (hback.mono_error fun e u' h =>
    ⟨h.1.trans h₁.1, fun he => h.2.elim fun f hf => absurd hf (he f)⟩).bind fun w u₂ h₂ => ?_
  cases r with
  | ok a => exact .pure ⟨h₂.1.trans h₁.1, h₂.2.trans (h₁.2 a rfl)⟩
  | error f => exact .of_error rfl ⟨h₂.1.trans h₁.1, fun h => absurd rfl (h f)⟩

instance : Orderly (allocateWords n) := by
  have hrecord : ∀ size, Orderly (modify fun m : Mutator =>
      { m with machine := { m.machine with
        stats := m.machine.stats.recordAllocation
          (size + m.machine.own.headerWords) } } : MutatorM PUnit) :=
    fun _ => ⟨fun _ => .of_eq rfl ⟨rfl, rfl⟩⟩
  unfold allocateWords
  infer_instance

instance {field : Nat} : Orderly (initField field v) := by unfold initField; infer_instance
instance : Orderly (allocate n) := by unfold allocate; infer_instance
instance {c : Char} : Orderly (char c) := by unfold char; infer_instance
instance {tag : Tag} {bytes : List UInt8} : Orderly (text tag bytes) := by
  unfold text; infer_instance
instance {s : String} : Orderly (string s) := by unfold string; infer_instance
instance {s : String} : Orderly (symbol s) := by unfold symbol; infer_instance
instance {entry params : Int} {variadic : Bool} : Orderly (lambda entry params variadic) := by
  unfold lambda; infer_instance
instance : Orderly (cons v w) := by unfold cons; infer_instance

instance : Orderly (duplicate v) := by
  unfold duplicate
  split
  · infer_instance
  · refine bind fun _ => bind fun words => bind fun r => ?_
    dsimp only
    split <;> infer_instance

instance {o field : Nat} : Orderly (writeField o field v) := by unfold writeField; infer_instance
instance {slot : RootSlot} : Orderly (writeRoot slot v) := by unfold writeRoot; infer_instance
instance : Orderly collect := by unfold collect; infer_instance
instance : Orderly collectFull := by unfold collectFull; infer_instance
instance : Orderly (push v) := by unfold push; infer_instance
instance : Orderly pop := by unfold pop; infer_instance
instance {on : Bool} : Orderly (setStress on) := ⟨fun _ => .of_eq rfl ⟨rfl, rfl⟩⟩

instance {field : Nat} : Orderly (setPairField field v w) := by
  refine bind fun o => ?_
  split <;> infer_instance

instance {bucket : Nat} {name : String} : GcM.Framed (entryAt? bucket name) := by
  unfold entryAt?; infer_instance

instance {name : String} : GcM.Framed (bucketOf name) := by unfold bucketOf; infer_instance

instance {name : String} : GcM.Framed (lookup? name) := by
  refine Keeps.bind fun bucket => Keeps.bind fun entry => ?_
  split <;> infer_instance

instance {bucket : Nat} {name : String} : Orderly (bindNew bucket name v) := by
  unfold bindNew; infer_instance

instance {name : String} : Orderly (define name v) := by
  have hat : ∀ bucket, Orderly (defineAt bucket name v) := by
    intro bucket
    rw [defineAt_eq]
    refine bind fun _ => bind fun entry => ?_
    split
    · unfold setCdr
      infer_instance
    · infer_instance
  unfold define
  infer_instance

end Orderly

end MutatorM

/-- Every command leaves the frame as it is, and poisons the heap only if it fails. -/
instance Command.run_orderly (cmd : Command) : MutatorM.Orderly cmd.run := by
  cases cmd with
  | setCar pair v =>
    unfold run MutatorM.setCar
    infer_instance
  | setCdr pair v =>
    unfold run MutatorM.setCdr
    infer_instance
  | _ =>
    unfold run
    infer_instance

/-- The frame of a session is that of its configuration. -/
theorem Session.frame {c : Config} {u : Mutator} {H : Nat → Prop} (hs : Session c u H) :
    u.frame = (c.stackCapacity, max c.globalTableSize 1) := by
  induction hs with
  | start hu =>
    obtain ⟨hash, rfl, -⟩ := hu.eq
    simp [Mutator.frame, Machine.frame, Mutator.ofConfig,
      Machine.ofConfig, Roots.frame, Roots.empty]
  | @step u u' H cmd vs hs hops hgives hu' ih =>
    have hends := (cmd.run_orderly).ends u
    rcases hgives with h | ⟨f, h, -⟩
    · exact (hends.ok h).1.trans ih
    · exact (hends.error h).1.trans ih

/-! ## Frames that are large enough, and not too large -/

/-- The stack fits into memory, and the global table has a bucket. -/
def Mutator.Framed (u : Mutator) : Prop := u.machine.roots.capacity < tableLimit ∧
    0 < u.machine.roots.globals.size

theorem Mutator.Framed.congr {u u' : Mutator} (hf : u.Framed) (h : u'.frame = u.frame) :
    u'.Framed := by
  obtain ⟨hcap, htable⟩ := Prod.mk.inj h
  exact ⟨hcap.trans_lt hf.1, hf.2.trans_eq htable.symm⟩

theorem Mutator.Framed.bucket_lt {u : Mutator} (hf : u.Framed) (name : List UInt8) :
    u.machine.roots.bucket name < u.machine.roots.globals.size := Nat.mod_lt _ hf.2

/-- The slot that the command writes is there. -/
def Command.InRange (u : Mutator) : Command → Prop
  | writeRoot slot _ => u.machine.roots.get? slot ≠ none
  | _ => True

/-- A word counts the bytes of the object that the command asks for, should it have to be
refused. -/
def Command.Countable (u : Mutator) : Command → Prop
  | allocate bytes => Collector.operations.Countable u.machine (max (wordsFor bytes) 1)
  | string s | symbol s =>
    Collector.operations.Countable u.machine (textWords (Text.encode s).length)
  | define name _ => ¬ MutatorM.Lengthy u name
  | _ => True

theorem Session.framed {c : Config} {u : Mutator} {H : Nat → Prop} (hs : Session c u H)
    (hcap : c.stackCapacity < tableLimit) : u.Framed := by
  obtain ⟨hc, hg⟩ := Prod.mk.inj hs.frame
  exact ⟨hc.trans_lt hcap, by omega⟩

theorem Roots.parking_ne_trap {size capacity : Nat} (hcap : capacity < tableLimit) (n : Nat) :
    parking size capacity n ≠ .error .trap := by
  induction n generalizing size with
  | zero => simp [parking]
  | succ n ih =>
    rw [parking]
    split
    · rw [if_pos (by omega)]
      exact ih
    · simp

/-! ## What is told -/

/-- The heap tells why it stopped. -/
def Reported (e : Fault) : Prop := ∃ f, e = .failed f

/-- A stack that stays below the limit of memory is at most full. -/
theorem Roots.parking_reported {size capacity n : Nat} {e : Fault} (hroom : size + n < tableLimit)
    (he : parking size capacity n = .error e) : Reported e := by
  induction n generalizing size with
  | zero => cases he
  | succ n ih =>
    rw [parking] at he
    split at he
    · rw [if_pos (by omega)] at he
      exact ih (by omega) he
    · cases he
      exact ⟨_, rfl⟩

theorem Stops.reported {u u' : Mutator} {n : Nat} {e : Fault}
    (hroom : u.machine.roots.stack.size + n < tableLimit) (h : Stops u n e u') :
    u'.poisoned = true ∨ Reported e := h.imp_right fun h => Roots.parking_reported hroom h.1

/-- Only what is told poisons the heap. -/
theorem MutatorM.Orderly.reported {x : MutatorM α} {u : Mutator} {Q : α → Mutator → Prop}
    [ho : Orderly x] (hu : u.poisoned = false)
    (hx : Ends x u Q fun e u' => u'.poisoned = true ∨ Reported e) :
    Ends x u Q fun e _ => Reported e := by
  refine (hx.and_error (ho.ends u)).mono_error ?_
  rintro e u' ⟨hpoisoned | htold, -, hsame⟩
  · by_contra hsilent
    have hclean := hsame fun f hf => hsilent ⟨f, hf⟩
    rw [hpoisoned, hu] at hclean
    cases hclean
  · exact htold

end Reclaim
