import Reclaim.Proofs.Reports
import Reclaim.Proofs.Session

/-!
# Poisoned heaps

A fatal failure poisons the heap, whatever state the heap was in, and a poisoned heap stays as it
is: a call that could change something is refused, or it does nothing. Nothing is assumed of the
heap here, so its words may be any and a call may be given any values.

There is one exception: a copy of an object with an unknown tag is refused before anything is
guarded, so that it changes nothing and poisons nothing either.

Results:
* `fatal_failure_freezes`: a fatal failure, and whatever is called after it.
* `unknown_copy_unpoisoned`: the exception.
-/

namespace Reclaim

variable {α β : Type}

/-- What a program may ask of its heap: a command, or a store through an address that it works out
by itself. -/
inductive Call where
  | command (cmd : Command)
  | store (owner field : Nat) (v : Value)

namespace Call

def run : Call → MutatorM (List Value)
  | command cmd => cmd.run
  | store owner field v => do
    MutatorM.writeField owner field v
    return []

/-- Whether to collect before every allocation, after the call. -/
def stressed (on : Bool) : Call → Bool
  | command (.setStress on') => on'
  | _ => on

/-- Does the call ask for a copy of an object that has no tag? -/
def CopiesUnknown (u : Mutator) : Call → Prop
  | command (.duplicate v) =>
  ∃ o code, v.ref? = some o ∧ rawTag o u.machine.heap = .ok code ∧ Tag.ofCode? code = none
  | _ => False

end Call

/-- The answers to calls that are made one after the other; a failure is an answer too. -/
def answers (calls : List Call) : MutatorM (List (Except Failure (List Value))) :=
  calls.mapM fun call => attempt call.run

/-! ## Fatal failures -/

/-- A fatal failure leaves a poisoned heap. -/
def Alarmed (e : Fault) (u : Mutator) : Prop := ∀ f, e = .failed f → f.isFatal = true →
    u.poisoned = true

/-- Every fatal failure of the computation poisons the heap. -/
class Alarms (x : MutatorM α) : Prop where
  ends : ∀ u, Ends x u (fun _ _ => True) Alarmed

/-- A failure that is not fatal. -/
def Mild (f : Failure) : Prop := f.isFatal = false

theorem Mild.alarmed {e : Fault} {u : Mutator} (he : ∀ f, e = .failed f → Mild f) :
    Alarmed e u := by
  intro f hf hfatal
  rw [he f hf] at hfatal
  cases hfatal

theorem check_poisoned {u : Mutator} (hu : u.poisoned = true) :
    MutatorM.check u = .error (.failed .poisoned) u := by
  have hget : (get : MutatorM Mutator) u = .ok u u := rfl
  rw [MutatorM.check, bind_ok hget, hu]
  rfl

namespace Alarms

variable {x y : MutatorM α} {k : α → MutatorM β}

instance {a : α} : Alarms (pure a) := ⟨fun _ => .pure trivial⟩

theorem bind [hx : Alarms x] (hk : ∀ a, Alarms (k a)) : Alarms (x >>= k) :=
  ⟨fun u => (hx.ends u).bind fun a u₁ _ => (hk a).ends u₁⟩

instance [Alarms x] [hk : ∀ a, Alarms (k a)] : Alarms (x >>= k) := bind hk

instance {f : Mutator → Mutator} : Alarms (modify f : MutatorM PUnit) :=
  ⟨fun _ => .of_eq rfl trivial⟩
instance : Alarms (get : MutatorM Mutator) := ⟨fun _ => .of_eq rfl trivial⟩

instance : Alarms MutatorM.check := by
  refine ⟨fun u => ?_⟩
  cases hu : u.poisoned with
  | false => exact .of_eq (MutatorM.check_run hu) trivial
  | true => exact .of_error (check_poisoned hu) fun _ _ _ => hu

/-- The guard itself. -/
instance : Alarms (MutatorM.guarded x) := by
  refine ⟨fun u => ?_⟩
  unfold Ends MutatorM.guarded
  cases x u with
  | ok a u' => trivial
  | error e u' =>
    cases e with
    | failed f =>
      rintro _ ⟨⟩ hf
      simp [hf]
    | trap | endless =>
      intro f hf
      cases hf

instance {y : GcM Collector α} : Alarms (MutatorM.operate y) := by
  unfold MutatorM.operate; infer_instance

/-- What needs no guard: the computation reports mild failures only. -/
theorem of_mild (hx : ∀ u, Ends x u (fun _ _ => True) fun e _ => ∀ f, e =
      .failed f → Mild f) : Alarms x :=
  ⟨fun u => (hx u).mono_error fun _ _ he => Mild.alarmed he⟩

instance {m : Type → Type} [MonadLiftT m HeapM] {y : m α}
    [hy : HeapM.Reports Mild (liftM y : HeapM α)] :
    Alarms (liftM y : MutatorM α) := by
  refine of_mild fun u => ?_
  have hlift : (liftM y : MutatorM α) = liftM (liftM (liftM y : HeapM α) : GcM Collector α) := rfl
  have h := hy.ends u.machine.heap
  unfold Ends at h ⊢
  rw [hlift, MutatorM.gc_lift_eq, heap_lift_eq]
  cases hr : (liftM y : HeapM α) u.machine.heap with
  | ok a heap => trivial
  | error e heap =>
    rw [hr] at h
    exact h.2

instance {slot : RootSlot} : Alarms (liftM (getRoot slot) : MutatorM Value) := by
  refine of_mild fun u => ?_
  cases hv : u.machine.roots.get? slot with
  | some v =>
    exact .of_eq (MutatorM.roots_lift (r := u.machine.roots) (by rw [getRoot, hv])) trivial
  | none =>
    exact .of_error (MutatorM.roots_lift_error (r := u.machine.roots)
      (by rw [getRoot, hv])) (by simp)

instance {v : Value} : Alarms (liftM (park v) : MutatorM Unit) := by
  refine of_mild fun u => ?_
  cases hroom : Roots.parking u.machine.roots.stack.size u.machine.roots.capacity 1 with
  | ok =>
    obtain ⟨hcap, hlim⟩ := Roots.room_of_parking hroom
    exact .of_eq (MutatorM.roots_lift (park_run hcap hlim)) trivial
  | error e =>
    refine .of_error (MutatorM.roots_lift_error (park_error hroom)) fun f hf => ?_
    exact Roots.not_fatal_of_parking hroom f hf

/-- Taking back a parked value at most finds the stack empty, and leaves the poison as it is. -/
theorem unpark_ends (u : Mutator) :
    Ends (liftM unpark : MutatorM Value) u (fun _ u' => u'.poisoned = u.poisoned)
    fun e u' => u'.poisoned = u.poisoned ∧ ∀ f, e = .failed f → Mild f := by
  cases hv : u.machine.roots.stack.back? with
  | some v => exact .of_eq (MutatorM.roots_lift (unpark_run hv)) rfl
  | none =>
    have hpop : popRoot u.machine.roots = .error (.failed .stackUnderflow) u.machine.roots := by
      rw [popRoot, hv]
    refine .of_error (MutatorM.roots_lift_error (bind_error hpop)) ⟨rfl, ?_⟩
    rintro _ ⟨⟩
    rfl

/-- A failure is kept back until the parked value is taken from the stack. -/
instance {v : Value} [hx : Alarms x] : Alarms (MutatorM.keeping v x) := by
  unfold MutatorM.keeping
  refine bind fun _ => ⟨fun u => ?_⟩
  have htry : Ends (attempt x) u (fun r u' => ∀ f, r = .error f → f.isFatal = true →
      u'.poisoned = true) Alarmed := by
    have h := hx.ends u
    unfold Ends attempt at *
    cases hr : x u with
    | ok a u' => simp
    | error e u' =>
      rw [hr] at h
      cases e with
      | failed f =>
        rintro _ ⟨⟩ hf
        exact h f rfl hf
      | trap | endless => exact h
  refine htry.bind fun r u₁ h₁ => ?_
  refine ((unpark_ends u₁).mono_error fun _ _ he => Mild.alarmed he.2).bind fun w u₂ h₂ => ?_
  cases r with
  | ok a => exact .pure trivial
  | error f =>
    refine .of_error rfl ?_
    rintro _ ⟨⟩ hf
    rw [h₂]
    exact h₁ f rfl hf

end Alarms

section Calls

variable {v w : Value} {n : Nat}

instance : Alarms (MutatorM.allocateWords n) := by unfold MutatorM.allocateWords; infer_instance
instance : Alarms (MutatorM.allocate n) := by unfold MutatorM.allocate; infer_instance
instance {c : Char} : Alarms (MutatorM.char c) := by unfold MutatorM.char; infer_instance
instance {tag : Tag} {bytes : List UInt8} : Alarms (MutatorM.text tag bytes) := by
  unfold MutatorM.text; infer_instance
instance {s : String} : Alarms (MutatorM.string s) := by unfold MutatorM.string; infer_instance
instance {s : String} : Alarms (MutatorM.symbol s) := by unfold MutatorM.symbol; infer_instance
instance {field : Nat} : Alarms (MutatorM.initField field v) := by
  unfold MutatorM.initField; infer_instance
instance : Alarms (MutatorM.cons v w) := by unfold MutatorM.cons; infer_instance

instance {entry params : Int} {variadic : Bool} :
    Alarms (MutatorM.lambda entry params variadic) := by
  unfold MutatorM.lambda
  infer_instance

instance {o field : Nat} : Alarms (MutatorM.writeField o field v) := by
  unfold MutatorM.writeField; infer_instance
instance {slot : RootSlot} : Alarms (MutatorM.writeRoot slot v) := by
  unfold MutatorM.writeRoot; infer_instance

instance {field : Nat} : Alarms (MutatorM.setPairField field v w) := by
  refine Alarms.bind fun o => ?_
  split <;> infer_instance

instance : Alarms (MutatorM.setCar v w) := by unfold MutatorM.setCar; infer_instance
instance : Alarms (MutatorM.setCdr v w) := by unfold MutatorM.setCdr; infer_instance
instance : Alarms (MutatorM.push v) := by unfold MutatorM.push; infer_instance
instance : Alarms MutatorM.pop := by unfold MutatorM.pop; infer_instance

/-- Looking for an entry changes nothing and reports nothing. -/
theorem entryAt?_quiet (u : Mutator) (bucket : Nat) (name : String) :
    (∃ r, MutatorM.entryAt? bucket name u.machine = .ok r u.machine) ∨
      ∃ e, (∀ f, e ≠ .failed f) ∧ MutatorM.entryAt? bucket name u.machine = .error e u.machine := by
  cases hh : u.machine.roots.globals[bucket]? with
  | none => exact .inr ⟨.trap, by simp, MutatorM.entryAt?_trap hh⟩
  | some head =>
    have hsilent : ReadM.Reports (fun _ => False)
      (entryFrom? name (u.machine.heap.size + 1) head) := inferInstance
    cases hr : entryFrom? name (u.machine.heap.size + 1) head u.machine.heap with
    | ok r => exact .inl ⟨r, MutatorM.entryAt?_run hh hr⟩
    | error e =>
      refine .inr ⟨e, ?_, MutatorM.entryAt?_error hh hr⟩
      rintro f rfl
      exact hsilent.only _ f hr

/-- So does looking up a name. -/
theorem lookup?_quiet (u : Mutator) (name : String) :
    (∃ r, MutatorM.lookup? name u.machine = .ok r u.machine) ∨
      ∃ e, (∀ f, e ≠ .failed f) ∧ MutatorM.lookup? name u.machine = .error e u.machine := by
  rw [MutatorM.lookup?_eq]
  rcases entryAt?_quiet u (u.bucket name) name with ⟨r, hr⟩ | ⟨e, hne, he⟩
  · rw [MutatorM.lookupAt?, bind_ok hr]
    cases r with
    | none => exact .inl ⟨none, rfl⟩
    | some entry =>
      have hsilent : ReadM.Reports (fun _ => False) (cdr? entry) := inferInstance
      cases hc : cdr? entry u.machine.heap with
      | ok w => exact .inl ⟨w, read_lift hc⟩
      | error e =>
        refine .inr ⟨e, ?_, read_lift_error hc⟩
        rintro f rfl
        exact hsilent.only _ f hc
  · exact .inr ⟨e, hne, bind_error he⟩

instance {bucket : Nat} {name : String} :
    Alarms (liftM (MutatorM.entryAt? bucket name) : MutatorM (Option Value)) := by
  refine .of_mild fun u => ?_
  rcases entryAt?_quiet u bucket name with ⟨r, hr⟩ | ⟨e, hne, he⟩
  · exact .of_eq (MutatorM.gc_lift hr) trivial
  · exact .of_error (MutatorM.gc_lift_error he) fun f hf => absurd hf (hne f)

instance {bucket : Nat} {name : String} : Alarms (MutatorM.bindNew bucket name v) := by
  unfold MutatorM.bindNew
  infer_instance

instance {bucket : Nat} {name : String} : Alarms (MutatorM.defineAt bucket name v) := by
  rw [MutatorM.defineAt_eq]
  refine Alarms.bind fun _ => Alarms.bind fun r => ?_
  split <;> infer_instance

instance {name : String} : Alarms (MutatorM.define name v) :=
  ⟨fun u => MutatorM.define_ends (Alarms.ends u)⟩

/-- The size of an object is not known exactly when its tag is not. -/
theorem unknown_of_payloadWords {o : Nat} {h : Arena} {f : Failure}
    (hx : payloadWords o h = .error (.failed f)) :
    ∃ code, rawTag o h = .ok code ∧ Tag.ofCode? code = none := by
  have hload : ReadM.Reports (fun _ => False) (load o) := inferInstance
  cases hl : load o h with
  | error e =>
    have hsame : payloadWords o h = .error e := by
      simp [payloadWords, tagOf, rawTag, read_bind_error, hl]
    rw [hx] at hsame
    cases hsame
    exact (hload.only h f hl).elim
  | ok w =>
    have hraw : rawTag o h = .ok w.toUInt8 := by rw [rawTag, read_bind hl]; rfl
    refine ⟨_, hraw, ?_⟩
    cases ht : Tag.ofCode? w.toUInt8 with
    | none => rfl
    | some tag =>
      have htag : tagOf o h = .ok tag := by rw [tagOf, read_bind hraw, ht]; rfl
      have haux : auxOf o h = .ok (w >>> 8) := by rw [auxOf, read_bind hl]; rfl
      rw [payloadWords, read_bind htag] at hx
      cases tag with
      | string | symbol =>
        dsimp only at hx
        rw [read_bind haux] at hx
        cases hx
      | char | pair | lambda => cases hx

/-- A copy: either its object has no tag and nothing happens, or its fatal failures poison the
heap. -/
theorem duplicate_alarms (v : Value) (u : Mutator) :
    Ends (MutatorM.duplicate v) u (fun _ _ => True) fun e u' =>
    Alarmed e u' ∨ ((Call.command (.duplicate v)).CopiesUnknown u ∧ u' = u) := by
  have hcopy : ∀ words, Alarms
      (MutatorM.keeping v (MutatorM.allocateWords words) >>=
        fun r => MutatorM.fillCopy words r.1 r.2) := by
    intro words
    refine Alarms.bind fun r => ?_
    unfold MutatorM.fillCopy
    split <;> infer_instance
  cases hv : v.ref? with
  | none => exact .of_eq (MutatorM.duplicate_immediate hv) trivial
  | some obj =>
    rw [MutatorM.duplicate_eq hv]
    cases hu : u.poisoned with
    | true => exact .of_error (bind_error (check_poisoned hu)) (.inl fun _ _ _ => hu)
    | false =>
      refine .step (MutatorM.check_run hu) ?_
      cases hw : payloadWords obj u.machine.heap with
      | ok words =>
        refine .step (MutatorM.read_lift hw) ?_
        exact ((hcopy words).ends u).mono_error fun _ _ he => .inl he
      | error e =>
        refine .of_error (bind_error (MutatorM.gc_lift_error (read_lift_error hw))) ?_
        cases e with
        | failed f =>
          obtain ⟨code, hcode, hnone⟩ := unknown_of_payloadWords hw
          exact .inr ⟨⟨obj, code, hv, hcode, hnone⟩, rfl⟩
        | trap | endless => exact .inl fun f hf => by cases hf

instance {name : String} : Alarms (liftM (MutatorM.lookup? name) : MutatorM (Option Value)) := by
  refine .of_mild fun u => ?_
  rcases lookup?_quiet u name with ⟨r, hr⟩ | ⟨e, hne, he⟩
  · exact .of_eq (MutatorM.gc_lift hr) trivial
  · exact .of_error (MutatorM.gc_lift_error he) fun f hf => absurd hf (hne f)

instance : Alarms MutatorM.collect := by unfold MutatorM.collect; infer_instance
instance : Alarms MutatorM.collectFull := by unfold MutatorM.collectFull; infer_instance
instance {on : Bool} : Alarms (MutatorM.setStress on) := by
  unfold MutatorM.setStress; infer_instance

/-- What comes of a call's fatal failure. -/
theorem Call.run_alarms (call : Call) (u : Mutator) :
    Ends call.run u (fun _ _ => True) fun e u' =>
    Alarmed e u' ∨ (call.CopiesUnknown u ∧ u' = u) := by
  have hleft : Alarms call.run → Ends call.run u (fun _ _ => True) fun e u' => Alarmed e u' ∨
      (call.CopiesUnknown u ∧ u' = u) :=
    fun hx => (hx.ends u).mono_error fun _ _ he => .inl he
  cases call with
  | store owner field v => exact hleft (by unfold run; infer_instance)
  | command cmd =>
    cases cmd with
    | duplicate v => exact (duplicate_alarms v u).bind fun _ _ _ => .pure trivial
    | _ => exact hleft (by unfold run Command.run; infer_instance)

end Calls

/-! ## Poisoned heaps -/

/-- A computation that is refused if the heap is poisoned. -/
class Refused (x : MutatorM α) : Prop where
  stop : ∀ u, u.poisoned = true → x u = .error (.failed .poisoned) u

instance : Refused MutatorM.check := ⟨fun _ => check_poisoned⟩

instance {x : MutatorM α} {k : α → MutatorM β} [hx : Refused x] : Refused (x >>= k) :=
  ⟨fun u hu => bind_error (hx.stop u hu)⟩

/-- On a poisoned heap nothing is changed, and nothing is reported but the poison. -/
def Idle (x : MutatorM α) (u : Mutator) : Prop :=
  Ends x u (fun _ u' => u' = u) fun e u' => u' = u ∧ ∀ f, e = .failed f → f = .poisoned

theorem Refused.idle {x : MutatorM α} [hx : Refused x] {u : Mutator}
    (hu : u.poisoned = true) : Idle x u := by
  refine .of_error (hx.stop u hu) ⟨rfl, ?_⟩
  rintro _ ⟨⟩
  rfl

section Calls

variable {v w : Value} {n : Nat}

instance {y : GcM Collector α} : Refused (MutatorM.operate y) := by
  unfold MutatorM.operate; infer_instance
instance : Refused (MutatorM.allocateWords n) := by unfold MutatorM.allocateWords; infer_instance
instance : Refused (MutatorM.allocate n) := by unfold MutatorM.allocate; infer_instance
instance {c : Char} : Refused (MutatorM.char c) := by unfold MutatorM.char; infer_instance
instance {tag : Tag} {bytes : List UInt8} : Refused (MutatorM.text tag bytes) := by
  unfold MutatorM.text; infer_instance
instance {s : String} : Refused (MutatorM.string s) := by unfold MutatorM.string; infer_instance
instance {s : String} : Refused (MutatorM.symbol s) := by unfold MutatorM.symbol; infer_instance
instance : Refused (MutatorM.cons v w) := by unfold MutatorM.cons; infer_instance

instance {entry params : Int} {variadic : Bool} :
    Refused (MutatorM.lambda entry params variadic) := by
  unfold MutatorM.lambda
  infer_instance

instance {o field : Nat} : Refused (MutatorM.writeField o field v) := by
  unfold MutatorM.writeField; infer_instance
instance {slot : RootSlot} : Refused (MutatorM.writeRoot slot v) := by
  unfold MutatorM.writeRoot; infer_instance
instance : Refused (MutatorM.push v) := by unfold MutatorM.push; infer_instance
instance : Refused MutatorM.pop := by unfold MutatorM.pop; infer_instance
instance : Refused MutatorM.collect := by unfold MutatorM.collect; infer_instance
instance : Refused MutatorM.collectFull := by unfold MutatorM.collectFull; infer_instance

instance {name : String} : Refused (MutatorM.define name v) := by
  refine ⟨fun u hu => ?_⟩
  have hdef : Refused (MutatorM.defineAt (u.bucket name) name v) := by
    unfold MutatorM.defineAt
    infer_instance
  rw [MutatorM.define_eq]
  exact hdef.stop u hu

variable {u : Mutator}

/-- A reader, and what is done with what it reads. -/
theorem idle_read {x : ReadM α} {k : α → MutatorM β} (hx : ReadM.Reports (fun _ => False) x)
    (hk : ∀ a, Idle (k a) u) :
    Idle (liftM x >>= k) u := by
  cases hr : x u.machine.heap with
  | ok a => exact .step (MutatorM.read_lift hr) (hk a)
  | error e =>
    refine .of_error (bind_error (MutatorM.gc_lift_error (read_lift_error hr))) ⟨rfl, ?_⟩
    rintro f rfl
    exact (hx.only _ f hr).elim

theorem setPairField_idle (hu : u.poisoned = true) (field : Nat) (pair v : Value) :
    Idle (MutatorM.setPairField field pair v) u := by
  refine idle_read inferInstance fun o => ?_
  cases o with
  | some o => exact Refused.idle hu
  | none => exact .pure rfl

theorem duplicate_idle (hu : u.poisoned = true) (v : Value) : Idle (MutatorM.duplicate v) u := by
  unfold MutatorM.duplicate
  cases v.ref? with
  | none => exact .pure rfl
  | some o => exact Refused.idle hu

theorem lookup?_idle (name : String) :
    Idle (liftM (MutatorM.lookup? name) : MutatorM (Option Value)) u := by
  rcases lookup?_quiet u name with ⟨r, hr⟩ | ⟨e, hne, he⟩
  · exact .of_eq (MutatorM.gc_lift hr) rfl
  · exact .of_error (MutatorM.gc_lift_error he) ⟨rfl, fun f hf => absurd hf (hne f)⟩

theorem Command.run_idle (hu : u.poisoned = true) (cmd : Command)
    (hcmd : ∀ on, cmd ≠ .setStress on) : Idle cmd.run u := by
  cases cmd with
  | setStress on => exact absurd rfl (hcmd on)
  | setCar pair v => exact (setPairField_idle hu carField pair v).bind fun _ _ h => .pure h
  | setCdr pair v => exact (setPairField_idle hu cdrField pair v).bind fun _ _ h => .pure h
  | duplicate v => exact (duplicate_idle hu v).bind fun _ _ h => .pure h
  | lookup name => exact (lookup?_idle name).bind fun _ _ h => .pure h
  | car v | cdr v => exact idle_read inferInstance fun _ => .pure rfl
  | peek depth => exact .of_eq rfl rfl
  | _ =>
    unfold run
    exact Refused.idle hu

/-- The same heap with the stress switch set. -/
def Mutator.withStress (u : Mutator) (on : Bool) : Mutator :=
  { u with machine := { u.machine with stress := on } }

/-- A call on a poisoned heap. -/
theorem Call.run_idle (hu : u.poisoned = true) (call : Call) :
    Ends call.run u (fun _ u' => u' = u.withStress (call.stressed u.machine.stress))
      fun e u' => u' = u.withStress (call.stressed u.machine.stress) ∧ ∀ f, e = .failed f →
        f = .poisoned := by
  cases call with
  | store owner field v =>
    unfold run
    exact Refused.idle hu
  | command cmd =>
    by_cases hcmd : ∃ on, cmd = .setStress on
    · obtain ⟨on, rfl⟩ := hcmd
      exact .of_eq rfl rfl
    · have hsame : (command cmd).stressed u.machine.stress = u.machine.stress := by
        cases cmd <;> simp_all [stressed]
      rw [hsame]
      exact cmd.run_idle hu fun on h => hcmd ⟨on, h⟩

/-- An answer that tells of no change: the call was refused, or did nothing. -/
def Harmless (answer : Except Failure (List Value)) : Prop :=
  answer = .error .poisoned ∨ ∃ vs, answer = .ok vs

/-- Calls on a poisoned heap, by induction on their list. A trap ends them before all are
answered. -/
theorem answers_idle (calls : List Call) (hu : u.poisoned = true) :
    Ends (answers calls) u (fun as u' =>
      u' = u.withStress (calls.foldl Call.stressed u.machine.stress) ∧ ∀ a ∈ as, Harmless a)
      fun e u' => (∃ on, u' = u.withStress on) ∧ ∀ f, e ≠ .failed f := by
  induction calls generalizing u with
  | nil => exact .pure ⟨rfl, by simp⟩
  | cons call calls ih =>
    have hstep : Ends (attempt call.run) u
        (fun a u' => u' = u.withStress (call.stressed u.machine.stress) ∧ Harmless a)
        fun e u' => (∃ on, u' = u.withStress on) ∧ ∀ f, e ≠ .failed f := by
      have h := call.run_idle hu
      unfold Ends attempt at *
      cases hr : call.run u with
      | ok vs u' =>
        rw [hr] at h
        exact ⟨h, .inr ⟨vs, rfl⟩⟩
      | error e u' =>
        rw [hr] at h
        cases e with
        | failed f => exact ⟨h.1, .inl (congrArg Except.error (h.2 f rfl))⟩
        | trap | endless => exact ⟨⟨_, h.1⟩, by simp⟩
    rw [answers, List.mapM_cons]
    refine hstep.bind ?_
    rintro a u₁ ⟨rfl, ha⟩
    have hrest := @ih (u.withStress (call.stressed u.machine.stress)) hu
    refine (hrest.mono_error ?_).bind ?_
    · rintro e u' ⟨⟨on, rfl⟩, he⟩
      exact ⟨⟨on, rfl⟩, he⟩
    · rintro as u₂ ⟨rfl, has⟩
      refine .pure ⟨rfl, ?_⟩
      simpa using ⟨ha, has⟩

end Calls

/-- Whatever state a heap is in, a call that fails fatally poisons it, or is a copy of an object
with an unknown tag, which leaves it as it was. Once it is poisoned, nothing but the stress switch
changes any more, and all further calls are refused or do nothing. -/
theorem fatal_failure_freezes {call : Call} {u u' : Mutator} {f : Failure}
    (hrun : call.run u = .error (.failed f) u') (hf : f.isFatal = true) :
    (call.CopiesUnknown u ∧ u' = u) ∨ (u'.poisoned = true ∧ ∀ later,
      Ends (answers later) u' (fun as u'' =>
        u'' = u'.withStress (later.foldl Call.stressed u'.machine.stress) ∧ ∀ a ∈ as, Harmless a)
        fun e u'' => (∃ on, u'' = u'.withStress on) ∧ ∀ f, e ≠ .failed f) := by
  rcases (call.run_alarms u).error hrun with halarm | hcopy
  · have hu' := halarm f rfl hf
    exact .inr ⟨hu', fun later => answers_idle later hu'⟩
  · exact .inl hcopy

/-- A heap of eight words. -/
def cell : Config :=
  { strategy := .copying, heapSize := 64, stackCapacity := 4, globalTableSize := 1 }

/-- An object that is too large for any heap of this size poisons it; four more calls change the
stress switch alone. -/
theorem large_request_freezes : ∃ u' f as u'', (Call.command (.allocate 100)).run
    (Mutator.ofConfig cell) = .error (.failed f) u' ∧
    f.isFatal = true ∧ u'.poisoned = true ∧
    answers [.command (.push .nil), .command (.setCar .nil .nil), .command (.setStress true),
      .store 2 2 .nil] u' = .ok as u'' ∧
    u'' = u'.withStress true ∧ ∀ a ∈ as, Harmless a := by
  have hrun : (Call.command (.allocate 100)).run (Mutator.ofConfig cell)
      = .error (.failed (.objectTooLarge 120 32)) ⟨Machine.ofConfig cell, true⟩ := rfl
  obtain ⟨hcopy, -⟩ | ⟨hu', hlater⟩ := fatal_failure_freezes hrun rfl
  · exact hcopy.elim
  · have hfour := hlater [.command (.push .nil), .command (.setCar .nil .nil),
      .command (.setStress true), .store 2 2 .nil]
    exact ⟨_, _, _, _, hrun, rfl, hu', rfl, hfour.ok rfl⟩

/-- A word that is stored over an object word need not have a tag. A copy of what is there now fails
fatally and leaves the heap unpoisoned. -/
theorem unknown_copy_unpoisoned : ∃ u f, answers [.command (.allocate 8), .store 2 2 ⟨0xff⟩]
    (Mutator.ofConfig cell)
      = .ok [.ok [.ofRef 2], .ok []] u ∧
    (Call.command (.duplicate (.ofRef 2))).run u = .error (.failed f) u ∧ f.isFatal = true ∧
    u.poisoned = false :=
  ⟨_, _, rfl, rfl, rfl, rfl⟩

end Reclaim
