import Reclaim.Proofs.Lawful
import Reclaim.Proofs.Recovery
import Reclaim.Proofs.Traps
import Reclaim.Proofs.Mirrors
import Reclaim.Proofs.MarkSweep.Void

/-!
# Transparency

A program that keeps no addresses cannot tell one heap from another, whatever their strategies,
sizes and other settings are: as long as neither has reported a fatal failure, every step ends in
both with the same outcome, and the graphs of what the roots reach are the same but for the
addresses. The exception is a mark-sweep arena of a single word, where a collection traps.

Results:
* `Script.portrays`: a heap portrays what a script makes of a memory.
* `strategies_agree`: two heaps, after any script.
* `oneWordArena_differs`: the exception.
-/

namespace Reclaim

/-! ## What stops a heap -/

namespace MutatorM

variable {α β : Type}

/-- The heap stays as clean as it is, unless a fatal failure is reported. -/
class Lenient (x : MutatorM α) : Prop where
  ends : ∀ u, Ends x u (fun _ u' => u'.poisoned = u.poisoned) fun e u' =>
    (∃ f, e = .failed f ∧ f.isFatal = true) ∨ u'.poisoned = u.poisoned

namespace Lenient

variable {x : MutatorM α} {k : α → MutatorM β} {v w : Value}

instance {a : α} : Lenient (pure a) := ⟨fun _ => .pure rfl⟩

instance : Lenient (get : MutatorM Mutator) := ⟨fun _ => .of_eq rfl rfl⟩

theorem bind [hx : Lenient x] (hk : ∀ a, Lenient (k a)) : Lenient (x >>= k) := by
  refine ⟨fun u => (hx.ends u).bind fun a u₁ h₁ => ?_⟩
  exact (((hk a).ends u₁).mono fun _ _ h => h.trans h₁).mono_error fun _ _ h =>
    h.imp_right fun h => h.trans h₁

instance [Lenient x] [hk : ∀ a, Lenient (k a)] : Lenient (x >>= k) := bind hk

/-- What changes nothing when it reports a failure that is not fatal. -/
theorem of_mends [ho : Orderly x] (hx : ∀ u, Mends x u) : Lenient x := by
  refine ⟨fun u => (((ho.ends u).and_error (hx u)).mono fun _ _ h => h.2).mono_error ?_⟩
  rintro e u' ⟨⟨-, hsilent⟩, hmild⟩
  by_cases hf : ∃ f, e = .failed f
  · obtain ⟨f, rfl⟩ := hf
    cases hfatal : f.isFatal with
    | true => exact .inl ⟨f, rfl, hfatal⟩
    | false => exact .inr (congrArg Mutator.poisoned (hmild f rfl hfatal))
  · exact .inr (hsilent fun f he => hf ⟨f, he⟩)

/-- What the collector does without a guard leaves the poison alone. -/
instance {m : Type → Type} [MonadLiftT m (GcM Collector)] {y : m α} :
    Lenient (liftM y : MutatorM α) := by
  refine ⟨fun u => ?_⟩
  have hlift : (liftM y : MutatorM α) = liftM (liftM y : GcM Collector α) := rfl
  unfold Ends
  rw [hlift, gc_lift_eq]
  cases (liftM y : GcM Collector α) u.machine with
  | ok a m => rfl
  | error e m => exact .inr rfl

/-- What reports fatal failures only. -/
instance (priority := low) [Orderly x] [Footed x] : Lenient x :=
  of_mends (Parks.of_footed (x := x)).mends

instance : Lenient (cons v w) := of_mends (cons_parks v w).mends
instance : Lenient (duplicate v) := of_mends (duplicate_mends v)
instance : Lenient (push v) := of_mends (push_mends v)
instance : Lenient pop := of_mends pop_mends
instance {name : String} : Lenient (keeping v (string name)) := of_mends (string_parks v name).mends

instance {name : String} : Lenient (define name v) := by
  have hat : ∀ bucket, Lenient (defineAt bucket name v) := by
    intro bucket
    rw [defineAt_eq]
    refine bind fun _ => bind fun entry => ?_
    split
    · unfold setCdr
      infer_instance
    · unfold bindNew
      infer_instance
  unfold define
  infer_instance

end Lenient

/-- Nothing that a script asks for poisons the heap without telling. -/
theorem each_lenient : Runtime.mutator.Each (fun _ x => Lenient x) fun _ => True where
  pure _ := inferInstance
  bind hx hk := Lenient.bind hk
  slot? i := inferInstanceAs (Lenient (get >>= fun u => pure (u.machine.roots.get? (.stack i))))
  lookup? name := by rw [Runtime.mutator_lookup?]; infer_instance
  field? half v := by rw [Runtime.mutator_field?]; infer_instance
  push v := inferInstanceAs (Lenient (push v))
  pop := inferInstanceAs (Lenient pop)
  writeSlot i v := inferInstanceAs (Lenient (writeRoot (.stack i) v))
  define name v := inferInstanceAs (Lenient (define name v))
  setField half pair v := inferInstanceAs (Lenient (setPairField half.field pair v))
  cons v w := inferInstanceAs (Lenient (cons v w))
  char c := inferInstanceAs (Lenient (char c))
  string s _ := inferInstanceAs (Lenient (string s))
  symbol s _ := inferInstanceAs (Lenient (symbol s))
  lambda entry params variadic := inferInstanceAs (Lenient (lambda entry params variadic))
  duplicate v := inferInstanceAs (Lenient (duplicate v))
  collect := inferInstanceAs (Lenient collect)
  collectFull := inferInstanceAs (Lenient collectFull)

end MutatorM

/-! ## What stops a memory -/

/-- There is no room on a stack that is full, or on one that is too large for any memory. -/
theorem Roots.parking_stops {size capacity n : Nat} {e : Fault}
    (he : parking size capacity n = .error e) :
    (∃ f, e = .failed f ∧ Mild f) ∨ e = .trap ∧ tableLimit ≤ capacity := by
  induction n generalizing size with
  | zero => cases he
  | succ n ih =>
    rw [parking] at he
    split at he
    · split at he
      · exact ih he
      · cases he
        exact .inr ⟨rfl, by omega⟩
    · cases he
      exact .inl ⟨_, rfl, rfl⟩

namespace Memory

variable {α β : Type}

/-- The memory is stopped by a stack that is full or empty, or too large for any memory, and keeps
its capacity. -/
class Foretells (y : MemoryM α) : Prop where
  ends : ∀ m, Ends y m (fun _ m' => m'.capacity = m.capacity) fun e m' => m'.capacity = m.capacity ∧
    ((∃ f, e = .failed f ∧ Mild f) ∨ e = .trap ∧ tableLimit ≤ m.capacity)

namespace Foretells

variable {y z : MemoryM α} {k : α → MemoryM β} {a b : Part}

instance {a : α} : Foretells (pure a) := ⟨fun _ => .pure rfl⟩

instance : Foretells (get : MemoryM Memory) := ⟨fun _ => .of_eq rfl rfl⟩

theorem bind [hy : Foretells y] (hk : ∀ a, Foretells (k a)) : Foretells (y >>= k) := by
  refine ⟨fun m => (hy.ends m).bind fun a m₁ h₁ => ?_⟩
  have hnext := (hk a).ends m₁
  rw [h₁] at hnext
  exact hnext

instance [Foretells y] [hk : ∀ a, Foretells (k a)] : Foretells (y >>= k) := bind hk

instance {c : Prop} [Decidable c] [Foretells y] [Foretells z] : Foretells (if c then y else z) := by
  split <;> infer_instance

theorem of_modify {f : Memory → Memory} (hf : ∀ m, (f m).capacity = m.capacity) :
    Foretells (modify f : MemoryM PUnit) := ⟨fun m => .of_eq rfl (hf m)⟩

instance {n : Nat} : Foretells (room n) := by
  refine ⟨fun m => ?_⟩
  cases hroom : Roots.parking m.stack.length m.capacity n with
  | ok => exact .of_eq (room_ok hroom) rfl
  | error e => exact .of_error (room_error hroom) ⟨rfl, Roots.parking_stops hroom⟩

instance {x : Node} : Foretells (add x) := ⟨fun _ => .of_eq rfl rfl⟩

theorem text {tag : Tag} {s : String} (hfits : Text.Fits s) : Foretells (text tag s) := by
  rw [Memory.text, if_pos hfits]
  infer_instance

instance : Foretells (push a) := bind fun _ => of_modify fun _ => rfl

instance : Foretells pop := by
  refine ⟨fun m => ?_⟩
  unfold Ends pop
  cases m.stack.getLast? with
  | some a => rfl
  | none => exact ⟨rfl, .inl ⟨_, rfl, rfl⟩⟩

instance {name : String} : Foretells (define name a) := by
  have hassign : Foretells (modify fun m => m.assign name a) := of_modify fun _ => rfl
  unfold define
  infer_instance

instance : Foretells (cons a b) := by unfold cons; infer_instance

instance : Foretells (duplicate a) := by
  cases a with
  | plain v => exact inferInstanceAs (Foretells (pure (Part.plain v)))
  | node n =>
    refine bind fun _ => bind fun m => ?_
    split <;> infer_instance

end Foretells

theorem setField_capacity (m : Memory) (half : Half) (a b : Part) :
    (m.setField half a b).capacity = m.capacity := by
  unfold setField
  split <;> rfl

/-- Texts that no memory holds are left out. -/
theorem each_foretells : Runtime.memory.Each (fun _ y => Foretells y) Text.Fits where
  pure _ := inferInstance
  bind _ hk := Foretells.bind hk
  slot? i := inferInstanceAs (Foretells (get >>= fun m => pure m.stack[i]?))
  lookup? name := inferInstanceAs (Foretells (get >>= fun m => pure (m.globals name)))
  field? half a := inferInstanceAs (Foretells (get >>= fun m => pure (m.field? half a)))
  push a := inferInstanceAs (Foretells (push a))
  pop := inferInstanceAs (Foretells pop)
  writeSlot _ _ := Foretells.of_modify fun _ => rfl
  define name a := inferInstanceAs (Foretells (define name a))
  setField half a b := Foretells.of_modify fun m => m.setField_capacity half a b
  cons a b := inferInstanceAs (Foretells (cons a b))
  char _ := inferInstanceAs (Foretells (add _))
  string _ := Foretells.text
  symbol _ := Foretells.text
  lambda _ _ _ := inferInstanceAs (Foretells (add _))
  duplicate a := inferInstanceAs (Foretells (duplicate a))
  collect := inferInstanceAs (Foretells (pure ()))
  collectFull := inferInstanceAs (Foretells (pure ()))

end Memory

/-! ## Scripts -/

section Scripts

variable {I : Machine Collector → (Nat → Prop) → Prop} {N : Machine Collector → Nat → Nat → Prop}
  {S : Nat → Prop} {R : Nat → Nat → Prop}
  {u u' : Mutator} {m : Memory} {step : Step} {script : List Step}

/-- Unless a fatal failure is reported, a step ends on the heap as it does on the memory. -/
theorem Step.settles (hl : Laws Collector.operations I N) (hp : Portrays I u S R m)
    (hbrief : step.Brief) :
    Ends (step.run Runtime.mutator) u
    (fun _ u' => ∃ m' S' R', step.run Runtime.memory m = .ok () m' ∧
      Portrays I u' S' R' m') fun e u' =>
      (∃ f, e = .failed f ∧ f.isFatal = true) ∨
        ∃ m', step.run Runtime.memory m = .error e m' ∧ ∀ f, e = .failed f → ∃ S' R',
        Portrays I u' S' R' m' := by
  refine (((Step.mirrors hl hp hbrief).and_error
    ((MutatorM.each_lenient.step step step.spells_any).ends u)).mono ?_).mono_error ?_
  · rintro - u' ⟨_, m', S', R', hmemory, hp', -⟩
    exact ⟨m', S', R', hmemory, hp'⟩
  · rintro e u' ⟨hpoisoned | hmemory, hfatal | hsame⟩
    · exact .inl hfatal
    · rw [hsame, hp.clean] at hpoisoned
      cases hpoisoned
    · exact .inl hfatal
    · exact .inr hmemory

/-- A script that comes through on the heap comes through on the memory. -/
theorem Script.portrays (hl : Laws Collector.operations I N) (hp : Portrays I u S R m)
    (hbrief : ∀ step ∈ script, step.Brief)
    (hrun : Script.after? Runtime.mutator script u = some u') :
    ∃ m' S' R', Script.after? Runtime.memory script m = some m' ∧ Portrays I u' S' R' m' := by
  induction script generalizing u m S R with
  | nil =>
    cases hrun
    exact ⟨m, S, R, rfl, hp⟩
  | cons step script ih =>
    obtain ⟨hstep, hrest⟩ := List.forall_mem_cons.mp hbrief
    have hsettles := Step.settles hl hp hstep
    cases hx : step.run Runtime.mutator u with
    | ok a u₁ =>
      rw [after?_ok hx] at hrun
      obtain ⟨m₁, S₁, R₁, hy, hp₁⟩ := hsettles.ok hx
      rw [after?_ok hy]
      exact ih hp₁ hrest hrun
    | error e u₁ =>
      by_cases he : ∃ f, e = .failed f
      · obtain ⟨f, rfl⟩ := he
        rw [after?_failed hx] at hrun
        rcases hsettles.error hx with ⟨_, ⟨⟩, hfatal⟩ | ⟨m₁, hy, hp₁⟩
        · rw [if_pos hfatal] at hrun
          cases hrun
        · obtain ⟨S₁, R₁, hp₁⟩ := hp₁ f rfl
          rw [after?_failed hy]
          split at hrun
          · cases hrun
          · rename_i hmild
            rw [if_neg hmild]
            exact ih hp₁ hrest hrun
      · rw [after?_stuck hx fun f h => he ⟨f, h⟩] at hrun
        cases hrun

/-- The memory does not come through a step that makes a text which does not fit. -/
theorem Step.run_overlong (h : ¬ step.Spells Text.Fits) (m : Memory) :
    step.run Runtime.memory m = .error .trap m := by
  cases step with
  | make recipe sink =>
    cases recipe with
    | string s | symbol s =>
      have hlong : ¬ Text.Fits s := h
      have htext : ∀ tag, Memory.text tag s m = .error .trap m := by
        intro tag
        rw [Memory.text, if_neg hlong]
        rfl
      exact bind_error (bind_error (htext _))
    | _ => exact absurd trivial h
  | _ => exact absurd trivial h

/-- The stack of a memory has room for as many values as it had before. -/
theorem Memory.after?_capacity {m' : Memory}
    (hrun : Script.after? Runtime.memory script m = some m') : m'.capacity = m.capacity := by
  induction script generalizing m with
  | nil =>
    cases hrun
    rfl
  | cons step script ih =>
    by_cases hfits : step.Spells Text.Fits
    case neg =>
      rw [Script.after?_stuck (Step.run_overlong hfits m) (by simp)] at hrun
      cases hrun
    have hends := (Memory.each_foretells.step step hfits).ends m
    cases hx : step.run Runtime.memory m with
    | ok a m₁ =>
      rw [Script.after?_ok hx] at hrun
      exact (ih hrun).trans (hends.ok hx)
    | error e m₁ =>
      rcases hends.error hx with ⟨hsame, ⟨f, rfl, -⟩ | ⟨rfl, -⟩⟩
      · rw [Script.after?_failed hx] at hrun
        split at hrun
        · cases hrun
        · exact (ih hrun).trans hsame
      · rw [Script.after?_stuck hx (by simp)] at hrun
        cases hrun

/-- A new heap portrays an empty memory. -/
theorem Portrays.start {c : Config} (hc : c.Makes u) (hi : I u.machine S) :
    Portrays I u S (fun _ _ => False) (Memory.empty c.stackCapacity) := by
  have hmaps : u.Maps fun _ => none := maps_of_create hc
  obtain ⟨hash, rfl, -⟩ := hc.eq
  exact ⟨hi, rfl, rfl, rfl, False.elim, False.elim,
    ⟨False.elim, False.elim, False.elim⟩, .nil, _, hmaps, fun _ => .none⟩

end Scripts

/-! ## Two heaps -/

/-- The same immediate value, or references to objects that are related. -/
inductive Value.Matches (R : Nat → Nat → Prop) : Value → Value → Prop where
  | plain {v : Value} : v.ref? = none → Matches R v v
  | ref {v w : Value} {o p : Nat} : v.ref? = some o → w.ref? = some p → R o p → Matches R v w

/-- The graphs of two heaps are the same but for the addresses, which `R` relates one to one: slots
of the stack and global variables hold values that match, and so do the fields of pairs; an object
without references has the same words in both heaps. -/
structure Mutator.Corresponds (R : Nat → Nat → Prop) (u v : Mutator) : Prop where
  oneToOne : ∀ {o o' p p'}, R o p → R o' p' → (o = o' ↔ p = p')
  tag : ∀ {o p}, R o p → v.machine.heap.tag p = u.machine.heap.tag o
  pair : ∀ {o p i}, R o p → u.machine.heap.tag o = some .pair → i = 1 ∨ i = 2 →
    (u.machine.heap.value (o + i)).Matches R (v.machine.heap.value (p + i))
  leaf : ∀ {o p}, R o p → u.machine.heap.tag o ≠ some .pair →
    v.machine.heap.payload p = u.machine.heap.payload o ∧ ∀ i, i < u.machine.heap.payload o →
      v.machine.heap.word (p + i) = u.machine.heap.word (o + i)
  stack : List.Forall₂ (Value.Matches R) u.machine.roots.stack.toList v.machine.roots.stack.toList
  globals : ∀ name, ∃ a b, MutatorM.lookup? name u.machine = .ok a u.machine ∧
    MutatorM.lookup? name v.machine = .ok b v.machine ∧
    Option.Rel (Value.Matches R) a b

section Two

variable {I J : Machine Collector → (Nat → Prop) → Prop}
  {N M : Machine Collector → Nat → Nat → Prop} {S T : Nat → Prop}
  {R Q : Nat → Nat → Prop} {u v : Mutator} {m : Memory}

/-- Objects that show the same node. -/
def Both (R Q : Nat → Nat → Prop) (o p : Nat) : Prop := ∃ n, R n o ∧ Q n p

theorem Part.Is.both {a : Part} {v w : Value} (hv : a.Is R v) (hw : a.Is Q w) :
    v.Matches (Both R Q) w := by
  cases hv with
  | plain hplain =>
    cases hw
    exact .plain hplain
  | node hr hR =>
    cases hw with
    | node hr' hQ => exact .ref hr hr' ⟨_, hR, hQ⟩

/-- Values that the same parts stand for match. -/
theorem forall₂_both {parts : List Part} {vs ws : List Value}
    (hv : List.Forall₂ (Part.Is R) parts vs) (hw : List.Forall₂ (Part.Is Q) parts ws) :
    List.Forall₂ (Value.Matches (Both R Q)) vs ws := by
  induction hv generalizing ws with
  | nil =>
    cases hw
    exact .nil
  | cons h _ ih =>
    cases hw with
    | cons h' hw => exact .cons (h.both h') (ih hw)

/-- They have the same tag, and references in the same places, or the same words. -/
theorem Node.Shown.both {g h : Arena} {x : Node} {o p : Nat} (hx : x.Shown g R o)
    (hy : x.Shown h Q p) (ho : g.tag o ≠ none) (hp : h.tag p ≠ none) : h.tag p = g.tag o ∧
      (g.tag o = some .pair → ∀ i, i = 1 ∨ i = 2 → (g.value (o + i)).Matches (Both R Q)
        (h.value (p + i))) ∧
      (g.tag o ≠ some .pair → h.payload p = g.payload o ∧ ∀ i, i < g.payload o →
        h.word (p + i) = g.word (o + i)) := by
  cases x with
  | pair a b =>
    refine ⟨hy.1.trans hx.1.symm, fun _ i hi => ?_, fun ht => absurd hx.1 ht⟩
    rcases hi with rfl | rfl
    · exact hx.2.1.both hy.2.1
    · exact hx.2.2.both hy.2.2
  | leaf ws =>
    have hhead : h.word p = g.word o := by
      have hg := hx.2 0 (Arena.payload_pos ho)
      have hh := hy.2 0 (Arena.payload_pos hp)
      exact Option.some.inj (hh.symm.trans hg)
    have hpay : h.payload p = g.payload o := Arena.payload_congr hhead
    refine ⟨Arena.tag_congr hhead, fun ht => absurd ht hx.1, fun _ => ⟨hpay, fun i hi => ?_⟩⟩
    exact Option.some.inj ((hy.2 i (hpay ▸ hi)).symm.trans (hx.2 i hi))

/-- Two heaps that portray the same memory have the same graph. -/
theorem Portrays.sameGraph (hl : Laws Collector.operations I N)
    (hl' : Laws Collector.operations J M) (hp : Portrays I u S R m) (hq : Portrays J v T Q m) :
    u.Corresponds (Both R Q) v := by
  have hshown : ∀ {o p}, Both R Q o p → ∃ x : Node, x.Shown u.machine.heap R o ∧
    x.Shown v.machine.heap Q p ∧
      u.machine.heap.tag o ≠ none ∧ v.machine.heap.tag p ≠ none := by
    rintro o p ⟨n, hR, hQ⟩
    obtain ⟨x, hx, hs⟩ := hp.draws.shown hR
    obtain ⟨y, hy, hs'⟩ := hq.draws.shown hQ
    cases hx.symm.trans hy
    exact ⟨x, hs, hs', (hl.apart hp.inv).closed.known o (hp.among hR),
      (hl'.apart hq.inv).closed.known p (hq.among hQ)⟩
  refine ⟨?_, fun hR => ?_, fun hR => ?_, fun hR => ?_, ?_, fun name => ?_⟩
  · rintro o o' p p' ⟨n, hR, hQ⟩ ⟨n', hR', hQ'⟩
    constructor
    · rintro rfl
      obtain rfl := hp.draws.injective hR hR'
      exact hq.draws.functional hQ hQ'
    · rintro rfl
      obtain rfl := hq.draws.injective hQ hQ'
      exact hp.draws.functional hR hR'
  · obtain ⟨x, hx, hy, ho, hp'⟩ := hshown hR
    exact (hx.both hy ho hp').1
  · obtain ⟨x, hx, hy, ho, hp'⟩ := hshown hR
    exact fun ht hi => (hx.both hy ho hp').2.1 ht _ hi
  · obtain ⟨x, hx, hy, ho, hp'⟩ := hshown hR
    exact (hx.both hy ho hp').2.2
  · exact forall₂_both hp.stack hq.stack
  · obtain ⟨Γ, hΓ, hrel⟩ := hp.globals
    obtain ⟨Δ, hΔ, hrel'⟩ := hq.globals
    refine ⟨Γ name, Δ name, ?_, ?_, ?_⟩
    · rw [MutatorM.lookup?_eq]
      exact hΓ.lookup_run hl hp.inv name
    · rw [MutatorM.lookup?_eq]
      exact hΔ.lookup_run hl' hq.inv name
    · have h := hrel name
      have h' := hrel' name
      generalize m.globals name = d at h h'
      generalize Γ name = a at h ⊢
      generalize Δ name = b at h' ⊢
      cases h with
      | none => cases h'; exact .none
      | some hv =>
        cases h' with
        | some hw => exact .some (hv.both hw)

end Two

/-! ## Any two configurations -/

/-- There are laws for a mark-sweep arena of no words as well. -/
theorem Config.lawful_of_not_oneWordArena {c : Config}
    (hc : ¬ (c.strategy = .markSweep ∧ c.heapWords = 1)) :
    ∃ I N, Laws Collector.operations I N ∧ c.Starts I := by
  rcases c.lawful with ⟨hs, h2⟩ | h
  · have h0 : c.heapWords = 0 := by
      have h1 : c.heapWords ≠ 1 := fun h => hc ⟨hs, h⟩
      omega
    exact ⟨_, _, MarkSweep.void_laws.hosted MarkSweep.hosts,
      fun _ hu => ⟨_, MarkSweep.start_void hs h0 hu⟩⟩
  · exact h

theorem Script.on?_eq_some {c : Config} {hash : List UInt8 → UInt64} {script : List Step}
    {u : Mutator} (h : Script.on? c script hash = some u) : ∃ u₀, c.Makes u₀ ∧
    Script.after? .mutator script u₀ = some u := by
  unfold Script.on? at h
  split at h
  · exact ⟨_, ⟨hash, ‹_›⟩, h⟩
  · cases h

/-- A new heap portrays, after a script, what the script makes of an empty memory. -/
theorem Script.on?_portrays {c : Config} {hash : List UInt8 → UInt64} {script : List Step}
    {u : Mutator} (hc : ¬ (c.strategy = .markSweep ∧ c.heapWords = 1))
    (hbrief : ∀ step ∈ script, step.Brief) (hu : Script.on? c script hash = some u) : ∃ I N S R m,
    Laws Collector.operations I N ∧
      Script.after? .memory script (Memory.empty c.stackCapacity) = some m ∧
      Portrays I u S R m := by
  obtain ⟨I, N, hl, hstart⟩ := Config.lawful_of_not_oneWordArena hc
  obtain ⟨u₀, hu₀, hrun⟩ := Script.on?_eq_some hu
  obtain ⟨S₀, hi⟩ := hstart u₀ hu₀
  obtain ⟨m, S, R, hm, hp⟩ := Script.portrays hl (Portrays.start hu₀ hi) hbrief hrun
  exact ⟨I, N, S, R, m, hl, hm, hp⟩

/-- A step of a heap that portrays a memory ends as it does on the memory, or with a fatal
failure. -/
theorem Portrays.stop? {I : Machine Collector → (Nat → Prop) → Prop}
    {N : Machine Collector → Nat → Nat → Prop} {S : Nat → Prop} {R : Nat → Nat → Prop} {u : Mutator}
    {m : Memory} {step : Step} (hl : Laws Collector.operations I N) (hp : Portrays I u S R m)
    (hbrief : step.Brief) : step.Ruins u ∨
    (∃ m', step.run .memory m = .ok () m' ∧ step.stop? u = none) ∨
      ∃ e m', step.run .memory m = .error e m' ∧ step.stop? u = some e := by
  have hsettles := Step.settles hl hp hbrief
  unfold Step.Ruins Step.stop?
  cases hx : step.run .mutator u with
  | ok a u' =>
    obtain ⟨m', -, -, hy, -⟩ := hsettles.ok hx
    exact .inr (.inl ⟨m', hy, rfl⟩)
  | error e u' =>
    rcases hsettles.error hx with ⟨f, rfl, hf⟩ | ⟨m', hy, -⟩
    · exact .inl ⟨f, hf, rfl⟩
    · exact .inr (.inr ⟨e, m', hy, rfl⟩)

/-- Two new heaps with room for the same number of values on the stack, whatever their strategies,
sizes and other settings are, but for a mark-sweep arena of a single word: after any script in which
neither has reported a fatal failure, their graphs are the same, and any next step ends in both with
the same outcome, unless one of them reports a fatal failure. What stops it otherwise is a full or
empty stack, or a text that no memory holds. -/
theorem strategies_agree {c d : Config} {hash hash' : List UInt8 → UInt64} {u v : Mutator}
    {script : List Step} (hc : ¬ (c.strategy = .markSweep ∧ c.heapWords = 1))
    (hd : ¬ (d.strategy = .markSweep ∧ d.heapWords = 1)) (hcap : c.stackCapacity = d.stackCapacity)
    (hbrief : ∀ step ∈ script, step.Brief) (hu : Script.on? c script hash = some u)
    (hv : Script.on? d script hash' = some v) :
    (∃ R, u.Corresponds R v) ∧ ∀ step : Step, step.Brief → step.Ruins u ∨ step.Ruins v ∨
      (step.stop? u = step.stop? v ∧ ∀ e, step.stop? u = some e →
        (∃ f, e = .failed f ∧ f.isFatal = false) ∨
        e = .trap ∧ (tableLimit ≤ c.stackCapacity ∨ ¬ step.Spells Text.Fits)) := by
  obtain ⟨I, N, S, R, m, hl, hm, hp⟩ := Script.on?_portrays hc hbrief hu
  obtain ⟨J, M, T, Q, m', hl', hm', hq⟩ := Script.on?_portrays hd hbrief hv
  rw [← hcap] at hm'
  cases hm.symm.trans hm'
  refine ⟨⟨_, hp.sameGraph hl hl' hq⟩, fun step hstep => ?_⟩
  have hcapacity : m.capacity = c.stackCapacity := Memory.after?_capacity hm
  rcases hp.stop? hl hstep with hruins | ⟨m₁, hx, hsu⟩ | ⟨e, m₁, hx, hsu⟩
  · exact .inl hruins
  · rcases hq.stop? hl' hstep with hruins | ⟨m₂, hy, hsv⟩ | ⟨e, m₂, hy, -⟩
    · exact .inr (.inl hruins)
    · exact .inr (.inr ⟨hsu.trans hsv.symm, fun e he => by rw [hsu] at he; cases he⟩)
    · cases hx.symm.trans hy
  · rcases hq.stop? hl' hstep with hruins | ⟨m₂, hy, -⟩ | ⟨e', m₂, hy, hsv⟩
    · exact .inr (.inl hruins)
    · cases hx.symm.trans hy
    · cases hx.symm.trans hy
      refine .inr (.inr ⟨hsu.trans hsv.symm, fun e' he => ?_⟩)
      cases hsu.symm.trans he
      by_cases hfits : step.Spells Text.Fits
      · rw [← hcapacity]
        exact (((Memory.each_foretells.step step hfits).ends m).error hx).2.imp_right fun h =>
          ⟨h.1, .inl h.2⟩
      · cases hx.symm.trans (Step.run_overlong hfits m)
        exact .inr ⟨rfl, .inr hfits⟩

/-- A pair that goes round in a circle through a named string, with collections in between, and a
copy of it that is pushed and replaced. -/
def errand : List Step :=
  [.make (.cons (.plain (.int 1) rfl) (.plain .nil rfl)) .push, .make (.string "text")
    (.global "name"), .collect,
    .setField .car (.path (.slot 0) []) (.path (.global "name") []),
      .setField .cdr (.path (.slot 0) []) (.path (.slot 0) []), .collectFull,
    .make (.duplicate (.path (.slot 0) [.cdr, .cdr])) .push,
      .put (.path (.slot 0) [.car]) (.slot 1)]

/-- A small heap that is compacted before every allocation. -/
def shaken : Config :=
  { strategy := .markCompact, heapSize := 512, stress := true, stackCapacity := 4,
    globalTableSize := 1 }

/-- A larger one with generations. -/
def layered : Config :=
  { strategy := .generational, heapSize := 1024, stackCapacity := 4, globalTableSize := 3,
    tenuringThreshold := 1 }

/-- The same graph, at other addresses. -/
theorem errand_agrees : ∃ u v R, Script.on? shaken errand = some u ∧
    Script.on? layered errand = some v ∧
    u.machine.roots.stack ≠ v.machine.roots.stack ∧ u.Corresponds R v := by
  have hrun : ((Script.on? shaken errand).bind fun u => (Script.on? layered errand).map fun v =>
      u.machine.roots.stack != v.machine.roots.stack) = some true := by decide +kernel
  obtain ⟨u, hu, hrest⟩ := Option.bind_eq_some_iff.mp hrun
  obtain ⟨v, hv, hne⟩ := Option.map_eq_some_iff.mp hrest
  have hbrief : ∀ step ∈ errand, step.Brief := by
    simp only [errand, List.forall_mem_cons, Step.Brief, Sink.Brief,
      List.not_mem_nil, false_imp_iff, implies_true, and_true, true_and]
    decide +kernel
  obtain ⟨⟨R, hR⟩, -⟩ := strategies_agree (c := shaken) (d := layered) (fun h => nomatch h.1)
    (fun h => nomatch h.1) rfl hbrief hu hv
  exact ⟨u, v, R, hu, hv, bne_iff_ne.mp hne, hR⟩

/-- An arena of a single word, under two strategies: a collection traps under the one, and comes to
its end under the other. -/
theorem oneWordArena_differs : ∃ u v, Script.on? oneWordArena [] = some u ∧
    Script.on? { oneWordArena with strategy := .copying } [] = some v ∧
    Step.collect.stop? u = some .trap ∧ Step.collect.stop? v = none :=
  ⟨_, _, rfl, rfl, rfl, rfl⟩

end Reclaim
