import Reclaim.Proofs.Frame
import Reclaim.Proofs.Wreckage

/-!
# What a failing command leaves

A command that poisons the heap has failed in an operation of its collector (`Brittle`), maybe after
other operations that collected, and maybe with values parked that were taken back then. What it
leaves is what that operation left, with all these collections counted (`Spoils`).

Results:
* `operate_spoils`, `keeping_spoils`: one operation, and a computation with a value parked.
* `Command.run_spoils`: one command.
-/

namespace Reclaim

variable {α β : Type} {I : Machine Collector → (Nat → Prop) → Prop}
  {N : Machine Collector → Nat → Nat → Prop} {L S S₁ : Nat → Prop} {u u₁ u' : Mutator} {v : Value}
  {ρ : Nat → Nat} {b b' k n : Nat} {e : Fault}

/-- A heap that is poisoned is what a failing operation left, after `bound` collections at most. -/
def Spoils (bound : Nat) (u : Mutator) (S : Nat → Prop) (_ : Fault) (u' : Mutator) : Prop :=
  u'.poisoned = true → Wrecks id bound u.machine S u'.machine

/-- That much is known when `x` fails. -/
abbrev Spoiling (bound : Nat) (x : MutatorM α) (u : Mutator) (S : Nat → Prop) : Prop :=
  Ends x u (fun _ _ => True) (Spoils bound u S)

theorem Spoils.of_clean (h : u'.poisoned = false) : Spoils b u S e u' := by
  intro hp
  rw [h] at hp
  cases hp

theorem Spoils.mono (h : Spoils b u S e u') (hb : b ≤ b') : Spoils b' u S e u' :=
  fun hp => (h hp).mono hb

/-- A failure after some collections. -/
theorem Spoils.after (hc : Carried I L u.machine u₁.machine S S₁ ρ k) (hb : k + b ≤ b')
    (h : Spoils b u₁ S₁ e u') : Spoils b' u S e u' :=
  fun hp => ((h hp).after hc).mono hb

theorem Spoiling.mono {x : MutatorM α} (hx : Spoiling b x u S) (hb : b ≤ b') :
    Spoiling b' x u S :=
  hx.mono_error fun _ _ h => h.mono hb

theorem Legible.withRoots {m : Machine Collector} (h : Legible m S) {r : Roots}
    (hr : r.Within S) : Legible (m.withRoots r) S :=
  ⟨h.apart, hr, h.listed, h.chunks⟩

/-- Whatever was in the roots before, and whatever is taken out of them afterwards. -/
theorem Wrecks.withRoots {m m' : Machine Collector} {r r' : Roots}
    (h : Wrecks id b (m.withRoots r) S m') (hr : ∀ S', m'.roots.Within S' → r'.Within S') :
    Wrecks id b m S (m'.withRoots r') := by
  obtain ⟨S', k, hk, hw⟩ := h
  exact ⟨S', k, hk, hw.legible.withRoots (hr S' hw.legible.roots), hw.cycles, hw.kept⟩

namespace MutatorM

variable {x : MutatorM α} {y : GcM Collector α}

/-! ## Single operations -/

theorem operate_spoils (hu : u.poisoned = false)
    (hy : Runs y u.machine (fun _ _ => True) fun _ => Wrecks id b u.machine S) :
    Spoiling b (operate y) u S := by
  unfold Runs at hy
  unfold operate
  refine .step (check_run hu) ?_
  cases h : y u.machine with
  | ok a m => exact .of_eq (guarded_run h) trivial
  | error e m =>
    rw [h] at hy
    cases e with
    | failed f =>
      refine .of_error (e := .failed f)
        (t := { u.withMachine m with poisoned := u.poisoned || f.isFatal }) ?_ fun _ => hy
      rw [guarded, gc_lift_error h]
      rfl
    | trap | endless => exact hy.elim

theorem allocateWords_spoils (hl : Laws Collector.operations I N)
    (hb : Brittle Collector.operations id I) (hi : I u.machine S) (hu : u.poisoned = false)
    (hn : 1 ≤ n) : Spoiling 3 (allocateWords n) u S := by
  by_cases hcount : Collector.operations.Countable u.machine n
  · unfold allocateWords
    exact (operate_spoils hu (hb.allocate hi hn hcount)).bind fun _ _ _ => .of_eq rfl trivial
  · exact .of_error (allocateWords_overflows hl hi hu hn hcount) (.of_clean hu)

/-- With a value parked. What is not told does not poison the heap. -/
theorem keeping_spoils [ho : Orderly x] (hl : Laws Collector.operations I N) (hi : I u.machine S)
    (hu : u.poisoned = false) (hv : v.Within S)
    (hx : I (parkedOn u v).machine S → Spoiling b x (parkedOn u v) S) :
    Spoiling b (keeping v x) u S := by
  cases hroom : Roots.parking u.machine.roots.stack.size u.machine.roots.capacity 1 with
  | error e => exact .of_error (keeping_full hroom) (.of_clean hu)
  | ok =>
    obtain ⟨hcap, hlim⟩ := Roots.room_of_parking hroom
    have hpark : (liftM (park v) : MutatorM Unit) u = .ok () (parkedOn u v) :=
      roots_lift (park_run hcap hlim)
    have hres := hx (hl.park hi hv hlim)
    have hsame := ho.ends (parkedOn u v)
    unfold keeping
    refine .step hpark ?_
    cases hrun : x (parkedOn u v) with
    | ok a u' =>
      have hatt : attempt x (parkedOn u v) = .ok (.ok a) u' := by rw [attempt, hrun]
      have hclean : u'.poisoned = false := (hsame.ok hrun).2.trans hu
      refine .step hatt ?_
      cases hback : u'.machine.roots.stack.back? with
      | some w => exact .step (roots_lift (unpark_run hback)) (.pure trivial)
      | none => exact .of_error (bind_error (unpark_gone hback)) (.of_clean hclean)
    | error e u' =>
      cases e with
      | failed f =>
        have hatt : attempt x (parkedOn u v) = .ok (.error f) u' := by rw [attempt, hrun]
        refine .step hatt ?_
        cases hback : u'.machine.roots.stack.back? with
        | some w =>
          exact .step (roots_lift (unpark_run hback))
            (.of_error rfl fun hp => (hres.error hrun hp).withRoots fun _ h => h.pop _)
        | none =>
          exact .of_error (bind_error (unpark_gone hback))
            fun hp => (hres.error hrun hp).withRoots fun _ h => h
      | trap | endless =>
        have hclean : u'.poisoned = false := ((hsame.error hrun).2 (by simp)).trans hu
        exact .of_error (bind_error (by rw [attempt, hrun])) (.of_clean hclean)

/-! ## Constructors -/

theorem Constructs.spoils {y : MutatorM Value} {t : Tag} {aux : Word} {ws : List Word}
    (hy : Constructs y t aux ws) (hl : Laws Collector.operations I N)
    (hb : Brittle Collector.operations id I) (hi : I u.machine S) (hu : u.poisoned = false) :
    Spoiling 3 y u S := by
  obtain ⟨x, rfl, hx⟩ := hy.run
  have hmade := (allocateWords_ends hl hi hu (n := ws.length + 1) (by omega)).and
    (allocateWords_spoils hl hb hi hu (by omega))
  refine (hmade.mono_error fun _ _ h => h.2).bind ?_
  rintro o u₁ ⟨⟨-, ρ, S₁, k, -, hm, -⟩, -⟩
  exact .of_eq (hx o u₁ (hl.new_inside hm.moved.inv hm.mem hm.new)) trivial

theorem cons_spoils (hl : Laws Collector.operations I N)
    (hb : Brittle Collector.operations id I) (hi : I u.machine S) (hu : u.poisoned = false)
    {car cdr : Value} (hcar : car.Within S) (hcdr : cdr.Within S) :
    Spoiling 3 (cons car cdr) u S := by
  have hkeep : Spoiling 3 (keeping car (keeping cdr (allocateWords pairWords))) u S :=
    keeping_spoils hl hi hu hcar fun hi₁ => keeping_spoils hl hi₁ hu hcdr fun hi₂ =>
      allocateWords_spoils hl hb hi₂ hu (by decide)
  have hfetch := (fetched_ends hl hi hu hcar hcdr).and hkeep
  rw [cons_eq]
  refine .step (check_run hu) ((hfetch.mono_error fun _ _ h => h.2).bind ?_)
  rintro r u₁ ⟨hf, -⟩
  exact ((hf.pairs hl (E := fun _ _ => False)).mono fun _ _ _ => trivial).mono_error
    fun _ _ h => h.elim

theorem duplicate_spoils (hl : Laws Collector.operations I N)
    (hb : Brittle Collector.operations id I) (hi : I u.machine S) (hu : u.poisoned = false)
    (hv : v.Within S) : Spoiling 3 (duplicate v) u S := by
  cases hr : v.ref? with
  | none => exact .of_eq (duplicate_immediate hr) trivial
  | some src =>
    obtain ⟨rfl, hS⟩ := hv src hr
    have hpos := Arena.payload_pos ((hl.apart hi).closed.known src hS)
    have hkeep : Spoiling 3
        (keeping (.ofRef src) (allocateWords (u.machine.heap.payload src))) u S :=
      keeping_spoils hl hi hu hv fun hi₁ => allocateWords_spoils hl hb hi₁ hu hpos
    have hfetch := (gathered_ends hl hi hu hv hr).and hkeep
    rw [duplicate_eq hr]
    refine .step (check_run hu) (.step (payloadWords_lift hl hi hS)
      ((hfetch.mono_error fun _ _ h => h.2).bind ?_))
    rintro r u₁ ⟨hg, -⟩
    exact ((hg.copies hl hr (E := fun _ _ => False)).mono fun _ _ _ => trivial).mono_error
      fun _ _ h => h.elim

/-! ## Changes -/

theorem setPairField_spoils (hl : Laws Collector.operations I N)
    (hb : Brittle Collector.operations id I) (hi : I u.machine S) (hu : u.poisoned = false)
    (hpark : u.machine.roots.parked = 0) {pair : Value} (hp : pair.Within S) (hv : v.Within S)
    {i : Nat} (hio : i = 1 ∨ i = 2) : Spoiling 3 (setPairField i pair v) u S := by
  cases ho : u.machine.heap.pairAt? pair with
  | none => exact .of_eq (setPairField_absent hl hi hp ho) trivial
  | some o =>
    have hread : pair? pair u.machine.heap = .ok (some o) := by rw [pair?_run (hl.apart hi) hp, ho]
    obtain ⟨hr, ht⟩ := Arena.pairAt?_eq_some.mp ho
    unfold setPairField
    refine .step (read_lift hread) (operate_spoils hu ?_)
    exact hb.writeField hi hpark (hp o hr).2 ht (by omega) hv

theorem writeRoot_spoils (hl : Laws Collector.operations I N)
    (hb : Brittle Collector.operations id I) (hi : I u.machine S) (hu : u.poisoned = false)
    (hpark : u.machine.roots.parked = 0) (slot : RootSlot) (hv : v.Within S) :
    Spoiling 3 (writeRoot slot v) u S := by
  cases hs : u.machine.roots.get? slot with
  | none =>
    obtain ⟨u', hrun⟩ := writeRoot_absent hl hi hu hs hv
    have ho : Orderly (writeRoot slot v) := inferInstance
    exact .of_error hrun (.of_clean ((((ho.ends u).error hrun).2 (by simp)).trans hu))
  | some old => exact operate_spoils hu (hb.writeRoot hi hpark hs hv)

theorem pop_spoils (hl : Laws Collector.operations I N)
    (hb : Brittle Collector.operations id I) (hi : I u.machine S) (hu : u.poisoned = false)
    (hpark : u.machine.roots.parked = 0) : Spoiling 3 MutatorM.pop u S := by
  cases hv : u.machine.roots.stack.back? with
  | none => exact .of_error (pop_empty hl hi hu hv) (.of_clean hu)
  | some v => exact operate_spoils hu (hb.pop hi hpark hv)

theorem push_spoils (hl : Laws Collector.operations I N) (hi : I u.machine S)
    (hu : u.poisoned = false) (hpark : u.machine.roots.parked = 0) (hv : v.Within S) :
    Spoiling 3 (push v) u S := by
  refine ((push_ends hl hi hu hpark hv).mono fun _ _ _ => trivial).mono_error ?_
  rintro e u' ⟨-, rfl⟩
  exact .of_clean hu

/-! ## Names -/

/-- Three objects are made and one root is written, with three collections each. -/
theorem bindNew_spoils {bucket : Nat} {head : Value} {name : String}
    (hl : Laws Collector.operations I N) (hb : Brittle Collector.operations id I)
    (hi : I u.machine S) (hu : u.poisoned = false) (hpark : u.machine.roots.parked = 0)
    (hv : v.Within S) (hh : u.machine.roots.globals[bucket]? = some head) :
    Spoiling 12 (bindNew bucket name v) u S := by
  have hkeep : Spoiling 3 (keeping v (string name)) u S := keeping_spoils hl hi hu hv fun hi₁ =>
    (text_constructs (.inl rfl) (Text.encode name)).spoils hl hb hi₁ hu
  unfold bindNew
  refine (((key_ends hl hi hu hv name).and hkeep).mono_error
    fun _ _ h => h.2.mono (by decide)).bind ?_
  rintro ⟨v', w⟩ u₁ ⟨⟨ρ, S₁, k, key, hk, hkey, heq⟩, -⟩
  cases heq
  have hc₁ := hkey.carried
  have hentry := cons_spoils hl hb hc₁.inv hkey.clean (hl.ofRef_within hc₁.inv hkey.mem)
    (hc₁.within (hl.named hc₁.inv) (Machine.within_live (by simp) hv))
  refine (((hkey.entry_ends hl hv).and hentry).mono_error
    fun _ _ h => h.2.after hc₁ (by omega)).bind ?_
  rintro w u₂ ⟨⟨τ, S₂, l, key', entry, hl3, rfl, -, hent⟩, -⟩
  have hc₂ := hent.carried
  obtain ⟨head', hhead', rfl⟩ := hc₂.roots.slot (.global _) head hh
  have hget : getRoot (.global bucket) u₂.machine.roots = .ok (head.rename τ) u₂.machine.roots := by
    rw [getRoot, hhead']
  have hlink := cons_spoils hl hb hc₂.inv hent.clean (hl.ofRef_within hc₂.inv hent.entry_mem)
    (rest_within (hc₂.within (hl.named hc₂.inv) (hc₂.live (.global _) head hh)))
  refine .step (roots_lift hget) ((((hent.link_ends hl hv hh).and hlink).mono_error
    fun _ _ h => h.2.after hc₂ (by omega)).bind ?_)
  rintro w u₃ ⟨⟨κ, S₃, j, key'', entry', link, hj, rfl, hlinked⟩, -⟩
  have hc₃ := hlinked.carried
  have hroot := writeRoot_spoils hl hb hc₃.inv hlinked.clean
    (by rw [hc₃.roots.parked]; exact hpark) (.global bucket)
      (hl.ofRef_within hc₃.inv hlinked.link_mem)
  exact hroot.mono_error fun _ _ h => h.after hc₃ (by omega)

theorem define_spoils (hl : Laws Collector.operations I N)
    (hb : Brittle Collector.operations id I) (hi : I u.machine S) (hu : u.poisoned = false)
    (hpark : u.machine.roots.parked = 0) (name : String) (hv : v.Within S) :
    Spoiling 12 (define name v) u S := by
  refine define_ends ?_
  rw [defineAt_eq]
  refine .step (check_run hu) ?_
  rcases entryAt?_ends hl hi (u.bucket name) name with ⟨head, r, hh, hrun, hr⟩ | ⟨e, -, hrun⟩
  · refine .step (gc_lift hrun) ?_
    cases r with
    | none => exact bindNew_spoils hl hb hi hu hpark hv hh
    | some entry =>
      exact Spoiling.mono (setPairField_spoils hl hb hi hu hpark (hr entry rfl) hv (.inr rfl))
        (by decide)
  · exact .of_error (bind_error (gc_lift_error hrun)) (.of_clean hu)

/-! ## Commands -/

/-- A command that returns what `x` makes. -/
theorem spoils_returns {f : α → β} (hx : Spoiling b x u S) (hb : b ≤ b') :
    Spoiling b' (do return f (← x)) u S :=
  Ends.bind (hx.mono hb) fun _ _ _ => .pure trivial

end MutatorM

open MutatorM

theorem Command.run_spoils (hl : Laws Collector.operations I N)
    (hb : Brittle Collector.operations id I) (hi : I u.machine S) (hu : u.poisoned = false)
    (hpark : u.machine.roots.parked = 0) (cmd : Command) (hops : ∀ v ∈ cmd.operands, v.Within S) :
    Spoiling 12 cmd.run u S := by
  have hap := hl.apart hi
  cases cmd with
  | allocate bytes =>
    exact spoils_returns (allocateWords_spoils hl hb hi hu (by omega)) (by decide)
  | char c => exact spoils_returns ((char_constructs c).spoils hl hb hi hu) (by decide)
  | string s =>
    exact spoils_returns ((text_constructs (.inl rfl) (Text.encode s)).spoils hl hb hi hu)
      (by decide)
  | symbol s =>
    exact spoils_returns ((text_constructs (.inr rfl) (Text.encode s)).spoils hl hb hi hu)
      (by decide)
  | lambda entry params variadic =>
    exact spoils_returns ((lambda_constructs entry params variadic).spoils hl hb hi hu) (by decide)
  | cons a b =>
    exact spoils_returns (cons_spoils hl hb hi hu (hops a (by simp [operands]))
      (hops b (by simp [operands]))) (by decide)
  | duplicate v =>
    exact spoils_returns (duplicate_spoils hl hb hi hu (hops v (by simp [operands]))) (by decide)
  | setCar pair v =>
    exact spoils_returns (setPairField_spoils hl hb hi hu hpark (hops pair (by simp [operands]))
      (hops v (by simp [operands])) (.inl rfl)) (by decide)
  | setCdr pair v =>
    exact spoils_returns (setPairField_spoils hl hb hi hu hpark (hops pair (by simp [operands]))
      (hops v (by simp [operands])) (.inr rfl)) (by decide)
  | push v =>
    exact spoils_returns (push_spoils hl hi hu hpark (hops v (by simp [operands]))) (by decide)
  | pop => exact spoils_returns (pop_spoils hl hb hi hu hpark) (by decide)
  | writeRoot slot v =>
    exact spoils_returns (writeRoot_spoils hl hb hi hu hpark slot (hops v (by simp [operands])))
      (by decide)
  | define name v =>
    exact spoils_returns (define_spoils hl hb hi hu hpark name (hops v (by simp [operands])))
      (by decide)
  | collect => exact spoils_returns (operate_spoils hu (hb.collect hi)) (by decide)
  | collectFull => exact spoils_returns (operate_spoils hu (hb.collectFull hi)) (by decide)
  | setStress on =>
    exact .of_eq (t := { u with machine := { u.machine with stress := on } }) rfl trivial
  | peek depth => exact .of_eq (t := u) rfl trivial
  | car v =>
    exact spoils_returns (b := 0)
      (.of_eq (MutatorM.read_lift (car?_run hap (hops v (by simp [operands])))) trivial) (by decide)
  | cdr v =>
    exact spoils_returns (b := 0)
      (.of_eq (MutatorM.read_lift (cdr?_run hap (hops v (by simp [operands])))) trivial) (by decide)
  | lookup name =>
    have hrun := lookup?_eq name u
    refine spoils_returns (f := Option.toList) (b := 0) ?_ (by decide)
    rcases lookupAt?_ends hl hi (u.bucket name) name with ⟨r, hr, -⟩ | ⟨e, -, he⟩
    · exact .of_eq (gc_lift (hrun.trans hr)) trivial
    · exact .of_error (gc_lift_error (hrun.trans he)) (.of_clean hu)

end Reclaim
