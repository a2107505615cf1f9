import Reclaim.Proofs.Session

/-!
# Where a shortage comes from

A command fails for want of room (`Exhausted`) only because an allocation or a collection did that
it asked for. A command asks on the heap that it is given, with its operands parked; a name that is
bound for the first time asks three times, each time on what the last allocation left
(`Command.Asks`). So if a heap falls short only when a condition `A` holds of it (`Suffices`), then
`A` holds of a heap on which the command asks.

Results:
* `Command.run_asks`: one command.
* `Session.asks`: a command in a session.
-/

namespace Reclaim

/-- The collector has no room for an object. -/
def Exhausted (e : Fault) : Prop := ∃ s bytes, e = .failed (.heapExhausted s bytes)

theorem Exhausted.fatal {f : Failure} (h : Exhausted (.failed f)) : f.isFatal = true := by
  obtain ⟨s, bytes, h⟩ := h
  cases h
  rfl

/-- A full stack is another failure. -/
theorem not_exhausted_of_parking {size capacity n : Nat} {e : Fault}
    (he : Roots.parking size capacity n = .error e) : ¬ Exhausted e := by
  rintro ⟨s, bytes, rfl⟩
  have hmild := Roots.not_fatal_of_parking he _ rfl
  cases hmild

/-- A fault that is not reported is no shortage. -/
theorem not_exhausted_of_ne {e : Fault} (he : ∀ f, e ≠ .failed f) : ¬ Exhausted e :=
  fun ⟨_, _, h⟩ => he _ h

/-- The command `cmd`, given to `u`, asks the collector for room, or for a collection, when the heap
is `v`. -/
def Command.Asks (cmd : Command) (u v : Mutator) : Prop :=
  match cmd with
  | .cons a b => v = MutatorM.parkedOn (MutatorM.parkedOn u a) b
  | .duplicate w => v = MutatorM.parkedOn u w
  | .define name w => v = MutatorM.parkedOn u w ∨
      ∃ w' key u₁, MutatorM.keeping w (MutatorM.string name) u = .ok (w', key) u₁ ∧
        (v = MutatorM.parkedOn (MutatorM.parkedOn u₁ key) w' ∨
          ∃ entry u₂ head, MutatorM.cons key w' u₁ = .ok entry u₂ ∧
            u₂.machine.roots.globals[u.bucket name]? = some head ∧
            v = MutatorM.parkedOn (MutatorM.parkedOn u₂ entry) (MutatorM.rest head))
  | _ => v = u

/-- Whatever a collector is asked for on a heap in order, it falls short only if `A` holds of that
heap. Stores, and a pop, never do. -/
structure Suffices (I : Machine Collector → (Nat → Prop) → Prop) (A : Mutator → Prop) : Prop where
  allocate : ∀ {u S n}, I u.machine S → u.poisoned = false →
    Collector.operations.Countable u.machine n →
    Ends (MutatorM.operate (Collector.allocate n)) u (fun _ _ => True) fun e _ => Exhausted e → A u
  collect : ∀ {u S}, I u.machine S → u.poisoned = false →
    Ends (MutatorM.operate Collector.collect) u (fun _ _ => True) fun e _ => Exhausted e → A u
  collectFull : ∀ {u S}, I u.machine S → u.poisoned = false →
    Ends (MutatorM.operate Collector.collectFull) u (fun _ _ => True) fun e _ => Exhausted e → A u
  writeField : ∀ {u S o field v}, I u.machine S → u.poisoned = false → S o →
    u.machine.heap.tag o = some .pair →
    field = o + 1 ∨ field = o + 2 → v.Within S →
    Ends (MutatorM.operate (Collector.writeField o field v)) u (fun _ _ => True)
      fun e _ => ¬ Exhausted e
  writeRoot : ∀ {u S slot old v}, I u.machine S → u.poisoned = false →
    u.machine.roots.get? slot = some old → v.Within S →
    Ends (MutatorM.operate (Collector.writeRoot slot v)) u (fun _ _ => True)
      fun e _ => ¬ Exhausted e
  pop : ∀ {u S v}, I u.machine S → u.poisoned = false → u.machine.roots.stack.back? = some v →
    Ends (MutatorM.operate Collector.pop) u (fun _ _ => True) fun e _ => ¬ Exhausted e

variable {α β : Type} {I : Machine Collector → (Nat → Prop) → Prop}
  {N : Machine Collector → Nat → Nat → Prop} {A : Mutator → Prop}
  {S S' : Nat → Prop} {u u' : Mutator} {v : Value} {n : Nat}

/-- If `x` falls short on `u`, then `P` holds. -/
abbrev Blames (x : MutatorM α) (u : Mutator) (P : Prop) : Prop :=
  Ends x u (fun _ _ => True) fun e _ => Exhausted e → P

namespace MutatorM

variable {x : MutatorM α} {P : Prop}

theorem blames_of_eq {a : α} (hx : x u = .ok a u') : Blames x u P := .of_eq hx trivial

theorem blames_of_error {e : Fault} (hx : x u = .error e u') (he : ¬ Exhausted e) : Blames x u P :=
  .of_error hx fun h => absurd h he

theorem blames_of_never (hx : Ends x u (fun _ _ => True) fun e _ => ¬ Exhausted e) : Blames x u P :=
  hx.mono_error fun _ _ h he => absurd he h

/-- A command that returns what `x` makes. -/
theorem blames_returns {f : α → β} (hx : Blames x u P) : Blames (do return f (← x)) u P :=
  Ends.bind hx fun _ _ _ => .pure trivial

/-- With a value parked. -/
theorem keeping_blames_parked (hl : Laws Collector.operations I N) (hi : I u.machine S)
    (hv : v.Within S) (hx : I (parkedOn u v).machine S → Blames x (parkedOn u v) P) :
    Blames (keeping v x) u P := by
  refine keeping_passes (Q := fun _ => True) (fun hlim => hx (hl.park hi hv hlim))
    (fun e he h => ?_) ?_
  · exact absurd h (not_exhausted_of_parking he)
  · rintro ⟨s, bytes, h⟩
    cases h

theorem allocateWords_asks (hl : Laws Collector.operations I N) (hA : Suffices I A)
    (hi : I u.machine S) (hu : u.poisoned = false) (hn : 1 ≤ n) :
    Blames (allocateWords n) u (A u) := by
  by_cases hcount : Collector.operations.Countable u.machine n
  · unfold allocateWords
    exact (hA.allocate hi hu hcount).bind fun _ _ _ => .of_eq rfl trivial
  · exact blames_of_error (allocateWords_overflows hl hi hu hn hcount)
      (not_exhausted_of_ne (by simp))

/-- Objects without references. -/
theorem Constructs.asks {y : MutatorM Value} {t : Tag} {aux : Word} {ws : List Word}
    (hy : Constructs y t aux ws) (hl : Laws Collector.operations I N) (hA : Suffices I A)
    (hi : I u.machine S) (hu : u.poisoned = false) : Blames y u (A u) := by
  obtain ⟨x, rfl, hx⟩ := hy.run
  refine (((allocateWords_ends hl hi hu (by omega)).and_error
    (allocateWords_asks hl hA hi hu (by omega))).mono_error fun _ _ h => h.2).bind ?_
  rintro o u₁ ⟨-, ρ, S₁, k, -, hm, -⟩
  exact .of_eq (hx o u₁ (hl.new_inside hm.moved.inv hm.mem hm.new)) trivial

theorem cons_asks (hl : Laws Collector.operations I N) (hA : Suffices I A) (hi : I u.machine S)
    (hu : u.poisoned = false) {car cdr : Value} (hcar : car.Within S) (hcdr : cdr.Within S) :
    Blames (cons car cdr) u (A (parkedOn (parkedOn u car) cdr)) := by
  have hkeep : Blames (keeping car (keeping cdr (allocateWords 3))) u
      (A (parkedOn (parkedOn u car) cdr)) :=
    keeping_blames_parked hl hi hcar fun hi₁ => keeping_blames_parked hl hi₁ hcdr fun hi₂ =>
      allocateWords_asks hl hA hi₂ hu (by decide)
  rw [cons_eq]
  refine .step (check_run hu)
    ((((fetched_ends hl hi hu hcar hcdr).and_error hkeep).mono_error fun _ _ h => h.2).bind ?_)
  exact fun _ _ h => (h.pairs hl).mono fun _ _ _ => trivial

theorem duplicate_asks (hl : Laws Collector.operations I N) (hA : Suffices I A) (hi : I u.machine S)
    (hu : u.poisoned = false) (hv : v.Within S) : Blames (duplicate v) u (A (parkedOn u v)) := by
  cases hr : v.ref? with
  | none => exact blames_of_eq (duplicate_immediate hr)
  | some src =>
    obtain ⟨rfl, hS⟩ := hv src hr
    have hpos := Arena.payload_pos ((hl.apart hi).closed.known src hS)
    have hkeep : Blames (keeping (.ofRef src) (allocateWords (u.machine.heap.payload src))) u
        (A (parkedOn u (.ofRef src))) :=
      keeping_blames_parked hl hi hv fun hi₁ => allocateWords_asks hl hA hi₁ hu hpos
    rw [duplicate_eq hr]
    refine .step (check_run hu) (.step (payloadWords_lift hl hi hS) ?_)
    refine (((gathered_ends hl hi hu hv hr).and_error hkeep).mono_error fun _ _ h => h.2).bind ?_
    exact fun _ _ h => (h.copies hl hr).mono fun _ _ _ => trivial

theorem setPairField_unblamed (hl : Laws Collector.operations I N) (hA : Suffices I A)
    (hi : I u.machine S) (hu : u.poisoned = false) {pair : Value} (hp : pair.Within S)
    (hv : v.Within S) {i : Nat} (hio : i = 1 ∨ i = 2) : Blames (setPairField i pair v) u P := by
  cases ho : u.machine.heap.pairAt? pair with
  | none => exact blames_of_eq (setPairField_absent hl hi hp ho)
  | some o =>
    have hread : pair? pair u.machine.heap = .ok (some o) := by rw [pair?_run (hl.apart hi) hp, ho]
    obtain ⟨hr, ht⟩ := Arena.pairAt?_eq_some.mp ho
    unfold setPairField
    exact .step (read_lift hread)
      (blames_of_never (hA.writeField hi hu (hp o hr).2 ht (by omega) hv))

theorem writeRoot_unblamed (hl : Laws Collector.operations I N) (hA : Suffices I A)
    (hi : I u.machine S) (hu : u.poisoned = false) (slot : RootSlot) (hv : v.Within S) :
    Blames (writeRoot slot v) u P := by
  cases hs : u.machine.roots.get? slot with
  | none =>
    obtain ⟨u', hrun⟩ := writeRoot_absent hl hi hu hs hv
    exact blames_of_error hrun (not_exhausted_of_ne (by simp))
  | some old => exact blames_of_never (hA.writeRoot hi hu hs hv)

theorem pop_unblamed (hl : Laws Collector.operations I N) (hA : Suffices I A) (hi : I u.machine S)
    (hu : u.poisoned = false) :
    Blames MutatorM.pop u P := by
  cases hv : u.machine.roots.stack.back? with
  | none => exact blames_of_error (pop_empty hl hi hu hv) fun h => by cases h.fatal
  | some v => exact blames_of_never (hA.pop hi hu hv)

/-- A name that is bound for the first time. -/
theorem bindNew_asks {head : Value} {name : String} (hl : Laws Collector.operations I N)
    (hA : Suffices I A) (hi : I u.machine S) (hu : u.poisoned = false) (hv : v.Within S)
    (hh : u.machine.roots.globals[u.bucket name]? = some head) :
    Blames (bindNew (u.bucket name) name v) u (∃ w, (Command.define name v).Asks u w ∧ A w) := by
  have hkeep : Blames (keeping v (string name)) u (A (parkedOn u v)) :=
    keeping_blames_parked hl hi hv fun hi₁ =>
      (text_constructs (.inl rfl) (Text.encode name)).asks hl hA hi₁ hu
  unfold bindNew
  refine (((key_ends hl hi hu hv name).and_eq.and_error hkeep).mono_error
    fun _ _ h he => ⟨_, .inl rfl, h.2 he⟩).bind ?_
  rintro ⟨v', w⟩ u₁ ⟨hrun₁, ρ, S₁, k, key, hk, hkey, heq⟩
  cases heq
  have hc₁ := hkey.carried
  have hentry := cons_asks hl hA hc₁.inv hkey.clean (hl.ofRef_within hc₁.inv hkey.mem)
    (hc₁.within (hl.named hc₁.inv) (Machine.within_live (by simp) hv))
  refine (((hkey.entry_ends hl hv).and_eq.and_error hentry).mono_error fun _ _ h he =>
    ⟨_, .inr ⟨_, _, u₁, hrun₁, .inl rfl⟩, h.2 he⟩).bind ?_
  rintro w u₂ ⟨hrun₂, τ, S₂, l, key', entry, -, rfl, -, hent⟩
  have hc₂ := hent.carried
  have hn₂ := hl.named hc₂.inv
  obtain ⟨head', hhead', rfl⟩ := hc₂.roots.slot (.global _) head hh
  have hget : getRoot (.global (u.bucket name)) u₂.machine.roots =
      .ok (head.rename τ) u₂.machine.roots := by
    rw [getRoot, hhead']
  have hlink := cons_asks hl hA hc₂.inv hent.clean (hl.ofRef_within hc₂.inv hent.entry_mem)
    (rest_within (hc₂.within hn₂ (hc₂.live (.global _) head hh)))
  refine .step (roots_lift hget) ?_
  refine (((hent.link_ends hl hv hh).and_error hlink).mono_error fun _ _ h he =>
    ⟨_, .inr ⟨_, _, u₁, hrun₁, .inr ⟨_, u₂, _, hrun₂, hhead', rfl⟩⟩, h.2 he⟩).bind ?_
  rintro w u₃ ⟨κ, S₃, j, key'', entry', link, -, rfl, hlinked⟩
  exact writeRoot_unblamed hl hA hlinked.carried.inv hlinked.clean _
    (hl.ofRef_within hlinked.carried.inv hlinked.link_mem)

theorem define_asks (hl : Laws Collector.operations I N) (hA : Suffices I A) (hi : I u.machine S)
    (hu : u.poisoned = false) (name : String) (hv : v.Within S) :
    Blames (define name v) u (∃ w, (Command.define name v).Asks u w ∧ A w) := by
  refine define_ends ?_
  rw [defineAt_eq]
  refine .step (check_run hu) ?_
  rcases entryAt?_ends hl hi (u.bucket name) name with ⟨head, r, hh, hrun, hr⟩ | ⟨e, hne, hrun⟩
  · refine .step (gc_lift hrun) ?_
    cases r with
    | none => exact bindNew_asks hl hA hi hu hv hh
    | some entry => exact setPairField_unblamed hl hA hi hu (hr entry rfl) hv (.inr rfl)
  · exact blames_of_error (bind_error (gc_lift_error hrun)) (not_exhausted_of_ne hne)

end MutatorM

open MutatorM

/-- A command that falls short has asked for something on a heap of which `A` holds. -/
theorem Command.run_asks (hl : Laws Collector.operations I N) (hA : Suffices I A)
    (hi : I u.machine S) (hu : u.poisoned = false) (hpark : u.machine.roots.parked = 0)
    (cmd : Command) (hops : ∀ v ∈ cmd.operands, v.Within S) :
    Blames cmd.run u (∃ v, cmd.Asks u v ∧ A v) := by
  have hap := hl.apart hi
  have hself : ∀ {x : MutatorM (List Value)}, (∀ v, v = u → cmd.Asks u v) → Blames x u (A u) →
      Blames x u (∃ v, cmd.Asks u v ∧ A v) :=
    fun hasks hx => hx.mono_error fun _ _ h he => ⟨u, hasks u rfl, h he⟩
  cases cmd with
  | allocate bytes =>
    exact hself (fun _ h => h) (blames_returns (allocateWords_asks hl hA hi hu (by omega)))
  | char c => exact hself (fun _ h => h) (blames_returns ((char_constructs c).asks hl hA hi hu))
  | string s =>
    exact hself (fun _ h => h)
      (blames_returns ((text_constructs (.inl rfl) (Text.encode s)).asks hl hA hi hu))
  | symbol s =>
    exact hself (fun _ h => h)
      (blames_returns ((text_constructs (.inr rfl) (Text.encode s)).asks hl hA hi hu))
  | lambda entry params variadic =>
    exact hself (fun _ h => h)
      (blames_returns ((lambda_constructs entry params variadic).asks hl hA hi hu))
  | cons a b =>
    exact (blames_returns (cons_asks hl hA hi hu (hops a (by simp [operands]))
      (hops b (by simp [operands])))).mono_error
      fun _ _ h he => ⟨_, rfl, h he⟩
  | duplicate v =>
    exact (blames_returns (duplicate_asks hl hA hi hu (hops v (by simp [operands])))).mono_error
      fun _ _ h he => ⟨_, rfl, h he⟩
  | define name v =>
    exact blames_returns (define_asks hl hA hi hu name (hops v (by simp [operands])))
  | collect => exact hself (fun _ h => h) (blames_returns (hA.collect hi hu))
  | collectFull => exact hself (fun _ h => h) (blames_returns (hA.collectFull hi hu))
  | setCar pair v =>
    exact blames_returns (setPairField_unblamed hl hA hi hu (hops pair (by simp [operands]))
      (hops v (by simp [operands])) (.inl rfl))
  | setCdr pair v =>
    exact blames_returns (setPairField_unblamed hl hA hi hu (hops pair (by simp [operands]))
      (hops v (by simp [operands])) (.inr rfl))
  | push v =>
    refine blames_returns (blames_of_never
      (((push_ends hl hi hu hpark (hops v (by simp [operands]))).mono
        fun _ _ _ => trivial).mono_error ?_))
    exact fun _ _ h => not_exhausted_of_parking h.1
  | pop => exact blames_returns (pop_unblamed hl hA hi hu)
  | writeRoot slot v =>
    exact blames_returns (writeRoot_unblamed hl hA hi hu slot (hops v (by simp [operands])))
  | setStress on => exact blames_of_eq rfl
  | peek depth => exact blames_of_eq rfl
  | car v =>
    exact blames_returns (blames_of_eq
      (MutatorM.read_lift (car?_run hap (hops v (by simp [operands])))))
  | cdr v =>
    exact blames_returns (blames_of_eq
      (MutatorM.read_lift (cdr?_run hap (hops v (by simp [operands])))))
  | lookup name =>
    have hrun := lookup?_eq name u
    refine blames_returns (f := Option.toList) ?_
    rcases lookupAt?_ends hl hi (u.bucket name) name with ⟨r, hr, -⟩ | ⟨e, hne, he⟩
    · exact blames_of_eq (gc_lift (hrun.trans hr))
    · exact blames_of_error (gc_lift_error (hrun.trans he)) (not_exhausted_of_ne hne)

/-- A command in a session that falls short has asked for something on a heap of which `A` holds. -/
theorem Session.asks {c : Config} {H : Nat → Prop} {cmd : Command} {e : Fault}
    (hl : Laws Collector.operations I N) (hA : Suffices I A)
    (hstart : ∀ u, c.Makes u → ∃ S, I u.machine S) (hs : Session c u H)
    (hops : ∀ v ∈ cmd.operands, u.Allows H v) (hrun : cmd.run u = .error e u')
    (he : Exhausted e) : ∃ v, cmd.Asks u v ∧ A v := by
  have hst := hs.steady hl hstart
  obtain ⟨S, hi, hH⟩ := hst.good
  exact (cmd.run_asks hl hA hi hst.clean hst.parked
    fun v hv => (hops v hv).within hl hi hH).error hrun he

end Reclaim
