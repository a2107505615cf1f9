import Reclaim.Proofs.Session

/-!
# What operations keep up

A property `K` of the collector's state and of the measurements that each operation of the collector
keeps (`Upkeep`), on heaps in order, is kept by every command and so holds throughout a session.
Heap and roots do not matter for `K`; an allocation keeps it together with the measurement that
follows.

Results:
* `Command.run_upholds`: one command.
* `Session.upholds`: a whole session.
-/

namespace Reclaim

/-- The operations of a collector keep up `K`. The invariant `I` holds when they begin. -/
structure Upkeep (I : Machine Collector → (Nat → Prop) → Prop)
    (K : Machine Collector → Prop) : Prop where
  congr : ∀ {m m'}, K m → m'.stats = m.stats → m'.own = m.own → K m'
  allocate : ∀ {m m' S n o}, I m S → K m → 1 ≤ n → Collector.allocate n m = .ok o m' →
    K { m' with stats := m'.stats.recordAllocation (n + m'.own.headerWords) }
  collect : ∀ {m m' S}, I m S → K m → Collector.collect m = .ok () m' → K m'
  collectFull : ∀ {m m' S}, I m S → K m → Collector.collectFull m = .ok () m' → K m'
  writeField : ∀ {m m' S o field v}, I m S → K m → m.roots.parked = 0 → S o →
    m.heap.tag o = some .pair →
    field = o + 1 ∨ field = o + 2 → v.Within S → Collector.writeField o field v m = .ok () m' → K m'
  writeRoot : ∀ {m m' S slot old v}, I m S → K m → m.roots.parked = 0 →
    m.roots.get? slot = some old → v.Within S →
    Collector.writeRoot slot v m = .ok () m' → K m'
  pop : ∀ {m m' S v}, I m S → K m → m.roots.parked = 0 → Collector.pop m = .ok v m' → K m'
  push : ∀ {m m' v}, K m → Collector.push v m = .ok () m' → K m'
  initField : ∀ {m m' field v}, K m → Collector.initField field v m = .ok () m' → K m'
  noteCopy : ∀ {m m' o}, K m → Collector.noteCopy o m = .ok () m' → K m'

variable {α β : Type} {I : Machine Collector → (Nat → Prop) → Prop}
  {N : Machine Collector → Nat → Nat → Prop}
  {K : Machine Collector → Prop} {S S' : Nat → Prop} {u u' : Mutator} {v : Value} {n : Nat}

/-- `K` holds after every result of `x`. -/
abbrev Leads (K : Machine Collector → Prop) (x : MutatorM α) (u : Mutator) : Prop :=
  Ends x u (fun _ u' => K u'.machine) fun _ _ => True

/-- `K` holds after a reported failure, unless the heap is poisoned. -/
def Endures (K : Machine Collector → Prop) (e : Fault) (u' : Mutator) : Prop :=
  ∀ f, e = .failed f → u'.poisoned = true ∨ K u'.machine

/-- `K` holds whenever `x` ends with a heap that is not poisoned. -/
abbrev Upholds (K : Machine Collector → Prop) (x : MutatorM α) (u : Mutator) : Prop :=
  Ends x u (fun _ u' => K u'.machine) (Endures K)

theorem Stops.endures {e : Fault} (h : Stops u n e u') (hK : K u.machine) : Endures K e u' := by
  refine fun f hf => h.imp id fun h => ?_
  rw [h.2 f hf]
  exact hK

theorem endures_of_poisoned {e : Fault} (h : u'.poisoned = true) : Endures K e u' :=
  fun _ _ => .inl h

namespace MutatorM

variable {x : MutatorM α} {y : GcM Collector α}

/-! ## Single operations -/

/-- What the collector did, if there is a result. -/
theorem guarded_result : Ends (guarded (liftM y)) u (fun a u' => y u.machine = .ok a u'.machine)
    fun _ _ => True := by
  cases hy : y u.machine with
  | ok a m => exact .of_eq (guarded_run hy) rfl
  | error e m =>
    have hrun : ∃ u', guarded (liftM y) u = .error e u' := by
      rw [guarded, gc_lift_error hy]
      cases e <;> exact ⟨_, rfl⟩
    obtain ⟨u', hrun⟩ := hrun
    exact .of_error hrun trivial

theorem operate_result (hu : u.poisoned = false) :
    Ends (operate y) u (fun a u' => y u.machine = .ok a u'.machine) fun _ _ => True := by
  unfold operate
  exact .step (check_run hu) guarded_result

/-- Changes of the heap alone. -/
theorem heap_leads {z : HeapM α} (hk : Upkeep I K) (hK : K u.machine) : Leads K (liftM z) u := by
  have hlift := gc_lift_eq (liftM z : GcM Collector α) u
  rw [heap_lift_eq] at hlift
  cases hz : z u.machine.heap with
  | ok a h =>
    rw [hz] at hlift
    exact .of_eq hlift (hk.congr hK rfl rfl)
  | error e h =>
    rw [hz] at hlift
    exact .of_error hlift trivial

theorem allocateWords_leads (hk : Upkeep I K) (hi : I u.machine S) (hu : u.poisoned = false)
    (hK : K u.machine) (hn : 1 ≤ n) :
    Leads K (allocateWords n) u := by
  unfold allocateWords
  refine (operate_result hu).bind fun o u₁ h => ?_
  exact .of_eq rfl (hk.allocate hi hK hn h)

theorem initField_leads {field : Nat} (hk : Upkeep I K) (hK : K u.machine) :
    Leads K (initField field v) u :=
  guarded_result.mono fun _ _ h => hk.initField hK h

/-- With a value parked. -/
theorem keeping_leads (hl : Laws Collector.operations I N) (hk : Upkeep I K) (hi : I u.machine S)
    (hv : v.Within S) (hK : K u.machine)
    (hx : I (parkedOn u v).machine S → K (parkedOn u v).machine → Leads K x (parkedOn u v)) :
    Leads K (keeping v x) u := by
  cases hroom : Roots.parking u.machine.roots.stack.size u.machine.roots.capacity 1 with
  | error e => exact .of_error (keeping_full hroom) trivial
  | ok =>
    obtain ⟨hcap, hlim⟩ := Roots.room_of_parking hroom
    have hpark : (liftM (park v) : MutatorM Unit) u = .ok () (parkedOn u v) :=
      roots_lift (park_run hcap hlim)
    have hres := hx (hl.park hi hv hlim) (hk.congr hK rfl rfl)
    cases hrun : x (parkedOn u v) with
    | ok a u' =>
      cases hback : u'.machine.roots.stack.back? with
      | some w => exact .of_eq (keeping_ok hcap hlim hrun hback) (hk.congr (hres.ok hrun) rfl rfl)
      | none =>
        have hatt : attempt x (parkedOn u v) = .ok (.ok a) u' := by rw [attempt, hrun]
        unfold keeping
        exact .step hpark (.step hatt (.of_error (bind_error (unpark_gone hback)) trivial))
    | error e u' =>
      exact ((keeping_blames hcap hlim hrun).mono fun _ _ h => h.elim).mono_error
        fun _ _ _ => trivial

/-! ## Constructors -/

/-- Objects without references. -/
theorem Constructs.upholds {y : MutatorM Value} {t : Tag} {aux : Word} {ws : List Word}
    (hy : Constructs y t aux ws) (hl : Laws Collector.operations I N) (hk : Upkeep I K)
    (hi : I u.machine S) (hu : u.poisoned = false) (hK : K u.machine) :
    Upholds K y u := by
  obtain ⟨x, rfl, hx⟩ := hy.run
  have hmade := (allocateWords_ends hl hi hu (by omega)).and
    (allocateWords_leads hk hi hu hK (n := ws.length + 1) (by omega))
  refine (hmade.mono_error fun _ _ h => h.1.elim endures_of_poisoned fun h => h.silent).bind ?_
  rintro o u₁ ⟨⟨-, ρ, S₁, k, -, hm, -⟩, hK₁⟩
  exact .of_eq (hx o u₁ (hl.new_inside hm.moved.inv hm.mem hm.new)) (hk.congr hK₁ rfl rfl)

theorem fillPair_leads {car cdr : Value} {o : Nat} (hk : Upkeep I K) (hK : K u.machine) :
    Leads K (fillPair car cdr o) u := by
  unfold fillPair
  refine (heap_leads hk hK).bind fun _ _ h₁ => ?_
  refine (initField_leads hk h₁).bind fun _ _ h₂ => ?_
  exact (initField_leads hk h₂).bind fun _ _ h₃ => .pure h₃

theorem cons_upholds (hl : Laws Collector.operations I N) (hk : Upkeep I K) (hi : I u.machine S)
    (hu : u.poisoned = false) (hK : K u.machine) {car cdr : Value} (hcar : car.Within S)
    (hcdr : cdr.Within S) : Upholds K (cons car cdr) u := by
  have hkeep : Leads K (keeping car (keeping cdr (allocateWords pairWords))) u :=
    keeping_leads hl hk hi hcar hK fun hi₁ hK₁ => keeping_leads hl hk hi₁ hcdr hK₁ fun hi₂ hK₂ =>
      allocateWords_leads hk hi₂ hu hK₂ (by decide)
  rw [cons_eq]
  refine .step (check_run hu)
    ((((fetched_ends hl hi hu hcar hcdr).and hkeep).mono_error fun _ _ h => h.1.endures hK).bind ?_)
  rintro r u₁ ⟨hf, hK₁⟩
  have hfill := (hf.pairs hl (E := fun _ _ => False)).and (fillPair_leads hk hK₁)
  exact (hfill.mono fun _ _ h => h.2).mono_error fun _ _ h => h.1.elim

theorem fillCopy_leads {words copy : Nat} (hk : Upkeep I K) (hK : K u.machine) :
    Leads K (fillCopy words v copy) u := by
  unfold fillCopy
  cases v.ref? with
  | none => exact .pure hK
  | some src =>
    refine (heap_leads hk hK).bind fun _ _ h₁ => ?_
    exact (guarded_result.mono fun _ _ h => hk.noteCopy h₁ h).bind fun _ _ h₂ => .pure h₂

theorem duplicate_upholds (hl : Laws Collector.operations I N) (hk : Upkeep I K)
    (hi : I u.machine S) (hu : u.poisoned = false) (hK : K u.machine) (hv : v.Within S) :
    Upholds K (duplicate v) u := by
  cases hr : v.ref? with
  | none => exact .of_eq (duplicate_immediate hr) hK
  | some src =>
    obtain ⟨rfl, hS⟩ := hv src hr
    have hpos := Arena.payload_pos ((hl.apart hi).closed.known src hS)
    have hkeep : Leads K (keeping (.ofRef src) (allocateWords (u.machine.heap.payload src))) u :=
      keeping_leads hl hk hi hv hK fun hi₁ hK₁ => allocateWords_leads hk hi₁ hu hK₁ hpos
    rw [duplicate_eq hr]
    refine .step (check_run hu) (.step (payloadWords_lift hl hi hS) ?_)
    refine (((gathered_ends hl hi hu hv hr).and hkeep).mono_error
      fun _ _ h => h.1.endures hK).bind ?_
    rintro r u₁ ⟨hg, hK₁⟩
    have hfill := (hg.copies hl hr (E := fun _ _ => False)).and (fillCopy_leads hk hK₁)
    exact (hfill.mono fun _ _ h => h.2).mono_error fun _ _ h => h.1.elim

/-! ## Changes -/

theorem setPairField_upholds (hl : Laws Collector.operations I N) (hk : Upkeep I K)
    (hi : I u.machine S) (hu : u.poisoned = false) (hK : K u.machine)
    (hpark : u.machine.roots.parked = 0) {pair : Value} (hp : pair.Within S) (hv : v.Within S)
    {i : Nat} (hio : i = 1 ∨ i = 2) : Upholds K (setPairField i pair v) u := by
  cases ho : u.machine.heap.pairAt? pair with
  | none => exact .of_eq (setPairField_absent hl hi hp ho) hK
  | some o =>
    have hread : pair? pair u.machine.heap = .ok (some o) := by rw [pair?_run (hl.apart hi) hp, ho]
    obtain ⟨hr, ht⟩ := Arena.pairAt?_eq_some.mp ho
    have hstore : Leads K (setPairField i pair v) u := by
      unfold setPairField
      refine .step (read_lift hread) ((operate_result hu).mono fun _ _ h => ?_)
      exact hk.writeField hi hK hpark (hp o hr).2 ht (by omega) hv h
    exact (((setPairField_ends hl hi hu hpark hp hv hio ho).and hstore).mono
      fun _ _ h => h.2).mono_error fun _ _ h =>
      endures_of_poisoned h.1

theorem writeRoot_upholds (hl : Laws Collector.operations I N) (hk : Upkeep I K)
    (hi : I u.machine S) (hu : u.poisoned = false) (hK : K u.machine)
    (hpark : u.machine.roots.parked = 0) (slot : RootSlot) (hv : v.Within S) :
    Upholds K (writeRoot slot v) u := by
  cases hs : u.machine.roots.get? slot with
  | none =>
    obtain ⟨u', hrun⟩ := writeRoot_absent hl hi hu hs hv
    exact .of_error hrun (by rintro f ⟨⟩)
  | some old =>
    have hstore : Leads K (writeRoot slot v) u :=
      (operate_result hu).mono fun _ _ h => hk.writeRoot hi hK hpark hs hv h
    exact (((writeRoot_ends hl hi hu hpark hs hv).and hstore).mono fun _ _ h => h.2).mono_error
      fun _ _ h => endures_of_poisoned h.1

theorem pop_upholds (hl : Laws Collector.operations I N) (hk : Upkeep I K) (hi : I u.machine S)
    (hu : u.poisoned = false) (hK : K u.machine) (hpark : u.machine.roots.parked = 0) :
    Upholds K MutatorM.pop u := by
  cases hv : u.machine.roots.stack.back? with
  | none => exact .of_error (pop_empty hl hi hu hv) fun _ _ => .inr hK
  | some v =>
    have htake : Leads K MutatorM.pop u :=
      (operate_result hu).mono fun _ _ h => hk.pop hi hK hpark h
    exact (((pop_ends hl hi hu hpark hv).and htake).mono fun _ _ h => h.2).mono_error fun _ _ h =>
      endures_of_poisoned h.1

theorem push_upholds (hl : Laws Collector.operations I N) (hk : Upkeep I K) (hi : I u.machine S)
    (hu : u.poisoned = false) (hK : K u.machine) (hpark : u.machine.roots.parked = 0)
    (hv : v.Within S) : Upholds K (push v) u := by
  have hput : Leads K (push v) u := (operate_result hu).mono fun _ _ h => hk.push hK h
  refine (((push_ends hl hi hu hpark hv).and hput).mono fun _ _ h => h.2).mono_error ?_
  rintro e u' ⟨⟨-, rfl⟩, -⟩ f -
  exact .inr hK

/-! ## Names -/

/-- A name that is bound for the first time. -/
theorem bindNew_upholds {bucket : Nat} {head : Value} {name : String}
    (hl : Laws Collector.operations I N) (hk : Upkeep I K) (hi : I u.machine S)
    (hu : u.poisoned = false) (hK : K u.machine) (hpark : u.machine.roots.parked = 0)
    (hv : v.Within S) (hh : u.machine.roots.globals[bucket]? = some head) :
    Upholds K (bindNew bucket name v) u := by
  have hkeep : Leads K (keeping v (string name)) u := keeping_leads hl hk hi hv hK fun hi₁ hK₁ =>
    ((text_constructs (.inl rfl) (Text.encode name)).upholds hl hk hi₁ hu hK₁).mono_error
      fun _ _ _ => trivial
  unfold bindNew
  refine (((key_ends hl hi hu hv name).and hkeep).mono_error
    fun _ _ h => h.1.elim (fun h => h.endures hK) ?_).bind ?_
  · rintro ⟨rfl, -⟩ f hf
    cases hf
  rintro ⟨v', w⟩ u₁ ⟨⟨ρ, S₁, k, key, hk3, hkey, heq⟩, hK₁⟩
  cases heq
  have hc₁ := hkey.carried
  have hentry := cons_upholds hl hk hc₁.inv hkey.clean hK₁ (hl.ofRef_within hc₁.inv hkey.mem)
    (hc₁.within (hl.named hc₁.inv) (Machine.within_live (by simp) hv))
  refine (((hkey.entry_ends hl hv).and hentry).mono_error fun _ _ h => h.2).bind ?_
  rintro w u₂ ⟨⟨τ, S₂, l, key', entry, -, rfl, -, hent⟩, hK₂⟩
  have hc₂ := hent.carried
  obtain ⟨head', hhead', rfl⟩ := hc₂.roots.slot (.global _) head hh
  have hget : getRoot (.global bucket) u₂.machine.roots = .ok (head.rename τ) u₂.machine.roots := by
    rw [getRoot, hhead']
  have hlink := cons_upholds hl hk hc₂.inv hent.clean hK₂ (hl.ofRef_within hc₂.inv hent.entry_mem)
    (rest_within (hc₂.within (hl.named hc₂.inv) (hc₂.live (.global _) head hh)))
  refine .step (roots_lift hget)
    ((((hent.link_ends hl hv hh).and hlink).mono_error fun _ _ h => h.2).bind ?_)
  rintro w u₃ ⟨⟨κ, S₃, j, key'', entry', link, -, rfl, hlinked⟩, hK₃⟩
  have hc₃ := hlinked.carried
  exact writeRoot_upholds hl hk hc₃.inv hlinked.clean hK₃ (by rw [hc₃.roots.parked]; exact hpark) _
    (hl.ofRef_within hc₃.inv hlinked.link_mem)

theorem define_upholds (hl : Laws Collector.operations I N) (hk : Upkeep I K) (hi : I u.machine S)
    (hu : u.poisoned = false) (hK : K u.machine) (hpark : u.machine.roots.parked = 0)
    (name : String) (hv : v.Within S) : Upholds K (define name v) u := by
  refine define_ends ?_
  rw [defineAt_eq]
  refine .step (check_run hu) ?_
  rcases entryAt?_ends hl hi (u.bucket name) name with ⟨head, r, hh, hrun, hr⟩ | ⟨e, hne, hrun⟩
  · refine .step (gc_lift hrun) ?_
    cases r with
    | none => exact bindNew_upholds hl hk hi hu hK hpark hv hh
    | some entry => exact setPairField_upholds hl hk hi hu hK hpark (hr entry rfl) hv (.inr rfl)
  · exact .of_error (bind_error (gc_lift_error hrun)) fun f hf => absurd hf (hne f)

/-! ## Commands -/

/-- A command that returns what `x` makes. -/
theorem upholds_returns {f : α → β} (hx : Upholds K x u) : Upholds K (do return f (← x)) u :=
  hx.bind fun _ _ h => .pure h

/-- Nothing that only reads changes anything. -/
theorem reads_upholds {x : MutatorM (Option Value)} {r : Option Value} (hK : K u.machine)
    (hx : x u = .ok r u) : Upholds K x u :=
  .of_eq hx hK

end MutatorM

open MutatorM

theorem Command.run_upholds (hl : Laws Collector.operations I N) (hk : Upkeep I K)
    (hi : I u.machine S) (hu : u.poisoned = false) (hK : K u.machine) (cmd : Command)
    (hpark : cmd.Creates ∨ u.machine.roots.parked = 0) (hops : ∀ v ∈ cmd.operands, v.Within S) :
    Upholds K cmd.run u := by
  have hap := hl.apart hi
  cases cmd with
  | allocate bytes =>
    have hmade := (allocateWords_ends hl hi hu (by omega)).and
      (allocateWords_leads hk hi hu hK (n := max (wordsFor bytes) 1) (by omega))
    exact upholds_returns ((hmade.mono fun _ _ h => h.2).mono_error
      fun _ _ h => h.1.elim endures_of_poisoned fun h => h.silent)
  | char c => exact upholds_returns ((char_constructs c).upholds hl hk hi hu hK)
  | string s =>
    exact upholds_returns ((text_constructs (.inl rfl) (Text.encode s)).upholds hl hk hi hu hK)
  | symbol s =>
    exact upholds_returns ((text_constructs (.inr rfl) (Text.encode s)).upholds hl hk hi hu hK)
  | lambda entry params variadic =>
    exact upholds_returns ((lambda_constructs entry params variadic).upholds hl hk hi hu hK)
  | cons a b =>
    exact upholds_returns (cons_upholds hl hk hi hu hK (hops a (by simp [operands]))
      (hops b (by simp [operands])))
  | duplicate v =>
    exact upholds_returns (duplicate_upholds hl hk hi hu hK (hops v (by simp [operands])))
  | setCar pair v =>
    exact upholds_returns (setPairField_upholds hl hk hi hu hK (hpark.resolve_left id)
      (hops pair (by simp [operands])) (hops v (by simp [operands])) (.inl rfl))
  | setCdr pair v =>
    exact upholds_returns (setPairField_upholds hl hk hi hu hK (hpark.resolve_left id)
      (hops pair (by simp [operands])) (hops v (by simp [operands])) (.inr rfl))
  | push v =>
    exact upholds_returns (push_upholds hl hk hi hu hK (hpark.resolve_left id)
      (hops v (by simp [operands])))
  | pop => exact upholds_returns (pop_upholds hl hk hi hu hK (hpark.resolve_left id))
  | writeRoot slot v =>
    exact upholds_returns (writeRoot_upholds hl hk hi hu hK (hpark.resolve_left id) slot
      (hops v (by simp [operands])))
  | define name v =>
    exact upholds_returns (define_upholds hl hk hi hu hK (hpark.resolve_left id) name
      (hops v (by simp [operands])))
  | collect =>
    have hend := (collect_ends hl hi hu).and
      ((operate_result hu).mono fun _ _ h => hk.collect hi hK h)
    exact upholds_returns ((hend.mono fun _ _ h => h.2).mono_error
      fun _ _ h => endures_of_poisoned h.1)
  | collectFull =>
    have hend := (collectFull_ends hl hi hu).and
      ((operate_result hu).mono fun _ _ h => hk.collectFull hi hK h)
    exact upholds_returns ((hend.mono fun _ _ h => h.2).mono_error
      fun _ _ h => endures_of_poisoned h.1)
  | setStress on =>
    exact .of_eq (t := { u with machine := { u.machine with
      stress := on } }) rfl (hk.congr hK rfl rfl)
  | peek depth => exact .of_eq (t := u) rfl hK
  | car v =>
    exact upholds_returns (reads_upholds hK
      (MutatorM.read_lift (car?_run hap (hops v (by simp [operands])))))
  | cdr v =>
    exact upholds_returns (reads_upholds hK
      (MutatorM.read_lift (cdr?_run hap (hops v (by simp [operands])))))
  | lookup name =>
    have hrun := lookup?_eq name u
    refine upholds_returns (f := Option.toList) ?_
    rcases lookupAt?_ends hl hi (u.bucket name) name with ⟨r, hr, -⟩ | ⟨e, hne, he⟩
    · exact reads_upholds hK (gc_lift (hrun.trans hr))
    · exact .of_error (gc_lift_error (hrun.trans he)) fun f hf => absurd hf (hne f)

/-- What operations keep up holds throughout a session, if it holds of the new heap. -/
theorem Session.upholds {c : Config} {H : Nat → Prop} (hl : Laws Collector.operations I N)
    (hk : Upkeep I K) (hstart : ∀ u, c.Makes u → (∃ S, I u.machine S) ∧ K u.machine)
    (hs : Session c u H) : K u.machine := by
  induction hs with
  | start hc => exact (hstart _ hc).2
  | step hprev hops hg hu' ih =>
    have hst := hprev.steady hl fun u hc => (hstart u hc).1
    obtain ⟨S, hi, hH⟩ := hst.good
    have hend := Command.run_upholds hl hk hi hst.clean ih _ (.inr hst.parked) fun v hv =>
      (hops v hv).within hl hi hH
    rcases hg with hrun | ⟨f, hrun, -⟩
    · exact hend.ok hrun
    · refine (hend.error hrun f rfl).resolve_left ?_
      rw [hu']
      exact Bool.false_ne_true

end Reclaim
