import Reclaim.Proofs.Aftermath
import Reclaim.Proofs.Walk

/-!
# Where a program can trap

A trap is an access outside the arena, the stack, the global table or a mark bitmap, an address
below zero, or a size whose bytes no word can count, as in builds that check for overflow. The laws
of a strategy leave room for three of them: a stack that grows beyond all memory, a slot that is not
there, and a refusal that cannot be told in bytes. With a stack that fits into memory, slots that
are there and bytes that can be counted, no command of a session traps. Neither does any after the
heap was poisoned: those that could change something are refused, and what the others read is there.

There is one exception. A mark-sweep arena of one word has no room for a chunk, but a sweep takes
that word for a block, and writes a link behind it.

Results:
* `Command.run_excused`: one command on a heap that obeys the laws.
* `Barren.run_excused`: one command on a mark-sweep heap without room.
* `Wreck.trapFree`: a poisoned heap.
* `session_trap_free`: all calls, after any session and whatever follows it.
* `oneWordArena_traps`: the exception.
-/

namespace Reclaim

variable {α β : Type} {I : Machine Collector → (Nat → Prop) → Prop}
  {N : Machine Collector → Nat → Nat → Prop}
  {S H : Nat → Prop} {u u' : Mutator} {v : Value}

/-! ## Heaps that obey the laws -/

/-- The heap was poisoned before it trapped. -/
def Excused (e : Fault) (u' : Mutator) : Prop := e = .trap → u'.poisoned = true

/-- A trap does not poison the heap, so that there is none. -/
theorem MutatorM.Orderly.not_trap {x : MutatorM α} {Q : α → Mutator → Prop} (ho : Orderly x)
    (hu : u.poisoned = false) (hx : Ends x u Q Excused) : x u ≠ .error .trap u' := by
  intro hrun
  have hsame := ((ho.ends u).error hrun).2 (by simp)
  rw [hx.error hrun rfl, hu] at hsame
  cases hsame

/-- What is refused is told how many bytes it has. -/
theorem MutatorM.Uncounted.excused {n : Nat} {e : Fault}
    (hcount : Collector.operations.Countable u.machine n)
    (h : u'.poisoned = true ∨ Uncounted u n e u') : Excused e u' :=
  fun _ => h.resolve_right fun h => h.2.2 hcount

/-- There is a text for a name whose bytes are counted. -/
theorem MutatorM.Unbound.excused {name : String} {e : Fault} (hf : u.Framed)
    (hname : ¬ Lengthy u name) (h : Unbound I u S name e u') : Excused e u' := by
  rintro rfl
  rcases h with ⟨-, hlong⟩ | h | ⟨hroom, -⟩
  · exact absurd hlong hname
  · exact h
  · exact absurd hroom (Roots.parking_ne_trap hf.1 2)

theorem Stops.excused {n : Nat} {e : Fault} (hf : u.Framed) (h : Stops u n e u') :
    Excused e u' := by
  rintro rfl
  exact h.elim id fun h => absurd h.1 (Roots.parking_ne_trap hf.1 n)

namespace Command

/-- A command that returns what `x` makes. -/
theorem excuses {x : MutatorM α} {f : α → List Value} {Q : α → Mutator → Prop}
    {E : Fault → Mutator → Prop} (hx : Ends x u Q E) (he : ∀ e u', E e u' → Excused e u') :
    Ends (do return f (← x)) u (fun _ _ => True) Excused :=
  (hx.mono_error he).bind fun _ _ _ => .pure trivial

theorem setPairField_excused (hl : Laws Collector.operations I N) (hi : I u.machine S)
    (hu : u.poisoned = false) (hpark : u.machine.roots.parked = 0) {pair : Value}
    (hp : pair.Within S) (hv : v.Within S) {i : Nat} (hio : i = 1 ∨ i = 2) :
    Ends (MutatorM.setPairField i pair v) u (fun _ _ => True) Excused := by
  cases ho : u.machine.heap.pairAt? pair with
  | none => exact .of_eq (MutatorM.setPairField_absent hl hi hp ho) trivial
  | some o =>
    exact ((MutatorM.setPairField_ends hl hi hu hpark hp hv hio ho).mono
      fun _ _ _ => trivial).mono_error fun _ _ h _ => h

theorem define_excused (hl : Laws Collector.operations I N) (hi : I u.machine S)
    (hu : u.poisoned = false) (hpark : u.machine.roots.parked = 0) (hf : u.Framed) (name : String)
    (hname : ¬ MutatorM.Lengthy u name) (hv : v.Within S) :
    Ends (MutatorM.define name v) u (fun _ _ => True) Excused := by
  refine MutatorM.define_ends ?_
  rw [MutatorM.defineAt_eq]
  refine .step (MutatorM.check_run hu) ?_
  rcases MutatorM.entryAt?_in_range (hl.apart hi) (hl.roots hi)
    (hf.bucket_lt (Text.encode name)) name with ⟨head, r, hh, hrun, hrw⟩ | hrun
  · refine .step (MutatorM.gc_lift hrun) ?_
    cases r with
    | some entry => exact setPairField_excused hl hi hu hpark (hrw entry rfl) hv (.inr rfl)
    | none =>
      exact ((MutatorM.bindNew_ends hl hi hu hpark hv hh name).mono fun _ _ _ => trivial).mono_error
        fun _ _ h =>
        h.excused hf hname
  · exact .of_error (bind_error (MutatorM.gc_lift_error hrun)) (by simp [Excused])

theorem lookup_excused (hl : Laws Collector.operations I N) (hi : I u.machine S) (hf : u.Framed)
    (name : String) :
    Ends (liftM (MutatorM.lookup? name) : MutatorM (Option Value)) u (fun _ _ => True) Excused := by
  refine ((MutatorM.lookup?_in_range (hl.apart hi) (hl.roots hi) hf name).mono
    fun _ _ _ => trivial).mono_error ?_
  rintro e u' rfl
  simp [Excused]

theorem text_excused (hl : Laws Collector.operations I N) (hi : I u.machine S)
    (hu : u.poisoned = false) {t : Tag} {bytes : List UInt8} (ht : t = .string ∨ t = .symbol)
    (hcount : Collector.operations.Countable u.machine (textWords bytes.length)) :
    Ends (MutatorM.text t bytes) u (fun _ _ => True) Excused := by
  rw [MutatorM.textWords_eq] at hcount
  exact (((MutatorM.text_constructs ht bytes).ends hl hi hu).mono fun _ _ _ => trivial).mono_error
    fun _ _ h =>
    MutatorM.Uncounted.excused hcount h

/-- No command traps on a heap that is not poisoned, if the bytes that it asks for are counted. -/
theorem run_excused (hl : Laws Collector.operations I N) (hi : I u.machine S)
    (hu : u.poisoned = false) (hpark : u.machine.roots.parked = 0) (hf : u.Framed) (cmd : Command)
    (hops : ∀ v ∈ cmd.operands, v.Within S) (hslot : cmd.InRange u) (hcount : cmd.Countable u) :
    Ends cmd.run u (fun _ _ => True) Excused := by
  have hpoison : ∀ (e : Fault) (u' : Mutator), u'.poisoned = true → Excused e u' := fun _ _ h _ => h
  cases cmd with
  | allocate bytes =>
    exact excuses (MutatorM.allocateWords_ends hl hi hu (by omega)) fun _ _ h =>
      MutatorM.Uncounted.excused hcount h
  | char c => exact excuses ((MutatorM.char_constructs c).ends_of_lt hl hi hu (by decide)) hpoison
  | string s => exact excuses (text_excused hl hi hu (.inl rfl) hcount) fun _ _ h => h
  | symbol s => exact excuses (text_excused hl hi hu (.inr rfl) hcount) fun _ _ h => h
  | lambda entry params variadic =>
    exact excuses ((MutatorM.lambda_constructs entry params variadic).ends_of_lt hl hi hu
      (by simp [tableLimit])) hpoison
  | cons a b =>
    exact excuses (MutatorM.cons_ends hl hi hu (hops a (by simp [operands]))
      (hops b (by simp [operands]))) fun _ _ h => h.excused hf
  | duplicate v =>
    cases hr : v.ref? with
    | none =>
      exact excuses (Ends.of_eq (Q := fun _ _ => True)
        (MutatorM.duplicate_immediate hr) trivial) hpoison
    | some src =>
      exact excuses (MutatorM.duplicate_ends hl hi hu (hops v (by simp [operands])) hr)
        fun _ _ h => h.excused hf
  | setCar pair v =>
    exact excuses (f := fun _ => [])
      (setPairField_excused hl hi hu hpark (hops pair (by simp [operands]))
        (hops v (by simp [operands])) (.inl rfl)) fun _ _ h => h
  | setCdr pair v =>
    exact excuses (f := fun _ => [])
      (setPairField_excused hl hi hu hpark (hops pair (by simp [operands]))
        (hops v (by simp [operands])) (.inr rfl)) fun _ _ h => h
  | push v =>
    refine excuses (f := fun _ => [])
      (MutatorM.push_ends hl hi hu hpark (hops v (by simp [operands]))) ?_
    rintro _ u' ⟨h, -⟩ rfl
    exact absurd h (Roots.parking_ne_trap hf.1 1)
  | pop =>
    cases hv : u.machine.roots.stack.back? with
    | none =>
      exact excuses (Ends.of_error (Q := fun _ _ => False) (MutatorM.pop_empty hl hi hu hv)
        (by simp [Excused])) fun _ _ h => h
    | some v => exact excuses (MutatorM.pop_ends hl hi hu hpark hv) hpoison
  | writeRoot slot v =>
    obtain ⟨old, hold⟩ := Option.ne_none_iff_exists'.mp hslot
    exact excuses (f := fun _ => [])
      (MutatorM.writeRoot_ends hl hi hu hpark hold (hops v (by simp [operands]))) hpoison
  | define name v =>
    exact excuses (f := fun _ => [])
      (define_excused hl hi hu hpark hf name hcount (hops v (by simp [operands]))) fun _ _ h => h
  | collect => exact excuses (f := fun _ => []) (MutatorM.collect_ends hl hi hu) hpoison
  | collectFull => exact excuses (f := fun _ => []) (MutatorM.collectFull_ends hl hi hu) hpoison
  | setStress on =>
    exact .of_eq (a := []) (t := { u with machine := { u.machine with stress := on } }) rfl trivial
  | peek depth => exact .of_eq (a := (u.peek? depth).toList) (t := u) rfl trivial
  | car v =>
    have hread := MutatorM.read_lift (u := u) (car?_run (hl.apart hi) (hops v (by simp [operands])))
    exact excuses (Ends.of_eq (Q := fun _ _ => True) hread trivial) hpoison
  | cdr v =>
    have hread := MutatorM.read_lift (u := u) (cdr?_run (hl.apart hi) (hops v (by simp [operands])))
    exact excuses (Ends.of_eq (Q := fun _ _ => True) hread trivial) hpoison
  | lookup name => exact excuses (lookup_excused hl hi hf name) fun _ _ h => h

end Command

/-! ## Mark-sweep heaps without room -/

namespace MarkSweep

/-- What is refused does not trap. -/
theorem Refuses.excuses {P : Prop} {x : MutatorM α} {f : α → List Value} (hx : Refuses P x u)
    (hf : u.Framed) (hp : P) :
    Ends (do return f (← x)) u (fun _ _ => True) Excused := by
  obtain ⟨e, u', hrun, -, htrap⟩ := hx
  exact .of_error (bind_error hrun) fun he => absurd he (htrap hf hp)

/-- An operation on the roots that does not trap. -/
theorem roots_excused {y : RootsM α} {x : GcM Collector α} {f : α → List Value}
    (hx : x u.machine = (liftM y : GcM Collector α) u.machine)
    (hy : ∀ r, y u.machine.roots ≠ .error .trap r) :
    Ends (do return f (← MutatorM.operate x)) u (fun _ _ => True) Excused := by
  have hrun : Ends (MutatorM.operate x) u (fun _ _ => True) Excused := by
    cases hu : u.poisoned with
    | true => exact .of_error (bind_error (check_poisoned hu)) (by simp [Excused])
    | false =>
      refine .step (MutatorM.check_run hu) ?_
      unfold Ends MutatorM.guarded
      rw [MutatorM.gc_lift_eq, hx, Reclaim.roots_lift_eq]
      cases h : y u.machine.roots with
      | ok a r => trivial
      | error e r =>
        cases e with
        | trap => exact absurd h (hy r)
        | failed f | endless => exact fun he => by cases he
  exact Command.excuses hrun fun _ _ h => h

theorem pushRoot_ne_trap {r r' : Roots} (hcap : r.capacity < tableLimit) :
    pushRoot v r ≠ .error .trap r' := by
  unfold pushRoot
  by_cases hroom : r.stack.size < r.capacity
  · have hlim : r.stack.size + 1 < tableLimit := by omega
    simp [hroom, hlim]
  · simp [hroom]

theorem popRoot_ne_trap {r r' : Roots} : popRoot r ≠ .error .trap r' := by
  unfold popRoot
  cases r.stack.back? <;> simp

/-- One command on a heap without room, if the bytes that it asks for are counted. With one word, a
collection is the exception. -/
theorem Barren.run_excused (hb : Barren u) (hf : u.Framed) (cmd : Command)
    (hops : ∀ v ∈ cmd.operands, v.Within Nothing) (hslot : cmd.InRange u) (hcount : cmd.Countable u)
    (hsweep : u.machine.heap.size = 1 → cmd ≠ .collect ∧ cmd ≠ .collectFull) :
    Ends cmd.run u (fun _ _ => True) Excused := by
  have hread : ∀ {γ : Type} {x : MutatorM γ} {a : γ} {f : γ → List Value}, x u = .ok a u →
      Ends (do return f (← x)) u (fun _ _ => True) Excused :=
    fun hx => Command.excuses (Ends.of_eq (Q := fun _ _ => True) hx trivial) fun _ _ h => h
  have hset : ∀ {i : Nat} {pair v : Value}, pair.Within Nothing →
      MutatorM.setPairField i pair v u = .ok () u := by
    intro i pair v hp
    have hnone : pair? pair u.machine.heap = .ok none := by
      rw [pair?_run (apart u) hp, Arena.pairAt?, hp.ref_none]
      rfl
    exact bind_ok (MutatorM.read_lift hnone)
  have hcollect : ∀ {x : GcM Collector Unit} {f : Unit → List Value},
    x u.machine = Collector.collect u.machine →
      u.machine.heap.size ≠ 1 → Ends (do return f (← MutatorM.operate x)) u
        (fun _ _ => True) Excused := by
    intro x f hx hsize
    exact Command.excuses (hb.collect_ends hx) fun _ _ h he => absurd (h.2 he) hsize
  obtain ⟨s, hs⟩ := id hb
  cases cmd with
  | allocate bytes => exact (hb.refuses (by omega)).excuses hf hcount
  | char c => exact Refuses.excuses (.bind (hb.refuses_of_lt (by decide) (by decide))) hf trivial
  | string t | symbol t => exact (hb.text_refuses _ _).excuses hf hcount
  | cons a b =>
    exact (hb.cons_refuses (hops a (by simp [Command.operands]))
      (hops b (by simp [Command.operands]))).excuses hf trivial
  | lambda entry params variadic =>
    exact Refuses.excuses (.bind (hb.refuses_of_lt (by decide) (by decide))) hf trivial
  | duplicate v =>
    exact hread (MutatorM.duplicate_immediate (hops v (by simp [Command.operands])).ref_none)
  | setCar pair v | setCdr pair v =>
    exact hread (f := fun _ => []) (hset (hops pair (by simp [Command.operands])))
  | push v =>
    refine roots_excused (y := pushRoot v) (f := fun _ => []) ?_ fun _ => pushRoot_ne_trap hf.1
    rw [Collector.push, bind_ok GcM.run_own, hs.own]
  | pop =>
    refine roots_excused (y := popRoot) ?_ fun _ => popRoot_ne_trap
    rw [Collector.pop, bind_ok GcM.run_own, hs.own]
  | writeRoot slot v =>
    obtain ⟨old, hold⟩ := Option.ne_none_iff_exists'.mp hslot
    refine roots_excused (y := setRoot slot v) (f := fun _ => []) ?_
      fun _ h => by cases h.symm.trans (setRoot_run hold)
    rw [Collector.writeRoot, bind_ok GcM.run_own, hs.own]
  | define name v =>
    exact (hb.define_refuses name (hops v (by simp [Command.operands]))).excuses
      (f := fun _ => []) hf hcount
  | collect => exact hcollect (f := fun _ => []) rfl fun h => (hsweep h).1 rfl
  | collectFull =>
    refine hcollect (f := fun _ => []) ?_ fun h => (hsweep h).2 rfl
    rw [Collector.collectFull, bind_ok GcM.run_own, hs.own]
  | setStress on =>
    exact .of_eq (a := []) (t := { u with machine := { u.machine with stress := on } }) rfl trivial
  | peek depth => exact .of_eq (a := (u.peek? depth).toList) (t := u) rfl trivial
  | car v =>
    exact hread (MutatorM.read_lift (car?_run (apart u) (hops v (by simp [Command.operands]))))
  | cdr v =>
    exact hread (MutatorM.read_lift (cdr?_run (apart u) (hops v (by simp [Command.operands]))))
  | lookup name =>
    have hrun := MutatorM.lookup?_eq name u
    have hb' : u.bucket name < u.machine.roots.globals.size := hf.bucket_lt (Text.encode name)
    have hh := Array.getElem?_eq_getElem hb'
    exact hread (MutatorM.gc_lift (hrun.trans (bind_ok (hb.entryAt?_run hh name))))

end MarkSweep

/-! ## Sessions -/

/-- A word counts the bytes that the call asks for. -/
def Call.Countable (u : Mutator) : Call → Prop
  | command cmd => cmd.Countable u
  | store _ _ _ => True

/-- The call asks for a collection. -/
def Call.Collects : Call → Prop
  | command .collect | command .collectFull => True
  | _ => False

/-- Nothing that a program may ask of the heap traps, unless a refusal cannot be told in bytes. If
the heap is `cramped`, collections are excepted. -/
structure TrapFree (u : Mutator) (H : Nat → Prop) (cramped : Prop) : Prop where
  call : ∀ call : Call, call.Valid u H → call.Countable u → ¬ (cramped ∧ call.Collects) → ∀ u',
    call.run u ≠ .error .trap u'
  walkable : u.Walkable
  reachable : ∃ listed, u.reachable = .ok listed
  tag : ∀ v, u.Allows H v → ∃ t, u.view (tag? v) = .ok t
  text : ∀ v, u.Allows H v → ∃ t, u.view (text? v) = .ok t
  char : ∀ v, u.Allows H v → ∃ c, u.view (char? v) = .ok c
  list : ∀ v, u.Allows H v → (∃ items, u.view (list? v) = .ok items) ∨
    u.view (list? v) = .error .endless

/-- The first field of `TrapFree` is for commands; a store is one of them. -/
theorem TrapFree.of_command {hd : Nat} {cramped : Prop} (hap : Apart hd u.machine.heap S)
    (hr : u.machine.roots.Within S) (hallow : ∀ {v}, u.Allows H v → v.Within S) (hw : u.Walkable)
    (hcmd : ∀ cmd, (∀ v ∈ cmd.operands, u.Allows H v) → cmd.InRange u → cmd.Countable u →
      ¬ (cramped ∧ (Call.command cmd).Collects) → ∀ u', cmd.run u ≠ .error .trap u') :
      TrapFree u H cramped := by
  obtain ⟨listed, hlisted, -⟩ := Mutator.reachable_run fun o ho =>
    hap.traceable (ho.mem_of_closed hap.closed fun _ => hr.refers)
  refine ⟨fun call hv hcount hx u' hrun => ?_, hw, ⟨listed, hlisted⟩,
    fun v hv => ⟨_, tag?_run hap (hallow hv)⟩,
    fun v hv => ⟨_, text?_run hap (hallow hv)⟩, fun v hv =>
      char?_run hap (hallow hv), fun v hv => list?_ends hap (hallow hv)⟩
  cases call with
  | command cmd => exact hcmd cmd hv.1 hv.2 hcount hx u' hrun
  | store owner field v =>
    obtain ⟨pair, hops, hcar | hcdr⟩ := hv.store hap hallow
    · exact hcmd (.setCar pair v) hops trivial trivial And.right u' (hcar.trans hrun)
    · exact hcmd (.setCdr pair v) hops trivial trivial And.right u' (hcdr.trans hrun)

/-- The heap of a strategy that obeys the laws. -/
theorem Steady.trapFree (hl : Laws Collector.operations I N) (hst : Steady I u H) (hf : u.Framed)
    (hw : u.Walkable) (cramped : Prop) :
    TrapFree u H cramped := by
  obtain ⟨S, hi, hH⟩ := hst.good
  refine .of_command (hl.apart hi) (hl.roots hi) (fun hv => hv.within hl hi hH) hw
    fun cmd hops hslot hcount _ u' => ?_
  exact (cmd.run_orderly).not_trap hst.clean
    (cmd.run_excused hl hi hst.clean hst.parked hf
      (fun v hv => (hops v hv).within hl hi hH) hslot hcount)

namespace MarkSweep

/-- A mark-sweep heap without room. -/
theorem Barren.trapFree (hb : Barren u) (hH : ∀ o, ¬ H o) (hu : u.poisoned = false)
    (hf : u.Framed) :
    TrapFree u H (u.machine.heap.size = 1) := by
  refine .of_command (Barren.apart u) hb.within (fun hv => hb.allows hH hv) hb.legible.walkable
    fun cmd hops hslot hcount hx u' => ?_
  refine (cmd.run_orderly).not_trap hu
    (hb.run_excused hf cmd (fun v hv => hb.allows hH (hops v hv)) hslot hcount
      fun hsize => ⟨?_, ?_⟩)
  · rintro rfl
    exact hx ⟨hsize, trivial⟩
  · rintro rfl
    exact hx ⟨hsize, trivial⟩

end MarkSweep

theorem Session.clean {c : Config} (hs : Session c u H) : u.poisoned = false := by
  cases hs with
  | start hu =>
    obtain ⟨hash, rfl, -⟩ := hu.eq
    rfl
  | step _ _ _ hu => exact hu

/-- A poisoned heap that is legible. -/
theorem Wreck.trapFree (hw : Wreck u H) : TrapFree u H False := by
  obtain ⟨S, hleg, hH⟩ := hw.legible
  obtain ⟨hd, hap⟩ := hleg.apart
  have hallow : ∀ {v}, u.Allows H v → v.Within S :=
    fun hv => hv.within_closed hap.closed hleg.roots hH
  refine .of_command hap hleg.roots hallow hleg.walkable fun cmd hops _ _ _ u' hrun => ?_
  have hread := cmd.run_reads hleg hw.poisoned hw.framed fun v hv => hallow (hops v hv)
  exact hread.error hrun rfl

/-- After any session no call traps, and the whole heap can be read, but for one case: a collection
on a mark-sweep arena of one word. A heap that a call poisons refuses what could change it, and can
be read as before, with whatever the program still holds on to. -/
theorem session_trap_free {c : Config} (hs : Session c u H) (hcap : c.stackCapacity < tableLimit) :
    TrapFree u H (c.strategy = .markSweep ∧ c.heapWords = 1) ∧
    (∀ (u' : Mutator) (call : Call), u'.poisoned = true → call.IsGuarded → call.run u' = .error
    (.failed .poisoned) u') ∧
    ∀ (u' : Mutator) (H' : Nat → Prop), Aftermath u H u' H' → TrapFree u' H' False := by
  have hf := hs.framed hcap
  refine ⟨?_, fun u' call hu' hg => Call.refused hu' hg, fun u' H' h => (h.wreck hs hf).trapFree⟩
  rcases hs.governed with ⟨I, N, hl, hb, hst⟩ | ⟨hc, hb, hsize, hH⟩
  · obtain ⟨S, hi, -⟩ := hst.good
    exact hst.trapFree hl hf (Legible.walkable (hb.legible hi)) _
  · have hfree := hb.trapFree hH hs.clean hf
    rw [hsize] at hfree
    simpa [hc] using hfree

/-- With a pair that only the program knows of, a collection does not trap. A request that is too
large poisons the heap, and the pair can still be read. -/
theorem held_pair_trap_free : fiveBlockHeap.stackCapacity < tableLimit ∧ ∃ u H,
    Session fiveBlockHeap u H ∧ H 1 ∧
    TrapFree u H (fiveBlockHeap.strategy = .markSweep ∧ fiveBlockHeap.heapWords = 1) ∧
    (∀ u', (Call.command .collect).run u ≠ .error .trap u') ∧ ∃ u' H', Aftermath u H u' H' ∧ H' 1 ∧
    TrapFree u' H' False ∧ ∀ u'', (Call.command (.car (.ofRef 1))).run u' ≠ .error .trap u'' := by
  let u0 := Mutator.ofConfig fiveBlockHeap
  let u1 := (Command.cons .nil .nil).after u0
  let u2 := (Command.allocate 1000).after u1
  have hlisted : u1.objects = .ok [(1, 4)] := eq_ok_of_toOption (by decide +kernel)
  have hlisted' : u2.objects = .ok [(1, 4)] := eq_ok_of_toOption (by decide +kernel)
  have hs := (Session.start (c := fiveBlockHeap) (u := u0) ⟨_, rfl⟩).plain (.cons .nil .nil)
    [.ofRef 1] (by decide +kernel) (by decide +kernel)
    (by decide)
  obtain ⟨hfree, -, hafter⟩ := session_trap_free hs (by decide)
  have hpair : u0.held u1 (fun _ => False) [.ofRef 1] 1 :=
    ⟨.inr ⟨_, List.mem_singleton.mpr rfl, rfl⟩, _, 4, hlisted, by simp⟩
  have hstop : (Command.allocate 1000).run u1 =
      .error (.failed (.objectTooLarge 1008 160)) u2 :=
    Command.run_of_fault (by decide +kernel)
  have hvalid : (Call.command (.allocate 1000)).Valid u1 (u0.held u1 (fun _ => False) [.ofRef 1]) :=
    ⟨by simp [Command.operands], trivial⟩
  have hwreck := Aftermath.failure hvalid hstop (by decide +kernel)
  have hkept : u1.held u2 (u0.held u1 (fun _ => False) [.ofRef 1]) [] 1 :=
    ⟨.inl ⟨by decide +kernel, hpair⟩, _, 4, hlisted', by simp⟩
  have hfree' := hafter _ _ hwreck
  refine ⟨by decide, u1, _, hs, hpair, hfree, ?_, u2, _, hwreck, hkept, hfree', ?_⟩
  · exact hfree.call (.command .collect) ⟨by simp [Command.operands], trivial⟩ trivial fun h =>
      absurd h.1.2 (by decide)
  · refine hfree'.call (.command (.car (.ofRef 1))) ⟨?_, trivial⟩ trivial fun h => h.1.elim
    intro v hv
    rw [List.mem_singleton.mp hv]
    exact Value.ofRef_within (by decide) (by decide) (.root (.inr hkept))

/-- A heap of one word. -/
def oneWordArena : Config :=
  { strategy := .markSweep, heapSize := 8, stackCapacity := 8, globalTableSize := 4 }

/-- A collection on a new heap of one word traps. -/
theorem oneWordArena_traps : Session oneWordArena (Mutator.ofConfig oneWordArena) (fun _ => False) ∧
    (Call.command .collect).Valid (Mutator.ofConfig oneWordArena) (fun _ => False) ∧
    ∃ u', (Call.command .collect).run (Mutator.ofConfig oneWordArena) = .error .trap u' :=
  ⟨.start ⟨_, rfl⟩, ⟨by simp [Command.operands], trivial⟩, _, rfl⟩

end Reclaim
