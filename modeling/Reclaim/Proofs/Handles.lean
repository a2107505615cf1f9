import Reclaim.Proofs.Session
import Reclaim.Proofs.Housed

/-!
# Handles across operations that allocate nothing

A program may hold on to the address of an object that no root reaches. Operations that allocate
nothing and are no collection of their own should leave such an object where it is. `Lasting` says
what they do leave: every object in its place, unless there was a collection all the same, and then
at least what the roots reached.

`Gentle` lists the four operations of a strategy that are concerned. For a strategy without a write
barrier they write into one object or one root and nowhere else (`Layout.Free.gentle`).

Results:
* `Layout.Free.gentle`: strategies that trace, without a write barrier.
* `Gentle.hosted`: from a strategy to the collector that follows it.
* `Command.run_lasting`: one command.
-/

namespace Reclaim

variable {σ α β : Type}

/-- However `x` ends, the state satisfies `P`. -/
abbrev Anyhow (x : EStateM Fault σ α) (s : σ) (P : σ → Prop) : Prop :=
  Ends x s (fun _ => P) fun _ => P

namespace Anyhow

variable {x : EStateM Fault σ α} {k : α → EStateM Fault σ β} {s : σ} {P Q : σ → Prop}

theorem mono (hx : Anyhow x s P) (h : ∀ s', P s' → Q s') : Anyhow x s Q :=
  (Ends.mono hx fun _ => h).mono_error fun _ => h

/-- What follows a computation that leaves the state alone. -/
theorem bind_same (hx : Anyhow x s (· = s)) (h : P s) (hk : ∀ a, Anyhow (k a) s P) :
    Anyhow (x >>= k) s P := by
  refine (Ends.mono_error hx fun _ _ he => ?_).bind fun a s' he => ?_
  · rw [he]
    exact h
  · rw [he]
    exact hk a

end Anyhow

/-- A reader leaves the machine alone. -/
theorem read_anyhow (x : ReadM α) (m : Machine σ) : Anyhow (liftM x : GcM σ α) m (· = m) := by
  cases hx : x m.heap with
  | ok a => exact .of_eq (read_lift hx) rfl
  | error e => exact .of_error (read_lift_error hx) rfl

/-- A computation on the roots leaves everything else alone. -/
theorem roots_anyhow (x : RootsM α) (m : Machine σ) :
    Anyhow (liftM x : GcM σ α) m (fun m' => ∃ r, m' = m.withRoots r) := by
  cases hx : x m.roots with
  | ok a r => exact .of_eq (roots_lift hx) ⟨r, rfl⟩
  | error e r => exact .of_error (roots_lift_error hx) ⟨r, rfl⟩

/-! ## What lasts -/

/-- Every listed object stays in its place, unless there was a collection, and then the ones that
the roots reached do. There is none if the machine is `calm`. -/
structure Lasting (ops : Operations σ) (calm : Prop) (m m' : Machine σ) : Prop where
  listed : ∃ before after, ops.objects m.own m.heap = .ok before ∧
    ops.objects m'.own m'.heap = .ok after ∧
    after.Sublist before ∧ (∀ o, m.Reachable o → Held after o) ∧
    (m'.stats.collections = m.stats.collections → after = before)
  quiet : calm → m'.stats.collections = m.stats.collections

/-- The operations that allocate nothing leave objects in place. -/
structure Gentle (ops : Operations σ) (I : Machine σ → (Nat → Prop) → Prop)
    (calm : Machine σ → Prop) : Prop where
  writeField : ∀ {m S o field v}, I m S → m.roots.parked = 0 → S o → m.heap.tag o = some .pair →
    field = o + 1 ∨ field = o + 2 →
    v.Within S → Anyhow (ops.writeField o field v) m (Lasting ops (calm m) m)
  writeRoot : ∀ {m S slot v}, I m S → m.roots.parked = 0 → v.Within S →
    Anyhow (ops.writeRoot slot v) m (Lasting ops (calm m) m)
  push : ∀ {m S v}, I m S → m.roots.parked = 0 → v.Within S →
    Anyhow (ops.push v) m (Lasting ops (calm m) m)
  pop : ∀ {m S}, I m S → m.roots.parked = 0 → Anyhow ops.pop m (Lasting ops (calm m) m)

section Lasting

variable {ops : Operations σ} {I : Machine σ → (Nat → Prop) → Prop}
  {N : Machine σ → Nat → Nat → Prop} {m m' : Machine σ}
  {S : Nat → Prop} {calm : Prop}

/-- The same objects are listed as before. -/
theorem Laws.lasting (hl : Laws ops I N) (hi : I m S)
    (hobj : ops.objects m'.own m'.heap = ops.objects m.own m.heap) (hstats : m'.stats = m.stats) :
    Lasting ops calm m m' := by
  obtain ⟨bs, hbs, hmem⟩ := hl.objects hi
  refine ⟨⟨bs, bs, hbs, hobj.trans hbs, .refl bs, fun o ho => hmem o ?_, fun _ => rfl⟩,
    fun _ => by rw [hstats]⟩
  exact ho.mem (hl.apart hi).closed (hl.roots hi)

theorem Laws.lasting_roots (hl : Laws ops I N) (hi : I m S) (r : Roots) :
    Lasting ops calm m (m.withRoots r) := hl.lasting hi rfl rfl

end Lasting

/-! ## Strategies without a write barrier -/

section Plain

variable {allocate : Nat → GcM σ Nat} {collect collectFull : GcM σ Unit}
  {writeField : Nat → Nat → Value → GcM σ Unit}
  {objects : σ → ReadM (List (Nat × Nat))} {header : Nat} {I : Machine σ → (Nat → Prop) → Prop}
  {N : Machine σ → Nat → Nat → Prop}

/-- Where roots are plain, only stores into fields have to be looked at. -/
theorem Gentle.of_plain (hl : Laws
      (.plain allocate collect collectFull writeField objects header) I N)
      (hstore : ∀ {m S o field v}, I m S → S o → m.heap.tag o = some .pair → field = o + 1 ∨
        field = o + 2 → v.Within S → Anyhow (writeField o field v) m
        (Lasting (.plain allocate collect collectFull writeField objects header) True m)) :
    Gentle (.plain allocate collect collectFull writeField objects header) I fun _ => True where
  writeField hi _ ho ht hf hv := hstore hi ho ht hf hv
  writeRoot hi _ _ := (roots_anyhow _ _).mono fun _ ⟨r, hr⟩ => hr ▸ hl.lasting_roots hi r
  push hi _ _ := (roots_anyhow _ _).mono fun _ ⟨r, hr⟩ => hr ▸ hl.lasting_roots hi r
  pop hi _ := (roots_anyhow _ _).mono fun _ ⟨r, hr⟩ => hr ▸ hl.lasting_roots hi r

/-- A strategy without a write barrier. -/
theorem Layout.Free.gentle {hd : Nat} {J : Machine σ → List (Nat × Nat) → Prop}
    (hL : Layout.Free (.plain allocate collect collectFull
      (fun _ field v => storeValue field v) objects hd) hd J)
      (hl : Laws (.plain allocate collect collectFull
        (fun _ field v => storeValue field v) objects hd) (Kept J) N) :
    Gentle (.plain allocate collect collectFull (fun _ field v => storeValue field v) objects hd)
    (Kept J) fun _ => True := by
  refine .of_plain hl ?_
  rintro m S o field v ⟨blocks, hJ, rfl⟩ ho ht hf hv
  obtain ⟨hrun, hJ'⟩ := hL.store hJ ho ht hf hv
  exact .of_eq (heap_lift hrun)
    (hl.lasting ⟨blocks, hJ, rfl⟩ ((hL.objects hJ').trans (hL.objects hJ).symm) rfl)

end Plain

/-! ## Collectors -/

section Hosted

open Collector

variable {ops : Operations σ} {I : Machine σ → (Nat → Prop) → Prop} {calm : Machine σ → Prop}
  {calm' : Machine Collector → Prop}
  {wrap : σ → Collector} {m : Machine Collector} {s : σ}

theorem Hosts.anyhow {x : GcM σ α} {y : GcM Collector α} {P : Machine Collector → Prop}
    (he : y m = within wrap s x m)
    (hx : Anyhow x (m.withOwn s) fun m' => P (m'.withOwn (wrap m'.own))) : Anyhow y m P := by
  unfold Anyhow Ends within at *
  rw [he]
  cases h : x (m.withOwn s) with
  | ok a m' =>
    rw [h] at hx
    exact hx
  | error e m' =>
    rw [h] at hx
    exact hx

theorem Lasting.hosted {m' : Machine σ} (hh : Hosts wrap ops) (hs : m.own = wrap s)
    (hcalm : calm' m → calm (m.withOwn s)) (h : Lasting ops (calm (m.withOwn s)) (m.withOwn s) m') :
    Lasting Collector.operations (calm' m) m (m'.withOwn (wrap m'.own)) := by
  obtain ⟨before, after, hb, ha, hrest⟩ := h.listed
  have hbefore : Collector.objects m.own m.heap = .ok before := by
    rw [hs, hh.objects]
    exact hb
  have hafter : Collector.objects (wrap m'.own) m'.heap = .ok after := by
    rw [hh.objects]
    exact ha
  exact ⟨⟨before, after, hbefore, hafter, hrest⟩, fun hc => h.quiet (hcalm hc)⟩

/-- What a strategy leaves in place, the collector that follows it does. -/
theorem Gentle.hosted (hg : Gentle ops I calm) (hh : Hosts wrap ops)
    (hcalm : ∀ {m : Machine Collector} {s}, m.own = wrap s → calm' m → calm (m.withOwn s)) :
    Gentle Collector.operations (Hosted wrap I) calm' where
  writeField := by
    rintro m S o field v ⟨s, hs, hi⟩ hpark ho ht hf hv
    exact Hosts.anyhow (hh.writeField o field v hs)
      ((hg.writeField hi hpark ho ht hf hv).mono fun _ h => h.hosted hh hs (hcalm hs))
  writeRoot := by
    rintro m S slot v ⟨s, hs, hi⟩ hpark hv
    exact Hosts.anyhow (hh.writeRoot slot v hs)
      ((hg.writeRoot hi hpark hv).mono fun _ h => h.hosted hh hs (hcalm hs))
  push := by
    rintro m S v ⟨s, hs, hi⟩ hpark hv
    exact Hosts.anyhow (hh.push v hs)
      ((hg.push hi hpark hv).mono fun _ h => h.hosted hh hs (hcalm hs))
  pop := by
    rintro m S ⟨s, hs, hi⟩ hpark
    exact Hosts.anyhow (hh.pop hs) ((hg.pop hi hpark).mono fun _ h => h.hosted hh hs (hcalm hs))

end Hosted

/-! ## Commands -/

/-- The name is bound. -/
def Mutator.Binds (u : Mutator) (name : String) : Prop := ∃ w m,
    MutatorM.lookup? name u.machine = .ok (some w) m

/-- The command allocates, or collects. -/
def Command.MayCollect (u : Mutator) : Command → Prop
  | allocate _ | char _ | string _ | symbol _ | cons _ _ | lambda _ _ _ | collect | collectFull =>
  True
  | duplicate v => v.isRef = true
  | define name _ => ¬ u.Binds name
  | _ => False

section Commands

variable {I : Machine Collector → (Nat → Prop) → Prop} {N : Machine Collector → Nat → Nat → Prop}
  {S : Nat → Prop} {u : Mutator}
  {calm : Machine Collector → Prop} {P : Mutator → Prop}

namespace MutatorM

theorem gc_anyhow {x : GcM Collector α} (hx : Anyhow x u.machine fun m => P (u.withMachine m)) :
    Anyhow (liftM x : MutatorM α) u P := by
  unfold Anyhow Ends at *
  rw [gc_lift_eq]
  cases h : x u.machine with
  | ok a m => rw [h] at hx; exact hx
  | error e m => rw [h] at hx; exact hx

/-- A name that is bound has an entry. -/
theorem entry_of_binds {name : String} (hb : u.Binds name) :
    ∃ entry m, entryAt? (u.bucket name) name u.machine = .ok (some entry) m := by
  obtain ⟨w, m', hrun⟩ := hb
  rw [lookup?_eq, lookupAt?] at hrun
  cases he : entryAt? (u.bucket name) name u.machine with
  | ok r m =>
    rw [bind_ok he] at hrun
    cases r with
    | some entry => exact ⟨entry, m, rfl⟩
    | none => cases hrun
  | error e m =>
    rw [bind_error he] at hrun
    cases hrun

/-- A poisoned heap refuses, and a failure poisons it. -/
theorem operate_anyhow {x : GcM Collector α} (hu : u.poisoned = false)
    (hx : Anyhow x u.machine fun m => ∀ poisoned, P ⟨m, poisoned⟩) : Anyhow (operate x) u P := by
  refine .step (check_run hu) ?_
  unfold Anyhow Ends guarded at *
  rw [gc_lift_eq]
  cases h : x u.machine with
  | ok a m =>
    rw [h] at hx
    exact hx _
  | error e m =>
    rw [h] at hx
    cases e <;> exact hx _

end MutatorM

/-- A result is passed on. -/
theorem Anyhow.returns {x : EStateM Fault σ α} {f : α → β} {s : σ} {Q : σ → Prop}
    (hx : Anyhow x s Q) :
    Anyhow (do return f (← x)) s Q := hx.bind fun _ _ h => .pure h

/-- One command that does not allocate. -/
theorem Command.run_lasting (hl : Laws Collector.operations I N)
    (hg : Gentle Collector.operations I calm) (hi : I u.machine S) (hu : u.poisoned = false)
    (hpark : u.machine.roots.parked = 0) {cmd : Command} (hcmd : ¬ cmd.MayCollect u)
    (hops : ∀ v ∈ cmd.operands, v.Within S) :
    Anyhow cmd.run u fun u' =>
    Lasting Collector.operations (calm u.machine) u.machine u'.machine := by
  have hsame : Lasting Collector.operations (calm u.machine) u.machine u.machine :=
    hl.lasting hi rfl rfl
  have hread : ∀ {γ : Type} (x : ReadM γ), Anyhow (liftM x : MutatorM γ) u (· = u) := fun x =>
    MutatorM.gc_anyhow ((read_anyhow x _).mono fun _ h => by rw [h]; rfl)
  have hset : ∀ {i : Nat} {pair v : Value}, i = 1 ∨ i = 2 → pair.Within S → v.Within S →
    Anyhow (MutatorM.setPairField i pair v) u
      fun u' => Lasting Collector.operations (calm u.machine) u.machine u'.machine := by
    intro i pair v hio hp hv
    cases ho : u.machine.heap.pairAt? pair with
    | none => exact .of_eq (MutatorM.setPairField_absent hl hi hp ho) hsame
    | some o =>
      obtain ⟨hr, ht⟩ := Arena.pairAt?_eq_some.mp ho
      have hpair : pair? pair u.machine.heap = .ok (some o) := by
        rw [pair?_run (hl.apart hi) hp, ho]
      refine .step (MutatorM.read_lift hpair) (MutatorM.operate_anyhow hu ?_)
      exact (hg.writeField hi hpark (hp o hr).2 ht (by omega) hv).mono fun _ h _ => h
  have hfound : ∀ name, Anyhow (liftM (MutatorM.lookup? name) : MutatorM (Option Value))
      u (· = u) := by
    intro name
    have hrun := MutatorM.lookup?_eq name u
    refine MutatorM.gc_anyhow ?_
    rcases MutatorM.lookupAt?_ends hl hi (u.bucket name) name with ⟨r, hr, -⟩ | ⟨e, -, he⟩
    · exact .of_eq (hrun.trans hr) rfl
    · exact .of_error (hrun.trans he) rfl
  cases cmd with
  | duplicate v =>
    have href : v.isRef = false := by simpa [MayCollect] using hcmd
    exact .returns (.of_eq (MutatorM.duplicate_immediate (Value.ref?_eq_none href)) hsame)
  | setCar pair v =>
    exact Anyhow.returns (f := fun _ => [])
      (hset (.inl rfl) (hops pair (by simp [operands])) (hops v (by simp [operands])))
  | setCdr pair v =>
    exact Anyhow.returns (f := fun _ => [])
      (hset (.inr rfl) (hops pair (by simp [operands])) (hops v (by simp [operands])))
  | push v =>
    refine Anyhow.returns (f := fun _ => []) (MutatorM.operate_anyhow hu ?_)
    exact (hg.push hi hpark (hops v (by simp [operands]))).mono fun _ h _ => h
  | pop => exact .returns (MutatorM.operate_anyhow hu ((hg.pop hi hpark).mono fun _ h _ => h))
  | writeRoot slot v =>
    refine Anyhow.returns (f := fun _ => []) (MutatorM.operate_anyhow hu ?_)
    exact (hg.writeRoot hi hpark (hops v (by simp [operands]))).mono fun _ h _ => h
  | define name v =>
    refine Anyhow.returns (f := fun _ => []) ?_
    obtain ⟨entry, m, hentry⟩ := MutatorM.entry_of_binds (not_not.mp hcmd)
    refine MutatorM.define_ends ?_
    rw [MutatorM.defineAt_eq]
    refine .step (MutatorM.check_run hu) ?_
    rcases MutatorM.entryAt?_ends hl hi
      (u.bucket name) name with ⟨head, r, hh, hr, hrw⟩ | ⟨e, hne, hr⟩
    · cases hentry.symm.trans hr
      refine .step (MutatorM.gc_lift hr) ?_
      exact hset (.inr rfl) (hrw entry rfl) (hops v (by simp [operands]))
    · cases hentry.symm.trans hr
  | setStress on =>
    refine .of_eq (a := []) (t := { u with machine := { u.machine with stress := on } }) rfl ?_
    exact hl.lasting hi rfl rfl
  | peek depth => exact .of_eq (a := (u.peek? depth).toList) (t := u) rfl hsame
  | car v => exact .returns ((hread _).mono fun _ h => by rw [h]; exact hsame)
  | cdr v => exact .returns ((hread _).mono fun _ h => by rw [h]; exact hsame)
  | lookup name => exact .returns ((hfound name).mono fun _ h => by rw [h]; exact hsame)
  | _ => exact absurd trivial hcmd

end Commands

end Reclaim
