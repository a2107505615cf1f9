import Reclaim.Proofs.Definitions

/-!
# Commands and bindings

No command but a definition changes what names are bound to, as long as it leaves the lists of the
global table alone.

Results:
* `Command.passes`: one command.
-/

namespace Reclaim

namespace Command

variable {α : Type} {I : Machine Collector → (Nat → Prop) → Prop}
  {N : Machine Collector → Nat → Nat → Prop} {S : Nat → Prop}
  {u u' : Mutator} {cmd : Command} {Γ : String → Option Value} {v : Value}

theorem Stops.fails {n : Nat} {e : Fault} (hl : Laws Collector.operations I N) (hi : I u.machine S)
    (hΓ : u.Maps Γ) (hcmd : cmd.rebinds false id Γ = fun name => (Γ name).map (Value.rename id))
    (h : Stops u n e u') : u.Fails cmd Γ e u' := by
  refine h.imp id fun h f hf => ?_
  rw [h.2 f hf]
  exact passes_refl hl hi hΓ hcmd

/-- A command that returns what `x` makes. -/
theorem passes_returns {x : MutatorM α} {f : α → List Value} {Q : α → Mutator → Prop}
    {E : Fault → Mutator → Prop} (hx : Ends x u Q E) (hq : ∀ a u', Q a u' → u.Passes cmd true u' Γ)
    (he : ∀ e u', E e u' → u.Fails cmd Γ e u') :
    Ends (do return f (← x)) u (fun _ u' => u.Passes cmd true u' Γ) (u.Fails cmd Γ) :=
  (hx.mono_error he).bind fun a u' h => .pure (hq a u' h)

theorem filled_passes {ws : List Word} (hl : Laws Collector.operations I N) (hi : I u.machine S)
    (hΓ : u.Maps Γ) (hnone : cmd.operands = [])
    (hcmd : ∀ ρ, cmd.rebinds true ρ Γ = fun name => (Γ name).map (Value.rename ρ))
    (h : MutatorM.MadeOfWords I N u S ws v u') : u.Passes cmd true u' Γ := by
  obtain ⟨-, ρ, S', k, o, -, hk, hm, -⟩ := h
  exact Moved.passes hl hi hm.moved (by omega) hnone hΓ (hcmd ρ)

theorem duplicate_passes (hl : Laws Collector.operations I N) (hi : I u.machine S)
    (hu : u.poisoned = false) (hΓ : u.Maps Γ) (hv : v.Within S) :
    Ends (duplicate v).run u (fun _ u' => u.Passes (.duplicate v) true u' Γ)
    (u.Fails (.duplicate v) Γ) := by
  cases hr : v.ref? with
  | none =>
    refine passes_returns (Ends.of_eq (Q := fun _ u' => u' = u)
      (MutatorM.duplicate_immediate hr) rfl) ?_ fun _ _ h => h
    rintro a u' rfl
    exact passes_refl hl hi hΓ rfl
  | some src =>
    obtain ⟨rfl, -⟩ := hv src hr
    refine passes_returns (MutatorM.duplicate_ends hl hi hu hv hr) ?_ fun _ _ h =>
      Stops.fails hl hi hΓ rfl h
    rintro w u' ⟨-, -, ρ, S', k, o, -, hk, hm, -⟩
    exact hm.moved.passes hl (by omega) (fun o ho => ho)
      (fun o ho => ho.mem (hl.apart hi).closed (hl.roots hi) (by simpa using hv)) hΓ rfl

theorem cons_passes {a b : Value} (hl : Laws Collector.operations I N) (hi : I u.machine S)
    (hu : u.poisoned = false) (hΓ : u.Maps Γ) (ha : a.Within S) (hb : b.Within S) :
    Ends (cons a b).run u (fun _ u' => u.Passes (.cons a b) true u' Γ) (u.Fails (.cons a b) Γ) := by
  refine passes_returns (MutatorM.cons_ends hl hi hu ha hb) ?_ fun _ _ h =>
    Stops.fails hl hi hΓ rfl h
  rintro w u' ⟨-, -, ρ, S', k, o, -, hk, hm, -⟩
  refine hm.moved.passes hl (by omega) (fun o ho => ho)
    (fun o ho => ho.mem (hl.apart hi).closed (hl.roots hi) ?_) hΓ rfl
  simp only [List.mem_cons, List.not_mem_nil, or_false, forall_eq_or_imp, forall_eq]
  exact ⟨ha, hb⟩

/-- A store into a pair that is no link and no entry. -/
theorem setPairField_passes {pair : Value} {i : Nat} (hl : Laws Collector.operations I N)
    (hi : I u.machine S) (hu : u.poisoned = false) (hpark : u.machine.roots.parked = 0)
    (hΓ : u.Maps Γ) (hp : pair.Within S) (hv : v.Within S) (hio : i = 1 ∨ i = 2)
    (hwrites : ∀ o, pair.ref? = some o → cmd.Writes u o i)
    (hapart : ∀ (b : Nat) (head : Value) o, u.machine.roots.globals[b]? = some head →
      pair.ref? = some o → ¬ u.machine.heap.Link head o ∧ ¬ u.machine.heap.Entry head o)
      (hcmd : cmd.rebinds true id Γ = fun name => (Γ name).map (Value.rename id)) :
    Ends (MutatorM.setPairField i pair v) u (fun _ u' => u.Passes cmd true u' Γ)
    (u.Fails cmd Γ) := by
  cases ho : u.machine.heap.pairAt? pair with
  | none => exact .of_eq (MutatorM.setPairField_absent hl hi hp ho) (passes_refl hl hi hΓ hcmd)
  | some o =>
    obtain ⟨hr, ht⟩ := Arena.pairAt?_eq_some.mp ho
    refine ((MutatorM.setPairField_ends hl hi hu hpark hp hv hio ho).mono ?_).mono_error
      fun _ _ h => .inl h
    rintro - u' ⟨-, S', hleft, hst, hroots⟩
    refine passes_of_words (W := fun x j => x = o ∧ j = i) hl hi hleft.inv hleft.subset
      (stored_words hl hi hleft.subset (hp o hr).2 ht hio hst) ?_ ?_ ?_ (by rw [hroots]) ?_ hΓ hcmd
    · rintro x j ⟨rfl, rfl⟩
      exact ⟨ht, hio⟩
    · rintro x j ⟨rfl, rfl⟩
      exact hwrites x hr
    · exact .of_eq (by rw [hroots])
    · rintro b head hh x j ⟨rfl, rfl⟩
      exact hapart b head x hh hr

theorem push_passes (hl : Laws Collector.operations I N) (hi : I u.machine S)
    (hu : u.poisoned = false) (hpark : u.machine.roots.parked = 0) (hΓ : u.Maps Γ)
    (hv : v.Within S) :
    Ends (push v).run u (fun _ u' => u.Passes (.push v) true u' Γ) (u.Fails (.push v) Γ) := by
  refine passes_returns (f := fun _ => []) (MutatorM.push_ends hl hi hu hpark hv) ?_ ?_
  · rintro - u' ⟨-, -, hi', hsame, hroots, -, -⟩
    exact passes_of_same hl hi hi' (fun _ h => h) hsame (hroots ▸ .push _ v)
      (by rw [hroots]; rfl) hΓ rfl
  · rintro e u' ⟨-, rfl⟩
    exact .inr fun _ _ => passes_refl hl hi hΓ rfl

theorem pop_passes (hl : Laws Collector.operations I N) (hi : I u.machine S)
    (hu : u.poisoned = false) (hpark : u.machine.roots.parked = 0) (hΓ : u.Maps Γ) :
    Ends pop.run u (fun _ u' => u.Passes .pop true u' Γ) (u.Fails .pop Γ) := by
  cases hv : u.machine.roots.stack.back? with
  | none =>
    refine (Ends.of_error (Q := fun _ _ => False) (MutatorM.pop_empty hl hi hu hv) ?_).bind
      fun _ _ h => h.elim
    exact .inr fun _ _ => passes_refl hl hi hΓ rfl
  | some v =>
    refine passes_returns (MutatorM.pop_ends hl hi hu hpark hv) ?_ fun _ _ h => .inl h
    rintro w u' ⟨-, -, S', hleft, hsame, hroots⟩
    exact passes_of_same hl hi hleft.inv hleft.subset hsame (hroots ▸ .pop _)
      (by rw [hroots]; rfl) hΓ rfl

/-- A slot of the stack is written. -/
theorem writeRoot_passes (hl : Laws Collector.operations I N) (hi : I u.machine S)
    (hu : u.poisoned = false) (hpark : u.machine.roots.parked = 0) (hΓ : u.Maps Γ) (j : Nat)
    (hv : v.Within S) :
    Ends (writeRoot (.stack j) v).run u (fun _ u' => u.Passes (.writeRoot (.stack j) v) true u' Γ)
      (u.Fails (.writeRoot (.stack j) v) Γ) := by
  cases hs : u.machine.roots.get? (.stack j) with
  | none =>
    obtain ⟨u', hrun⟩ := MutatorM.writeRoot_absent hl hi hu hs hv
    refine (Ends.of_error (Q := fun _ _ => False) hrun ?_).bind fun _ _ h => h.elim
    exact .inr fun f hf => by cases hf
  | some old =>
    refine passes_returns (f := fun _ => []) (MutatorM.writeRoot_ends hl hi hu hpark hs hv) ?_
      fun _ _ h => .inl h
    rintro - u' ⟨-, S', hleft, hsame, hroots⟩
    exact passes_of_same hl hi hleft.inv hleft.subset hsame (hroots ▸ .set _ _ v)
      (by rw [hroots]; rfl) hΓ rfl

theorem collect_passes {x : MutatorM Unit} (hl : Laws Collector.operations I N) (hi : I u.machine S)
    (hΓ : u.Maps Γ) (hx : Ends x u
      (fun _ u' => u'.poisoned = false ∧ ∃ ρ S' k, k ≤ 3 ∧ Moved I u.machine u'.machine S S' ρ k)
      fun _ u' => u'.poisoned = true) (hnone : cmd.operands = [])
        (hcmd : ∀ ρ, cmd.rebinds true ρ Γ = fun name => (Γ name).map (Value.rename ρ)) :
    Ends (do x; return ([] : List Value)) u (fun _ u' => u.Passes cmd true u' Γ)
    (u.Fails cmd Γ) := by
  refine passes_returns (f := fun _ => []) hx ?_ fun _ _ h => .inl h
  rintro - u' ⟨-, ρ, S', k, hk, hmv⟩
  exact hmv.passes hl hi (by omega) hnone hΓ (hcmd ρ)

/-- A command that only reads. -/
theorem reads_passes {x : MutatorM (Option Value)} {r : Option Value}
    (hl : Laws Collector.operations I N) (hi : I u.machine S) (hΓ : u.Maps Γ) (hx : x u = .ok r u)
    (hcmd : cmd.rebinds true id Γ = fun name => (Γ name).map (Value.rename id)) :
    Ends (do return (← x).toList) u (fun _ u' => u.Passes cmd true u' Γ) (u.Fails cmd Γ) := by
  refine passes_returns (Ends.of_eq (Q := fun _ u' => u' = u) hx rfl) ?_ fun _ _ h => h
  rintro - u' rfl
  exact passes_refl hl hi hΓ hcmd

/-- One command. -/
theorem passes (hl : Laws Collector.operations I N) (hi : I u.machine S) (hu : u.poisoned = false)
    (hpark : u.machine.roots.parked = 0) (hΓ : u.Maps Γ) (cmd : Command)
    (hops : ∀ v ∈ cmd.operands, v.Within S) (hapart : ¬ cmd.Meddles u)
    (hshort : ∀ name v, cmd = .define name v → (Text.encode name).length < 0x100000000000000) :
    Ends cmd.run u (fun _ u' => u.Passes cmd true u' Γ) (u.Fails cmd Γ) := by
  cases cmd with
  | allocate bytes =>
    refine passes_returns (MutatorM.allocateWords_ends hl hi hu (by omega)) ?_ fun _ _ h =>
      h.imp id MutatorM.Uncounted.silent
    rintro o u' ⟨-, ρ, S', k, hk, hm, -⟩
    exact Moved.passes hl hi hm.moved (by omega) rfl hΓ rfl
  | char c =>
    exact passes_returns ((MutatorM.char_constructs c).ends_of_lt hl hi hu (by decide))
      (fun _ _ h => filled_passes hl hi hΓ rfl (fun _ => rfl) h)
      fun _ _ h => .inl h
  | string s =>
    exact passes_returns ((MutatorM.text_constructs (.inl rfl) (Text.encode s)).ends hl hi hu)
      (fun _ _ h => filled_passes hl hi hΓ rfl (fun _ => rfl) h) fun _ _ h =>
        h.imp id MutatorM.Uncounted.silent
  | symbol s =>
    exact passes_returns ((MutatorM.text_constructs (.inr rfl) (Text.encode s)).ends hl hi hu)
      (fun _ _ h => filled_passes hl hi hΓ rfl (fun _ => rfl) h) fun _ _ h =>
        h.imp id MutatorM.Uncounted.silent
  | cons a b =>
    exact cons_passes hl hi hu hΓ (hops a (by simp [operands])) (hops b (by simp [operands]))
  | lambda entry params variadic =>
    exact passes_returns ((MutatorM.lambda_constructs entry params variadic).ends_of_lt hl hi hu
      (by simp [tableLimit]))
      (fun _ _ h => filled_passes hl hi hΓ rfl (fun _ => rfl) h) fun _ _ h => .inl h
  | duplicate v => exact duplicate_passes hl hi hu hΓ (hops v (by simp [operands]))
  | setCar pair v =>
    have hwrites : ∀ o, pair.ref? = some o → (setCar pair v).Writes u o 1 := fun o ho => ⟨ho, rfl⟩
    refine passes_returns (f := fun _ => [])
      (setPairField_passes hl hi hu hpark hΓ (hops pair (by simp [operands]))
      (hops v (by simp [operands])) (.inl rfl) hwrites (fun b head o hh ho => ?_) rfl)
        (fun _ _ h => h) fun _ _ h => h
    exact not_or.mp fun h => hapart ⟨b, o, head, hh, ho, h⟩
  | setCdr pair v =>
    have hwrites : ∀ o, pair.ref? = some o → (setCdr pair v).Writes u o 2 := fun o ho => ⟨ho, rfl⟩
    refine passes_returns (f := fun _ => [])
      (setPairField_passes hl hi hu hpark hΓ (hops pair (by simp [operands]))
      (hops v (by simp [operands])) (.inr rfl) hwrites (fun b head o hh ho => ?_) rfl)
        (fun _ _ h => h) fun _ _ h => h
    exact not_or.mp fun h => hapart ⟨b, o, head, hh, ho, h⟩
  | push v => exact push_passes hl hi hu hpark hΓ (hops v (by simp [operands]))
  | pop => exact pop_passes hl hi hu hpark hΓ
  | writeRoot slot v =>
    cases slot with
    | stack j => exact writeRoot_passes hl hi hu hpark hΓ j (hops v (by simp [operands]))
    | global b => exact absurd trivial hapart
  | define name v =>
    exact passes_returns (f := fun _ => [])
      (MutatorM.define_ends (defineAt_passes hl hi hu hpark hΓ (hops v (by simp [operands]))
      (hshort name v rfl))) (fun _ _ h => h) fun _ _ h => h
  | collect => exact collect_passes hl hi hΓ (MutatorM.collect_ends hl hi hu) rfl fun _ => rfl
  | collectFull =>
    exact collect_passes hl hi hΓ (MutatorM.collectFull_ends hl hi hu) rfl fun _ => rfl
  | setStress on =>
    refine .of_eq (a := []) (t := { u with machine := { u.machine with stress := on } }) rfl ?_
    exact passes_of_same hl hi (hl.congr hi rfl rfl rfl) (fun _ h => h) (.refl _ _)
      (.of_eq rfl) rfl hΓ rfl
  | peek depth => exact .of_eq (a := (u.peek? depth).toList) (t := u) rfl (passes_refl hl hi hΓ rfl)
  | car v =>
    exact reads_passes hl hi hΓ
      (MutatorM.read_lift (car?_run (hl.apart hi) (hops v (by simp [operands])))) rfl
  | cdr v =>
    exact reads_passes hl hi hΓ
      (MutatorM.read_lift (cdr?_run (hl.apart hi) (hops v (by simp [operands])))) rfl
  | lookup name =>
    have hfound : MutatorM.lookup? name u.machine = .ok (Γ name) u.machine :=
      (MutatorM.lookup?_eq name u).trans (hΓ.lookup_run hl hi name)
    exact reads_passes hl hi hΓ (MutatorM.gc_lift hfound) rfl

end Command

end Reclaim
