import Reclaim.Proofs.Shortage
import Reclaim.Proofs.Generational.Reserve
import Reclaim.Proofs.Generational.Remembered

/-!
# Exhaustion

A command reports that the heap is exhausted when tenured space is too small for what a collection
promotes, and that has one of two reasons (`Short`). The one is genuine: what the roots reach takes
more words than tenured space has. The other is that the collections before left too little of it:
tenured space holds objects that are garbage by now, and the minor collection promotes before a
major one takes them away. It can only be met with less tenured space left than the nursery holds.

Results:
* `session_exhausts`: every command of a session.
* `clogged_exhausted`, `garbage_exhausts`: a heap that is exhausted with one pair in use.
-/

namespace Reclaim

namespace Generational

/-- The heap `u` may be too small for a collection: the roots reach more than tenured space can
hold, or there is garbage in it, and less of it is left than the nursery holds and than the next
minor collection promotes. -/
def Short (u : Mutator) : Prop := ∃ g listed, u.machine.own = .generational g ∧
    u.objects = .ok listed ∧
  (Outgrown (u.machine.withOwn g) listed ∨
    Stale (u.machine.withOwn g) listed ∧ g.tenured.remaining < g.nursery.used ∧
      Overdrawn (u.machine.withOwn g) listed)

variable {α : Type} {u u' : Mutator} {g : Generational} {young old listed : List (Nat × Nat)}
  {S : Nat → Prop}

theorem outgrown_withOwn : Outgrown (u.machine.withOwn g) listed ↔
    Exceeds listed u.machine.Reachable g.tenured.region.length := Iff.rfl

/-- An operation that wants room only for one of the two reasons. -/
theorem blames_of_wants {x : GcM Collector α} {y : GcM Generational α} (hu : u.poisoned = false)
    (hown : u.machine.own = .generational g) (hg : Good (u.machine.withOwn g) young old S)
    (hxy : x u.machine = Collector.within .generational g y u.machine)
    (hy : Runs y (u.machine.withOwn g) (fun _ _ => True)
      (Wants (u.machine.withOwn g) (young ++ old))) :
    Blames (MutatorM.operate x) u (Short u) := by
  refine (MutatorM.operate_fails
    (F := fun f _ => Wants (u.machine.withOwn g) (young ++ old) f (u.machine.withOwn g)) hu
    (Collector.Hosts.runs hxy hy) fun f _ hf => hf.1).mono_error ?_
  rintro e u' ⟨-, f, rfl, hf⟩ ⟨s, bytes, h⟩
  cases h
  have hobjects : u.objects = .ok (young ++ old) := by
    rw [Mutator.objects, Mutator.view, hown]
    exact hg.inv.objects
  refine ⟨g, young ++ old, hown, hobjects, ?_⟩
  rcases hf.2 s bytes rfl with hout | hover
  · exact .inl hout
  · exact (hg.outgrown_or_stale hover).imp_right fun hstale =>
      ⟨hstale, hg.remaining_lt hover, hover⟩

/-- An operation that never wants room. -/
theorem spared {x : GcM Collector α} {y : GcM Generational α} (hu : u.poisoned = false)
    (hxy : x u.machine = Collector.within .generational g y u.machine)
    (hy : Runs y (u.machine.withOwn g) (fun _ _ => True) fun f _ => f = g.remembered.full) :
    Ends (MutatorM.operate x) u (fun _ _ => True) fun e _ => ¬ Exhausted e := by
  refine (MutatorM.operate_fails (F := fun f _ => f = g.remembered.full) hu
    (Collector.Hosts.runs hxy hy)
    fun f _ hf => hf ▸ rfl).mono_error ?_
  rintro e u' ⟨-, f, rfl, rfl⟩ ⟨s, bytes, h⟩
  cases h

/-- A generational heap falls short for one of the two reasons. -/
theorem suffices_short : Suffices (Collector.Hosted .generational Intact) Short where
  allocate := by
    rintro u S n ⟨g, hown, young, old, hg⟩ hu hcount
    exact blames_of_wants hu hown hg (hosts.allocate n hown)
      (allocate_wants hg ((hosts.countable hown).mp hcount))
  collect := by
    rintro u S ⟨g, hown, young, old, hg⟩ hu
    exact blames_of_wants hu hown hg (hosts.collect hown)
      ((collect_relieves hg).mono fun _ _ _ => trivial)
  collectFull := by
    rintro u S ⟨g, hown, young, old, hg⟩ hu
    exact blames_of_wants hu hown hg (hosts.collectFull hown) (collectFull_wants hg)
  writeField := by
    rintro u S o field v ⟨g, hown, young, old, hg⟩ hu ho ht hf hv
    exact spared hu (hosts.writeField o field v hown)
      (((writeField_runs hg ho ht hf hv).mono fun _ _ _ => trivial).mono_fail fun _ _ h => h.1)
  writeRoot := by
    rintro u S slot old v ⟨g, hown, -⟩ hu hs -
    exact spared hu (hosts.writeRoot slot v hown) (Runs.of_eq (roots_lift (setRoot_run hs)) trivial)
  pop := by
    rintro u S v ⟨g, hown, -⟩ hu hv
    exact spared hu (hosts.pop hown) (Runs.of_eq (roots_lift (popRoot_run hv)) trivial)

/-- A command of a session reports that a generational heap is exhausted only if one on which it
asked for room was short. -/
theorem session_exhausts {c : Config} {H : Nat → Prop} {cmd : Command} {s : Strategy}
    {bytes : UInt64} (hc : c.strategy = .generational) (hs : Session c u H)
    (hops : ∀ v ∈ cmd.operands, u.Allows H v)
    (hrun : cmd.run u = .error (.failed (.heapExhausted s bytes)) u') : ∃ v,
    cmd.Asks u v ∧ Short v :=
  hs.asks (laws.hosted hosts) suffices_short (fun _ hu => start_intact hc hu) hops hrun
    ⟨s, bytes, rfl⟩

/-! ## Exhausted by garbage -/

/-- A small heap, with 18 words of tenured space, that promotes what survives once. -/
def cramped : Config :=
  { strategy := .generational, heapSize := 240, stackCapacity := 4, globalTableSize := 1,
    tenuringThreshold := 1 }

/-- The heap after a new pair was made, at `o`, and pushed. -/
def pushed (u : Mutator) (o : Nat) : Mutator :=
  (Command.push (.ofRef o)).after ((Command.cons .nil .nil).after u)

/-- The heap after the pair was promoted, too. -/
def aged (u : Mutator) (o : Nat) : Mutator := Command.collect.after (pushed u o)

/-- Three pairs fill tenured space. -/
def filled : Mutator := aged (aged (aged (Mutator.ofConfig cramped) 3) 9) 3

/-- They are dropped; then a new one is pushed. -/
def clogged : Mutator := pushed (Command.pop.after (Command.pop.after (Command.pop.after filled))) 9

/-- A new pair can be made at `o`, among the objects of `listed`, and pushed. -/
def Pushable (u : Mutator) (o : Nat) (listed : List (Nat × Nat)) : Prop :=
  (o ≠ 0 ∧ o < 0x2000000000000000 ∧ (o, 6) ∈ listed) ∧
  ((Command.cons .nil .nil).values? u = some [.ofRef o] ∧
    ((Command.cons .nil .nil).after u).poisoned = false ∧
    ((Command.cons .nil .nil).after u).objects.toOption = some listed) ∧
  (Command.push (.ofRef o)).values? ((Command.cons .nil .nil).after u) = some [] ∧
    (pushed u o).poisoned = false

instance (u : Mutator) (o : Nat) (listed : List (Nat × Nat)) : Decidable (Pushable u o listed) :=
  inferInstanceAs (Decidable (_ ∧ _))

theorem session_pushed {c : Config} {H : Nat → Prop} {o : Nat} (hs : Session c u H)
    (listed : List (Nat × Nat)) (h : Pushable u o listed) : ∃ H', Session c (pushed u o) H' := by
  obtain ⟨⟨h0, hlt, hmem⟩, ⟨hcons, hclean, hl⟩, hpush, hclean'⟩ := h
  have h1 := hs.plain (.cons .nil .nil) [.ofRef o] hcons hclean (by decide)
  exact ⟨_, h1.next (.push (.ofRef o)) [] hpush hclean' (by
    simp only [Command.operands, List.mem_singleton, forall_eq]
    exact Mutator.allows_returned h0 hlt hl hmem)⟩

theorem session_aged {c : Config} {H : Nat → Prop} {o : Nat} (hs : Session c u H)
    (listed : List (Nat × Nat)) (h : Pushable u o listed)
    (hcollect : Command.collect.values? (pushed u o) = some [])
    (hclean : (aged u o).poisoned = false) :
    ∃ H', Session c (aged u o) H' := by
  obtain ⟨H', h1⟩ := session_pushed hs listed h
  exact ⟨_, h1.plain .collect [] hcollect hclean (by decide)⟩

theorem session_filled : ∃ H, Session cramped filled H := by
  have h0 : Session cramped (Mutator.ofConfig cramped) _ := .start ⟨_, rfl⟩
  obtain ⟨H1, h1⟩ := session_aged (o := 3) h0 [(3, 6)] (by decide +kernel) (by decide +kernel)
    (by decide +kernel)
  obtain ⟨H2, h2⟩ := session_aged (o := 9) h1 [(9, 6), (15, 6)] (by decide +kernel)
    (by decide +kernel)
    (by decide +kernel)
  exact session_aged h2 [(3, 6), (15, 6), (21, 6)] (by decide +kernel) (by decide +kernel)
    (by decide +kernel)

theorem session_clogged : ∃ H, Session cramped clogged H := by
  obtain ⟨H, h0⟩ := session_filled
  have h1 := h0.plain .pop [.ofRef 27] (by decide +kernel) (by decide +kernel) (by decide)
  have h2 := h1.plain .pop [.ofRef 21] (by decide +kernel) (by decide +kernel) (by decide)
  have h3 := h2.plain .pop [.ofRef 15] (by decide +kernel) (by decide +kernel) (by decide)
  exact session_pushed h3 [(9, 6), (15, 6), (21, 6), (27, 6)] (by decide +kernel)

/-- The collection of `clogged` fails, and so it was short. -/
theorem clogged_exhausted : Command.collect.run clogged
      = .error (.failed (.heapExhausted .generational 48)) (Command.collect.after clogged) ∧
      Short clogged := by
  obtain ⟨H, hs⟩ := session_clogged
  have hrun : Command.collect.run clogged = .error (.failed (.heapExhausted .generational 48))
      (Command.collect.after clogged) :=
    Command.run_of_fault (by decide +kernel)
  obtain ⟨v, hv, hshort⟩ := session_exhausts rfl hs (by simp [Command.operands]) hrun
  have hself : v = clogged := hv
  rw [hself] at hshort
  exact ⟨hrun, hshort⟩

/-- The pair on the stack can be reached, and nothing else. -/
theorem clogged_reachable {o : Nat} : clogged.machine.Reachable o ↔ o = 9 := by
  have hstack : clogged.machine.roots.stack = #[.ofRef 9] := by decide +kernel
  have hglobals : clogged.machine.roots.globals = #[.undef] := by decide +kernel
  have hcar : clogged.machine.heap.value 10 = .nil := by decide +kernel
  have hcdr : clogged.machine.heap.value 11 = .nil := by decide +kernel
  refine ⟨fun ho => ho.mem_of_linked (S := (· = 9)) ?_ ?_, ?_⟩
  · rintro x a rfl - (rfl | rfl)
    · rw [hcar]
      exact .of_not_ref rfl
    · rw [hcdr]
      exact .of_not_ref rfl
  · intro x hx
    have hw : clogged.machine.roots.Within (· = 9) :=
      Roots.within_of_single hstack hglobals (Value.ofRef_within (by decide) (by decide) rfl)
        (.of_not_ref rfl)
    exact hw.refers hx
  · rintro rfl
    exact .root ⟨.stack 0, .ofRef 9, by decide +kernel, by decide⟩

/-- How many words tenured space has. -/
def tenuredWords (u : Mutator) : Nat :=
  match u.machine.own with
  | .generational g => g.tenured.region.length
  | _ => 0

/-- The collection of `clogged` fails, although one pair alone is in use, and tenured space is large
enough for three. -/
theorem garbage_exhausts : ∃ H g, Session cramped clogged H ∧
    Command.collect.run clogged = .error (.failed (.heapExhausted .generational 48))
    (Command.collect.after clogged) ∧
    clogged.machine.own = .generational g ∧ g.tenured.region.length = 18 ∧
    clogged.objects = .ok [(9, 6), (15, 6), (21, 6), (27, 6)] ∧
    (∀ o, clogged.machine.Reachable o ↔ o = 9) ∧
    ¬ Outgrown (clogged.machine.withOwn g) [(9, 6), (15, 6), (21, 6), (27, 6)] := by
  obtain ⟨H, hs⟩ := session_clogged
  obtain ⟨S, ⟨g, hown, -⟩, -⟩ := (hs.steady (laws.hosted hosts) fun _ hu =>
    start_intact rfl hu).good
  have hwords : tenuredWords clogged = 18 := by decide +kernel
  rw [tenuredWords, hown] at hwords
  refine ⟨H, g, hs, Command.run_of_fault (by decide +kernel), hown, hwords, eq_ok_of_toOption
    (by decide +kernel),
    fun _ => clogged_reachable, fun hout => ?_⟩
  have hnine : Exceeds [(9, 6), (15, 6), (21, 6), (27, 6)] (· = 9) 18 :=
    (outgrown_withOwn.mp hout).mono (fun b hb hr => ⟨hb, clogged_reachable.mp hr⟩)
      (Nat.le_of_eq hwords.symm)
  rw [exceeds_iff (by decide)] at hnine
  revert hnine
  decide

end Generational

end Reclaim
