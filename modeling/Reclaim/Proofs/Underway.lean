import Reclaim.Proofs.Upkeep

/-!
# Heaps at work

A session looks at a heap between two commands. Inside of a command there are further moments:
operands are parked for an allocation and taken back after it, `define` makes one object after the
other, and the collector runs its cycles, in a collection that was asked for or in an allocation.
`Underway` has all these moments, for the collectors that move objects, and it goes on from each of
them; so a minor or a major collection may also come between any two commands.

Results:
* `Underway.good`: the invariant of the collector holds at every moment.
* `Underway.upholds`: so does what its operations and its cycles keep up.
-/

namespace Reclaim

/-- One cycle of a collector that moves objects. With generations, a minor cycle may promote at any
age: an allocation that finds the nursery full of survivors promotes all of them. -/
inductive Collector.Cycle (m : Machine Collector) : Machine Collector → Prop where
  | full {s : Semispace} {m₁ : Machine Semispace} : m.own = .semispace s →
      Semispace.evacuate (m.withOwn s) = .ok () m₁ →
      Cycle m (m₁.withOwn (.semispace m₁.own))
  | sliding {s : Sliding} {m₁ : Machine Sliding} : m.own = .sliding s →
      Sliding.collect (m.withOwn s) = .ok () m₁ →
      Cycle m (m₁.withOwn (.sliding m₁.own))
  | minor {g : Generational} {m₁ : Machine Generational} (threshold : Nat) :
      m.own = .generational g →
      Generational.evacuate threshold (m.withOwn g) = .ok () m₁ →
        Cycle m (m₁.withOwn (.generational m₁.own))
  | major {g : Generational} {m₁ : Machine Generational} : m.own = .generational g →
      Generational.collectMajor (m.withOwn g) = .ok () m₁ →
        Cycle m (m₁.withOwn (.generational m₁.own))

/-- The heap `u` at some moment of its work, and the objects `H` that the program still holds on
to. -/
inductive Underway (c : Config) : Mutator → (Nat → Prop) → Prop where
  | idle {u : Mutator} {H : Nat → Prop} : Session c u H → Underway c u H
  | command {u u' : Mutator} {H : Nat → Prop} {cmd : Command} {vs : List Value} : Underway c u H →
      cmd.Creates ∨ u.machine.roots.parked = 0 → (∀ v ∈ cmd.operands, u.Allows H v) →
        cmd.Gives u vs u' → u'.poisoned = false →
      Underway c u' (u.held u' H vs)
  | park {u u' : Mutator} {H : Nat → Prop} {v : Value} : Underway c u H → u.Allows H v →
      (liftM (Reclaim.park v) : MutatorM Unit) u = .ok () u' → Underway c u' H
  | unpark {u u' : Mutator} {H : Nat → Prop} {v : Value} : Underway c u H →
      1 ≤ u.machine.roots.parked →
      (liftM Reclaim.unpark : MutatorM Value) u = .ok v u' → Underway c u' fun o =>
        H o ∨ v.ref? = some o
  | cycle {u : Mutator} {m' : Machine Collector} {H : Nat → Prop} : Underway c u H →
      Collector.Cycle u.machine m' →
      Underway c (u.withMachine m') fun _ => False

namespace Underway

variable {I : Machine Collector → (Nat → Prop) → Prop} {N : Machine Collector → Nat → Nat → Prop}
  {K : Machine Collector → Prop}
  {c : Config} {u : Mutator} {H : Nat → Prop}

/-- The invariant holds at every moment, and what the program holds on to is there. -/
theorem good (hl : Laws Collector.operations I N)
    (hcycle : ∀ {m m' S}, I m S → Collector.Cycle m m' → ∃ S', I m' S')
    (hstart : ∀ u, c.Makes u → ∃ S, I u.machine S) (h : Underway c u H) :
    u.poisoned = false ∧ ∃ S, I u.machine S ∧ ∀ o, H o → S o := by
  induction h with
  | idle hs =>
    have hst := hs.steady hl hstart
    exact ⟨hst.clean, hst.good⟩
  | command _ hpark hops hg hu' ih =>
    obtain ⟨hu, S, hi, hH⟩ := ih
    exact ⟨hu', (hg.leaves hl hi hu hpark (fun v hv => (hops v hv).within hl hi hH) hu').good hH⟩
  | park _ hv hrun ih =>
    obtain ⟨hu, S, hi, hH⟩ := ih
    obtain ⟨hlim, rfl⟩ := MutatorM.eq_of_park hrun
    exact ⟨hu, S, hl.park hi (hv.within hl hi hH) hlim, hH⟩
  | unpark _ hpark hrun ih =>
    obtain ⟨hu, S, hi, hH⟩ := ih
    obtain ⟨hback, rfl⟩ := MutatorM.eq_of_unpark hrun
    rw [Array.back?_eq_getElem?] at hback
    obtain ⟨hsize, -⟩ := Array.getElem?_eq_some_iff.mp hback
    refine ⟨hu, S, hl.unpark hi hpark (by omega), fun o ho => ?_⟩
    rcases ho with ho | ho
    · exact hH o ho
    · exact (hl.roots hi (.stack _) _ hback o ho).2
  | cycle _ hc ih =>
    obtain ⟨hu, S, hi, -⟩ := ih
    obtain ⟨S', hi'⟩ := hcycle hi hc
    exact ⟨hu, S', hi', fun _ h => h.elim⟩

/-- What the operations and the cycles of the collector keep up holds at every moment. -/
theorem upholds (hl : Laws Collector.operations I N) (hk : Upkeep I K)
    (hcycle : ∀ {m m' S}, I m S → Collector.Cycle m m' → ∃ S', I m' S')
    (hkeep : ∀ {m m' S}, I m S → K m → Collector.Cycle m m' → K m')
    (hstart : ∀ u, c.Makes u → (∃ S, I u.machine S) ∧ K u.machine) (h : Underway c u H) :
    K u.machine := by
  have hnew : ∀ u, c.Makes u → ∃ S, I u.machine S := fun u hc => (hstart u hc).1
  induction h with
  | idle hs => exact hs.upholds hl hk hstart
  | command hprev hpark hops hg hu' ih =>
    obtain ⟨hu, S, hi, hH⟩ := hprev.good hl hcycle hnew
    have hend := Command.run_upholds hl hk hi hu ih _ hpark fun v hv => (hops v hv).within hl hi hH
    rcases hg with hrun | ⟨f, hrun, -⟩
    · exact hend.ok hrun
    · refine (hend.error hrun f rfl).resolve_left ?_
      rw [hu']
      exact Bool.false_ne_true
  | park _ _ hrun ih =>
    obtain ⟨-, rfl⟩ := MutatorM.eq_of_park hrun
    exact hk.congr ih rfl rfl
  | unpark _ _ hrun ih =>
    obtain ⟨-, rfl⟩ := MutatorM.eq_of_unpark hrun
    exact hk.congr ih rfl rfl
  | cycle hprev hc ih =>
    obtain ⟨-, S, hi, -⟩ := hprev.good hl hcycle hnew
    exact hkeep hi ih hc

end Underway

end Reclaim
