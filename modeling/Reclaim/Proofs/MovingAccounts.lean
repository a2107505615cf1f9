import Reclaim.Proofs.Cycles
import Reclaim.Proofs.Demand
import Reclaim.Proofs.Generational.Remembered
import Reclaim.Proofs.Semispace.Operations
import Reclaim.Proofs.Sliding.Operations

/-!
# Accounts of the moving strategies

Copying, mark-compact and generational heaps hand out blocks from bump allocators, just as large as
was asked for, and a collection measures how far these have moved back. What it leaves in use are
copies, each as large as its original, so it never leaves more than there was; in a minor collection
what the nursery loses and what tenured space gains come out even.

Results:
* `Semispace.paced`, `Sliding.paced`, `Generational.paced`: each cycle of a strategy measures what
  it took out of use.
* `moving_heap_balances`: what was handed out and not reclaimed is what the collector lists, at
  every moment.
-/

namespace Reclaim

/-- Blocks side by side, from the bottom of a bump allocator to its top, are all that it has handed
out. -/
theorem Stacked.used {hd : Nat} {space : Bump} {bs : List (Nat × Nat)}
    (h : Stacked hd space.region.first bs space.top) :
    space.used = (bs.map Prod.snd).sum := by
  have hend := h.end_eq
  unfold Bump.used
  omega

theorem Stacked.different {hd lo hi : Nat} {bs : List (Nat × Nat)} (h : Stacked hd lo bs hi) :
    bs.Nodup := List.Nodup.of_map Prod.fst h.nodup

/-- Blocks that are packed take no more than before. -/
theorem sum_targets_le {hd top : Nat} {ms : List Nat} {bs : List (Nat × Nat)} :
    (((targets hd top (marked ms bs)).map Copy.block).map Prod.snd).sum ≤
    (bs.map Prod.snd).sum := by
  have hsizes := congrArg (List.map Prod.snd) (targets_old hd top (marked ms bs))
  rw [List.map_map] at hsizes ⊢
  have hsub : (marked ms bs).Sublist bs := List.filter_sublist
  rw [show (targets hd top (marked ms bs)).map (Prod.snd ∘ Copy.block) =
    (marked ms bs).map Prod.snd from hsizes]
  exact (hsub.map Prod.snd).sum_le_sum fun _ _ => Nat.zero_le _

/-! ## Copying -/

namespace Semispace

variable {m : Machine Semispace} {blocks : List (Nat × Nat)} {n : Nat}

def inUse (s : Semispace) : Nat := s.space.used

theorem Good.inUse_eq (hg : Good m blocks) : inUse m.own = (blocks.map Prod.snd).sum :=
  hg.stacked.used

/-- Copies are as large as their originals. -/
theorem Copied.inUse_le {m' : Machine Semispace} {copies : List (Nat × Nat)} {ρ : Nat → Nat}
    (hg : Good m blocks) (hc : Copied m m' blocks copies ρ) : inUse m'.own ≤ inUse m.own := by
  rw [inUse, hc.inv.stacked.used, hg.inUse_eq]
  refine sum_le_of_origins (ρ := ρ) hc.inv.stacked.different fun b hb => ?_
  obtain ⟨o, -, ho, he⟩ := (hc.image b.1 b.2).mp hb
  exact ⟨o, ho, he.symm⟩

/-- What a cycle subtracts. -/
def spent (_ : CycleKind) (s s' : Semispace) : Nat × Nat := (s.space.used, s'.space.used)

/-- The one kind of cycle. -/
def Ran (m m' : Machine Semispace) : Prop := evacuate m = .ok () m'

theorem evacuate_cycles (hg : Good m blocks) :
    Runs evacuate m (fun _ m' => (∃ copies, Good m' copies) ∧ Ran m m' ∧
    Recorded inUse spent m m') fun _ _ => False := by
  refine (((evacuate_records hg).and (evacuate_moves hg)).ran.mono ?_).mono_fail fun _ _ h => h.1
  rintro ⟨⟩ m' ⟨⟨⟨⟨copies, ρ, hc⟩, hstats⟩, copies', -, hg', -⟩, hran⟩
  have hle := hc.inUse_le hg
  refine ⟨⟨copies', hg'⟩, hran, .full, _, _, rfl, hle, ?_, hstats⟩
  simp only [inUse] at hle ⊢
  omega

theorem handOut_counts (hg : Good m blocks) (hcount : (n + headerWords) * wordBytes < wordValues) :
    Runs (handOut n) m
    (fun _ m' => m'.stats = m.stats ∧ inUse m'.own = inUse m.own + (n + headerWords))
    fun _ _ => True := by
  refine handOut_by hcount hg.inside (fun _ _ => trivial) fun _ => ⟨rfl, ?_⟩
  have hle := hg.stacked.le
  simp only [inUse, taken, Bump.used, Machine.withHeap_own, Machine.withOwn_own, headerWords]
  omega

theorem allocate_chain (hg : Good m blocks) (hcount : (n + headerWords) * wordBytes < wordValues) :
    Runs (allocate n) m
    (fun _ m' => ∃ m₁, Relation.ReflTransGen Ran m m₁ ∧ m'.stats = m₁.stats ∧ inUse m'.own =
      inUse m₁.own + (n + headerWords))
    fun _ _ => True := by
  let P (_ : Nat) (m₁ : Machine Semispace) : Prop := (∃ blocks₁, Good m₁ blocks₁) ∧
    Relation.ReflTransGen Ran m m₁
  refine allocate_by (P := P) hcount ⟨⟨blocks, hg⟩, .refl⟩ ?_ (fun _ _ => trivial) ?_
  · exact ((evacuate_cycles hg).mono fun _ _ h => ⟨h.1, .single h.2.1⟩).mono_fail
      fun _ _ h => h.elim
  · rintro k m₁ - ⟨⟨blocks₁, hg₁⟩, hturn⟩
    exact (handOut_counts hg₁ hcount).mono fun _ _ h => ⟨m₁, hturn, h⟩

/-- A copying heap measures its cycles. -/
theorem paced : Paced operations (Kept Good) inUse spent Ran := by
  have hcollect : ∀ {m S}, Kept Good m S → Runs evacuate m (fun _ m' => Relation.TransGen Ran m m')
      fun _ _ => True := by
    rintro m S ⟨blocks, hg, -⟩
    exact ((evacuate_cycles hg).mono fun _ _ h => .single h.2.1).mono_fail fun _ _ _ => trivial
  refine ⟨?_, ?_, ?_, hcollect, hcollect⟩
  · rintro m S ⟨blocks, hg, -⟩
    exact ⟨blocks, hg.objects, (Mutator.wordsOf_eq_sum blocks).trans hg.inUse_eq.symm⟩
  · rintro m m' S ⟨blocks, hg, -⟩ hran
    obtain ⟨⟨copies, hg'⟩, -, hrec⟩ := (evacuate_cycles hg).ok hran
    exact ⟨⟨_, copies, hg', rfl⟩, hrec⟩
  · rintro m S n ⟨blocks, hg, -⟩ - hcount
    exact allocate_chain hg hcount

theorem audited : Audited operations (Kept Good) inUse (fun _ => headerWords) 0 := by
  refine paced.audited ?_
  rintro m S o field v ⟨blocks, hg, rfl⟩ ho ht hf -
  have hin := (hg.housed rfl).objects_apart.inside o ho
  have hp := Arena.payload_of_pair ht
  exact Runs.of_eq (heap_lift (storeValue_run (by omega))) rfl

theorem drives : Paced.Drives Collector.semispace Ran := by
  intro m m' s hs
  constructor
  · rintro (⟨hs', hrun⟩ | ⟨hs', -⟩ | ⟨-, hs', -⟩ | ⟨hs', -⟩)
    · cases hs.symm.trans hs'
      exact ⟨_, hrun, rfl⟩
    all_goals cases hs.symm.trans hs'
  · rintro ⟨m₁, hrun, rfl⟩
    exact .full hs hrun

end Semispace

/-! ## Mark-compact -/

namespace Sliding

variable {m : Machine Sliding} {blocks : List (Nat × Nat)} {n : Nat}

def inUse (s : Sliding) : Nat := s.space.used

theorem Good.inUse_eq (hg : Good m blocks) : inUse m.own = (blocks.map Prod.snd).sum :=
  hg.inv.stacked.used

/-- Objects move together. -/
theorem Compacted.inUse_le {m' : Machine Sliding} {ms : List Nat} (hg : Good m blocks)
    (hc : Compacted m m' blocks ms) :
    inUse m'.own ≤ inUse m.own := by
  rw [inUse, hc.inv.stacked.used, hg.inUse_eq]
  exact sum_targets_le

/-- What a cycle subtracts. -/
def spent (_ : CycleKind) (s s' : Sliding) : Nat × Nat := (s.space.used, s'.space.used)

/-- The one kind of cycle. -/
def Ran (m m' : Machine Sliding) : Prop := collect m = .ok () m'

theorem collect_cycles (hg : Good m blocks) :
    Runs collect m (fun _ m' => (∃ blocks', Good m' blocks') ∧ Ran m m' ∧
    Recorded inUse spent m m') fun _ _ => True := by
  refine (((collect_records hg.inv.filled).and (collect_moves hg)).ran.mono ?_).mono_fail
    fun _ _ _ => trivial
  rintro ⟨⟩ m' ⟨⟨⟨⟨ms, hc⟩, hstats⟩, blocks', -, hg', -⟩, hran⟩
  have hle := hc.inUse_le hg
  refine ⟨⟨blocks', hg'⟩, hran, .full, _, _, rfl, hle, ?_, hstats⟩
  simp only [inUse] at hle ⊢
  omega

theorem handOut_counts (hg : Good m blocks) (hcount : (n + headerWords) * wordBytes < wordValues) :
    Runs (handOut n) m
    (fun _ m' => m'.stats = m.stats ∧ inUse m'.own = inUse m.own + (n + headerWords))
    fun _ _ => True := by
  refine handOut_by hcount hg.inv.inside (fun _ _ => trivial) fun _ => ⟨rfl, ?_⟩
  have hle := hg.inv.stacked.le
  simp only [inUse, taken, Bump.used, Machine.withHeap_own, Machine.withOwn_own, headerWords]
  omega

theorem allocate_chain (hg : Good m blocks) (hcount : (n + headerWords) * wordBytes < wordValues) :
    Runs (allocate n) m
    (fun _ m' => ∃ m₁, Relation.ReflTransGen Ran m m₁ ∧ m'.stats = m₁.stats ∧ inUse m'.own =
      inUse m₁.own + (n + headerWords))
    fun _ _ => True := by
  let P (_ : Nat) (m₁ : Machine Sliding) : Prop := (∃ blocks₁, Good m₁ blocks₁) ∧
    Relation.ReflTransGen Ran m m₁
  refine allocate_by (P := P) hcount ⟨⟨blocks, hg⟩, .refl⟩ ?_ (fun _ _ => trivial) ?_
  · exact (collect_cycles hg).mono fun _ _ h => ⟨h.1, .single h.2.1⟩
  · rintro k m₁ - ⟨⟨blocks₁, hg₁⟩, hturn⟩
    exact (handOut_counts hg₁ hcount).mono fun _ _ h => ⟨m₁, hturn, h⟩

/-- A compacting heap measures its cycles. -/
theorem paced : Paced operations (Kept Good) inUse spent Ran := by
  have hcollect : ∀ {m S}, Kept Good m S → Runs collect m (fun _ m' => Relation.TransGen Ran m m')
      fun _ _ => True := by
    rintro m S ⟨blocks, hg, -⟩
    exact (collect_cycles hg).mono fun _ _ h => .single h.2.1
  refine ⟨?_, ?_, ?_, hcollect, hcollect⟩
  · rintro m S ⟨blocks, hg, -⟩
    exact ⟨blocks, hg.inv.filled.objects, (Mutator.wordsOf_eq_sum blocks).trans hg.inUse_eq.symm⟩
  · rintro m m' S ⟨blocks, hg, -⟩ hran
    obtain ⟨⟨blocks', hg'⟩, -, hrec⟩ := (collect_cycles hg).ok hran
    exact ⟨⟨_, blocks', hg', rfl⟩, hrec⟩
  · rintro m S n ⟨blocks, hg, -⟩ - hcount
    exact allocate_chain hg hcount

theorem audited : Audited operations (Kept Good) inUse (fun _ => headerWords) 0 := by
  refine paced.audited ?_
  rintro m S o field v ⟨blocks, hg, rfl⟩ ho ht hf -
  have hin := hg.housed.objects_apart.inside o ho
  have hp := Arena.payload_of_pair ht
  exact Runs.of_eq (heap_lift (storeValue_run (by omega))) rfl

theorem drives : Paced.Drives Collector.sliding Ran := by
  intro m m' s hs
  constructor
  · rintro (⟨hs', -⟩ | ⟨hs', hrun⟩ | ⟨-, hs', -⟩ | ⟨hs', -⟩)
    · cases hs.symm.trans hs'
    · cases hs.symm.trans hs'
      exact ⟨_, hrun, rfl⟩
    all_goals cases hs.symm.trans hs'
  · rintro ⟨m₁, hrun, rfl⟩
    exact .sliding hs hrun

end Sliding

/-! ## Generations -/

namespace Generational

variable {m : Machine Generational} {young old : List (Nat × Nat)} {S : Nat → Prop}
  {n threshold : Nat}

def inUse (g : Generational) : Nat := g.nursery.used + g.tenured.used

theorem Good.inUse_eq (hg : Good m young old S) :
    inUse m.own = ((young ++ old).map Prod.snd).sum := by
  rw [inUse, hg.inv.young_stacked.used, hg.inv.old_stacked.used, List.map_append, List.sum_append]

/-- Survivors and promoted objects together are no larger than the nursery was. -/
theorem Evacuated.survivors_le {m' : Machine Generational} {survivors promoted : List (Nat × Nat)}
    {ρ : Nat → Nat} (hc : Evacuated m m' young old survivors promoted threshold S ρ) :
    ((survivors ++ promoted).map Prod.snd).sum ≤ (young.map Prod.snd).sum := by
  have hold : promoted.Nodup := (List.nodup_append.mp hc.inv.old_stacked.different).2.1
  have hnd : (survivors ++ promoted).Nodup := by
    refine List.nodup_append.mpr ⟨hc.inv.young_stacked.different, hold, ?_⟩
    rintro b hb c hc' rfl
    exact hc.inv.young_ne_old hb (List.mem_append_right old hc') rfl
  refine sum_le_of_origins (ρ := ρ) hnd fun b hb => ?_
  obtain ⟨o, ho, -, he⟩ := hc.origin b (List.mem_append.mp hb)
  exact ⟨o, ho, he⟩

/-- What a cycle subtracts. What a minor cycle promotes it keeps. -/
def spent (kind : CycleKind) (g g' : Generational) : Nat × Nat :=
  if kind = .minor then (g.nursery.used, g'.nursery.used + (g'.tenured.used - g.tenured.used))
    else (g.tenured.used, g'.tenured.used)

/-- The two kinds of cycle. -/
inductive Ran (m m' : Machine Generational) : Prop where
  | minor (threshold : Nat) : evacuate threshold m = .ok () m' → Ran m m'
  | major : collectMajor m = .ok () m' → Ran m m'

/-- What the nursery loses and tenured space gains come out even. -/
theorem evacuate_cycles (hg : Good m young old S) : Runs (evacuate threshold) m (fun _ m' =>
    (∃ young' old' S', Good m' young' old' S') ∧ Ran m m' ∧ Recorded inUse spent m m')
      fun _ _ => True := by
  refine ((evacuate_records hg.inv).ran.mono ?_).mono_fail fun _ _ _ => trivial
  rintro ⟨⟩ m' ⟨⟨⟨survivors, promoted, ρ, hc⟩, hstats⟩, hran⟩
  have hle := hc.survivors_le
  have hten : m'.own.tenured.used = m.own.tenured.used + (promoted.map Prod.snd).sum := by
    rw [hc.inv.old_stacked.used, hg.inv.old_stacked.used, List.map_append, List.sum_append]
  have hyoung := hg.inv.young_stacked.used
  have hsurv := hc.inv.young_stacked.used
  rw [List.map_append, List.sum_append] at hle
  refine ⟨⟨_, _, _, (hc.moved hg).1⟩, .minor threshold hran, .minor, _, _, rfl, ?_, ?_, hstats⟩
  · omega
  · simp only [inUse]
    omega

theorem collectMajor_cycles (hg : Good m young old S) : Runs collectMajor m (fun _ m' =>
    (∃ young' old' S', Good m' young' old' S') ∧ Ran m m' ∧ Recorded inUse spent m m')
      fun _ _ => True := by
  refine ((collectMajor_records hg.inv).ran.mono ?_).mono_fail fun _ _ _ => trivial
  rintro ⟨⟩ m' ⟨⟨⟨ms, hc⟩, hstats⟩, hran⟩
  have hle : m'.own.tenured.used ≤ m.own.tenured.used := by
    rw [hc.inv.old_stacked.used, hg.inv.old_stacked.used]
    exact sum_targets_le
  refine ⟨⟨_, _, _, (hc.moved hg).1⟩, .major hran, .major, _, _, rfl, hle, ?_, hstats⟩
  simp only [inUse, hc.nursery]
  omega

theorem collect_chain (hg : Good m young old S) : Runs collect m (fun _ m' =>
    (∃ young' old' S', Good m' young' old' S') ∧ Relation.TransGen Ran m m') fun _ _ => True := by
  unfold collect
  refine (evacuate_cycles hg).bind ?_
  rintro - m₁ ⟨⟨young₁, old₁, S₁, hg₁⟩, hran, -⟩
  refine Runs.step GcM.run_own ?_
  cases hfit : m₁.own.tenured.fits m₁.own.nursery.region.length with
  | true =>
    simp only [Bool.not_true, Bool.false_eq_true, if_false]
    exact Runs.pure ⟨⟨_, _, _, hg₁⟩, .single hran⟩
  | false =>
    simp only [Bool.not_false, if_true]
    exact (collectMajor_cycles hg₁).mono fun _ _ h => ⟨h.1, .tail (.single hran) h.2.1⟩

theorem collectFull_chain (hg : Good m young old S) :
    Runs collectFull m (fun _ m' => Relation.TransGen Ran m m') fun _ _ => True := by
  unfold collectFull
  refine (evacuate_cycles hg).bind ?_
  rintro - m₁ ⟨⟨young₁, old₁, S₁, hg₁⟩, hran, -⟩
  exact (collectMajor_cycles hg₁).mono fun _ _ h => .tail (.single hran) h.2.1

theorem handOut_counts (hg : Good m young old S)
    (hcount : (n + headerWords) * wordBytes < wordValues) : Runs (handOut n) m
    (fun _ m' => m'.stats = m.stats ∧ inUse m'.own = inUse m.own + (n + headerWords))
    fun _ _ => True := by
  refine handOut_by hcount hg.nursery_inside (fun _ _ => trivial) fun _ => ⟨rfl, ?_⟩
  have hle := hg.inv.young_stacked.le
  simp only [inUse, taken, Bump.used, Machine.withHeap_own, Machine.withOwn_own, headerWords]
  omega

/-- An allocation runs a regular collection at most, and then a forced cycle that promotes all
survivors. -/
theorem allocate_chain (hg : Good m young old S)
    (hcount : (n + headerWords) * wordBytes < wordValues) : Runs (allocate n) m
    (fun _ m' => ∃ m₁, Relation.ReflTransGen Ran m m₁ ∧ m'.stats = m₁.stats ∧ inUse m'.own =
      inUse m₁.own + (n + headerWords))
    fun _ _ => True := by
  let P (_ : Nat) (m₁ : Machine Generational) : Prop := (∃ young₁ old₁ S₁, Good m₁ young₁ old₁ S₁) ∧
    Relation.ReflTransGen Ran m m₁
  refine allocate_by (P := P) hcount ⟨⟨young, old, S, hg⟩, .refl⟩ ?_ ?_ (fun _ _ => trivial) ?_
  · exact (collect_chain hg).mono fun _ _ h => ⟨0, by decide, h.1, h.2.to_reflTransGen⟩
  · rintro k m₁ - ⟨⟨young₁, old₁, S₁, hg₁⟩, hturn⟩
    exact (evacuate_cycles hg₁).mono fun _ _ h => ⟨h.1, hturn.tail h.2.1⟩
  · rintro k m₁ - ⟨⟨young₁, old₁, S₁, hg₁⟩, hturn⟩
    exact (handOut_counts hg₁ hcount).mono fun _ _ h => ⟨m₁, hturn, h⟩

/-- A generational heap measures its cycles. -/
theorem paced : Paced operations Intact inUse spent Ran := by
  refine ⟨?_, ?_, ?_, ?_, ?_⟩
  · rintro m S ⟨young, old, hg⟩
    exact ⟨young ++ old, hg.inv.objects, (Mutator.wordsOf_eq_sum _).trans hg.inUse_eq.symm⟩
  · rintro m m' S ⟨young, old, hg⟩ (⟨threshold, hran⟩ | hran)
    · obtain ⟨⟨_, _, _, hg'⟩, -, hrec⟩ := (evacuate_cycles hg).ok hran
      exact ⟨⟨_, _, _, hg'⟩, hrec⟩
    · obtain ⟨⟨_, _, _, hg'⟩, -, hrec⟩ := (collectMajor_cycles hg).ok hran
      exact ⟨⟨_, _, _, hg'⟩, hrec⟩
  · rintro m S n ⟨young, old, hg⟩ - hcount
    exact allocate_chain hg hcount
  · rintro m S ⟨young, old, hg⟩
    exact (collect_chain hg).mono fun _ _ h => h.2
  · rintro m S ⟨young, old, hg⟩
    exact collectFull_chain hg

theorem audited : Audited operations Intact inUse (fun _ => headerWords) 0 := by
  refine paced.audited ?_
  rintro m S o field v ⟨young, old, hg⟩ ho ht hf hv
  refine ((writeField_runs hg ho ht hf hv).mono ?_).mono_fail fun _ _ _ => trivial
  rintro - m' ⟨hg', -, -, -, hstats⟩
  rw [Machine.books, Machine.books, hstats, hg'.inUse_eq, hg.inUse_eq]

theorem drives : Paced.Drives Collector.generational Ran := by
  intro m m' s hs
  constructor
  · rintro (⟨hs', -⟩ | ⟨hs', -⟩ | ⟨threshold, hs', hrun⟩ | ⟨hs', hrun⟩)
    · cases hs.symm.trans hs'
    · cases hs.symm.trans hs'
    · cases hs.symm.trans hs'
      exact ⟨_, .minor threshold hrun, rfl⟩
    · cases hs.symm.trans hs'
      exact ⟨_, .major hrun, rfl⟩
  · rintro ⟨m₁, (⟨threshold, hrun⟩ | hrun), rfl⟩
    · exact .minor threshold hs hrun
    · exact .major hs hrun

end Generational

/-! ## Heaps at work -/

/-- Copying, mark-compact and generational heaps, at every moment of their work: what was handed out
and not reclaimed is what the collector lists. In each cycle that may come next, be it on request or
inside of an allocation, no subtraction clips, and the bytes measured as live are those listed after
it. -/
theorem moving_heap_balances {c : Config} {u : Mutator} {H : Nat → Prop}
    (hc : c.strategy = .copying ∨ c.strategy = .markCompact ∨ c.strategy = .generational)
    (hw : Underway c u H) : u.Measures := by
  have hown : ∀ u, c.Makes u →
      u.machine.own = (Collector.build c (Arena.ofBytes c.heapSize)).1 := by
    intro u hu
    obtain ⟨hash, rfl, -⟩ := hu.eq
    rfl
  rcases hc with hc | hc | hc
  · refine Semispace.paced.measures Semispace.audited Semispace.laws Semispace.hosts
      Semispace.drives (fun _ _ _ => rfl)
      (fun _ => rfl) (fun _ => Semispace.start_kept hc)
        (fun u hu => ⟨.ofWords (Arena.ofBytes c.heapSize).size, ?_, Nat.sub_self _⟩) hw
    rw [hown u hu, Collector.build, hc]
  · refine Sliding.paced.measures Sliding.audited Sliding.laws Sliding.hosts Sliding.drives
      (fun _ _ _ => rfl)
      (fun _ => rfl) (fun _ => Sliding.start_kept hc)
        (fun u hu => ⟨.build c (Arena.ofBytes c.heapSize).size, ?_, Nat.sub_self _⟩) hw
    rw [hown u hu, Collector.build, hc]
  · refine Generational.paced.measures Generational.audited Generational.laws Generational.hosts
      Generational.drives (fun _ _ _ => rfl)
      (fun _ => rfl) (fun _ => Generational.start_intact hc)
        (fun u hu => ⟨.build c (Arena.ofBytes c.heapSize).size, ?_, ?_⟩) hw
    · rw [hown u hu, Collector.build, hc]
    · simp [Generational.inUse, Generational.build, Bump.used, Bump.empty]

/-- A nursery of two pairs. -/
def smallGenerations : Config :=
  { strategy := .generational, heapSize := 512, stackCapacity := 4, globalTableSize := 1 }

/-- The first pair is pushed, the second one is dropped, and the nursery is full. -/
def smallGenerationsFull : Mutator :=
  (Command.cons .nil .nil).after
    ((Command.push (.ofRef 3)).after
      ((Command.cons .nil .nil).after (Mutator.ofConfig smallGenerations)))

theorem session_smallGenerationsFull : ∃ H, Session smallGenerations smallGenerationsFull H := by
  let u0 := Mutator.ofConfig smallGenerations
  let u1 := (Command.cons .nil .nil).after u0
  let u2 := (Command.push (.ofRef 3)).after u1
  have h1 := (Session.start (c := smallGenerations) (u := u0) ⟨_, rfl⟩).plain (.cons .nil .nil)
    [.ofRef 3] (by decide +kernel) (by decide +kernel)
    (by decide)
  have hheld : u1.Allows (u0.held u1 (fun _ => False) [.ofRef 3]) (.ofRef 3) :=
    Mutator.allows_returned (n := 6) (by decide) (by decide)
      (show u1.objects.toOption = some [(3, 6)] by decide +kernel) (by simp)
  have h2 := h1.next (.push (.ofRef 3)) [] (by decide +kernel) (by decide +kernel)
    (by simpa [Command.operands] using hheld)
  exact ⟨_, h2.plain (.cons .nil .nil) [.ofRef 9] (by decide +kernel)
    (by decide +kernel) (by decide)⟩

/-- A third pair makes a minor collection necessary. The cycle inside of the allocation takes the
second pair out of use, and measures the first one as live. -/
theorem smallGenerations_balance :
    (smallGenerations.strategy = .copying ∨ smallGenerations.strategy = .markCompact ∨
      smallGenerations.strategy = .generational) ∧
    ∃ H o m' m₁, Underway smallGenerations smallGenerationsFull H ∧
    Collector.allocate 3 smallGenerationsFull.machine = .ok o m' ∧
      Relation.ReflTransGen Collector.Cycle smallGenerationsFull.machine m₁ ∧ m'.stats = m₁.stats ∧
      m'.stats.liveBytes = 48 ∧
      m'.stats.totalReclaimed = 48 := by
  refine ⟨by decide, ?_⟩
  obtain ⟨H, hs⟩ := session_smallGenerationsFull
  have hmeasures := moving_heap_balances (.inr (.inr rfl)) (Underway.idle hs)
  have hok : (match Collector.allocate 3 smallGenerationsFull.machine with
      | .ok _ m' => m'.stats.liveBytes == 48 && m'.stats.totalReclaimed == 48
      | .error _ _ => false) = true := by decide +kernel
  cases hrun : Collector.allocate 3 smallGenerationsFull.machine with
  | error e m' =>
    rw [hrun] at hok
    cases hok
  | ok o m' =>
    rw [hrun] at hok
    simp only [Bool.and_eq_true, beq_iff_eq] at hok
    obtain ⟨m₁, hchain, hstats⟩ := hmeasures.allocate 3 o m' (by decide) hrun
    exact ⟨H, o, m', m₁, .idle hs, rfl, hchain, hstats, hok⟩

end Reclaim
