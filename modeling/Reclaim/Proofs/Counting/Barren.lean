import Reclaim.Proofs.Counting.Operations

/-!
# Heaps that hold nothing

An arena of less than two words has no room for a chunk, and no object fits into it: every
allocation is fatal, nothing is ever listed, and the roots hold immediate values only. The laws of a
strategy hold of such a heap all the same.

Results:
* `Barren.scan_run`: a scan finds nothing.
* `barren_laws`: the laws of a counting heap without room.
* `start_barren`: a new counting heap of less than two words.
-/

namespace Reclaim

/-- No object at all. -/
abbrev Nothing : Nat → Prop := fun _ => False

theorem Value.Within.ref_none {v : Value} (hv : v.Within Nothing) : v.ref? = none := by
  cases hr : v.ref? with
  | none => rfl
  | some o => exact (hv o hr).2.elim

/-- Roots without references. -/
theorem Roots.Within.references_nil {r : Roots} (hr : r.Within Nothing) : r.references = [] := by
  refine List.eq_nil_iff_forall_not_mem.mpr fun slot hs => ?_
  obtain ⟨v, hv, href⟩ := mem_references.mp hs
  obtain ⟨o, ho⟩ := Value.exists_ref? href
  exact (hr slot v hv o ho).2

/-- A new arena is blank. -/
theorem Arena.word_ofBytes (n a : Nat) : (Arena.ofBytes n).word a = 0 := by
  by_cases ha : a < n / wordBytes <;> simp [Arena.ofBytes, Arena.zeroed, Arena.word, ha]

namespace Counting

variable {m m' : Machine Counting} {v : Value}

/-- There is no room for any object, and there are no references. -/
structure Barren (m : Machine Counting) : Prop where
  small : m.heap.size < 2
  region : m.own.region = m.heap.region
  blank : ∀ a, m.heap.word a = 0
  unlinked : m.own.freeList.head = none
  unqueued : m.own.zeroCounts.entries = #[]
  roots : m.roots.Within Nothing

/-- The invariant of a heap without room. -/
def NoRoom (m : Machine Counting) (S : Nat → Prop) : Prop := Barren m ∧ S = Nothing

namespace Barren

theorem objects_run (hb : Barren m) : objects m.own m.heap = .ok [] := by
  have hregion : m.own.region = ⟨0, m.heap.size⟩ := hb.region.trans (Arena.region_eq _)
  have hwalk : m.own.freeList.allocated m.own.region m.heap = .ok [] := by
    rw [hregion]
    exact FreeList.allocated_blank hb.unlinked (hb.blank 0)
  rw [objects, read_bind hwalk]
  rfl

theorem withRoots (hb : Barren m) {r : Roots} (hr : r.Within Nothing) : Barren (m.withRoots r) :=
  ⟨hb.small, hb.region, hb.blank, hb.unlinked, hb.unqueued, hr⟩

theorem traceRoots_run (hb : Barren m) (visit : Value → GcM Counting Value) :
    traceRoots visit m = .ok () m := by
  rw [traceRoots, bind_ok GcM.run_roots, hb.roots.references_nil]
  rfl

/-- A scan finds nothing. -/
theorem scan_run (hb : Barren m) : scan m = .ok () { m with
    stats := m.stats.recordCycle .zeroCounts 0
      (m.own.region.length - m.own.freeList.freeWords) } := by
  have hpass : ∀ n, scanPass (n + 1) 0 false 0 m = .ok (false, 0) m := by
    intro n
    rw [scanPass, bind_ok GcM.run_own, hb.unqueued]
    rfl
  have htable : ∀ b n, scanTable (b + 1) (n + 1) 0 m = .ok 0 m := by
    intro b n
    rw [scanTable, bind_ok (hpass b)]
    rfl
  have hkeep : (liftM (keepParked m.own.mode m.roots.parkedValues m.own.zeroCounts.entries.toList) :
      GcM Counting (List Nat)) m = .ok [] m := by
    rw [hb.unqueued]
    rfl
  have hown : { m.own with zeroCounts := { m.own.zeroCounts with
      entries := ([] : List Nat).toArray } } = m.own := by
    rw [show ([] : List Nat).toArray = m.own.zeroCounts.entries from hb.unqueued.symm]
  unfold scan
  rw [bind_ok GcM.run_own, bind_ok GcM.run_heapSize, bind_ok (hb.traceRoots_run _),
    bind_ok (htable _ _), bind_ok (hb.traceRoots_run _),
    bind_ok GcM.run_roots, bind_ok GcM.run_own, bind_ok hkeep, bind_ok (GcM.run_modifyOwn _), hown]
  rfl

theorem withStats (hb : Barren m) (stats : Stats) : Barren { m with stats } :=
  ⟨hb.small, hb.region, hb.blank, hb.unlinked, hb.unqueued, hb.roots⟩

end Barren

/-! ## Operations -/

theorem increment_immediate (mode : CountMode) (hv : v.ref? = none) :
    (liftM (increment mode v) : GcM Counting Unit) m = .ok () m := by
  rw [increment, hv]
  rfl

theorem letGo_immediate (hv : v.ref? = none) : letGo v m = .ok () m := by
  rw [letGo, hv]
  rfl

theorem unroot_immediate (hv : v.ref? = none) : unroot v m = .ok () m := by
  rw [unroot, hv]
  rfl

namespace Barren

theorem closed (m : Machine Counting) : Closed m.heap Nothing :=
  ⟨fun _ ho => ho.elim, fun _ _ ho => ho.elim⟩

/-- A regular collection is a scan, or nothing. -/
theorem collect_run (hb : Barren m) : ∃ m' k, k ≤ 3 ∧ collect m = .ok () m' ∧
    Moved NoRoom m m' Nothing Nothing id k := by
  rw [collect, bind_ok GcM.run_own]
  cases m.own.mode with
  | eager => exact ⟨m, 0, by decide, rfl, .refl ⟨hb, rfl⟩ (closed m) hb.roots⟩
  | deferred =>
    have hnone : ∀ o, ¬ m.Reachable o := fun o ho => ho.mem (closed m) hb.roots
    exact ⟨_, 1, by decide, hb.scan_run, .intro (closed m) hb.roots ⟨hb.withStats _, rfl⟩
      ((Same.refl _ _).renamed (Machine.closed_reachable (closed m) hb.roots))
        (fun o ho => hnone o ho) hb.roots.mapped_id rfl rfl
      fun h => by cases h⟩

theorem writeRoot_run {slot : RootSlot} {old : Value} (hb : Barren m)
    (hold : m.roots.get? slot = some old) (hv : v.Within Nothing) :
    writeRoot slot v m = .ok () (m.withRoots (m.roots.set slot v)) := by
  have hnone := (hb.roots slot old hold).ref_none
  rw [writeRoot, bind_ok GcM.run_own]
  cases m.own.mode with
  | eager =>
    refine (bind_ok (increment_immediate .eager hv.ref_none)).trans ?_
    exact (bind_ok (roots_lift (getRoot_run hold))).trans
      ((bind_ok (roots_lift (setRoot_run hold))).trans (letGo_immediate hnone))
  | deferred =>
    exact (bind_ok (roots_lift (getRoot_run hold))).trans
      ((bind_ok (roots_lift (setRoot_run hold))).trans (unroot_immediate hnone))

theorem writeRoot_trap {slot : RootSlot} (hv : v.Within Nothing)
    (hnone : m.roots.get? slot = none) :
    writeRoot slot v m = .error .trap m := by
  have hget : (liftM (getRoot slot) : GcM Counting Value) m = .error .trap m := by
    have htrap : getRoot slot m.roots = .error .trap m.roots := by rw [getRoot, hnone]
    exact roots_lift_error htrap
  rw [writeRoot, bind_ok GcM.run_own]
  cases m.own.mode with
  | eager => exact (bind_ok (increment_immediate .eager hv.ref_none)).trans (bind_error hget)
  | deferred => exact bind_error hget

theorem push_run (hv : v.Within Nothing) (hcap : m.roots.stack.size < m.roots.capacity)
    (hlim : m.roots.stack.size + 1 < tableLimit) :
    push v m = .ok () (m.withRoots { m.roots with stack := m.roots.stack.push v }) := by
  rw [push, bind_ok (roots_lift (pushRoot_run hcap hlim)), bind_ok GcM.run_own,
    Machine.withRoots_own]
  cases m.own.mode with
  | eager => exact increment_immediate .eager hv.ref_none
  | deferred => rfl

theorem pop_run (hb : Barren m) (hv : m.roots.stack.back? = some v) :
    pop m = .ok v (m.withRoots { m.roots with stack := m.roots.stack.pop }) := by
  have hnone : v.ref? = none := by
    rw [Array.back?_eq_getElem?] at hv
    exact (hb.roots (.stack _) v hv).ref_none
  rw [pop, bind_ok (roots_lift (popRoot_run hv)), bind_ok GcM.run_own, Machine.withRoots_own]
  cases m.own.mode with
  | eager => exact bind_ok (letGo_immediate hnone)
  | deferred => exact bind_ok (unroot_immediate hnone)

/-- No object fits. -/
theorem allocate_runs (hb : Barren m) {n : Nat} (hn : 1 ≤ n) (hcount : operations.Countable m n)
    {Q : Nat → Machine Counting → Prop} :
    Runs (allocate n) m Q fun f m' =>
      (f.isFatal = true ∧ ∀ k, f ≠ .zeroCountTableFull k) ∧ m' = m := by
  have hregion : m.own.region.length = m.heap.size := by rw [hb.region, Arena.length_region]
  have hsmall := hb.small
  have hpos := m.own.mode.header_pos
  have hlim : m.own.region.length < n + m.own.mode.headerWords := by omega
  unfold allocate
  refine Runs.step GcM.run_own ?_
  simp only [hlim, if_true]
  exact Runs.stop (GcM.run_tooLarge hcount hlim) ⟨⟨rfl, by simp⟩, rfl⟩

theorem allocate_overflows (hb : Barren m) {n : Nat} (hcount : ¬ operations.Countable m n) :
    allocate n m = .error .trap m := by
  have hlim : m.own.region.length < n + m.own.mode.headerWords := by
    have hsmall := hb.small
    have hover := Nat.not_lt.mp hcount
    rw [hb.region, Arena.length_region]
    simp only [operations, wordValues, wordBytes] at hover ⊢
    omega
  rw [allocate, bind_ok GcM.run_own]
  simp only [hlim, if_true]
  exact bind_error (GcM.tooLarge_trap (Nat.not_lt.mp hcount))

theorem left (hb : Barren m') (hstress : m'.stress = m.stress) (hstats : m'.stats = m.stats) :
    Left operations NoRoom m m' Nothing Nothing :=
  ⟨⟨hb, rfl⟩, fun _ ho => ho, fun _ _ ho => ho.elim, hstress, 0, by decide, by rw [hstats]; simp⟩

end Barren

/-- The laws of a counting heap without room. -/
theorem barren_laws : Laws operations NoRoom fun _ _ _ => False where
  small := by
    rintro m S ⟨hb, -⟩
    have hsmall := hb.small
    omega
  objects := by
    rintro m S ⟨hb, rfl⟩
    exact ⟨[], hb.objects_run, fun _ ho => ho.elim⟩
  apart := by
    rintro m S ⟨hb, rfl⟩
    exact ⟨Barren.closed m, fun _ ho => ho.elim, fun _ _ ho => ho.elim⟩
  roots := by
    rintro m S ⟨hb, rfl⟩
    exact hb.roots
  congr := by
    rintro m m' S ⟨hb, rfl⟩ hheap hroots hown
    exact ⟨⟨by rw [hheap]; exact hb.small, by rw [hheap, hown]; exact hb.region, by
      rw [hheap]; exact hb.blank, by rw [hown]; exact hb.unlinked,
      by rw [hown]; exact hb.unqueued, by rw [hroots]; exact hb.roots⟩, rfl⟩
  new_congr h := h.elim
  new_inside _ _ h := h.elim
  new_apart _ _ h := h.elim
  allocate := by
    rintro m S n ⟨hb, rfl⟩ hn hcount
    exact (hb.allocate_runs hn hcount).mono_fail fun _ _ h => h.1.1
  overflow := by
    rintro m S n ⟨hb, rfl⟩ - hcount
    exact hb.allocate_overflows hcount
  collect := by
    rintro m S ⟨hb, rfl⟩
    obtain ⟨m', k, hk, hrun, hmv⟩ := hb.collect_run
    exact Runs.of_eq hrun ⟨id, _, k, hk, hmv⟩
  collectFull := by
    rintro m S ⟨hb, rfl⟩
    obtain ⟨m', k, hk, hrun, hmv⟩ := hb.collect_run
    exact Runs.of_eq hrun ⟨id, _, k, hk, hmv⟩
  overwrite _ _ h := h.elim
  initField _ _ h := h.elim
  noteCopy _ _ h := h.elim
  writeField := by
    rintro m S o field v ⟨hb, rfl⟩ - ho
    exact ho.elim
  writeRoot := by
    rintro m S slot old v ⟨hb, rfl⟩ - hold hv
    refine Runs.of_eq (hb.writeRoot_run hold hv)
      ⟨_, Barren.left (hb.withRoots (hb.roots.set hv slot)) rfl rfl, .refl _ _, rfl⟩
  writeRoot_absent := by
    rintro m S slot v ⟨hb, rfl⟩ hv hnone
    exact ⟨m, Barren.writeRoot_trap hv hnone⟩
  push := by
    rintro m S v ⟨hb, rfl⟩ - hv hcap hlim
    exact ⟨_, Barren.push_run hv hcap hlim,
      ⟨hb.withRoots (hb.roots.push hv _), rfl⟩, .refl _ _, rfl, rfl, rfl, rfl⟩
  push_fails := by
    intro m S v e _ hfail
    exact bind_error (roots_lift_error hfail)
  pop := by
    rintro m S v ⟨hb, rfl⟩ - hv
    exact Runs.of_eq (hb.pop_run hv)
      ⟨rfl, _, Barren.left (hb.withRoots (hb.roots.pop _)) rfl rfl, .refl _ _, rfl⟩
  pop_fails := by
    intro m S e _ hfail
    exact bind_error (roots_lift_error hfail)
  park := by
    rintro m S v ⟨hb, rfl⟩ hv -
    exact ⟨hb.withRoots (hb.roots.push hv _), rfl⟩
  unpark := by
    rintro m S ⟨hb, rfl⟩ - -
    exact ⟨hb.withRoots (hb.roots.pop _), rfl⟩

/-- A new counting heap of less than two words. -/
theorem start_barren {mode : CountMode} {c : Config} {u : Mutator} (hc : c.strategy = mode.strategy)
    (h2 : c.heapWords < 2) (hu : c.Makes u) :
    Collector.Hosted Collector.counting NoRoom u.machine Nothing := by
  obtain ⟨hash, rfl, -⟩ := hu.eq
  have hwords := c.size_ofBytes
  have hof : FreeList.ofRegion (Arena.ofBytes c.heapSize).region c.fit (Arena.ofBytes c.heapSize) =
      (.empty c.fit, Arena.ofBytes c.heapSize) := by
    rw [FreeList.ofRegion, if_neg (by rw [c.length_region]; exact Nat.not_le.mpr h2)]
  let m : Machine Counting :=
    ⟨Arena.ofBytes c.heapSize, Roots.empty c.stackCapacity c.globalTableSize hash, c.stress, {},
    ⟨mode, (Arena.ofBytes c.heapSize).region, .empty c.fit,
      ZeroCountTable.empty c.zeroCountCapacity⟩⟩
  have hbuild : Machine.ofConfig c hash = m.withOwn (.counting m.own) := by
    rw [Machine.ofConfig, Collector.build, hc]
    cases mode <;> simp only [CountMode.strategy, build, hof] <;> rfl
  refine ⟨m.own, congrArg Machine.own hbuild, ?_, rfl⟩
  have hm : (Mutator.ofConfig c hash).machine.withOwn m.own = m := by
    rw [Mutator.ofConfig, hbuild]
    rfl
  rw [hm]
  exact ⟨by simpa [m, hwords] using h2, rfl, Arena.word_ofBytes c.heapSize, rfl, rfl,
    Roots.empty_within _ _ _ _⟩

end Counting

end Reclaim
