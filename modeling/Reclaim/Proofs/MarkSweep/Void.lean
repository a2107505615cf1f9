import Reclaim.Proofs.MarkSweep.Barren

/-!
# Mark-sweep heaps without a word

An arena of no words at all has no room for an object either, but unlike one of a single word it can
be swept: there is nothing to look at. The laws of a strategy hold of it.

Results:
* `collect_run`: a collection finds nothing.
* `void_laws`: the laws of a mark-sweep heap without a word.
* `start_void`: a new one.
-/

namespace Reclaim.MarkSweep

variable {m : Machine MarkSweep}

/-- There is no word, and there are no references. -/
structure Void (m : Machine MarkSweep) : Prop where
  empty : m.heap.size = 0
  region : m.own.region = m.heap.region
  unlinked : m.own.freeList.head = none
  roots : m.roots.Within Nothing

/-- The invariant of a heap without a word. -/
def Hollow (m : Machine MarkSweep) (S : Nat → Prop) : Prop := Void m ∧ S = Nothing

namespace Void

theorem closed (m : Machine MarkSweep) : Closed m.heap Nothing :=
  ⟨fun _ ho => ho.elim, fun _ _ ho => ho.elim⟩

theorem objects_run (hv : Void m) : objects m.own m.heap = .ok [] := by
  have hblank : m.heap.word 0 = 0 := by simp [Arena.word, Array.eq_empty_of_size_eq_zero hv.empty]
  have hwalk : m.own.freeList.allocated m.own.region m.heap = .ok [] := by
    rw [hv.region, Arena.region_eq]
    exact FreeList.allocated_blank hv.unlinked hblank
  rw [objects, read_bind hwalk]
  rfl

/-- A collection finds nothing. -/
theorem collect_run (hv : Void m) : collect m = .ok () { m with
    own := { m.own with freeList := m.own.freeList.reset }, stats :=
  m.stats.recordCycle .full 0 0 } := by
  let marks := MarkBitmap.empty m.own.region.length
  have hmark : Marking.mark m.own.markCapacity claim (m.withOwn (m.own, marks)) = .ok ()
      (m.withOwn (m.own, marks)) :=
    mark_nothing (by exact hv.roots.references_nil) _ _
  have hsweep : sweep (m.withOwn (m.own, marks)) = .ok 0 (m.withOwn ({ m.own with
      freeList := m.own.freeList.reset }, marks)) := by
    rw [sweep, bind_ok (GcM.run_modifyOwn _), bind_ok GcM.run_own]
    simp only [Machine.withOwn_own, hv.region, Arena.region_eq, hv.empty]
    rfl
  have hcycle : GcM.withScratch marks (do
      Marking.mark m.own.markCapacity claim
      sweep) m = .ok (0, marks) (m.withOwn { m.own with freeList := m.own.freeList.reset }) := by
    rw [GcM.withScratch, bind_ok hmark, hsweep]
    rfl
  rw [collect, bind_ok GcM.run_own]
  refine (bind_ok hcycle).trans ((bind_ok GcM.run_own).trans ?_)
  simp only [Machine.withOwn_own, FreeList.reset, FreeList.empty, Nat.zero_sub]
  exact GcM.run_recordCycle ..

/-- Nothing fits. -/
theorem tight (hv : Void m) (n : Nat) : m.own.region.length < blockWords n := by
  rw [hv.region, Arena.length_region, hv.empty, blockWords, FreeList.minChunk]
  omega

theorem allocate_stops (hv : Void m) {n : Nat} (hn : 1 ≤ n) (hcount : operations.Countable m n)
    {Q : Nat → Machine MarkSweep → Prop} : Runs (allocate n) m Q Fatal := by
  unfold Runs
  rw [allocate_too_large hn hcount (hv.tight n)]
  rfl

/-- A collection leaves a heap without a word as it is. -/
theorem collect_moves (hv : Void m) :
    Runs collect m (fun _ m' => ∃ ρ S' k, k ≤ 3 ∧ Moved Hollow m m' Nothing S' ρ k) Fatal := by
  have hnone : ∀ o, ¬ m.Reachable o := fun o ho => ho.mem (closed m) hv.roots
  refine Runs.of_eq hv.collect_run
    ⟨id, Nothing, 1, by decide, .intro (closed m) hv.roots
      ⟨⟨hv.empty, hv.region, rfl, hv.roots⟩, rfl⟩
    ((Same.refl _ _).renamed (Machine.closed_reachable (closed m) hv.roots))
      (fun o ho => hnone o ho) hv.roots.mapped_id rfl rfl
    fun h => by cases h⟩

end Void

theorem void_plain : Plain operations Hollow fun _ _ _ => False where
  small := by
    rintro m S ⟨hv, -⟩
    rw [hv.empty]
    decide
  objects := by
    rintro m S ⟨hv, rfl⟩
    exact ⟨[], hv.objects_run, fun _ ho => ho.elim⟩
  apart := by
    rintro m S ⟨-, rfl⟩
    exact ⟨Void.closed m, fun _ ho => ho.elim, fun _ _ ho => ho.elim⟩
  roots := by
    rintro m S ⟨hv, rfl⟩
    exact hv.roots
  congr := by
    rintro m m' S ⟨hv, rfl⟩ hheap hroots hown
    exact ⟨⟨by rw [hheap]; exact hv.empty, by rw [hheap, hown]; exact hv.region, by
      rw [hown]; exact hv.unlinked, hroots⟩, rfl⟩
  new_congr h := h.elim
  new_inside _ _ h := h.elim
  new_apart _ _ h := h.elim
  allocate := by
    rintro m S n ⟨hv, rfl⟩ hn hcount
    exact hv.allocate_stops hn hcount
  overflow := by
    rintro m S n ⟨hv, rfl⟩ hn hcount
    exact allocate_traps hn (hv.tight n) (Nat.not_lt.mp hcount)
  collect := by
    rintro m S ⟨hv, rfl⟩
    exact hv.collect_moves
  collectFull := by
    rintro m S ⟨hv, rfl⟩
    exact hv.collect_moves
  rewrite _ _ h := h.elim
  writeField := by
    rintro m S o field v ⟨-, rfl⟩ ho
    exact ho.elim

/-- The laws of a mark-sweep heap without a word. -/
theorem void_laws : Laws operations Hollow fun _ _ _ => False := void_plain.laws

/-- A new mark-sweep heap without a word. -/
theorem start_void {c : Config} {u : Mutator} (hc : c.strategy = .markSweep) (h0 : c.heapWords = 0)
    (hu : c.Makes u) :
    Collector.Hosted Collector.markSweep Hollow u.machine Nothing := by
  obtain ⟨⟨s, hb⟩, hsize⟩ := start_barren hc (by omega) hu
  exact ⟨s, hb.own, ⟨hsize.trans h0, hb.region, hb.unlinked, hb.roots⟩, rfl⟩

end Reclaim.MarkSweep
