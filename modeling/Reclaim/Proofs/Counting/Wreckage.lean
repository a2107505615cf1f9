import Reclaim.Proofs.Counting.Barren
import Reclaim.Proofs.Wreckage

/-!
# What a failing operation of a counting heap leaves

An operation that finds no room in the table of zero counts stops where it is, and so does an
allocation that finds no block. The counts of the object that it was about to put into the table
are right by then, and a block that was taken for a new object is given back, so that the objects
lie in their blocks as ever (`Remains`). Nothing is known of the table.

Results:
* `brittle`: a heap with room.
* `barren_brittle`: a heap without.
-/

namespace Reclaim.Counting

variable {mode : CountMode} {cap : Nat} {m m' : Machine Counting} {ts : List Tile} {S : Nat → Prop}
  {α : Type} {x : GcM Counting α} {Q : α → Machine Counting → Prop}

theorem Remains.legible (hr : Remains m ts) :
    Legible (m.hosted .counting) (Held (blocksOf m ts)) := by
  refine ⟨⟨_, hr.housed.objects_apart⟩, hr.roots, ⟨_, hr.objects_run, fun b hb => ?_⟩,
    _, hr.tiled.chunks_run⟩
  have hin := hr.housed.inside b hb
  have hroom := hr.housed.room hb
  refine ⟨hin.1, ?_⟩
  change b.1 ≤ m.heap.size
  omega

/-- What is listed afterwards is there. -/
theorem Remnant.wrecks (hm : Remnant m m') : Wrecks .counting 3 m S m' := by
  obtain ⟨ts', k, hk, hr, hcycles⟩ := hm
  refine ⟨_, k, hk, hr.legible, hcycles, ?_⟩
  rintro - o n - ⟨bs, hrun, hmem⟩
  have hobj : objects m'.own m'.heap = .ok bs := hrun
  rw [hr.objects_run] at hobj
  cases hobj
  exact ⟨n, hmem⟩

theorem runs_wrecks (hx : Runs x m Q (Declined m)) :
    Runs x m (fun _ _ => True) fun _ => Wrecks .counting 3 m S :=
  (hx.mono fun _ _ _ => trivial).mono_fail fun _ _ h => h.remnant.wrecks

theorem brittle (mode : CountMode) (cap : Nat) :
    Brittle operations .counting (Kept (Good mode cap)) where
  legible := by
    rintro m S ⟨-, ⟨ts, -, -, rfl, hg⟩, rfl⟩
    exact hg.dying.stock.remains.legible
  allocate := by
    rintro m S n ⟨-, ⟨ts, -, -, rfl, hg⟩, rfl⟩ hn hcount
    exact runs_wrecks (allocate_issues hg hn hcount)
  collect := by
    rintro m S ⟨-, ⟨ts, -, -, rfl, hg⟩, rfl⟩
    exact runs_wrecks (collect_scans hg)
  collectFull := by
    rintro m S ⟨-, ⟨ts, -, -, rfl, hg⟩, rfl⟩
    exact runs_wrecks (collect_scans hg)
  writeField := by
    rintro m S o field v ⟨-, ⟨ts, -, -, rfl, hg⟩, rfl⟩ hpark ho ht hf hv
    exact runs_wrecks (writeField_runs hg hpark ho ht hf hv)
  writeRoot := by
    rintro m S slot old v ⟨-, ⟨ts, -, -, rfl, hg⟩, rfl⟩ hpark hold hv
    exact runs_wrecks (writeRoot_runs hg hpark hold hv)
  pop := by
    rintro m S v ⟨-, ⟨ts, -, -, rfl, hg⟩, rfl⟩ hpark hv
    exact runs_wrecks (pop_runs hg hpark hv)

/-! ## Heaps that hold nothing -/

theorem Barren.legible (hb : Barren m) : Legible (m.hosted .counting) Nothing :=
  ⟨⟨1, Barren.closed m, fun _ ho => ho.elim, fun _ _ ho => ho.elim⟩, hb.roots,
    ⟨[], hb.objects_run, by simp⟩, [], FreeList.chunks_unlinked hb.unlinked⟩

/-- Only an allocation fails, and it changes nothing. -/
theorem barren_brittle : Brittle operations .counting NoRoom where
  legible := by
    rintro m S ⟨hb, rfl⟩
    exact hb.legible
  allocate := by
    rintro m S n ⟨hb, rfl⟩ hn hcount
    refine (hb.allocate_runs hn hcount).mono_fail ?_
    rintro f m' ⟨-, rfl⟩
    exact (Wrecks.refl hb.legible).mono (by decide)
  collect := by
    rintro m S ⟨hb, rfl⟩
    obtain ⟨m', k, -, hrun, -⟩ := hb.collect_run
    exact Runs.of_eq hrun trivial
  collectFull := by
    rintro m S ⟨hb, rfl⟩
    obtain ⟨m', k, -, hrun, -⟩ := hb.collect_run
    exact Runs.of_eq hrun trivial
  writeField := by
    rintro m S o field v ⟨hb, rfl⟩ - ho
    exact ho.elim
  writeRoot := by
    rintro m S slot old v ⟨hb, rfl⟩ - hold hv
    exact Runs.of_eq (hb.writeRoot_run hold hv) trivial
  pop := by
    rintro m S v ⟨hb, rfl⟩ - hv
    exact Runs.of_eq (hb.pop_run hv) trivial

end Reclaim.Counting
