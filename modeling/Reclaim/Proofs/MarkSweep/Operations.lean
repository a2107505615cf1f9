import Reclaim.Proofs.MarkSweep.Collection
import Reclaim.Proofs.Session
import Reclaim.Proofs.TiledObjects

/-!
# Mark-sweep operations

Between operations every tile that is handed out holds an object that refers to such objects alone
(`Tidy`), the ones that nothing refers to included. A collection leaves the tiles of the objects
that the roots reach, and an allocation carves a tile out of a free one; the rest follows from the
layout.

Results:
* `allocate_by`: what holds before the last step of an allocation, whichever way leads there,
  decides its outcome.
* `collect_moves`, `allocate_runs`: collections and allocations keep the state.
* `laws`: the laws of a mark-sweep heap.
* `start_kept`: a new mark-sweep heap satisfies the invariant.
-/

namespace Reclaim.MarkSweep

/-- The state between operations, where the arena consists of the tiles `ts`. -/
structure Tidy (m : Machine MarkSweep) (ts : List Tile) : Prop where
  region : m.own.region = m.heap.region
  tiled : Tiled m.own.freeList m.heap 0 m.heap.size ts
  housed : Housed 1 m.heap (objectsIn 1 ts)
  roots : m.roots.Within (Held (objectsIn 1 ts))

/-- The state between operations. -/
def Good (m : Machine MarkSweep) (blocks : List (Nat × Nat)) : Prop := ∃ ts,
    blocks = objectsIn 1 ts ∧ Tidy m ts

variable {m m' : Machine MarkSweep} {ts : List Tile} {blocks : List (Nat × Nat)}

/-- What the mutator is offered. -/
def operations : Operations MarkSweep :=
  .plain allocate collect collect (fun _ field v => storeValue field v) objects headerWords

namespace Tidy

theorem closed (hg : Tidy m ts) : Closed m.heap (Held (objectsIn 1 ts)) := hg.housed.closed

theorem inv (hg : Tidy m ts) : Inv m ts (Held (objectsIn 1 ts)) := by
  refine ⟨hg.region, hg.tiled, ?_, hg.closed.linked, hg.roots⟩
  rintro o ⟨n, hb⟩
  obtain ⟨a, n, hm, he⟩ := mem_objectsIn.mp hb
  cases he
  exact ⟨_, hm, rfl, rfl, hg.housed.fit hb⟩

theorem objects_run (hg : Tidy m ts) : objects m.own m.heap = .ok (objectsIn 1 ts) := by
  have hregion : m.own.region = ⟨0, m.heap.size⟩ := hg.region.trans (Arena.region_eq _)
  rw [objects, hregion]
  exact hg.tiled.objectsIn_run 1

end Tidy

theorem layout : Layout.Free operations 1 Good where
  header := by decide
  housed := by
    rintro m blocks ⟨ts, rfl, hg⟩
    exact hg.housed
  roots := by
    rintro m blocks ⟨ts, rfl, hg⟩
    exact hg.roots
  objects := by
    rintro m blocks ⟨ts, rfl, hg⟩
    exact hg.objects_run
  update := by
    rintro m m' blocks ⟨ts, rfl, hg⟩ hown hsize hout hh hroots
    refine ⟨ts, rfl, ?_, ?_, hh, hroots⟩
    · rw [hown, hg.region, Arena.region, Arena.region, hsize]
    · rw [hown, hsize]
      exact hg.tiled.update (by decide) hsize hout

/-- A collection leaves what the roots reach where it is. -/
theorem collect_moves (hg : Good m blocks) :
    Runs collect m (fun _ m' => ∃ blocks', Good m' blocks' ∧
    Moved (Kept Good) m m' (Held blocks) (Held blocks') id 1) Fatal := by
  obtain ⟨ts, rfl, hg⟩ := hg
  refine ((collect_runs hg.inv).mono ?_).mono_fail fun _ _ hf => Marking.MarkStops.fatal hf
  rintro - m' ⟨us, ms, hs⟩
  have hreach : m.Reachable = (· ∈ ms) := funext fun o => propext (hs.reach o).symm
  have hms : ∀ o ∈ ms, Held (objectsIn 1 ts) o := by
    intro o ho
    rw [hs.reach] at ho
    exact ho.mem_of_closed hg.closed fun _ h => hg.roots.refers h
  have hsame : Same (· ∈ ms) m.heap m'.heap := by
    intro o i ho hi
    obtain ⟨t, ht, hk, -, -, hc⟩ := hg.inv.filled.kept_of_marked hms ho
    exact hs.word t ht hk _ (hc i (Nat.lt_of_lt_of_le hi (Nat.le_max_right _ _)))
  have hheld : Held (objectsIn 1 us) = (· ∈ ms) := by
    funext o
    simp only [Held, eq_iff_iff]
    constructor
    · rintro ⟨n, hb⟩
      obtain ⟨a, n, hm, he⟩ := mem_objectsIn.mp hb
      cases he
      exact (hs.reach _).mpr (hs.mem_used.mp ⟨hm, rfl⟩).2.2
    · intro ho
      obtain ⟨t, ht, hf, rfl, -⟩ := hs.inv.placed o ho
      obtain ⟨a, n, free⟩ := t
      cases hf
      exact ⟨n, mem_objectsIn.mpr ⟨a, n, ht, rfl⟩⟩
  have hcl : Closed m.heap (· ∈ ms) := by
    rw [← hreach]
    exact Machine.closed_reachable hg.closed hg.roots
  have hg' : Tidy m' us := by
    refine ⟨hs.inv.region, hs.inv.tiled, hs.inv.tiled.toTiles.housed (fun b hb => ?_) ?_, ?_⟩
    · obtain ⟨a, n, hm, rfl⟩ := mem_objectsIn.mp hb
      have ho : a + 1 ∈ ms := (hs.reach _).mpr (hs.mem_used.mp ⟨hm, rfl⟩).2.2
      obtain ⟨t, ht, -, he, hfit⟩ := hs.inv.placed _ ho
      obtain rfl : t = ⟨a, n, false⟩ := hs.inv.tiled.eq_of_start ht hm (by simp only; omega)
      exact hfit
    · rw [hheld]
      exact hsame.closed hcl
    · rw [hheld]
      exact hs.inv.roots
  refine ⟨_, ⟨us, rfl, hg'⟩, .intro hg.closed hg.roots
    ⟨_, ⟨us, rfl, hg'⟩, rfl⟩ ?_ ?_ ?_ hs.stress ?_ (by omega)⟩
  · rw [hreach]
    exact hsame.renamed hcl
  · intro o ho
    rw [hheld]
    exact (hs.reach o).mpr ho
  · rw [hs.roots]
    exact hg.roots.mapped_id
  · rw [hs.stats]
    rfl

/-! ## Allocation -/

/-- The words of a block that holds an object of `words` words. -/
def blockWords (words : Nat) : Nat := max (words + headerWords) FreeList.minChunk

theorem blockWords_eq {words : Nat} (hpos : 1 ≤ words) : blockWords words = words + headerWords :=
  Nat.max_eq_left (by simp only [FreeList.minChunk, headerWords]; omega)

/-- The last step of an allocation: the owner of a block writes its size and clears the rest. -/
def fill (found : Nat × Nat) : GcM MarkSweep Nat := do
  store found.1 (UInt64.ofNat found.2)
  clearWords (found.1 + headerWords) (found.2 - headerWords)
  return found.1 + headerWords

theorem allocate_eq (words : Nat) : allocate words = (do
    let s ← GcM.own
    if s.region.length < blockWords words then GcM.tooLarge (blockWords words) s.region.length
    if ← GcM.stressed then collect
    let found ← acquire (blockWords words)
    fill found) := rfl

theorem fill_run {a k : Nat} (hk : 1 ≤ k) (hs : a + k ≤ m.heap.size) :
    fill (a, k) m = .ok (a + 1) (m.withHeap (m.heap.handOut a k)) := by
  have h1 : store a (UInt64.ofNat k) m.heap = .ok () (m.heap.put a (UInt64.ofNat k)) :=
    store_run (by omega)
  have h2 : clearWords (a + headerWords) (k - headerWords) (m.heap.put a (UInt64.ofNat k)) = .ok ()
      (m.heap.handOut a k) :=
    clearWords_run (by simp [headerWords]; omega)
  have l1 : (liftM (store a (UInt64.ofNat k)) : GcM MarkSweep Unit) m = .ok ()
    (m.withHeap (m.heap.put a (UInt64.ofNat k))) := heap_lift h1
  have l2 : (liftM (clearWords (a + headerWords) (k - headerWords)) : GcM MarkSweep Unit)
    (m.withHeap (m.heap.put a (UInt64.ofNat k)))
      = .ok () (m.withHeap (m.heap.handOut a k)) := heap_lift (m := m.withHeap _) h2
  rw [fill, bind_ok l1, bind_ok l2]
  rfl

/-- A block is found and filled, or there is none. -/
theorem take?_fills (hg : Tidy m ts) {words : Nat} (hpos : 1 ≤ words) :
    take? (blockWords words) m = .ok none m ∨
    ∃ a k l' h' ts' m₁, take? (blockWords words) m = .ok (some (a, k)) m₁ ∧ words + 1 ≤ k ∧
    k ≤ words + 2 ∧
      Carved 1 m.heap ts a k l' h' ts' ∧ fill (a, k) m₁ = .ok (a + 1)
      ((m.withHeap h').withOwn { m.own with freeList := l' }) := by
  have hbw : blockWords words = words + 1 := blockWords_eq hpos
  rcases hg.tiled.carve_run hg.housed (by decide) (show 1 < blockWords words by omega) with
    hrun | ⟨a, k, l', h₁, ts', hrun, hk, h2, hslack, hsize, hc⟩
  · left
    rw [take?, bind_ok GcM.run_own, bind_ok (heap_lift hrun)]
    rfl
  · right
    have hin := hc.inside
    refine ⟨a, k, l', _, ts', (m.withHeap h₁).withOwn { m.own with
      freeList := l' }, ?_, by omega, by omega, hc,
      fill_run (by omega) (by simp [hsize]; omega)⟩
    rw [take?, bind_ok GcM.run_own, bind_ok (heap_lift hrun)]
    rfl

/-- The state with the new object in its block. -/
theorem Tidy.carved {a k : Nat} {l' : FreeList} {h' : Arena} {ts' : List Tile} (hg : Tidy m ts)
    (hc : Carved 1 m.heap ts a k l' h' ts') :
    Tidy ((m.withHeap h').withOwn { m.own with freeList := l' }) ts' := by
  refine ⟨?_, ?_, hc.housed, ?_⟩
  · simp only [Machine.withHeap_heap, Machine.withOwn_heap,
      Machine.withOwn_own, Arena.region, hc.size_eq]
    exact hg.region
  · simp only [Machine.withHeap_heap, Machine.withOwn_heap, Machine.withOwn_own, hc.size_eq]
    exact hc.tiled
  · exact Roots.Within.mono (r := m.roots) hg.roots fun _ ho =>
      ho.imp fun _ hb => (hc.mem _).mpr (.inl hb)

theorem take?_grows (hg : Tidy m ts) {words : Nat} (hpos : 1 ≤ words) :
    take? (blockWords words) m = .ok none m ∨
    ∃ found m₁, take? (blockWords words) m = .ok (some found) m₁ ∧ Runs (fill found) m₁
    (Grows 1 Good m (objectsIn 1 ts) words) Fatal := by
  rcases take?_fills hg hpos with hrun | ⟨a, k, l', h', ts', m₁, hrun, hk, -, hc, hfill⟩
  · exact .inl hrun
  · refine .inr ⟨(a, k), m₁, hrun, Runs.of_eq hfill
      ⟨_, k, ⟨ts', rfl, hg.carved hc⟩, hc.mem, by omega, hc.fresh, fun i hi => ?_,
      hg.housed.same hc.kept, rfl, rfl, rfl⟩⟩
    exact hc.zero _ (by omega) (by omega)

section Allocate

variable {words : Nat} {P : Nat → Machine MarkSweep → Prop} {Q : Nat → Machine MarkSweep → Prop}
  {E : Failure → Machine MarkSweep → Prop}

/-- An allocation fills a block that it finds after two collections at most; `P k` is what holds
after `k` of them. -/
theorem allocate_by (hcount : blockWords words * wordBytes < wordValues) (hm : P 0 m)
    (hcollect : ∀ {k m₁}, k ≤ 1 → P k m₁ → Runs collect m₁ (fun _ => P (k + 1)) E)
    (hlarge : ∀ size limit, E (.objectTooLarge size limit) m)
    (hfull : ∀ {k m₁} s bytes, k ≤ 2 → P k m₁ → E (.heapExhausted s bytes) m₁)
    (htake : ∀ {k m₁}, k ≤ 2 → P k m₁ → take? (blockWords words) m₁ = .ok none m₁ ∨ ∃ found m₂,
      take? (blockWords words) m₁ = .ok (some found) m₂ ∧ Runs (fill found) m₂ Q E) :
      Runs (allocate words) m Q E := by
  have hserve : ∀ {k m₁}, k ≤ 1 → P k m₁ → Runs (do
      let found ← acquire (blockWords words)
      fill found) m₁ Q E := by
    intro k m₁ hk hP
    refine Runs.bind (R := fun found m₂ => Runs (fill found) m₂ Q E) ?_ fun _ _ h => h
    unfold acquire
    rcases htake (by omega) hP with hrun | ⟨found, m₂, hrun, hfill⟩
    · -- no block was found, and there is one more try after a collection
      refine Runs.step hrun ((hcollect hk hP).bind fun _ m₂ hP₂ => ?_)
      rcases htake (by omega) hP₂ with hrun | ⟨found, m₃, hrun, hfill⟩
      · exact Runs.step hrun (GcM.runs_exhausted hcount (hfull _ _ (by omega) hP₂))
      · exact Runs.step hrun (Runs.pure hfill)
    · exact Runs.step hrun (Runs.pure hfill)
  rw [allocate_eq]
  refine Runs.step GcM.run_own ?_
  by_cases hlim : m.own.region.length < blockWords words
  · simp only [hlim, if_true]
    exact Runs.stop (GcM.run_tooLarge hcount hlim) (hlarge _ _)
  · simp only [hlim, if_false]
    refine Runs.step GcM.run_stressed ?_
    cases m.stress with
    | false => exact hserve (by decide) hm
    | true =>
      simp only [if_true]
      exact (hcollect (by decide) hm).bind fun _ _ h₁ => hserve (by decide) h₁

end Allocate

/-- A new object, after a collection if need be. -/
theorem allocate_runs (hg : Good m blocks) {words : Nat} (hpos : 1 ≤ words)
    (hcount : (words + headerWords) * wordBytes < wordValues) :
    Runs (allocate words) m (fun o m' => ∃ ρ S' k, k ≤ 3 ∧ Moved (Kept Good) m m'
      (Held blocks) S' ρ k ∧ S' o ∧
      operations.Roomy 1 m' o words ∧ (∀ i, i < words → m'.heap.word (o + i) = 0) ∧ ∀ x,
        m.Reachable x → ρ x ≠ o) Fatal := by
  let P (k : Nat) (m₁ : Machine MarkSweep) : Prop :=
    ∃ blocks₁ ρ, Good m₁ blocks₁ ∧ Moved (Kept Good) m m₁ (Held blocks) (Held blocks₁) ρ k
  refine allocate_by (P := P) (blockWords_eq hpos ▸ hcount)
    ⟨blocks, id, hg, Moved.refl ⟨blocks, hg, rfl⟩ (layout.housed hg).closed (layout.roots hg)⟩ ?_
    (fun _ _ => rfl) (fun _ _ _ _ => rfl) ?_
  · rintro k m₁ - ⟨blocks₁, ρ, hg₁, hmv⟩
    refine (collect_moves hg₁).mono ?_
    rintro - m₂ ⟨blocks₂, hg₂, hmv₂⟩
    exact ⟨blocks₂, _, hg₂, hmv.trans hmv₂ ((layout.housed hg₁).named layout.header)⟩
  · rintro k m₁ hk ⟨blocks₁, ρ, ⟨ts, rfl, ht⟩, hmv⟩
    rcases take?_grows ht hpos with hrun | ⟨found, m₂, hrun, hfill⟩
    · exact .inl hrun
    · exact .inr ⟨found, m₂, hrun, layout.allocated (by omega) hmv ⟨ts, rfl, ht⟩ hfill⟩

theorem allocate_traps {m : Machine MarkSweep} {words : Nat} (hpos : 1 ≤ words)
    (hlim : m.own.region.length < blockWords words)
    (hover : wordValues ≤ (words + headerWords) * wordBytes) :
    allocate words m = .error .trap m := by
  rw [allocate_eq, bind_ok GcM.run_own]
  simp only [hlim, if_true]
  exact bind_error (GcM.tooLarge_trap (blockWords_eq hpos ▸ hover))

/-- No failure can tell of so many bytes, and the request ends there. -/
theorem allocate_overflows (hg : Good m blocks) {words : Nat} (hpos : 1 ≤ words)
    (hover : wordValues ≤ (words + headerWords) * wordBytes) :
    allocate words m = .error .trap m := by
  obtain ⟨ts, -, hg⟩ := hg
  have hlim : m.own.region.length < blockWords words := by
    have hsmall := hg.housed.small
    rw [hg.region, Arena.length_region, blockWords_eq hpos]
    simp only [wordValues, wordBytes, headerWords] at hover ⊢
    omega
  exact allocate_traps hpos hlim hover

/-! ## All operations -/

/-- The laws of a mark-sweep heap. -/
theorem laws : Laws operations (Kept Good) (operations.Roomy 1) := by
  have hcollect : ∀ {m blocks}, Good m blocks → Runs collect m (fun _ m' => ∃ ρ S' k, k ≤ 3 ∧
      Moved (Kept Good) m m' (Held blocks) S' ρ k) Fatal := by
    intro m blocks hg
    refine (collect_moves hg).mono ?_
    rintro - m' ⟨blocks', -, hmv⟩
    exact ⟨id, _, 1, by decide, hmv⟩
  exact (layout.plain (fun hg => allocate_runs hg) allocate_overflows hcollect hcollect).laws

theorem hosts : Collector.Hosts Collector.markSweep operations where
  injective s t h := by
    cases h
    rfl
  allocate n h := by rw [Collector.allocate, bind_ok GcM.run_own, h]; rfl
  collect h := by rw [Collector.collect, bind_ok GcM.run_own, h]; rfl
  collectFull h := by
    rw [Collector.collectFull, bind_ok GcM.run_own, h]
    change Collector.collect _ = _
    rw [Collector.collect, bind_ok GcM.run_own, h]
    rfl
  writeField o a v h := by rw [Collector.writeField,
    bind_ok GcM.run_own, h]; exact (Collector.within_heap h).symm
  writeRoot r v h := by rw [Collector.writeRoot,
    bind_ok GcM.run_own, h]; exact (Collector.within_roots h).symm
  initField a v h := by rw [Collector.initField,
    bind_ok GcM.run_own, h]; exact (Collector.within_heap h).symm
  push v h := by rw [Collector.push, bind_ok GcM.run_own, h]; exact (Collector.within_roots h).symm
  pop h := by rw [Collector.pop, bind_ok GcM.run_own, h]; exact (Collector.within_roots h).symm
  noteCopy o h := by rw [Collector.noteCopy,
    bind_ok GcM.run_own, h]; exact (Collector.within_pure h).symm
  objects _ := rfl
  headerWords _ := rfl

/-- A new mark-sweep heap satisfies the invariant. -/
theorem start_kept {c : Config} {u : Mutator} (hc : c.strategy = .markSweep) (h2 : 2 ≤ c.heapWords)
    (hu : c.Makes u) :
    ∃ S, Collector.Hosted Collector.markSweep (Kept Good) u.machine S := by
  obtain ⟨hash, rfl, hres⟩ := hu.eq
  obtain ⟨l, heap, hof⟩ : ∃ l heap, FreeList.ofRegion (Arena.ofBytes c.heapSize).region c.fit
    (Arena.ofBytes c.heapSize) = (l, heap) :=
    ⟨_, _, rfl⟩
  have hbuild : Machine.ofConfig c hash =
    ⟨heap, Roots.empty c.stackCapacity c.globalTableSize hash, c.stress, {},
      .markSweep ⟨(Arena.ofBytes c.heapSize).region, l, c.markStackCapacity⟩⟩ := by
    rw [Machine.ofConfig, Collector.build, hc]
    simp only [build, hof]
    rfl
  have hwords := c.size_ofBytes
  obtain ⟨hsize, htiled⟩ := tiled_ofRegion (h := Arena.ofBytes c.heapSize) c.fit
    (by rw [hwords]; exact (Config.reserved hres).1) (by rw [hwords]; exact h2)
  rw [hof] at hsize htiled
  simp only at hsize htiled
  refine ⟨Held [], _, congrArg Machine.own hbuild, [],
    ⟨[⟨0, (Arena.ofBytes c.heapSize).size, true⟩], rfl, ?_⟩, rfl⟩
  rw [Mutator.ofConfig, hbuild]
  refine ⟨?_, ?_, htiled.toTiles.housed (by simp [objectsIn, usedRuns]) (closed_nil _),
    Roots.empty_within _ _ _ _⟩
  · simp only [Machine.withOwn_own, Machine.withOwn_heap, Arena.region, hsize]
  · simp only [Machine.withOwn_own, Machine.withOwn_heap, hsize]
    exact htiled

end Reclaim.MarkSweep
