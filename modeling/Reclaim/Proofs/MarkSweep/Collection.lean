import Reclaim.MarkSweep
import Reclaim.Proofs.Chunks
import Reclaim.Proofs.Marking
import Reclaim.Proofs.Renaming

/-!
# Mark-sweep collection

What a collection does to an arena that consists of free tiles and tiles that are handed out: what
the roots reach stays as it is, and the free list is built anew from everything else. Marks are kept
in a bitmap beside the arena (`InBitmap`). The sweep overwrites the first words of dead tiles while
it is still walking, but never a word that it has yet to read; `Sweeping` is the state between two
steps, with the tiles `us` behind the scan as a ghost.

Results:
* `sweepFrom_runs`: the sweep ends, with no two free neighbours.
* `collect_sweeps`: a collection that fails has changed nothing.
* `collect_runs`: a collection that ends leaves what `Swept` says; it fails if the mark stack
  overflows or if the roots reach something that is no object.
* `collect_keeps_reachable`: the objects, the free list and the measurements afterwards.
-/

namespace Reclaim.MarkSweep

/-- The state between collections: the arena consists of the tiles `ts`, the free list threads the
free ones, and the roots refer to objects of `S` alone, which lie in tiles that are handed out and
refer to each other. -/
structure Inv (m : Machine MarkSweep) (ts : List Tile) (S : Nat → Prop) : Prop where
  region : m.own.region = m.heap.region
  tiled : Tiled m.own.freeList m.heap 0 m.heap.size ts
  placed : ∀ o, S o → ∃ t ∈ ts, t.free = false ∧ o = t.start + 1 ∧ 1 + m.heap.payload o ≤ t.size
  linked : Linked m.heap S
  roots : m.roots.Within S

/-- What a collection relies on, in whatever state the free list is: the arena consists of the tiles
`ts`, and the roots refer to objects of `S` alone, which lie in tiles that are handed out and refer
to each other. -/
structure Filled (m : Machine MarkSweep) (ts : List Tile) (S : Nat → Prop) : Prop where
  region : m.own.region = m.heap.region
  tiles : Tiles m.heap 0 m.heap.size ts
  placed : ∀ o, S o → ∃ t ∈ ts, t.free = false ∧ o = t.start + 1 ∧ 1 + m.heap.payload o ≤ t.size
  linked : Linked m.heap S
  roots : m.roots.Within S

variable {m₀ : Machine MarkSweep} {ts : List Tile} {S : Nat → Prop} {ms : List Nat}

theorem Inv.filled (hi : Inv m₀ ts S) : Filled m₀ ts S :=
  ⟨hi.region, hi.tiled.toTiles, hi.placed, hi.linked, hi.roots⟩

/-! ## Marks -/

theorem marked?_eq {b : MarkBitmap} {a : Nat} (ha : a < b.marks.size) :
    b.marked? a = some (b.isMarked a) := by
  simp [MarkBitmap.isMarked, MarkBitmap.marked?, ha]

theorem isMarked_of_some {m : Machine (MarkSweep × MarkBitmap)} {a : Nat} {b : Bool}
    (hb : m.own.2.marked? a = some b) :
    isMarked a m = .ok b m := by
  rw [isMarked, bind_ok GcM.run_scratch, hb]
  rfl

theorem isMarked_of_none {m : Machine (MarkSweep × MarkBitmap)} {a : Nat}
    (hb : m.own.2.marked? a = none) :
    isMarked a m = .error .trap m := by
  rw [isMarked, bind_ok GcM.run_scratch, hb]
  rfl

theorem isMarked_run {m : Machine (MarkSweep × MarkBitmap)} {a : Nat}
    (ha : a < m.own.2.marks.size) :
    isMarked a m = .ok (m.own.2.isMarked a) m := isMarked_of_some (marked?_eq ha)

/-- Exactly the objects `ms` are marked, and nothing else has changed since `m₀`. -/
structure InBitmap (m₀ m : Machine (MarkSweep × MarkBitmap)) (ms : List Nat) : Prop where
  rest : m = (m₀.withOwn (m₀.own.1, m.own.2)).withRoots m.roots
  size_eq : m.own.2.marks.size = m₀.own.2.marks.size
  mark : ∀ a, m.own.2.isMarked a = decide (a ∈ ms)

/-- The state in which a collection begins. -/
def begun (m : Machine MarkSweep) : Machine (MarkSweep × MarkBitmap) :=
  m.withOwn (m.own, MarkBitmap.empty m.own.region.length)

theorem InBitmap.unmarked {m : Machine (MarkSweep × MarkBitmap)}
    (hclean : ∀ a, m.own.2.isMarked a = false) : InBitmap m m [] := by
  refine ⟨rfl, rfl, fun a => ?_⟩
  rw [decide_eq_false List.not_mem_nil]
  exact hclean a

theorem InBitmap.start (m : Machine MarkSweep) : InBitmap (begun m) (begun m) [] :=
  .unmarked fun _ => MarkBitmap.isMarked_empty _ _

/-- Marks lie beside the arena. -/
theorem InBitmap.heap_eq {m₀ m : Machine (MarkSweep × MarkBitmap)} (hm : InBitmap m₀ m ms) :
    m.heap = m₀.heap := by
  rw [hm.rest]
  rfl

/-- Addresses that have a bit can be marked. -/
theorem claim_claiming {m₀ : Machine (MarkSweep × MarkBitmap)} {V : Nat → Prop}
    (hbits : ∀ o, V o → o < m₀.own.2.marks.size) :
    Marking.Claiming claim V (InBitmap m₀) := by
  intro m ms o hm ho
  have hlt : o < m.own.2.marks.size := by
    rw [hm.size_eq]
    exact hbits o ho
  have hmark := hm.mark o
  by_cases hmem : o ∈ ms
  · refine ⟨false, m, ?_, rfl, .inr ⟨rfl, hmem, hm⟩⟩
    rw [claim, bind_ok (isMarked_run hlt), hmark, decide_eq_true hmem]
    rfl
  · refine ⟨true, m.withOwn (m.own.1, m.own.2.mark o), ?_, rfl,
      .inl ⟨rfl, hmem, ?_, ?_, fun a => ?_⟩⟩
    · rw [claim, bind_ok (isMarked_run hlt), hmark, decide_eq_false hmem]
      rfl
    · rw [hm.rest]
      rfl
    · simpa [MarkBitmap.mark] using hm.size_eq
    · simp only [Machine.withOwn_own, MarkBitmap.isMarked_mark, hm.mark a,
        decide_eq_true hlt, Bool.and_true]
      by_cases hao : a = o
      · subst hao
        simp
      · simp [hao, Ne.symm hao]

namespace Filled

/-- Every address of the arena has a bit. -/
theorem bits (hi : Filled m₀ ts S) : m₀.heap.size ≤ (begun m₀).own.2.marks.size := by
  have hlen : m₀.own.region.length = m₀.heap.size := by
    rw [hi.region]
    exact Region.length_ofLength _ _
  simp only [begun, Machine.withOwn_own, MarkBitmap.empty, Array.size_replicate, hlen]
  omega

theorem inside (hi : Filled m₀ ts S) {o : Nat} (ho : S o) : 1 ≤ o ∧
    o + m₀.heap.extent o ≤ m₀.heap.size := by
  obtain ⟨t, ht, -, rfl, hfit⟩ := hi.placed o ho
  have hb := hi.tiles.bounds ht
  unfold Arena.extent
  omega

theorem claims (hi : Filled m₀ ts S) : Marking.Claims claim m₀.heap S (InBitmap (begun m₀)) where
  run := claim_claiming fun o ho => by
    have hin := hi.inside ho
    have hpos := m₀.heap.extent_pos (o := o)
    have hbits := hi.bits
    omega
  roots r hm := ⟨by rw [hm.rest]; rfl, hm.size_eq, hm.mark⟩
  size_eq hm := by rw [hm.heap_eq]; rfl
  word hm o i _ _ := by rw [hm.heap_eq]; rfl
  inside o ho := (hi.inside ho).2
  linked := hi.linked

end Filled

/-! ## The sweep -/

/-- The tile holds a marked object. -/
def isKept (ms : List Nat) (t : Tile) : Bool := !t.free && decide (t.start + 1 ∈ ms)

/-- Words in a list of tiles. -/
def wordsOf (ts : List Tile) : Nat := (ts.map Tile.size).sum

/-- The sweep has come to `scan`: of the tiles that it began with, `ps` are done and `rs` are ahead;
behind it there are now the tiles `us`. -/
structure Sweeping (m₀ : Machine MarkSweep) (ts : List Tile) (ms : List Nat) (ps rs us : List Tile)
    (scan : Nat) (m : Machine (MarkSweep × MarkBitmap)) : Prop where
  split : ts = ps ++ rs
  tiled : Tiled m.own.1.freeList m.heap 0 scan us
  ahead : Tiles m.heap scan m₀.heap.size rs
  merged : Merged us
  kept : us.filter (fun t => !t.free) = ps.filter (isKept ms)
  /-- Only words of tiles that hold no marked object are written. -/
  word : ∀ a, (∀ t ∈ ps, t.Covers a → isKept ms t = true) → m.heap.word a = m₀.heap.word a
  size_eq : m.heap.size = m₀.heap.size
  mark : ∀ a, m.own.2.isMarked a = decide (a ∈ ms)
  bits : m₀.heap.size ≤ m.own.2.marks.size
  own : m.own.1 = { m₀.own with freeList := m.own.1.freeList }
  fit : m.own.1.freeList.fit = m₀.own.freeList.fit
  rest : m = ((m₀.withHeap m.heap).withOwn m.own)

namespace Sweeping

variable {ps rs us : List Tile} {t : Tile} {scan : Nat} {m : Machine (MarkSweep × MarkBitmap)}

/-- A tile that holds a marked object stays. -/
theorem keep (hs : Sweeping m₀ ts ms ps (t :: rs) us scan m) (hk : isKept ms t = true) :
    Sweeping m₀ ts ms (ps ++ [t]) rs (us ++ [t]) (scan + t.size) m := by
  obtain ⟨mid, h1, h2⟩ := hs.ahead.uncons
  obtain rfl : scan + t.size = mid := h1.stacked.2.2
  obtain ⟨hf, -⟩ : t.free = false ∧ t.start + 1 ∈ ms := by simpa [isKept] using hk
  refine ⟨by rw [hs.split]; simp, hs.tiled.snoc_used h1 hf, h2,
    hs.merged.snoc_used hf, ?_, fun a ha => ?_, hs.size_eq,
    hs.mark, hs.bits, hs.own, hs.fit, hs.rest⟩
  · rw [List.filter_append, List.filter_append, hs.kept]
    simp [hf, hk]
  · exact hs.word a fun u hu => ha u (by simp [hu])

/-- Any other tile goes to the free list. -/
theorem release (hs : Sweeping m₀ ts ms ps (t :: rs) us scan m)
    (htiles : Tiles m₀.heap 0 m₀.heap.size ts) (hk : isKept ms t = false) :
    ∃ l h, m.own.1.freeList.pushBack scan t.size m.heap = .ok l h ∧
      Sweeping m₀ ts ms (ps ++ [t]) rs (addFree us scan t.size) (scan + t.size)
        ((m.withHeap h).withOwn ({ m.own.1 with freeList := l }, m.own.2)) := by
  obtain ⟨mid, h1, h2⟩ := hs.ahead.uncons
  obtain rfl : t.start = scan := h1.stacked.1
  obtain rfl : t.start + t.size = mid := h1.stacked.2.2
  have hle := h2.stacked.le
  have hsize := hs.size_eq
  have hpast : Tiles m₀.heap 0 t.start ps := by
    rw [hs.split] at htiles
    obtain ⟨mid, h3, h4⟩ := htiles.split
    obtain rfl : t.start = mid := h4.stacked.1
    exact h3
  obtain ⟨l, h, hrun, htiled, hfit, hsz, hword⟩ := hs.tiled.pushBack_run (n := t.size)
    (h1.large t (by simp)) (by omega)
  -- a word of a kept tile lies in no free tile behind the scan
  have hclear : ∀ a, a < t.start → (∀ p ∈ ps, p.Covers a → isKept ms p = true) → ∀ u ∈ us,
      u.free = true → ¬ u.Covers a := by
    intro a ha hps u hu hf hua
    obtain ⟨p, hp, hpa⟩ := hpast.exists_covers (Nat.zero_le a) ha
    have hpu : p ∈ us.filter fun t => !t.free := by
      rw [hs.kept]
      exact List.mem_filter.mpr ⟨hp, hps p hp hpa⟩
    obtain ⟨hpu, hpf⟩ := List.mem_filter.mp hpu
    rw [hs.tiled.eq_of_covers hpu hu hpa hua, hf] at hpf
    cases hpf
  have hframe : ∀ a, (∀ p ∈ ps, p.Covers a → isKept ms p = true) → ¬ t.Covers a →
      h.word a = m.heap.word a := by
    intro a hps hta
    have hout : a < t.start ∨ t.start + t.size ≤ a := by
      unfold Tile.Covers at hta
      omega
    refine hword a (fun u hu hf hua => ?_) hout
    have hub := hs.tiled.bounds hu
    exact hclear a (by unfold Tile.Covers at hua; omega) hps u hu hf hua
  have hnot : ¬ isKept ms t = true := by
    rw [hk]
    decide
  refine ⟨l, h, hrun, by rw [hs.split]; simp, htiled, h2.congr hsz fun u hu => ?_,
    hs.merged.addFree _ _, ?_, fun a ha => ?_,
    hsz.trans hsize, hs.mark, hs.bits, by rw [hs.own]; rfl, hfit.trans hs.fit, ?_⟩
  · have hub := h2.bounds hu
    refine hframe _ (fun p hp hpa => ?_) fun hta => ?_
    · have hpb := hpast.bounds hp
      unfold Tile.Covers at hpa
      omega
    · unfold Tile.Covers at hta
      omega
  · rw [filter_used_addFree, hs.kept, List.filter_append]
    simp [hk]
  · have hps : ∀ p ∈ ps, p.Covers a → isKept ms p = true := fun p hp => ha p (by simp [hp])
    rw [Machine.withOwn_heap, Machine.withHeap_heap, hframe a hps
      fun hta => hnot (ha t (by simp) hta)]
    exact hs.word a hps
  · rw [hs.rest]
    rfl

end Sweeping

/-- The mark of the object in a tile tells whether the tile is kept. -/
theorem Filled.isKept_eq (hi : Filled m₀ ts S) (hms : ∀ o ∈ ms, S o) {t : Tile} (ht : t ∈ ts) :
    isKept ms t = decide (t.start + 1 ∈ ms) := by
  unfold isKept
  by_cases hm : t.start + 1 ∈ ms
  · obtain ⟨u, hu, hf, he, -⟩ := hi.placed _ (hms _ hm)
    obtain rfl : t = u := hi.tiles.eq_of_start ht hu (by omega)
    simp [hf]
  · simp [hm]

/-- The sweep ends at the end of the arena, with the words of the kept tiles counted. -/
theorem sweepFrom_runs (hi : Filled m₀ ts S) (hms : ∀ o ∈ ms, S o) {ps rs us : List Tile}
    {scan n live : Nat} {m : Machine (MarkSweep × MarkBitmap)}
    (hs : Sweeping m₀ ts ms ps rs us scan m) (hn : rs.length < n)
    (E : Failure → Machine (MarkSweep × MarkBitmap) → Prop) :
    Runs (sweepFrom m₀.heap.size n scan live) m
    (fun r m' => r = live + wordsOf (rs.filter (isKept ms)) ∧
      ∃ us', Sweeping m₀ ts ms ts [] us' m₀.heap.size m') E := by
  induction rs generalizing ps us scan n live m with
  | nil =>
    obtain ⟨n, rfl⟩ : ∃ k, n = k + 1 := ⟨n - 1, by omega⟩
    obtain rfl : scan = m₀.heap.size := hs.ahead.stacked
    obtain rfl : ts = ps := by rw [hs.split, List.append_nil]
    rw [sweepFrom, if_neg (Nat.lt_irrefl _)]
    exact Runs.pure ⟨rfl, us, hs⟩
  | cons t rs ih =>
    simp only [List.length_cons] at hn
    obtain ⟨n, rfl⟩ : ∃ k, n = k + 1 := ⟨n - 1, by omega⟩
    have hst : t.start = scan := hs.ahead.stacked.1
    have hb := hs.ahead.bounds (t := t) (by simp)
    have hz := hs.ahead.sized t (by simp)
    have hsize := hs.size_eq
    have hbits := hs.bits
    have hkept := hi.isKept_eq hms (t := t) (by rw [hs.split]; simp)
    rw [hst] at hb hz hkept
    rw [sweepFrom, if_pos (by omega)]
    refine Runs.step (read_lift (loadNat_run (by omega))) ?_
    rw [hz]
    refine Runs.step (isMarked_run (a := scan + headerWords) (by simp only [headerWords]; omega)) ?_
    rw [hs.mark, show scan + headerWords = scan + 1 from rfl, ← hkept]
    cases hk : isKept ms t with
    | true =>
      simp only [if_true]
      refine (ih (hs.keep hk) (by omega)).mono ?_
      rintro r m' ⟨hr, hs'⟩
      refine ⟨?_, hs'⟩
      rw [hr, List.filter_cons_of_pos hk]
      simp only [wordsOf, List.map_cons, List.sum_cons]
      omega
    | false =>
      simp only [Bool.false_eq_true, if_false]
      obtain ⟨l, h, hrun, hs'⟩ := hs.release hi.tiles hk
      refine Runs.step GcM.run_own (Runs.step (heap_lift hrun) (Runs.step (GcM.run_modifyOwn _) ?_))
      refine (ih hs' (by omega)).mono ?_
      rintro r m' ⟨hr, hs''⟩
      refine ⟨?_, hs''⟩
      rw [hr, List.filter_cons_of_neg (by rw [hk]; decide)]

/-- The sweep begins with an empty list. -/
theorem Sweeping.start (hi : Filled m₀ ts S) {m : Machine (MarkSweep × MarkBitmap)}
    (hm : InBitmap (begun m₀) m ms) (hroots : m.roots = m₀.roots) :
    Sweeping m₀ ts ms [] ts [] 0 (m.withOwn ({ m.own.1 with
      freeList := m.own.1.freeList.reset }, m.own.2)) := by
  have hheap : m.heap = m₀.heap := hm.heap_eq
  have hown : m.own.1 = m₀.own := by
    rw [hm.rest]
    rfl
  have hsmall := hi.tiles.small
  refine ⟨rfl, ⟨⟨by simpa [hheap] using hsmall, Nat.zero_le _, rfl, by simp, by simp⟩, rfl, rfl,
    rfl⟩, ?_, by simp [Merged], rfl,
    fun a _ => by rw [Machine.withOwn_heap, hheap], by rw [Machine.withOwn_heap,
      hheap], hm.mark, ?_, by rw [hown]; rfl,
    by rw [hown]; rfl, ?_⟩
  · rw [Machine.withOwn_heap, hheap]
    exact hi.tiles
  · have hbits := hi.bits
    rw [Machine.withOwn_own, hm.size_eq]
    exact hbits
  · rw [hm.rest, hroots]
    rfl

theorem sweep_runs (hi : Filled m₀ ts S) (hms : ∀ o ∈ ms, S o)
    {m : Machine (MarkSweep × MarkBitmap)} (hm : InBitmap (begun m₀) m ms)
    (hroots : m.roots = m₀.roots) (E : Failure → Machine (MarkSweep × MarkBitmap) → Prop) :
    Runs sweep m (fun live m' => live = wordsOf (ts.filter (isKept ms)) ∧
      ∃ us, Sweeping m₀ ts ms ts [] us m₀.heap.size m') E := by
  have hstart := Sweeping.start hi hm hroots
  have hregion : m.own.1.region = ⟨0, m₀.heap.size⟩ := by
    rw [hm.rest]
    exact hi.region.trans (Arena.region_eq _)
  have hlen := hi.tiles.stacked.length_le
  rw [List.length_map] at hlen
  rw [sweep]
  refine Runs.step (GcM.run_modifyOwn _) (Runs.step GcM.run_own ?_)
  change Runs (sweepFrom m.own.1.region.limit
    (m.own.1.region.length + 1) m.own.1.region.first 0) _ _ _
  rw [show sweepFrom m.own.1.region.limit (m.own.1.region.length + 1) m.own.1.region.first 0
    = sweepFrom m₀.heap.size (m₀.heap.size - 0 + 1) 0 0 by rw [hregion]; rfl]
  refine (sweepFrom_runs hi hms hstart (n := m₀.heap.size - 0 + 1) (by omega) E).mono ?_
  rintro live m' ⟨rfl, hs⟩
  exact ⟨by rw [Nat.zero_add], hs⟩

/-! ## The whole collection -/

/-- The tile is handed out, but holds no marked object. -/
def isDead (ms : List Nat) (t : Tile) : Bool := !t.free && !isKept ms t

/-- What a collection that marked `ms` makes of `m`, where the arena consisted of the tiles `ts` and
now of `us`. -/
structure Swept (m m' : Machine MarkSweep) (ts us : List Tile) (ms : List Nat) : Prop where
  reach : ∀ o, o ∈ ms ↔ Reach m.heap m.roots.Refers o
  known : ∀ o ∈ ms, m.heap.tag o ≠ none
  roots : m'.roots = m.roots
  /-- The tiles of marked objects stay, with all their words. -/
  word : ∀ t ∈ ts, isKept ms t = true → ∀ a, t.Covers a → m'.heap.word a = m.heap.word a
  kept : us.filter (fun t => !t.free) = ts.filter (isKept ms)
  merged : Merged us
  inv : Inv m' us (· ∈ ms)
  size_eq : m'.heap.size = m.heap.size
  stats : m'.stats = m.stats.recordCycle .full (wordsOf (ts.filter (isDead ms)))
    (wordsOf (ts.filter (isKept ms)))
  own : m'.own = { m.own with freeList := m'.own.freeList }
  fit : m'.own.freeList.fit = m.own.freeList.fit
  stress : m'.stress = m.stress

section Outcome

variable {us : List Tile} {m : Machine (MarkSweep × MarkBitmap)}

theorem sum_usedRuns (ts : List Tile) :
    ((usedRuns ts).map Prod.snd).sum = wordsOf (ts.filter fun t => !t.free) := by
  rw [usedRuns, List.map_map]
  rfl

/-- What is handed out is kept or dead. -/
theorem words_used (ms : List Nat) (ts : List Tile) : wordsOf (ts.filter fun t => !t.free)
    = wordsOf (ts.filter (isKept ms)) + wordsOf (ts.filter (isDead ms)) := by
  induction ts with
  | nil => rfl
  | cons t ts ih =>
    cases hf : t.free <;> cases hk : decide (t.start + 1 ∈ ms) <;>
      simp [isKept, isDead, hf, hk, wordsOf] at ih ⊢ <;> omega

/-- The words that the free list has gained are those of the dead tiles. -/
theorem Sweeping.gained (hi : Inv m₀ ts S) (hs : Sweeping m₀ ts ms ts [] us m₀.heap.size m) :
    m.own.1.freeList.freeWords - m₀.own.freeList.freeWords = wordsOf (ts.filter (isDead ms)) := by
  have h1 := hi.tiled.stacked.end_eq
  have h2 := hs.tiled.stacked.end_eq
  have h3 := words_used ms ts
  rw [sum_runs, ← hi.tiled.freeWords, sum_usedRuns] at h1
  rw [sum_runs, ← hs.tiled.freeWords, sum_usedRuns, hs.kept] at h2
  omega

theorem Sweeping.word_kept (hi : Filled m₀ ts S) (hs : Sweeping m₀ ts ms ts [] us m₀.heap.size m)
    {t : Tile} (ht : t ∈ ts) (hk : isKept ms t = true) {a : Nat} (ha : t.Covers a) :
    m.heap.word a = m₀.heap.word a := by
  refine hs.word a fun u hu hua => ?_
  rw [← hi.tiles.eq_of_covers ht hu ha hua]
  exact hk

/-- A marked object lies in a tile that is kept, with all its words. -/
theorem Filled.kept_of_marked (hi : Filled m₀ ts S) (hms : ∀ o ∈ ms, S o) {o : Nat} (ho : o ∈ ms) :
    ∃ t ∈ ts, isKept ms t = true ∧ o = t.start + 1 ∧ 1 + m₀.heap.payload o ≤ t.size ∧
      ∀ i, i < m₀.heap.extent o → t.Covers (o + i) := by
  obtain ⟨t, ht, hf, rfl, hfit⟩ := hi.placed o (hms o ho)
  have hb := hi.tiles.bounds ht
  refine ⟨t, ht, by simp [isKept, hf, ho], rfl, hfit, fun i hlt => ?_⟩
  unfold Arena.extent at hlt
  unfold Tile.Covers
  omega

theorem Sweeping.linked (hi : Filled m₀ ts S) (hms : ∀ o ∈ ms, S o)
    (hs : Sweeping m₀ ts ms ts [] us m₀.heap.size m) (hl : Linked m₀.heap (· ∈ ms)) :
    Linked m.heap (· ∈ ms) := by
  intro o a ho ht ha
  obtain ⟨t, htm, hk, -, -, hc⟩ := hi.kept_of_marked hms ho
  have hword : ∀ i, i < m₀.heap.extent o →
      m.heap.word (o + i) = m₀.heap.word (o + i) := fun i hlt =>
    hs.word_kept hi htm hk (hc i hlt)
  have hhead : m.heap.word o = m₀.heap.word o := hword 0 m₀.heap.extent_pos
  rw [Arena.tag_congr hhead] at ht
  have hext := Arena.extent_of_pair ht
  obtain ⟨i, hi12, rfl⟩ : ∃ i, (i = 1 ∨ i = 2) ∧ a = o + i := by
    rcases ha with rfl | rfl
    · exact ⟨1, .inl rfl, rfl⟩
    · exact ⟨2, .inr rfl, rfl⟩
  rw [Arena.value_congr (hword i (by omega))]
  exact hl o _ ho ht (by omega)

end Outcome

/-- A collection that marks all it finds sweeps the arena; otherwise it stops and has changed
nothing. -/
theorem collect_sweeps {m : Machine MarkSweep} (hi : Filled m ts S) :
    Runs collect m (fun _ m' => ∃ ms us m₁,
      (∀ o, o ∈ ms ↔ Reach m.heap m.roots.Refers o) ∧ (∀ o ∈ ms, m.heap.tag o ≠ none) ∧
        Sweeping m ts ms ts [] us m.heap.size m₁ ∧
      m' = { m₁.withOwn m₁.own.1 with
        stats := m₁.stats.recordCycle .full (m₁.own.1.freeList.freeWords - m.own.freeList.freeWords)
          (wordsOf (ts.filter (isKept ms))) })
    (fun f m' => Marking.MarkStops m.own.markCapacity m.heap m.roots.Refers f m ∧ m' = m) := by
  rw [collect]
  refine Runs.step GcM.run_own ?_
  refine (GcM.runs_withScratch
    (Q := fun a m' => ∃ ms us m₁, (∀ o, o ∈ ms ↔ Reach m.heap m.roots.Refers o) ∧
    (∀ o ∈ ms, m.heap.tag o ≠ none) ∧ Sweeping m ts ms ts [] us m.heap.size m₁ ∧
      a.1 = wordsOf (ts.filter (isKept ms)) ∧
    m' = m₁.withOwn m₁.own.1) ?_).bind ?_
  · refine Runs.bind ((Marking.mark_runs hi.claims (.start m) hi.roots).mono_fail ?_) ?_
    · rintro f m1 ⟨hf, hroots, ms, hm1⟩
      refine ⟨hf, ?_⟩
      rw [hm1.rest, hroots]
      rfl
    rintro - m1 ⟨hroots1, ms, hm1, -, hreach, hknown⟩
    have hms : ∀ o ∈ ms, S o :=
      fun o ho => ((hreach o).mp ho).mem_of_linked hi.linked fun _ h => hi.roots.refers h
    refine (sweep_runs hi hms hm1 hroots1 _).mono ?_
    rintro live m2 ⟨hlive, us, hs⟩
    exact ⟨ms, us, m2, hreach, hknown, hs, hlive, rfl⟩
  · rintro ⟨live, marks⟩ m1 ⟨ms, us, m2, hreach, hknown, hs, rfl, rfl⟩
    exact Runs.step GcM.run_own
      (Runs.of_eq (GcM.run_recordCycle _ _ _) ⟨ms, us, m2, hreach, hknown, hs, rfl⟩)

/-- A collection ends, overflows its mark stack or meets something that is no object. -/
theorem collect_runs {m : Machine MarkSweep} (hi : Inv m ts S) :
    Runs collect m (fun _ m' => ∃ us ms, Swept m m' ts us ms)
    (Marking.MarkStops m.own.markCapacity m.heap m.roots.Refers) := by
  refine ((collect_sweeps hi.filled).mono ?_).mono_fail fun _ _ hf => hf.1
  rintro - - ⟨ms, us, m2, hreach, hknown, hs, rfl⟩
  have hfill := hi.filled
  have hms : ∀ o ∈ ms, S o :=
    fun o ho => ((hreach o).mp ho).mem_of_linked hi.linked fun _ h => hi.roots.refers h
  have hl := hi.linked.reach fun _ h => hi.roots.refers h
  have hstress : m2.stress = m.stress := by rw [hs.rest]; rfl
  have hstats : m2.stats = m.stats := by rw [hs.rest]; rfl
  have hroots : m2.roots = m.roots := by rw [hs.rest]; rfl
  refine ⟨us, ms, hreach, hknown, hroots, ?_, hs.kept, hs.merged,
    ⟨?_, ?_, ?_, hs.linked hfill hms ?_, ?_⟩, hs.size_eq, ?_, hs.own, hs.fit, hstress⟩
  · intro t ht hk a ha
    exact hs.word_kept hfill ht hk ha
  · simp only [Machine.withOwn_own, Machine.withOwn_heap, Arena.region, hs.size_eq]
    rw [hs.own]
    exact hi.region
  · simp only [Machine.withOwn_own, Machine.withOwn_heap, hs.size_eq]
    exact hs.tiled
  · intro o ho
    obtain ⟨t, ht, hk, he, hfit, hc⟩ := hfill.kept_of_marked hms ho
    have hhead : m2.heap.word o = m.heap.word o := hs.word_kept hfill ht hk (hc 0 m.heap.extent_pos)
    have htu : t ∈ us.filter fun t => !t.free := by
      rw [hs.kept]
      exact List.mem_filter.mpr ⟨ht, hk⟩
    obtain ⟨htu, htf⟩ := List.mem_filter.mp htu
    refine ⟨t, htu, by simpa using htf, he, ?_⟩
    rw [Machine.withOwn_heap, Arena.payload_congr hhead]
    exact hfit
  · intro o a ho ht ha
    exact (hl o a ((hreach o).mp ho) ht ha).mono fun c hc => (hreach c).mpr hc
  · intro slot v hv c hc
    rw [show (m2.withOwn m2.own.1).roots = m.roots from hroots] at hv
    exact ⟨(hi.roots slot v hv c hc).1, (hreach c).mpr (.root ⟨slot, v, hv, hc⟩)⟩
  · simp only [hstats]
    rw [hs.gained hi]

/-- A tile is kept if and only if its object is reachable. -/
theorem Swept.isKept_iff {m m' : Machine MarkSweep} {us : List Tile}
    (hs : Swept m m' ts us ms) {t : Tile} :
    isKept ms t = true ↔ t.free = false ∧ Reach m.heap m.roots.Refers (t.start + 1) := by
  simp [isKept, hs.reach]

/-- The tiles that are handed out afterwards. -/
theorem Swept.mem_used {m m' : Machine MarkSweep} {us : List Tile}
    (hs : Swept m m' ts us ms) {t : Tile} :
    (t ∈ us ∧ t.free = false) ↔
    (t ∈ ts ∧ t.free = false ∧ Reach m.heap m.roots.Refers (t.start + 1)) := by
  have hk : t ∈ us.filter (fun t => !t.free) ↔ t ∈ ts.filter (isKept ms) := by rw [hs.kept]
  rw [List.mem_filter, List.mem_filter, hs.isKept_iff] at hk
  simpa using hk

/-- A collection that ends has kept what the roots reach, word for word, and made the free list of
the maximal runs of all other words. -/
theorem collect_keeps_reachable {m m' : Machine MarkSweep} (hi : Inv m ts S)
    (hrun : collect m = .ok () m') :
    ∃ us ms listed, Swept m m' ts us ms ∧
      objects m'.own m'.heap = .ok listed ∧
      (∀ o, (∃ n, (o, n) ∈ listed) ↔ Reach m.heap m.roots.Refers o) ∧
      m'.own.freeList.chunks m'.heap = .ok (freeRuns us) ∧
      MaximalRuns (fun a => a < m.heap.size ∧
        ∀ t ∈ ts, t.free = false → Reach m.heap m.roots.Refers (t.start + 1) → ¬ t.Covers a)
          (freeRuns us) := by
  obtain ⟨us, ms, hs⟩ := (collect_runs hi).ok hrun
  refine ⟨us, ms, (usedRuns us).map fun run => (run.1 + 1, run.2), hs, ?_, fun o => ?_,
    hs.inv.tiled.chunks_run, ?_⟩
  · have hregion : m'.own.region = ⟨0, m'.heap.size⟩ := hs.inv.region.trans (Arena.region_eq _)
    rw [objects, hregion, read_bind hs.inv.tiled.allocated_run]
    rfl
  · constructor
    · rintro ⟨n, hn⟩
      obtain ⟨⟨block, size⟩, hb, he⟩ := List.mem_map.mp hn
      cases he
      exact (hs.mem_used.mp ⟨mem_usedRuns.mp hb, rfl⟩).2.2
    · intro ho
      obtain ⟨t, ht, hf, rfl, -⟩ := hs.inv.placed o ((hs.reach o).mpr ho)
      exact ⟨t.size, List.mem_map.mpr
        ⟨t.run, List.mem_map_of_mem (List.mem_filter.mpr ⟨ht, by simp [hf]⟩), rfl⟩⟩
  · have hfree : IsFree 0 m'.heap.size us = fun a => a < m.heap.size ∧
        ∀ t ∈ ts, t.free = false → Reach m.heap m.roots.Refers (t.start + 1) → ¬ t.Covers a := by
      funext a
      simp only [IsFree, hs.size_eq, Nat.zero_le, true_and, eq_iff_iff]
      refine and_congr_right fun _ => ⟨fun h t ht hf hr => ?_, fun h t ht hf => ?_⟩
      · obtain ⟨htu, hfu⟩ := hs.mem_used.mpr ⟨ht, hf, hr⟩
        exact h t htu hfu
      · obtain ⟨htt, hft, hr⟩ := hs.mem_used.mp ⟨ht, hf⟩
        exact h t htt hft hr
    rw [← hfree]
    exact hs.inv.tiled.maximal hs.merged

/-- A dead pair with a free chunk behind it, a pair that is a root and refers to itself, and another
dead pair. -/
def patchy : Machine MarkSweep where
  heap := ⟨#[4, 2, 14, 14, 3, 0, 0, 4, 2, 64, 14, 4, 2, 64, 14]⟩
  roots :=
    { stack := #[.ofRef 8], capacity := 4, parked := 0, globals := #[.undef], hash := fun _ => 0 }
  stress := false
  stats := {}
  own := ⟨⟨0, 15⟩, ⟨.first, some 4, some 4, 3⟩, 4⟩

/-- The tiles of `patchy`. -/
def patchyTiles : List Tile := [⟨0, 4, false⟩, ⟨4, 3, true⟩, ⟨7, 4, false⟩, ⟨11, 4, false⟩]

theorem patchy_inv : Inv patchy patchyTiles (· = 8) where
  region := rfl
  tiled := {
    small := by decide
    inside := by decide
    stacked := ⟨rfl, by decide, rfl, by decide, rfl, by decide, rfl, by decide, rfl⟩
    large := by decide
    sized := by decide
    chain := ⟨rfl, rfl⟩
    tail := rfl
    freeWords := rfl }
  placed := by
    rintro o rfl
    exact ⟨⟨7, 4, false⟩, by decide, rfl, rfl, by decide⟩
  linked := by
    have hself : (Value.ofRef 8).Within (· = 8) := Value.ofRef_within (by decide) (by decide) rfl
    have hnil : Value.nil.Within (· = 8) := .of_not_ref (by decide)
    rintro o a rfl - (rfl | rfl)
    · exact hself
    · exact hnil
  roots := Roots.within_of_single rfl rfl (Value.ofRef_within (by decide) (by decide) rfl)
    (.of_not_ref (v := .undef) (by decide))

/-- The dead pairs go to the free list, the first one together with the chunk behind it. -/
theorem patchy_swept : ∃ m' us ms, collect patchy = .ok () m' ∧ Swept patchy m' patchyTiles us ms ∧
    freeRuns us = [(0, 7), (11, 4)] := by
  have hok : (match collect patchy with
      | .ok _ m' => (m'.own.freeList.chunks m'.heap).toOption == some [(0, 7), (11, 4)]
      | .error _ _ => false) = true := by
    decide +kernel
  cases hrun : collect patchy with
  | ok a m' =>
    rw [hrun] at hok
    obtain ⟨us, ms, -, hs, -, -, hchunks, -⟩ := collect_keeps_reachable patchy_inv hrun
    simp only [hchunks] at hok
    exact ⟨m', us, ms, rfl, hs, Option.some.inj (eq_of_beq hok)⟩
  | error e m' =>
    rw [hrun] at hok
    cases hok

end Reclaim.MarkSweep
