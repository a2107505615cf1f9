import Reclaim.Proofs.Counting.Scan

/-!
# Counts between operations

Between operations the counts are those of the references in fields and, if counting is eager, of
those in roots that are not parked (`Balanced`). An operation that takes a reference away first does
so and then lets go of it: the object is reclaimed, or put into the table after a scan if there is
no room.

Results:
* `enqueue_runs`: an object that nothing counts joins the table.
* `letGo_runs`, `unroot_runs`: a field or a root has let go of an object. No object is lost by that
  (`Lost`, `Tidied`).
* `Thinned.left`, `Fewer.moved`: what the mutator learns of it.
-/

namespace Reclaim.Counting

/-- The references from roots that are counted between operations. -/
def rootRefs (mode : CountMode) (r : Roots) : List Nat :=
  match mode with
  | .eager => r.refs r.unparked
  | .deferred => []

/-- The tables of the roots fit into memory, and what is parked is on the stack. -/
structure RootsFit (r : Roots) : Prop where
  depth : r.stack.size < tableLimit
  table : r.globals.size < tableLimit
  parked : r.parked ≤ r.stack.size

/-- The counts are those of the references that there are. -/
structure Balanced (m : Machine Counting) (ts : List Tile) : Prop where
  dying : Dying m ts (refs m ts (rootRefs m.own.mode m.roots)) []
  fits : RootsFit m.roots

/-- The state between operations, where counts are kept in this mode and the table has room for
`capacity` objects. -/
def Good (mode : CountMode) (capacity : Nat) (m : Machine Counting)
    (blocks : List (Nat × Nat)) : Prop :=
  ∃ ts, m.own.mode = mode ∧ m.own.zeroCounts.capacity = capacity ∧
    blocks = blocksOf m ts ∧ Balanced m ts

/-- The objects lie in their blocks, whatever the counts are and whatever the table holds. -/
structure Remains (m : Machine Counting) (ts : List Tile) : Prop where
  region : m.own.region = m.heap.region
  tiled : Tiled m.own.freeList m.heap 0 m.heap.size ts
  housed : Housed m.own.mode.headerWords m.heap (blocksOf m ts)
  roots : m.roots.Within (Held (blocksOf m ts))

/-- An object that will never be reclaimed unless a program has its address: it is listed, but its
count is zero, it does not wait in the table, and if counting is deferred, no root holds it. -/
structure Lost (m : Machine Counting) (ts : List Tile) (x : Nat) : Prop where
  stray : Stray m ts (refs m ts (rootRefs m.own.mode m.roots)) [] x
  unheld : m.own.mode = .deferred → ¬ m.roots.Refers x

/-- What the mutator is offered. -/
def operations : Operations Counting where
  allocate := allocate
  collect := collect
  collectFull := collect
  writeField _ field v := writeField field v
  writeRoot := writeRoot
  initField := initField
  push := push
  pop := pop
  noteCopy := countCopied
  objects := objects
  headerWords c := c.mode.headerWords

variable {mode : CountMode} {cap : Nat} {m m' m'' : Machine Counting} {ts ts' : List Tile}
  {T R : List Nat} {o k x : Nat} {v : Value}

theorem length_rootRefs (mode : CountMode) (r : Roots) :
    (rootRefs mode r).length ≤ r.depth + r.tableSize := by
  cases mode with
  | eager => exact Roots.length_refs_unparked
  | deferred => exact Nat.zero_le _

/-- There are never more references than can be counted. -/
theorem Stock.length_refs {doomed : List Nat} (hb : Stock m ts doomed) (hf : RootsFit m.roots)
    (hR : R.length ≤ m.roots.depth + m.roots.tableSize) :
    (refs m ts R).length < countLimit := by
  have hlen : (heapRefs m.heap (blocksOf m ts)).length ≤ 2 * (blocksOf m ts).length :=
    length_heapRefs_le
  have hle := hb.length_le
  have hsmall := hb.housed.small
  have hdepth := hf.depth
  have htable := hf.table
  simp only [tableLimit, Roots.depth, Roots.tableSize, countLimit, List.length_append] at *
  omega

/-- What is counted between operations is listed. -/
theorem Balanced.listed (hg : Balanced m ts) (ho : o ∈ refs m ts (rootRefs m.own.mode m.roots)) :
    Held (blocksOf m ts) o := by
  have hb := hg.dying.stock
  rcases List.mem_append.mp ho with ho | ho
  · exact heapRefs_held hb.housed.closed ho
  · cases hmode : m.own.mode with
    | eager =>
      rw [hmode] at ho
      exact hb.roots.refers (Roots.refers_of_mem ho)
    | deferred =>
      rw [hmode] at ho
      cases ho

theorem Stock.remains {doomed : List Nat} (hb : Stock m ts doomed) : Remains m ts :=
  ⟨hb.region, hb.tiled, hb.housed, hb.roots⟩

theorem Remains.objects_run (hr : Remains m ts) : objects m.own m.heap = .ok (blocksOf m ts) := by
  have hregion : m.own.region = ⟨0, m.heap.size⟩ := hr.region.trans (Arena.region_eq _)
  rw [objects, hregion]
  exact hr.tiled.objectsIn_run _

theorem Stock.objects_run {doomed : List Nat} (hb : Stock m ts doomed) :
    objects m.own m.heap = .ok (blocksOf m ts) :=
  hb.remains.objects_run

theorem layout (mode : CountMode) (cap : Nat) :
    Layout operations mode.headerWords (Good mode cap) where
  header := mode.header_pos
  housed := by
    rintro m blocks ⟨ts, rfl, -, rfl, hg⟩
    exact hg.dying.stock.housed
  roots := by
    rintro m blocks ⟨ts, rfl, -, rfl, hg⟩
    exact hg.dying.stock.roots
  objects := by
    rintro m blocks ⟨ts, rfl, -, rfl, hg⟩
    exact hg.dying.stock.objects_run

/-! ## Objects that are gone -/

namespace Fewer

/-- The counts are right again. -/
theorem balanced (hs : Fewer m m' ts ts') (hf : RootsFit m.roots)
    (hd : Dying m' ts' (refs m' ts' (rootRefs m.own.mode m.roots)) []) :
    Balanced m' ts' := ⟨by rw [hs.mode, hs.roots]; exact hd, by rw [hs.roots]; exact hf⟩

/-- What the roots reach is among the objects that are left. -/
theorem held_of_reachable (hs : Fewer m m' ts ts') (hcl : Closed m.heap (Held (blocksOf m ts)))
    (hb : Stock m' ts' []) (ho : m.Reachable o) :
    Held (blocksOf m' ts') o := by
  induction ho with
  | root hr =>
    rw [← hs.roots] at hr
    exact hb.roots.refers hr
  | step _ hc ih =>
    rw [← hs.same.succ (hcl.known _ (hs.held ih)) ih] at hc
    exact hb.housed.closed.succ ih hc

/-- What the roots reach stays where it is. -/
theorem moved (hs : Fewer m m' ts ts') (hm : Balanced m ts) (hg : Balanced m' ts')
    (hmode : m.own.mode = mode) (hcap : m.own.zeroCounts.capacity = cap)
    (hcycles : m'.stats.collections = m.stats.collections + UInt64.ofNat (k + 1)) :
    Moved (Kept (Good mode cap)) m m' (Held (blocksOf m ts))
    (Held (blocksOf m' ts')) id (k + 1) := by
  have hb := hm.dying.stock
  have hreach : ∀ o, m.Reachable o → Held (blocksOf m' ts') o :=
    fun o ho => hs.held_of_reachable hb.housed.closed hg.dying.stock ho
  refine .intro hb.housed.closed hb.roots
    ⟨_, ⟨ts', hs.mode.trans hmode, hs.capacity.trans hcap, rfl, hg⟩, rfl⟩ ?_ hreach ?_
      hs.stress hcycles
    (by omega)
  · exact (hs.same.mono hreach).renamed (Machine.closed_reachable hb.housed.closed hb.roots)
  · rw [hs.roots]
    exact hb.roots.mapped_id

end Fewer

/-! ## Letting go -/

/-- After an object was let go of, and `k` scans: the counts are right, and what is lost was so when
`T` was counted. -/
structure Tidied (T : List Nat) (m m' : Machine Counting) (ts ts' : List Tile) (k : Nat) :
    Prop extends Fewer m m' ts ts' where
  balanced : Balanced m' ts'
  cycles : m'.stats.collections = m.stats.collections + UInt64.ofNat k
  /-- Eager counting reclaims without a record. -/
  turns : m.own.mode = .deferred → Books.Turns (booksOf m ts) (booksOf m' ts')
  lost : ∀ x, Lost m' ts' x → Stray m ts T [] x ∧ (m.own.mode = .deferred → ¬ m.roots.Refers x)

/-- What is left after an object was let go of. -/
def LetGo (T : List Nat) (m : Machine Counting) (ts : List Tile) (m' : Machine Counting) : Prop :=
  ∃ ts' k, k ≤ 1 ∧ Tidied T m m' ts ts' k

theorem Balanced.letGo (hg : Balanced m ts) (hT : ∀ x, Lost m ts x → x ∉ T) : LetGo T m ts m :=
  ⟨ts, 0, by decide, .refl m ts, hg, by simp, fun _ => .refl,
    fun x hx => ⟨⟨hx.stray.held, hT x hx, hx.stray.spared, hx.stray.unqueued⟩, hx.unheld⟩⟩

theorem Noted.booksOf_eq (hn : Noted m m' ts) : booksOf m' ts = booksOf m ts := by
  rw [booksOf, booksOf, hn.stats, usedWords, usedWords, hn.blocksOf_eq]

theorem LetGo.of_noted {T' : List Nat} (hn : Noted m m' ts) (hb : Stock m ts [])
    (hT : ∀ x, x ∈ T → x ∈ T') (hm : LetGo T' m' ts m'') :
    LetGo T m ts m'' := by
  obtain ⟨ts', k, hk, hs⟩ := hm
  refine ⟨ts', k, hk, (hn.fewer hb).trans hs.toFewer hb.housed.closed, hs.balanced, by
    rw [hs.cycles, hn.stats],
    fun hmode => ?_, fun x hx => ?_⟩
  · rw [← hn.booksOf_eq]
    exact hs.turns (hn.mode.trans hmode)
  · obtain ⟨hx, hroot⟩ := hs.lost x hx
    refine ⟨hn.stray hx (fun hm => hx.uncounted (hT x hm)) (by simp), fun hmode => ?_⟩
    rw [← hn.roots]
    exact hroot (hn.mode.trans hmode)

theorem Noted.refs_eq (hn : Noted m m' ts) (hb : Stock m ts []) : refs m' ts R = refs m ts R := by
  rw [refs, hn.heapRefs_eq hb]

/-- What is lost after headers and the table have changed was lost before. -/
theorem Noted.lost (hn : Noted m m' ts) (hb : Stock m ts []) (hx : Lost m' ts x) : Lost m ts x := by
  refine ⟨hn.stray hx.stray (fun hm => hx.stray.uncounted ?_) (by simp), fun hmode => ?_⟩
  · rw [hn.mode, hn.roots, hn.refs_eq hb]
    exact hm
  · rw [← hn.roots]
    exact hx.unheld (hn.mode.trans hmode)

/-- A scan between operations. -/
theorem Balanced.scan_run (hg : Balanced m ts) (hmode : m.own.mode = .deferred) :
    ∃ m' ts', scan m = .ok () m' ∧ Cleared m m' ts ts' ∧ Balanced m' ts' ∧ ∀ x, Lost m' ts' x →
    Lost m ts x := by
  have hroots : rootRefs m.own.mode m.roots = [] := by rw [hmode]; rfl
  have hd := hg.dying
  rw [hroots] at hd
  have hlen : (m.roots.refs m.roots.references ++ refs m ts []).length ≤ countLimit := by
    have hlt := hd.stock.length_refs hg.fits Roots.length_refs_references
    simp only [List.length_append, List.length_nil] at hlt ⊢
    omega
  obtain ⟨m', ts', hrun, hs⟩ := Counting.scan_run hd hmode hlen
  refine ⟨m', ts', hrun, hs, hs.toFewer.balanced hg.fits
    (by rw [hroots]; exact hs.dying), fun x hx => ?_⟩
  have hstray := hx.stray
  rw [hs.mode, hs.roots, hroots] at hstray
  have hunheld : ¬ m.roots.Refers x := by
    rw [← hs.roots]
    exact hx.unheld (hs.mode.trans hmode)
  exact ⟨by rw [hroots]; exact (hs.strays x hstray).resolve_right hunheld, fun _ => hunheld⟩

/-- An object that nothing counts joins the table. -/
theorem Balanced.queue_run (hg : Balanced m ts) (hmode : m.own.mode = .deferred)
    (ho : Held (blocksOf m ts) o) (hne : o ∉ m.own.zeroCounts.entries.toList)
    (hfull : m.own.zeroCounts.isFull = false) :
    ∃ m', queue o m = .ok () m' ∧ Noted m m' ts ∧ Balanced m' ts ∧
    m'.own.zeroCounts.entries.toList = m.own.zeroCounts.entries.toList ++ [o] := by
  obtain ⟨m', hrun, hn, hb', hent, hword⟩ := Counting.queue_run hg.dying.stock hmode ho
    (by simp) hne hfull
  have hrefs : refs m' ts (rootRefs m.own.mode m.roots) = refs m ts
      (rootRefs m.own.mode m.roots) := by
    rw [refs, hn.heapRefs_eq hg.dying.stock]
  refine ⟨m', hrun, hn, (hn.fewer hg.dying.stock).balanced hg.fits
    ⟨hb', ?_, ?_, List.nodup_nil, by simp, by simp⟩, hent⟩
  · rw [hrefs, hn.blocksOf_eq, hn.mode]
    exact hg.dying.counted.congr hword
  · rw [hrefs]
    exact hg.dying.bounded

/-- An operation on `m` ends in `m'`, some scans later. -/
def Remnant (m m' : Machine Counting) : Prop :=
  ∃ ts k, k ≤ 3 ∧ Remains m' ts ∧ m'.stats.collections = m.stats.collections + UInt64.ofNat k

theorem Balanced.remnant (hg : Balanced m ts) : Remnant m m :=
  ⟨ts, 0, by decide, hg.dying.stock.remains, by simp⟩

/-- How an operation on `m` is declined: it fails fatally. The table is only said to be full when as
many values are parked as it has room for. -/
structure Declined (m : Machine Counting) (f : Failure) (m' : Machine Counting) : Prop where
  fatal : f.isFatal = true
  table : m.roots.parked < m.own.zeroCounts.capacity → ∀ n, f ≠ .zeroCountTableFull n
  remnant : Remnant m m'

/-- Room in the table of `m'`, but for what is parked in `m`. -/
def TableRelieved (m m' : Machine Counting) : Prop := m'.own.zeroCounts.isFull = true →
    m.own.zeroCounts.capacity ≤ m.roots.parked

section Declined

variable {f : Failure} {m₁ : Machine Counting}

theorem declined_of_ne (hf : f.isFatal = true) (hne : ∀ n, f ≠ .zeroCountTableFull n)
    (hm : Remnant m m') : Declined m f m' := ⟨hf, fun _ => hne, hm⟩

/-- The table is full in spite of all. -/
theorem TableRelieved.declined (hr : TableRelieved m m₁) (hfull : m₁.own.zeroCounts.isFull = true)
    (hm : Remnant m m') : Declined m m₁.own.zeroCounts.full m' :=
  ⟨rfl, fun hroom => absurd (hr hfull) (Nat.not_le.mpr hroom), hm⟩

/-- Only the size of the table matters, how many values are parked and what was recorded. -/
theorem runs_declined {α : Type} {x : GcM Counting α} {Q : α → Machine Counting → Prop}
    (hx : Runs x m' Q (Declined m₁)) (hcap : m₁.own.zeroCounts.capacity = m.own.zeroCounts.capacity)
    (hpark : m₁.roots.parked = m.roots.parked) (hstats : m₁.stats = m.stats) :
    Runs x m' Q (Declined m) := by
  refine hx.mono_fail fun _ _ h => ⟨h.fatal, fun hroom => h.table ?_, ?_⟩
  · rw [hcap, hpark]
    exact hroom
  · have hm := h.remnant
    rw [Remnant, hstats] at hm
    exact hm

/-- There is room after a scan. -/
theorem Cleared.relieved (hs : Cleared m m' ts ts') : TableRelieved m m' := by
  intro hfull
  have hcrowd := hs.crowd
  have hcap := hs.capacity
  simp only [ZeroCountTable.isFull, decide_eq_true_eq] at hfull
  omega

end Declined

/-- The last step of putting an object into the table. -/
theorem queue_settles (hs : Fewer m m' ts ts') (hcl : Closed m.heap (Held (blocksOf m ts)))
    (hg : Balanced m' ts') (hmode : m'.own.mode = .deferred)
    (hlost : ∀ x, Lost m' ts' x → Lost m ts x) (ho : Held (blocksOf m' ts') o)
    (hne : o ∉ m'.own.zeroCounts.entries.toList) (hk : k ≤ 1)
    (hcycles : m'.stats.collections = m.stats.collections + UInt64.ofNat k)
    (hturns : Books.Turns (booksOf m ts) (booksOf m' ts')) (hroom : TableRelieved m m') :
    Runs (queue o) m' (fun _ m'' => LetGo (o :: refs m ts (rootRefs m.own.mode m.roots)) m ts m'')
    (Declined m) := by
  cases hfull : m'.own.zeroCounts.isFull with
  | true =>
    unfold queue
    refine Runs.step GcM.run_own ?_
    simp only [hfull, if_true]
    refine Runs.stop (g := m'.own.zeroCounts.full) rfl (hroom.declined hfull ?_)
    exact ⟨ts', k, by omega, hg.dying.stock.remains, hcycles⟩
  | false =>
    obtain ⟨m₂, hrun, hn, hg₂, hent⟩ := hg.queue_run hmode ho hne hfull
    refine Runs.of_eq hrun ⟨ts', k, hk, hs.trans (hn.fewer hg.dying.stock) hcl, hg₂, by
      rw [hn.stats, hcycles],
      fun _ => by rw [hn.booksOf_eq]; exact hturns, fun x hx => ?_⟩
    have hx' := hlost x (hn.lost hg.dying.stock hx)
    refine ⟨⟨hx'.stray.held, fun hm => ?_, hx'.stray.spared, hx'.stray.unqueued⟩, hx'.unheld⟩
    rcases List.mem_cons.mp hm with rfl | hm
    · exact hx.stray.unqueued (hn.mode.trans hmode) (by simp [hent])
    · exact hx'.stray.uncounted hm

/-- An object that nothing counts is put into the table unless it is there. -/
theorem enqueue_runs (hg : Balanced m ts) (hmode : m.own.mode = .deferred)
    (ho : Held (blocksOf m ts) o) (hT : o ∉ heapRefs m.heap (blocksOf m ts)) :
    Runs (enqueue o) m (fun _ m' => LetGo (o :: refs m ts (rootRefs m.own.mode m.roots)) m ts m')
    (Declined m) := by
  have hd := hg.dying
  have hcl := hd.stock.housed.closed
  unfold enqueue
  refine Runs.step GcM.run_own ?_
  refine Runs.step (read_lift (hd.stock.isQueued_run hmode ho (by simp))) ?_
  by_cases hmem : o ∈ m.own.zeroCounts.entries.toList
  · simp only [hmem, decide_true, Bool.not_true, Bool.false_eq_true, if_false]
    refine Runs.pure (hg.letGo fun x hx hm => ?_)
    rcases List.mem_cons.mp hm with rfl | hm
    · exact hx.stray.unqueued hmode hmem
    · exact hx.stray.uncounted hm
  · simp only [hmem, decide_false, Bool.not_false, if_true]
    cases hfull : m.own.zeroCounts.isFull with
    | false =>
      simp only [Bool.false_eq_true, if_false]
      exact queue_settles (.refl m ts) hcl hg hmode (fun _ hx => hx) ho hmem (Nat.zero_le 1)
        (by simp) .refl
        fun h => absurd (hfull.symm.trans h) (by decide)
    | true =>
      simp only [if_true]
      obtain ⟨m₁, ts₁, hrun, hs, hg₁, hlost⟩ := hg.scan_run hmode
      refine Runs.step hrun ?_
      -- neither in the table nor referred to by a field, so it was spared
      have ho₁ : Held (blocksOf m₁ ts₁) o := by
        by_contra hn
        exact (hs.gone o ho hn).elim hmem hT
      exact queue_settles hs.toFewer hcl hg₁ (hs.mode.trans hmode) hlost ho₁
        (fun h => (hs.table o h).elim hmem hT) (Nat.le_refl 1) hs.cycles
        (.single hs.cycled) hs.relieved

/-- An object that nothing counts any more is reclaimed, or put into the table. -/
theorem dispose_runs (hg : Balanced m ts) (hpark : m.roots.parked = 0) (ho : Held (blocksOf m ts) o)
    (hT : o ∉ refs m ts (rootRefs m.own.mode m.roots)) :
    Runs (match m.own.mode with
      | .eager => do
        let _ ← release o
      | .deferred =>
        enqueue o) m (fun _ m' => LetGo (o :: refs m ts (rootRefs m.own.mode m.roots)) m ts m')
          (Declined m) := by
  cases hmode : m.own.mode with
  | eager =>
    have hroots : Rooted m (rootRefs m.own.mode m.roots) := by
      rw [hmode]
      exact fun o ho => Roots.mem_unparked_of_refers hpark ho
    have hd := hg.dying.doom ho (by simp) hT fun hm => absurd (hmode.symm.trans hm) (by decide)
    obtain ⟨freed, m', ts', hrun, hs, -⟩ := release_run hd hroots
    have hlost : ∀ x, Lost m' ts' x →
      Stray m ts (o :: refs m ts (rootRefs m.own.mode m.roots)) [] x ∧
        (m.own.mode = .deferred → ¬ m.roots.Refers x) := by
      intro x hx
      have hstray := hx.stray
      rw [hs.mode, hs.roots] at hstray
      have hx' := hs.strays x hstray
      refine ⟨⟨hx'.held, fun hm => ?_, by simp, hx'.unqueued⟩,
        fun hm => absurd (hmode.symm.trans hm) (by decide)⟩
      exact (List.mem_cons.mp hm).elim (fun he => hx'.spared (by simp [he])) hx'.uncounted
    refine Runs.step hrun (Runs.pure ?_)
    rw [← hmode]
    exact ⟨ts', 0, by decide, hs.toFewer, hs.toFewer.balanced hg.fits hs.dying, by
      rw [hs.stats]; simp,
      fun h => absurd (hmode.symm.trans h) (by decide), hlost⟩
  | deferred =>
    have hrun := enqueue_runs hg hmode ho fun hmem => hT (List.mem_append_left _ hmem)
    rw [hmode] at hrun
    exact hrun

/-- A field or a root that counts has let go of `v`, which is still counted. -/
theorem letGo_runs (hd : Dying m ts (v.ref?.toList ++ refs m ts (rootRefs m.own.mode m.roots)) [])
    (hf : RootsFit m.roots) (hpark : m.roots.parked = 0) (hv : v.Within (Held (blocksOf m ts))) :
    Runs (letGo v) m (fun _ m' =>
      LetGo (v.ref?.toList ++ refs m ts (rootRefs m.own.mode m.roots)) m ts m') (Declined m) := by
  unfold letGo
  cases hr : v.ref? with
  | none =>
    rw [hr] at hd
    exact Runs.pure (Balanced.letGo ⟨hd, hf⟩ fun x hx => hx.stray.uncounted)
  | some c =>
    obtain ⟨-, hc⟩ := hv c hr
    rw [hr] at hd
    obtain ⟨m₁, hadj, hown, hn, hd₁⟩ :=
      Dying.lose_run (T := refs m ts (rootRefs m.own.mode m.roots)) hd hc
    have hrefs : refs m₁ ts (rootRefs m₁.own.mode m₁.roots) = refs m ts
        (rootRefs m.own.mode m.roots) := by
      rw [hn.mode, hn.roots, hn.refs_eq hd.stock]
    have hg₁ : Balanced m₁ ts := ⟨by rw [hrefs]; exact hd₁, by rw [hn.roots]; exact hf⟩
    refine Runs.step GcM.run_own (Runs.step hadj ?_)
    split
    · rename_i h0
      have hT : c ∉ refs m₁ ts (rootRefs m₁.own.mode m₁.roots) := by
        rw [hrefs]
        exact List.count_eq_zero.mp (by exact_mod_cast h0)
      have hrun := dispose_runs hg₁ (by rw [hn.roots]; exact hpark)
        (by rw [hn.blocksOf_eq]; exact hc) hT
      rw [hrefs, hn.mode] at hrun
      exact runs_declined (hrun.mono fun _ m' hm => hm.of_noted hn hd.stock fun _ h => h)
        hn.capacity (by rw [hn.roots]) hn.stats
    · rename_i h0
      have hT : c ∈ refs m ts (rootRefs m.own.mode m.roots) := by
        by_contra hno
        exact h0 (by rw [List.count_eq_zero.mpr hno]; rfl)
      refine Runs.pure ((hg₁.letGo (T := c :: refs m ts (rootRefs m.own.mode m.roots))
        fun x hx hm => ?_).of_noted hn hd.stock fun _ h => h)
      rw [List.mem_cons, or_iff_right_of_imp fun he => he ▸ hT, ← hrefs] at hm
      exact hx.stray.uncounted hm

/-- A root has let go of `v`. -/
theorem unroot_runs (hg : Balanced m ts) (hmode : m.own.mode = .deferred)
    (hv : v.Within (Held (blocksOf m ts))) :
    Runs (unroot v) m (fun _ m' =>
      LetGo (v.ref?.toList ++ refs m ts (rootRefs m.own.mode m.roots)) m ts m') (Declined m) := by
  unfold unroot
  cases hr : v.ref? with
  | none => exact Runs.pure (hg.letGo fun x hx => hx.stray.uncounted)
  | some c =>
    obtain ⟨-, hc⟩ := hv c hr
    refine Runs.step GcM.run_own (Runs.step (read_lift (hg.dying.count_run hc)) ?_)
    split
    · rename_i h0
      refine enqueue_runs hg hmode hc fun hmem => ?_
      have hz : (refs m ts (rootRefs m.own.mode m.roots)).count c = 0 := by exact_mod_cast h0
      exact List.count_eq_zero.mp hz (List.mem_append_left _ hmem)
    · rename_i h0
      refine Runs.pure (hg.letGo fun x hx hm => ?_)
      rcases List.mem_cons.mp hm with rfl | hm
      · exact h0 (by rw [List.count_eq_zero.mpr hx.stray.uncounted]; rfl)
      · exact hx.stray.uncounted hm

/-! ## What an operation leaves that lets go of an object -/

/-- Objects were reclaimed at most, and none is lost that was not. -/
structure Thinned (m m' : Machine Counting) (ts ts' : List Tile) : Prop where
  mode : m'.own.mode = m.own.mode
  capacity : m'.own.zeroCounts.capacity = m.own.zeroCounts.capacity
  sublist : (blocksOf m' ts').Sublist (blocksOf m ts)
  stress : m'.stress = m.stress
  cycles : ∃ k, k ≤ 1 ∧ m'.stats.collections = m.stats.collections + UInt64.ofNat k
  turns : m.own.mode = .deferred → Books.Turns (booksOf m ts) (booksOf m' ts')
  balanced : Balanced m' ts'
  lost : ∀ x, Lost m' ts' x → Lost m ts x

/-- An object was let go of in `m₁`, where all references of `m` were still counted. -/
theorem LetGo.thinned {m₁ : Machine Counting} (hs : LetGo T m₁ ts m') (hown : m₁.own = m.own)
    (hstats : m₁.stats = m.stats) (hstress : m₁.stress = m.stress)
    (hT : ∀ x ∈ refs m ts (rootRefs m.own.mode m.roots), x ∈ T)
    (hroots : ∀ x, m.roots.Refers x → m₁.roots.Refers x ∨ x ∈ T) : ∃ ts', Thinned m m' ts ts' ∧
    Fewer m₁ m' ts ts' := by
  obtain ⟨ts', k, hk, hs⟩ := hs
  have hsub := hs.sublist
  rw [blocksOf, blocksOf, hown] at hsub
  refine ⟨ts', ⟨by rw [hs.mode, hown], by rw [hs.capacity, hown], hsub, hs.stress.trans hstress,
    ⟨k, hk, by rw [hs.cycles, hstats]⟩,
    fun hmode => ?_, hs.balanced, fun x hx => ?_⟩, hs.toFewer⟩
  · have hturns := hs.turns (by rw [hown]; exact hmode)
    rwa [show booksOf m₁ ts = booksOf m ts by
      rw [booksOf, booksOf, hstats, usedWords, usedWords, blocksOf, blocksOf, hown]] at hturns
  · obtain ⟨hx, hunheld⟩ := hs.lost x hx
    have hheld := hx.held
    have hqueue := hx.unqueued
    rw [blocksOf, hown] at hheld
    rw [hown] at hqueue hunheld
    exact ⟨⟨hheld, fun hm => hx.uncounted (hT x hm), by simp, hqueue⟩,
      fun hmode hr => (hroots x hr).elim (hunheld hmode) hx.uncounted⟩

namespace Thinned

theorem held (hs : Thinned m m' ts ts') (ho : Held (blocksOf m' ts') o) :
    Held (blocksOf m ts) o := by
  obtain ⟨n, hb⟩ := ho
  exact ⟨n, hs.sublist.subset hb⟩

/-- Objects were left where they are. -/
theorem left (hs : Thinned m m' ts ts') (hmode : m.own.mode = mode)
    (hcap : m.own.zeroCounts.capacity = cap) :
    Left operations (Kept (Good mode cap)) m m' (Held (blocksOf m ts))
    (Held (blocksOf m' ts')) := by
  refine ⟨⟨_, ⟨ts', hs.mode.trans hmode, hs.capacity.trans hcap, rfl, hs.balanced⟩, rfl⟩,
    fun _ ho => hs.held ho, fun x n _ hx => ?_,
    hs.stress, hs.cycles⟩
  obtain ⟨bs, hrun, hmem⟩ := hx
  have hobj : objects m'.own m'.heap = .ok bs := hrun
  rw [hs.balanced.dying.stock.objects_run] at hobj
  cases hobj
  exact ⟨n, hmem⟩

end Thinned

end Reclaim.Counting
