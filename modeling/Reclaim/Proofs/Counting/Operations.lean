import Reclaim.Proofs.Counting.Writes
import Reclaim.Proofs.Session

/-!
# Counting operations

An allocation carves a block out of a free one, after scans if counting is deferred and there is no
room. The new object is not counted by anything, and waits in the table if counting is deferred.
With the write barriers this makes up all operations.

Results:
* `acquire_runs`, `finish_runs`, `allocate_runs`: allocations keep the state.
* `laws`: the laws of a counting heap, eager or deferred.
* `start_kept`: a new counting heap satisfies the invariant.
-/

namespace Reclaim

/-- A new object refers to nothing. -/
theorem Carved.heapRefs_perm {hd a k : Nat} {h h' : Arena} {l l' : FreeList} {ts ts' : List Tile}
    (hc : Carved hd h ts a k l' h' ts') (ht : Tiled l h 0 h.size ts)
    (hh : Housed hd h (objectsIn hd ts)) (hpos : 1 ≤ hd) (hk : hd < k) :
    (heapRefs h' (objectsIn hd ts')).Perm (heapRefs h (objectsIn hd ts)) := by
  have hnil : h'.succ (a + hd) = [] := by
    have htag := Arena.tag_of_zero (hc.zero (a + hd) (by omega) (by omega))
    rw [Arena.succ_eq, if_neg (by rw [htag]; decide)]
  refine ((hc.objects_perm ht.toTiles).flatMap_right _).trans (.of_eq ?_)
  change heapRefs h' ((a + hd, k) :: objectsIn hd ts) = _
  rw [heapRefs_cons, hnil, List.nil_append]
  exact (hh.same hc.kept).heapRefs hh.closed

namespace Counting

variable {mode : CountMode} {cap : Nat} {m m' m₁ : Machine Counting} {ts ts' ts₁ : List Tile}
  {blocks : List (Nat × Nat)}
  {o k n size words : Nat} {found : Nat × Nat} {v : Value}

/-! ## Allocation -/

/-- A block of `size` words was taken from the free list, or of one word more. -/
def Taken (m : Machine Counting) (ts : List Tile) (size : Nat) (found : Nat × Nat)
    (m' : Machine Counting) : Prop :=
  ∃ l' h₁ ts', m' = (m.withHeap h₁).withOwn { m.own with freeList := l' } ∧ size ≤ found.2 ∧
    found.2 ≤ size + 1 ∧ h₁.size = m.heap.size ∧
    Carved m.own.mode.headerWords m.heap ts found.1 found.2 l' (h₁.handOut found.1 found.2) ts'

theorem take?_run (hg : Balanced m ts) (hsz : m.own.mode.headerWords < size) :
    take? size m = .ok none m ∨ ∃ found m', take? size m = .ok (some found) m' ∧
    Taken m ts size found m' := by
  have hb := hg.dying.stock
  rcases hb.tiled.carve_run hb.housed m.own.mode.header_pos
    hsz with hrun | ⟨a, k, l', h₁, ts', hrun, hk, -, hslack, hsize, hc⟩
  · left
    rw [take?, bind_ok GcM.run_own, bind_ok (heap_lift hrun)]
    rfl
  · right
    have hhd := m.own.mode.header_pos
    refine ⟨(a, k), _, ?_, l', h₁, ts', rfl, hk, by simp only; omega, hsize, hc⟩
    rw [take?, bind_ok GcM.run_own, bind_ok (heap_lift hrun)]
    rfl

/-- The state with the new object in its block. -/
theorem Balanced.carved {a : Nat} {l' : FreeList} {h' : Arena} (hg : Balanced m ts)
    (hc : Carved m.own.mode.headerWords m.heap ts a k l' h' ts') (hk : m.own.mode.headerWords < k) :
    Balanced ((m.withHeap h').withOwn { m.own with freeList := l' }) ts' ∧
      ∀ x, Lost ((m.withHeap h').withOwn { m.own with freeList := l' }) ts' x → Lost m ts x ∨
      x = a + m.own.mode.headerWords := by
  have hd := hg.dying
  have hb := hd.stock
  have hpos := m.own.mode.header_pos
  have hsub : ∀ x, Held (blocksOf m ts) x → Held (objectsIn m.own.mode.headerWords ts') x :=
    fun x ⟨i, hx⟩ => ⟨i, (hc.mem _).mpr (.inl hx)⟩
  have hcase : ∀ x, Held (objectsIn m.own.mode.headerWords ts') x → Held (blocksOf m ts) x ∨
      x = a + m.own.mode.headerWords := by
    rintro x ⟨i, hx⟩
    rcases (hc.mem _).mp hx with hx | he
    · exact .inl ⟨i, hx⟩
    · exact .inr (congrArg Prod.fst he)
  have hheader : ∀ x, Held (blocksOf m ts) x → ∀ i, i ≤ m.own.mode.headerWords →
      h'.word (x - i) = m.heap.word (x - i) :=
    fun x ⟨j, hx⟩ i hi => hb.housed.blockKept_header hx (hc.kept _ hx) hi
  have hzero : ∀ i, i < m.own.mode.headerWords →
      h'.word (a + m.own.mode.headerWords - i) = 0 := fun i hi =>
    hc.zero _ (by omega) (by omega)
  have hnew : ∀ x ∈ refs m ts (rootRefs m.own.mode m.roots), x ≠ a + m.own.mode.headerWords := by
    intro x hx he
    rw [he] at hx
    exact hc.fresh (hg.listed hx)
  have hrefs : (refs m ts (rootRefs m.own.mode m.roots)).Perm
      (refs ((m.withHeap h').withOwn { m.own with
        freeList := l' }) ts' (rootRefs m.own.mode m.roots)) :=
    (hc.heapRefs_perm hb.tiled hb.housed hpos hk).symm.append_right _
  refine ⟨⟨Dying.perm ⟨⟨?_, ?_, hc.housed, Roots.Within.mono (r := m.roots) hb.roots hsub,
    fun hmode => ?_⟩, fun x hx => ?_, hd.bounded,
    List.nodup_nil, by simp, by simp⟩ hrefs, hg.fits⟩, fun x hx => ?_⟩
  · exact hb.region.trans (by simp [Arena.region, hc.size_eq])
  · change Tiled l' h' 0 h'.size ts'
    rw [hc.size_eq]
    exact hc.tiled
  · have hq := hb.queued hmode
    refine ⟨hq.nodup, hq.room, fun x hx => hsub x (hq.listed x hx), by simp, fun x hx _ => ?_⟩
    change h'.word (x - queuedOffset) ≠ 0 ↔ x ∈ m.own.zeroCounts.entries.toList
    rcases hcase x hx with hx | rfl
    · rw [hheader x hx queuedOffset hpos]
      exact hq.flag x hx (by simp)
    · rw [hzero queuedOffset (by rw [show m.own.mode = .deferred from hmode]; decide)]
      exact ⟨fun h => absurd rfl h, fun h => absurd (hq.listed _ h) hc.fresh⟩
  · change h'.word (x - countOffset m.own.mode) = _
    rcases hcase x hx with hx | rfl
    · rw [hheader x hx _ (Nat.le_of_lt m.own.mode.offset_lt)]
      exact hd.counted x hx
    · rw [hzero _ m.own.mode.offset_lt, List.count_eq_zero.mpr fun hm => hnew _ hm rfl]
      rfl
  · refine (hcase x hx.stray.held).imp_left fun hold => ?_
    exact ⟨⟨hold, fun hm => hx.stray.uncounted (hrefs.mem_iff.mp hm), by simp,
      hx.stray.unqueued⟩, hx.unheld⟩

/-- The last step of an allocation: the block gets its size, and the object waits in the table if
counting is deferred. -/
def finish (mode : CountMode) (found : Nat × Nat) : GcM Counting Nat := do
  store found.1 (UInt64.ofNat found.2)
  clearWords (found.1 + 1) (found.2 - 1)
  if mode = .deferred then
    let table := (← GcM.own).zeroCounts
    if table.isFull then
      let freeList ← (← GcM.own).freeList.give found.1 found.2
      GcM.modifyOwn fun c => { c with freeList }
      GcM.fail table.full
    queue (found.1 + mode.headerWords)
  return found.1 + mode.headerWords

theorem allocate_eq (words : Nat) : allocate words = (do
    let c ← GcM.own
    if c.region.length < words + c.mode.headerWords then
      GcM.tooLarge (words + c.mode.headerWords) c.region.length
    let found ← acquire (words + c.mode.headerWords)
    finish c.mode found) := rfl

/-- A new object `o` of `words` zeroed words. It waits in the table if counting is deferred;
otherwise it is the only object that is lost and was not before. -/
structure Issued (m : Machine Counting) (ts : List Tile) (words o : Nat) (m' : Machine Counting)
    (ts' : List Tile) : Prop where
  mode : m'.own.mode = m.own.mode
  capacity : m'.own.zeroCounts.capacity = m.own.zeroCounts.capacity
  balanced : Balanced m' ts'
  block : ∃ k, m.own.mode.headerWords + words ≤ k ∧ ∀ b, b ∈ blocksOf m' ts' ↔
    b ∈ blocksOf m ts ∨ b = (o, k)
  /-- Its block is a word too long at most. -/
  charge : ∃ extra, extra ≤ 1 ∧
    usedWords m' ts' = usedWords m ts + (words + m.own.mode.headerWords + extra)
  /-- It is zero up to its end. -/
  brim : ∀ k, (o, k) ∈ blocksOf m' ts' → k ≤ words + m.own.mode.headerWords + 1 ∧
    ∀ i, i + m.own.mode.headerWords < k → m'.heap.word (o + i) = 0
  fresh : ¬ Held (blocksOf m ts) o
  uncounted : o ∉ refs m' ts' (rootRefs m'.own.mode m'.roots)
  zero : ∀ i, i < words → m'.heap.word (o + i) = 0
  same : Same (Held (blocksOf m ts)) m.heap m'.heap
  roots : m'.roots = m.roots
  stress : m'.stress = m.stress
  stats : m'.stats = m.stats
  table : ∀ x ∈ m.own.zeroCounts.entries.toList, x ∈ m'.own.zeroCounts.entries.toList
  waits : m.own.mode = .deferred → o ∈ m'.own.zeroCounts.entries.toList
  lost : ∀ x, Lost m' ts' x → Lost m ts x ∨ (m.own.mode = .eager ∧ x = o)

/-- A new object that was noted down in the table at most. -/
theorem Balanced.issued {a : Nat} {l' : FreeList} {h' : Arena} (hg : Balanced m ts)
    (hc : Carved m.own.mode.headerWords m.heap ts a k l' h' ts')
    (hk : words + m.own.mode.headerWords ≤ k) (hslack : k ≤ words + m.own.mode.headerWords + 1)
    (hpos : 1 ≤ words) (hn : Noted ((m.withHeap h').withOwn { m.own with freeList := l' }) m' ts')
    (hg' : Balanced m' ts') (hwaits : m.own.mode = .deferred → a + m.own.mode.headerWords ∈
      m'.own.zeroCounts.entries.toList) :
    Issued m ts words (a + m.own.mode.headerWords) m' ts' := by
  have hhd := m.own.mode.header_pos
  have hb := hg.dying.stock
  obtain ⟨hg₁, hlost⟩ := hg.carved hc (by omega)
  have hsub : ∀ x, Held (blocksOf m ts) x → Held (objectsIn m.own.mode.headerWords ts') x :=
    fun x ⟨i, hx⟩ => ⟨i, (hc.mem _).mpr (.inl hx)⟩
  have hnew : (a + m.own.mode.headerWords, k) ∈ objectsIn m.own.mode.headerWords ts' :=
    (hc.mem _).mpr (.inr rfl)
  have hzero : ∀ i, i + m.own.mode.headerWords < k →
      m'.heap.word (a + m.own.mode.headerWords + i) = 0 := fun i hi => by
    rw [hn.heap.object_word hc.housed hnew (by simp)
      (by change _ + m.own.mode.headerWords < _; simp only; omega)]
    exact hc.zero _ (by omega) (by omega)
  refine ⟨hn.mode, hn.capacity, hg', ⟨k, by omega, fun b => ?_⟩,
    ⟨k - (words + m.own.mode.headerWords), by omega, ?_⟩,
      fun k' hk' => ?_, hc.fresh, fun hm => ?_, fun i hi => hzero i (by omega), ?_,
    hn.roots, hn.stress, hn.stats, fun x hx => hn.grown.subset hx, hwaits, fun x hx => ?_⟩
  · rw [hn.blocksOf_eq]
    exact hc.mem b
  · have hwords := hc.words hb.tiled.toTiles
    rw [usedWords, usedWords, hn.blocksOf_eq]
    exact hwords.trans (congrArg (_ + ·) (by omega))
  · rw [hn.blocksOf_eq] at hk'
    obtain rfl : k' = k := congrArg Prod.snd (hc.housed.eq_of_fst hk' hnew rfl)
    exact ⟨hslack, hzero⟩
  · -- nothing referred to it before, and the new object refers to nothing
    rw [hn.refs_eq hg₁.dying.stock, hn.mode, hn.roots] at hm
    exact hc.fresh (hg.listed
      (((hc.heapRefs_perm hb.tiled hb.housed hhd (by omega)).append_right _).mem_iff.mp hm))
  · exact (hb.housed.same hc.kept).trans ((hn.same hg₁.dying.stock).mono hsub) fun x hx =>
      hb.housed.closed.known x hx
  · refine (hlost x (hn.lost hg₁.dying.stock hx)).imp_right fun he => ⟨?_, he⟩
    cases hmode : m.own.mode with
    | eager => rfl
    | deferred => exact absurd (he ▸ hwaits hmode) (hx.stray.unqueued (hn.mode.trans hmode))

theorem Issued.grows (hi : Issued m ts words o m' ts') (hmode : m.own.mode = mode)
    (hcap : m.own.zeroCounts.capacity = cap) :
    Grows mode.headerWords (Good mode cap) m (blocksOf m ts) words o m' := by
  subst hmode hcap
  obtain ⟨k, hk, hmem⟩ := hi.block
  exact ⟨_, k, ⟨ts', hi.mode, hi.capacity, rfl, hi.balanced⟩, hmem, hk, hi.fresh, hi.zero, hi.same,
    hi.roots, hi.stress, hi.stats⟩

/-- The block of a new object is given back. -/
theorem Balanced.remains_of_released {a : Nat} {l' l'' : FreeList} {h' h'' : Arena}
    {ts'' : List Tile} (hg : Balanced m ts)
    (hc : Carved m.own.mode.headerWords m.heap ts a k l' h' ts')
    (hr : Released m.own.mode.headerWords h' ts' (a + m.own.mode.headerWords, k) l'' h'' ts'') :
    Remains ((m.withHeap h'').withOwn { m.own with freeList := l'' }) ts'' := by
  have hb := hg.dying.stock
  have hsize : h''.size = m.heap.size := hr.size_eq.trans hc.size_eq
  have hmem : ∀ b, b ∈ objectsIn m.own.mode.headerWords ts'' ↔ b ∈ blocksOf m ts := by
    intro b
    rw [hr.objects, (hc.tiled.nodup_objectsIn _).mem_erase_iff, hc.mem]
    constructor
    · rintro ⟨hne, hb | rfl⟩
      · exact hb
      · exact absurd rfl hne
    · intro hb
      refine ⟨?_, .inl hb⟩
      rintro rfl
      exact hc.fresh ⟨_, hb⟩
  have hheld : Held (objectsIn m.own.mode.headerWords ts'') = Held (blocksOf m ts) :=
    funext fun o => propext ⟨fun ⟨n, hn⟩ => ⟨n, (hmem _).mp hn⟩,
      fun ⟨n, hn⟩ => ⟨n, (hmem _).mpr hn⟩⟩
  have hsame : Same (Held (blocksOf m ts)) m.heap h'' := by
    refine (hb.housed.same hc.kept).trans ?_ fun o ho => hb.housed.closed.known o ho
    have hsame' := (hc.housed.sub
      (fun b hb => (hc.mem b).mpr (.inl ((hmem b).mp hb))) ?_).same hr.kept
    · rw [← hheld]
      exact hsame'
    · rw [hheld]
      exact (hb.housed.same hc.kept).closed hb.housed.closed
  have hcl : Closed h'' (Held (objectsIn m.own.mode.headerWords ts'')) := by
    rw [hheld]
    exact hsame.closed hb.housed.closed
  refine ⟨?_, ?_, ?_, ?_⟩
  · exact hb.region.trans (by simp [Arena.region, hsize])
  · change Tiled l'' h'' 0 h''.size ts''
    rw [hr.size_eq]
    exact hr.tiled
  · refine hr.tiled.housed (fun b hb' => ?_) hcl
    have hb₀ := (hmem b).mp hb'
    rw [hsame.payload (hb.housed.closed.known _ ⟨b.2, hb₀⟩) ⟨b.2, hb₀⟩]
    exact hb.housed.fits b hb₀
  · change m.roots.Within (Held (objectsIn m.own.mode.headerWords ts''))
    rw [hheld]
    exact hb.roots

theorem finish_runs {l : Nat} (hg : Balanced m ts) (hmode : m.own.mode = mode)
    (ht : Taken m ts (words + mode.headerWords) found m') (hpos : 1 ≤ words)
    (hroom : mode = .deferred → TableRelieved m₁ m) (hl : l ≤ 3)
    (hcycles : m.stats.collections = m₁.stats.collections + UInt64.ofNat l) :
    Runs (finish mode found) m' (fun o m' => ∃ ts', Issued m ts words o m' ts') (Declined m₁) := by
  subst hmode
  obtain ⟨a, k⟩ := found
  obtain ⟨l', h₁, ts', rfl, hk, hslack, hsize, hc⟩ := ht
  have hhd := m.own.mode.header_pos
  have hin := hc.inside
  simp only at hk hslack hc hin
  obtain ⟨hg₂, -⟩ := hg.carved hc (by omega)
  have hstore : store a (UInt64.ofNat k) h₁ = .ok () (h₁.put a (UInt64.ofNat k)) :=
    store_run (by omega)
  have hclear : clearWords (a + 1) (k - 1) (h₁.put a (UInt64.ofNat k)) = .ok () (h₁.handOut a k) :=
    clearWords_run (by simp; omega)
  unfold finish
  refine Runs.step (heap_lift hstore) (Runs.step (heap_lift hclear) ?_)
  change Runs _ ((m.withHeap (h₁.handOut a k)).withOwn { m.own with freeList := l' }) _ _
  by_cases hdef : m.own.mode = .deferred
  · simp only [if_pos hdef]
    refine Runs.step GcM.run_own ?_
    have hmem : (a + m.own.mode.headerWords, k) ∈ objectsIn m.own.mode.headerWords ts' :=
      (hc.mem _).mpr (.inr rfl)
    cases hfull : m.own.zeroCounts.isFull with
    | true =>
      -- there is no room in the table, so the block is given back
      simp only [Machine.withOwn_own, hfull, if_true]
      obtain ⟨l'', h'', ts'', hgive, hrel⟩ := hg₂.dying.stock.tiled.release_run hmem
      rw [Nat.add_sub_cancel] at hgive
      refine Runs.step GcM.run_own
        (Runs.step (heap_lift hgive) (Runs.step (GcM.run_modifyOwn _) ?_))
      refine Runs.stop (g := m.own.zeroCounts.full) rfl ((hroom hdef).declined hfull ?_)
      exact ⟨ts'', l, hl, hg.remains_of_released hc hrel, hcycles⟩
    | false =>
      simp only [Machine.withOwn_own, hfull, Bool.false_eq_true, if_false]
      have hne : a + m.own.mode.headerWords ∉ m.own.zeroCounts.entries.toList := fun h =>
        hc.fresh ((hg.dying.stock.queued hdef).listed _ h)
      obtain ⟨m₃, hrun, hn, hg₃, hent⟩ := hg₂.queue_run hdef ⟨k, hmem⟩ hne hfull
      exact Runs.step hrun (Runs.pure
        ⟨ts', hg.issued hc hk hslack hpos hn hg₃ fun _ => by simp [hent]⟩)
  · simp only [if_neg hdef]
    exact Runs.pure ⟨ts', hg.issued hc hk hslack hpos (.refl _ _) hg₂ fun h => absurd h hdef⟩

/-- After some scans, the state `m₁` with the tiles `ts₁`. Eager counting never scans. -/
structure AfterScans (m : Machine Counting) (ts : List Tile) (m₁ : Machine Counting)
    (ts₁ : List Tile) (k : Nat) : Prop where
  fewer : Fewer m m₁ ts ts₁
  balanced : Balanced m₁ ts₁
  moved : Moved (Kept (Good m.own.mode m.own.zeroCounts.capacity)) m m₁ (Held (blocksOf m ts))
    (Held (blocksOf m₁ ts₁)) id k
  turns : Books.Turns (booksOf m ts) (booksOf m₁ ts₁)
  lost : ∀ x, Lost m₁ ts₁ x → Lost m ts x
  waiting : ∀ x ∈ m.own.zeroCounts.entries.toList, Value.ofRef x ∈ m.roots.parkedValues →
    x ∉ heapRefs m.heap (blocksOf m ts) →
    x ∈ m₁.own.zeroCounts.entries.toList
  idle : m.own.mode = .eager → m₁ = m ∧ ts₁ = ts

theorem AfterScans.refl (hg : Balanced m ts) : AfterScans m ts m ts 0 :=
  ⟨.refl m ts, hg, .refl ⟨_, ⟨ts, rfl, rfl, rfl, hg⟩, rfl⟩ hg.dying.stock.housed.closed
    hg.dying.stock.roots, .refl,
    fun _ hx => hx, fun _ hx _ _ => hx, fun _ => ⟨rfl, rfl⟩⟩

theorem AfterScans.remnant (hs : AfterScans m ts m₁ ts₁ k) (hk : k ≤ 3) : Remnant m m₁ :=
  ⟨ts₁, k, hk, hs.balanced.dying.stock.remains, hs.moved.cycles⟩

/-- One more scan. -/
theorem AfterScans.scan_run (hs : AfterScans m ts m₁ ts₁ k) (hg : Balanced m ts)
    (hmode : m.own.mode = .deferred) :
    ∃ m₂ ts₂, scan m₁ = .ok () m₂ ∧ AfterScans m ts m₂ ts₂ (k + 1) ∧ TableRelieved m m₂ := by
  have hcl := hg.dying.stock.housed.closed
  have hmode₁ := hs.fewer.mode.trans hmode
  obtain ⟨m₂, ts₂, hrun, hc, hg₂, hlost⟩ := hs.balanced.scan_run hmode₁
  have hmv : Moved (Kept (Good m.own.mode m.own.zeroCounts.capacity)) m₁ m₂ (Held (blocksOf m₁ ts₁))
      (Held (blocksOf m₂ ts₂)) id (0 + 1) :=
    hc.toFewer.moved hs.balanced hg₂ hs.fewer.mode hs.fewer.capacity hc.cycles
  have hnamed := hs.balanced.dying.stock.housed.named m₁.own.mode.header_pos
  refine ⟨m₂, ts₂, hrun, ⟨hs.fewer.trans hc.toFewer hcl, hg₂, hs.moved.trans hmv hnamed,
    hs.turns.tail hc.cycled,
    fun x hx => hs.lost x (hlost x hx),
    fun x hx hp hno => ?_, fun h => absurd (h.symm.trans hmode) (by decide)⟩, fun hfull => ?_⟩
  · refine hc.waiting x (hs.waiting x hx hp hno) (by rw [hs.fewer.roots]; exact hp) fun hm => hno ?_
    exact hs.fewer.mem_refs hcl (hc.toFewer.mem_refs hs.balanced.dying.stock.housed.closed hm)
  · rw [← hs.fewer.capacity, ← hs.fewer.roots]
    exact hc.relieved hfull

/-- A block is found, after some scans, and there is room in the table if it is needed. -/
def Acquired (m : Machine Counting) (ts : List Tile) (size : Nat) (found : Nat × Nat)
    (m' : Machine Counting) : Prop :=
  ∃ m₁ ts₁ k, k ≤ 3 ∧ AfterScans m ts m₁ ts₁ k ∧ Taken m₁ ts₁ size found m' ∧
    (m.own.mode = .deferred → TableRelieved m m₁)

theorem AfterScans.take_run (hs : AfterScans m ts m₁ ts₁ k) (hk : k ≤ 3)
    (hsz : m.own.mode.headerWords < size) (hroom : m.own.mode = .deferred → TableRelieved m m₁) :
    take? size m₁ = .ok none m₁ ∨ ∃ found m', take? size m₁ = .ok (some found) m' ∧
    Acquired m ts size found m' := by
  rcases take?_run hs.balanced (by rw [hs.fewer.mode]; exact hsz) with hrun | ⟨found, m', hrun, ht⟩
  · exact .inl hrun
  · exact .inr ⟨found, m', hrun, m₁, ts₁, k, hk, hs, ht, hroom⟩

/-- A block is taken, after one more scan if there is none. -/
def retake (size : Nat) : GcM Counting (Nat × Nat) := do
  match ← take? size with
  | some found => return found
  | none =>
    scan
    match ← take? size with
    | some found => return found
    | none => GcM.exhausted CountMode.deferred.strategy size

theorem AfterScans.retake_runs (hs : AfterScans m ts m₁ ts₁ k) (hg : Balanced m ts)
    (hmode : m.own.mode = .deferred) (hk : k ≤ 1) (hsz : m.own.mode.headerWords < size)
    (hcount : size * wordBytes < wordValues) (hroom : TableRelieved m m₁) :
    Runs (retake size) m₁ (Acquired m ts size) (Declined m) := by
  unfold retake
  rcases hs.take_run (by omega) hsz (fun _ => hroom) with hrun | ⟨found, m', hrun, ha⟩
  · refine Runs.step hrun ?_
    obtain ⟨m₂, ts₂, hscan, hs₂, hroom₂⟩ := hs.scan_run hg hmode
    refine Runs.step hscan ?_
    rcases hs₂.take_run (by omega) hsz (fun _ => hroom₂) with hrun | ⟨found, m', hrun, ha⟩
    · exact Runs.step hrun (GcM.runs_exhausted hcount
        (declined_of_ne rfl (by simp) (hs₂.remnant (by omega))))
    · exact Runs.step hrun (Runs.pure ha)
  · exact Runs.step hrun (Runs.pure ha)

theorem acquire_runs (hg : Balanced m ts) (hsz : m.own.mode.headerWords < size)
    (hcount : size * wordBytes < wordValues) :
    Runs (acquire size) m (Acquired m ts size) (Declined m) := by
  unfold acquire
  refine Runs.step GcM.run_own ?_
  cases hmode : m.own.mode with
  | eager =>
    rcases (AfterScans.refl hg).take_run (by decide) hsz
      (fun h => absurd (hmode.symm.trans h) (by decide)) with hrun | ⟨found, m', hrun, ha⟩
    · exact Runs.step hrun (GcM.runs_exhausted hcount (declined_of_ne rfl (by simp) hg.remnant))
    · exact Runs.step hrun (Runs.pure ha)
  | deferred =>
    refine Runs.step GcM.run_stressed ?_
    cases hscan : (m.stress || m.own.zeroCounts.isFull) with
    | true =>
      obtain ⟨m₁, ts₁, hrun, hs, hroom⟩ := (AfterScans.refl hg).scan_run hg hmode
      simp only [if_true]
      exact Runs.step hrun (hs.retake_runs hg hmode (by decide) hsz hcount hroom)
    | false =>
      simp only [Bool.false_eq_true, if_false]
      have hfull := (Bool.or_eq_false_iff.mp hscan).2
      exact (AfterScans.refl hg).retake_runs hg hmode (by decide) hsz hcount fun h =>
        absurd (hfull.symm.trans h) (by decide)

/-- A new object, after scans if need be. -/
theorem allocate_issues (hg : Balanced m ts) (hpos : 1 ≤ words)
    (hcount : operations.Countable m words) :
    Runs (allocate words) m (fun o m' => ∃ m₁ ts₁ k ts', k ≤ 3 ∧ AfterScans m ts m₁ ts₁ k ∧
      Issued m₁ ts₁ words o m' ts') (Declined m) := by
  have hcount : (words + m.own.mode.headerWords) * wordBytes < wordValues := hcount
  rw [allocate_eq]
  refine Runs.step GcM.run_own ?_
  by_cases hlim : m.own.region.length < words + m.own.mode.headerWords
  · simp only [hlim, if_true]
    exact Runs.stop (GcM.run_tooLarge hcount hlim) (declined_of_ne rfl (by simp) hg.remnant)
  · simp only [hlim, if_false]
    refine (acquire_runs hg (by omega) hcount).bind ?_
    rintro found m₂ ⟨m₁, ts₁, k, hk, hs, ht, hroom⟩
    refine (finish_runs hs.balanced hs.fewer.mode ht hpos hroom hk hs.moved.cycles).mono ?_
    rintro o m' ⟨ts', hi⟩
    exact ⟨m₁, ts₁, k, ts', hk, hs, hi⟩

theorem allocate_runs (hg : Balanced m ts) (hmode : m.own.mode = mode)
    (hcap : m.own.zeroCounts.capacity = cap) (hpos : 1 ≤ words)
    (hcount : operations.Countable m words) :
    Runs (allocate words) m (fun o m' => ∃ ρ S' k, k ≤ 3 ∧ Moved (Kept (Good mode cap)) m m'
      (Held (blocksOf m ts)) S' ρ k ∧ S' o ∧
      operations.Roomy mode.headerWords m' o words ∧
        (∀ i, i < words → m'.heap.word (o + i) = 0) ∧ ∀ x, m.Reachable x → ρ x ≠ o) Fatal := by
  subst hmode hcap
  refine ((allocate_issues hg hpos hcount).mono_fail fun _ _ h => h.fatal).mono ?_
  rintro o m' ⟨m₁, ts₁, k, ts', hk, hs, hi⟩
  have hgrows := hi.grows hs.fewer.mode hs.fewer.capacity
  exact ((layout _ _).allocated hk hs.moved
    ⟨ts₁, hs.fewer.mode, hs.fewer.capacity, rfl, hs.balanced⟩ (Runs.pure hgrows)).ok rfl

/-- No failure can tell of so many bytes, and the request ends there. -/
theorem allocate_overflows (hg : Balanced m ts) (hcount : ¬ operations.Countable m words) :
    allocate words m = .error .trap m := by
  have hlim : m.own.region.length < words + m.own.mode.headerWords := by
    have hsmall := hg.dying.stock.housed.small
    have hover := Nat.not_lt.mp hcount
    rw [hg.dying.stock.region, Arena.length_region]
    simp only [operations, wordValues, wordBytes] at hover ⊢
    omega
  rw [allocate_eq, bind_ok GcM.run_own]
  simp only [hlim, if_true]
  exact bind_error (GcM.tooLarge_trap (Nat.not_lt.mp hcount))

/-! ## All operations -/

/-- A regular collection is a scan, or nothing. -/
theorem collect_scans (hg : Balanced m ts) :
    Runs collect m (fun _ m' => ∃ ts' k, k ≤ 1 ∧ AfterScans m ts m' ts' k) (Declined m) := by
  unfold collect
  refine Runs.step GcM.run_own ?_
  cases hmode : m.own.mode with
  | eager => exact Runs.pure ⟨ts, 0, by decide, .refl hg⟩
  | deferred =>
    obtain ⟨m', ts', hrun, hs, -⟩ := (AfterScans.refl hg).scan_run hg hmode
    exact Runs.of_eq hrun ⟨ts', 1, by decide, hs⟩

theorem collect_runs (hg : Balanced m ts) (hmode : m.own.mode = mode)
    (hcap : m.own.zeroCounts.capacity = cap) :
    Runs collect m (fun _ m' => ∃ ρ S' k, k ≤ 3 ∧ Moved (Kept (Good mode cap)) m m'
      (Held (blocksOf m ts)) S' ρ k) Fatal := by
  subst hmode hcap
  refine ((collect_scans hg).mono_fail fun _ _ h => h.fatal).mono ?_
  rintro - m' ⟨ts', k, hk, hs⟩
  exact ⟨id, _, k, by omega, hs.moved⟩

/-- A slot that does not exist. -/
theorem writeRoot_traps {slot : RootSlot} (hg : Balanced m ts)
    (hv : v.Within (Held (blocksOf m ts))) (hnone : m.roots.get? slot = none) :
    ∃ m', writeRoot slot v m = .error .trap m' := by
  have hget : ∀ m₁ : Machine Counting, m₁.roots = m.roots →
      (liftM (getRoot slot) : GcM Counting Value) m₁ = .error .trap m₁ := by
    intro m₁ hr
    have htrap : getRoot slot m₁.roots = .error .trap m₁.roots := by rw [getRoot, hr, hnone]
    exact roots_lift_error htrap
  rw [writeRoot, bind_ok GcM.run_own]
  cases hmode : m.own.mode with
  | eager =>
    obtain ⟨m₁, hinc, -, hn, -⟩ := hg.increment_run hv
    rw [hmode] at hinc
    exact ⟨m₁, (bind_ok hinc).trans (bind_error (hget m₁ hn.roots))⟩
  | deferred => exact ⟨m, bind_error (hget m rfl)⟩

/-- The laws of a counting heap. -/
theorem laws (mode : CountMode) (cap : Nat) :
    Laws operations (Kept (Good mode cap)) (operations.Roomy mode.headerWords) where
  small := by
    rintro m S ⟨blocks, hg, rfl⟩
    exact ((layout mode cap).housed hg).small
  objects := by
    rintro m S ⟨blocks, hg, rfl⟩
    exact ⟨blocks, (layout mode cap).objects hg, fun _ ho => ho⟩
  apart := by
    rintro m S ⟨blocks, hg, rfl⟩
    exact (layout mode cap).apart hg
  roots := by
    rintro m S ⟨blocks, hg, rfl⟩
    exact (layout mode cap).roots hg
  congr := by
    rintro m m' S ⟨blocks, ⟨ts, hmode, hcap, rfl, hg⟩, rfl⟩ hheap hroots hown
    refine ⟨_, ⟨ts, by rw [hown]; exact hmode, by rw [hown]; exact hcap, rfl, ?_, by
      rw [hroots]; exact hg.fits⟩, by rw [blocksOf, blocksOf, hown]⟩
    simp only [refs, blocksOf, hheap, hroots, hown]
    exact hg.dying.of_eq hheap hroots hown
  new_congr := by
    rintro m m' o n hN hheap hown
    rw [Operations.Roomy, hheap, hown]
    exact hN
  new_inside := by
    rintro m S o n ⟨blocks, hg, rfl⟩ - hN
    exact (layout mode cap).new_inside hg hN
  new_apart := by
    rintro m S o n x ⟨blocks, hg, rfl⟩ - hN hx hne
    exact (layout mode cap).new_apart hg hN hx hne
  allocate := by
    rintro m S n ⟨blocks, ⟨ts, hmode, hcap, rfl, hg⟩, rfl⟩ hn hcount
    exact allocate_runs hg hmode hcap hn hcount
  overflow := by
    rintro m S n ⟨blocks, ⟨ts, -, -, rfl, hg⟩, rfl⟩ - hcount
    exact allocate_overflows hg hcount
  collect := by
    rintro m S ⟨blocks, ⟨ts, hmode, hcap, rfl, hg⟩, rfl⟩
    exact collect_runs hg hmode hcap
  collectFull := by
    rintro m S ⟨blocks, ⟨ts, hmode, hcap, rfl, hg⟩, rfl⟩
    exact collect_runs hg hmode hcap
  overwrite := by
    rintro m S o n h' ⟨blocks, hg, rfl⟩ - hN hnil hsize hout htag hpay hnil'
    obtain ⟨k, hb, hroom⟩ := (layout mode cap).block hg hN
    have hnew : ∀ x, Held blocks x → x ≠ o → x + m.heap.payload x ≤ o ∨ o + n ≤ x :=
      fun x hx hne => (layout mode cap).new_apart hg hN hx hne
    obtain ⟨ts, rfl, rfl, rfl, hg⟩ := hg
    have hg' : Good m.own.mode m.own.zeroCounts.capacity (m.withHeap h') (blocksOf m ts) :=
      ⟨ts, rfl, rfl, rfl, (hg.overwrite hb hroom hsize hout hnew htag hpay hnil hnil').1⟩
    exact ⟨⟨_, hg', rfl⟩, (layout _ _).roomy hg' hb hroom⟩
  initField := by
    rintro m S o n field v ⟨blocks, hg, rfl⟩ ho hN - ht hf hold hv
    obtain ⟨k, hb, hroom⟩ := (layout mode cap).block hg hN
    obtain ⟨ts, rfl, rfl, rfl, hg⟩ := hg
    obtain ⟨m', hrun, hown, hg', -, hrest⟩ := initField_run hg ho ht hf hold hv
    have hgood : Good m.own.mode m.own.zeroCounts.capacity m' (blocksOf m ts) :=
      ⟨ts, by rw [hown], by rw [hown], by rw [blocksOf, blocksOf, hown], hg'⟩
    exact ⟨m', hrun, ⟨_, hgood, rfl⟩, (layout _ _).roomy hgood hb hroom, hrest⟩
  noteCopy := by
    rintro m S o n src ⟨blocks, hg, rfl⟩ ho hN hnil hsrc hne hpay
    obtain ⟨k, hb, hroom⟩ := (layout mode cap).block hg hN
    have hcl := ((layout mode cap).apart hg).closed
    have hc := ((layout mode cap).apart hg).copy hsrc hpay ((layout mode cap).new_inside hg hN)
      fun x hx hne => (layout mode cap).new_apart hg hN hx hne
    obtain ⟨ts, rfl, rfl, rfl, hg⟩ := hg
    obtain ⟨m', hrun, hown, hg', -, hsame, hrest⟩ := countCopied_run hg hb hroom hnil hc
    have hgood : Good m.own.mode m.own.zeroCounts.capacity m' (blocksOf m ts) :=
      ⟨ts, by rw [hown], by rw [hown], by rw [blocksOf, blocksOf, hown], hg'⟩
    refine ⟨m', hrun, ⟨_, hgood, rfl⟩, (layout _ _).roomy hgood hb hroom,
      fun x i hx hxo hi => ?_, fun i hi => ?_, hrest⟩
    · rw [hsame x i hx (by rw [Arena.payload_congr (hc.rewritten.head hcl hx hxo)]; exact hi)]
      exact hc.rewritten x i hx hxo hi
    · rw [hsame o i ho (by rw [hc.payload]; exact hi)]
      exact hc.inner i hi
  writeField := by
    rintro m S o field v ⟨blocks, ⟨ts, hmode, hcap, rfl, hg⟩, rfl⟩ hpark ho ht hf hv
    refine ((writeField_runs hg hpark ho ht hf hv).mono_fail fun _ _ h => h.fatal).mono ?_
    rintro - m' ⟨ts', hthin, hst, hroots⟩
    exact ⟨_, hthin.left hmode hcap, hst, hroots⟩
  writeRoot := by
    rintro m S slot old v ⟨blocks, ⟨ts, hmode, hcap, rfl, hg⟩, rfl⟩ hpark hold hv
    refine ((writeRoot_runs hg hpark hold hv).mono_fail fun _ _ h => h.fatal).mono ?_
    rintro - m' ⟨ts', hthin, hsame, hroots⟩
    exact ⟨_, hthin.left hmode hcap, hsame, hroots⟩
  writeRoot_absent := by
    rintro m S slot v ⟨blocks, ⟨ts, hmode, hcap, rfl, hg⟩, rfl⟩ hv hnone
    exact writeRoot_traps hg hv hnone
  push := by
    rintro m S v ⟨blocks, ⟨ts, hmode, hcap, rfl, hg⟩, rfl⟩ hpark hv hroom hlim
    obtain ⟨m', hrun, hg', -, hsame, hown, hrest⟩ := push_run hg hpark hv hroom hlim
    exact ⟨m', hrun, ⟨_, ⟨ts, by rw [hown, hmode], by rw [hown, hcap], rfl, hg'⟩, by
      rw [blocksOf, blocksOf, hown]⟩, hsame, hrest⟩
  push_fails := by
    intro m S v e _ hfail
    exact bind_error (roots_lift_error hfail)
  pop := by
    rintro m S v ⟨blocks, ⟨ts, hmode, hcap, rfl, hg⟩, rfl⟩ hpark hv
    refine ((pop_runs hg hpark hv).mono_fail fun _ _ h => h.fatal).mono ?_
    rintro v' m' ⟨rfl, ts', hthin, hsame, hroots⟩
    exact ⟨rfl, _, hthin.left hmode hcap, hsame, hroots⟩
  pop_fails := by
    intro m S e _ hfail
    exact bind_error (roots_lift_error hfail)
  park := by
    rintro m S v ⟨blocks, ⟨ts, hmode, hcap, rfl, hg⟩, rfl⟩ hv hlim
    exact ⟨_, ⟨ts, hmode, hcap, rfl, hg.park hv hlim⟩, rfl⟩
  unpark := by
    rintro m S ⟨blocks, ⟨ts, hmode, hcap, rfl, hg⟩, rfl⟩ hpark hsize
    exact ⟨_, ⟨ts, hmode, hcap, rfl, hg.unpark hpark⟩, rfl⟩

theorem hosts : Collector.Hosts Collector.counting operations where
  injective s t h := by
    cases h
    rfl
  allocate n h := by rw [Collector.allocate, bind_ok GcM.run_own, h]; rfl
  collect h := by rw [Collector.collect, bind_ok GcM.run_own, h]; rfl
  collectFull h := by
    rw [Collector.collectFull, bind_ok GcM.run_own, h]
    change Collector.collect _ = _
    rw [Collector.collect, bind_ok GcM.run_own, h]
    rfl
  writeField o a v h := by rw [Collector.writeField, bind_ok GcM.run_own, h]; rfl
  writeRoot r v h := by rw [Collector.writeRoot, bind_ok GcM.run_own, h]; rfl
  initField a v h := by rw [Collector.initField, bind_ok GcM.run_own, h]; rfl
  push v h := by rw [Collector.push, bind_ok GcM.run_own, h]; rfl
  pop h := by rw [Collector.pop, bind_ok GcM.run_own, h]; rfl
  noteCopy o h := by rw [Collector.noteCopy, bind_ok GcM.run_own, h]; rfl
  objects _ := rfl
  headerWords _ := rfl

/-- A new counting heap, whose tiles are one free one. -/
theorem start_balanced {c : Config} {u : Mutator} (hc : c.strategy = mode.strategy)
    (h2 : 2 ≤ c.heapWords) (hu : c.Makes u) :
    ∃ m : Machine Counting, u.machine = m.withOwn (.counting m.own) ∧ m.own.mode = mode ∧
    m.own.zeroCounts.capacity = c.zeroCountCapacity ∧
      Balanced m [⟨0, m.heap.size, true⟩] := by
  obtain ⟨hash, rfl, hres⟩ := hu.eq
  obtain ⟨l, heap, hof⟩ : ∃ l heap, FreeList.ofRegion (Arena.ofBytes c.heapSize).region c.fit
    (Arena.ofBytes c.heapSize) = (l, heap) :=
    ⟨_, _, rfl⟩
  have hwords := c.size_ofBytes
  have hlimit := Config.reserved hres
  obtain ⟨hsize, htiled⟩ := tiled_ofRegion (h := Arena.ofBytes c.heapSize) c.fit
    (by rw [hwords]; exact hlimit.1) (by rw [hwords]; exact h2)
  rw [hof] at hsize htiled
  simp only at hsize htiled
  rw [← hsize] at htiled
  let m : Machine Counting :=
    ⟨heap, Roots.empty c.stackCapacity c.globalTableSize hash, c.stress, {},
    ⟨mode, (Arena.ofBytes c.heapSize).region, l, ZeroCountTable.empty c.zeroCountCapacity⟩⟩
  have hbuild : Machine.ofConfig c hash = m.withOwn (.counting m.own) := by
    rw [Machine.ofConfig, Collector.build, hc]
    cases mode <;> simp only [CountMode.strategy, build, hof] <;> rfl
  have hwithin : m.roots.Within (Held []) := Roots.empty_within _ _ _ _
  -- neither a field nor a root refers to anything
  have hrefs : refs m [⟨0, m.heap.size, true⟩] (rootRefs m.own.mode m.roots) = [] := by
    refine List.eq_nil_iff_forall_not_mem.mpr fun o ho => ?_
    have hroot : o ∈ m.roots.refs m.roots.unparked := by
      cases mode with
      | eager => exact ho
      | deferred => cases ho
    obtain ⟨n, hn⟩ := hwithin.refers (Roots.refers_of_mem hroot)
    cases hn
  refine ⟨m, hbuild, rfl, rfl, ?_, ?_, ?_, ?_⟩
  · rw [hrefs]
    refine ⟨⟨?_, htiled, htiled.toTiles.housed
      (by simp [objectsIn, usedRuns]) (closed_nil _), hwithin, fun _ =>
        ⟨List.nodup_nil, Nat.zero_le _,
      by
        simp [m, ZeroCountTable.empty], by
          simp, fun o ho => ?_⟩⟩, ?_, Nat.zero_le _, List.nodup_nil, by simp, by simp⟩
    · simp [m, Arena.region, hsize]
    · obtain ⟨n, hn⟩ := ho
      cases hn
    · rintro o ⟨n, hn⟩
      cases hn
  · simp [m, Roots.empty, tableLimit]
  · have htable := hlimit.2
    simp only [m, Roots.empty, Array.size_replicate, tableLimit] at htable ⊢
    omega
  · exact Nat.zero_le _

/-- A new counting heap satisfies the invariant. -/
theorem start_kept {c : Config} {u : Mutator} (hc : c.strategy = mode.strategy)
    (h2 : 2 ≤ c.heapWords) (hu : c.Makes u) :
    ∃ S, Collector.Hosted Collector.counting
    (Kept (Good mode c.zeroCountCapacity)) u.machine S := by
  obtain ⟨m, hm, hmode, hcap, hg⟩ := start_balanced hc h2 hu
  rw [hm]
  exact ⟨_, m.own, rfl, _, ⟨_, hmode, hcap, rfl, hg⟩, rfl⟩

end Counting

end Reclaim
