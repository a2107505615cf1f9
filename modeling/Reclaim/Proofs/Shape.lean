import Reclaim.Proofs.Conservation
import Reclaim.Proofs.Counting.Operations
import Reclaim.Proofs.Generational.Remembered
import Reclaim.Proofs.MarkSweep.Operations
import Reclaim.Proofs.Semispace.Operations
import Reclaim.Proofs.Sliding.Operations

/-!
# The shape of the heap

Whatever the strategy is, the heap can be walked: the blocks that are listed and the chunks that are
free share out the spaces of the collector word for word, each header tells the true size of its
block, each block has room for its object, and what roots and reachable pairs refer to are objects
in these blocks (`Shaped`). A space of a bump allocator is filled up to its top, and the region of a
free list up to its end.

Results:
* `Stacked.fills`, `Tiles.fills`: blocks one after the other fill their space, and so do tiles.
* `Semispace.shaped`, `Sliding.shaped`, `MarkSweep.shaped`, `Counting.shaped`,
  `Generational.shaped`: the invariant of each strategy gives the shape.
* `session_shaped`: the heap has this shape throughout a session.
-/

namespace Reclaim

/-! ## Spaces -/

namespace Collector

/-- The spaces that hold the blocks of a collector, each with the end of its blocks. -/
def spaces : Collector → List Bump
  | semispace s => [s.space]
  | markSweep s => [⟨s.region, s.region.limit⟩]
  | sliding s => [s.space]
  | generational g => [g.nursery, g.tenured]
  | counting c => [⟨c.region, c.region.limit⟩]

/-- The chunks of a collector that has a free list. -/
def freeChunks : Collector → ReadM (List (Nat × Nat))
  | markSweep s => s.freeList.chunks
  | counting c => c.freeList.chunks
  | _ => pure []

end Collector

/-- The object behind the header of a block, which is `hd` words long. -/
def objectOf (hd : Nat) (b : Nat × Nat) : Nat × Nat := (b.1 + hd, b.2)

theorem objectOf_injective (hd : Nat) : Function.Injective (objectOf hd) := by
  intro b c he
  simp only [objectOf, Prod.mk.injEq, Nat.add_right_cancel_iff] at he
  exact Prod.ext he.1 he.2

/-- The runs share out the spaces up to their tops, word for word. -/
structure Fills (spaces : List Bump) (runs : List (Nat × Nat)) : Prop where
  apart : runs.Pairwise Separate
  inside : ∀ r ∈ runs, ∃ s ∈ spaces, s.region.first ≤ r.1 ∧ r.1 + r.2 ≤ s.top
  covers : ∀ s ∈ spaces, ∀ x, s.region.first ≤ x → x < s.top → Covered runs x

/-- The heap consists of `blocks`, listed by address, and of free `chunks`; references lead to the
objects of the blocks. -/
structure Shaped (u : Mutator) (blocks chunks : List (Nat × Nat)) : Prop where
  listed : u.objects = .ok (blocks.map (objectOf u.machine.own.headerWords))
  free : u.view u.machine.own.freeChunks = .ok chunks
  bounds : ∀ s ∈ u.machine.own.spaces, s.top ≤ s.region.limit ∧ s.region.limit ≤ u.machine.heap.size
  filled : Fills u.machine.own.spaces (chunks ++ blocks)
  sorted : blocks.Pairwise fun b c => b.1 + b.2 ≤ c.1
  /-- The header keeps the size of the block. -/
  sized : ∀ b ∈ blocks, ∃ info, u.describe (b.1 + u.machine.own.headerWords) = .ok info ∧
    info.size = b.2
  /-- The block has room for its object. -/
  roomy : ∀ b ∈ blocks, ∃ n, u.view (payloadWords (b.1 + u.machine.own.headerWords)) = .ok n ∧
    u.machine.own.headerWords + n ≤ b.2
  roots : ∀ slot v o, u.machine.roots.get? slot = some v →
    v.ref? = some o → ∃ b ∈ blocks, o = b.1 + u.machine.own.headerWords
  fields : ∀ p i o, u.machine.Reachable p → u.machine.heap.tag p = some .pair → i = 1 ∨ i = 2 →
    (u.machine.heap.value (p + i)).ref? = some o → ∃ b ∈ blocks, o = b.1 + u.machine.own.headerWords

/-! ## Runs that fill spaces -/

section Fills

variable {spaces spaces' : List Bump} {runs runs' : List (Nat × Nat)} {hd lo hi : Nat}
  {ts : List Tile} {h : Arena}

/-- Blocks one after the other are runs one after the other. -/
theorem Stacked.exists_runs {bs : List (Nat × Nat)} (hs : Stacked hd lo bs hi) :
    ∃ rs, bs = rs.map (objectOf hd) ∧ Stacked 0 lo rs hi := by
  induction bs generalizing lo with
  | nil => exact ⟨[], rfl, hs⟩
  | cons b bs ih =>
    obtain ⟨rs, rfl, hrs⟩ := ih hs.2.2
    have hn := hs.2.1
    refine ⟨(lo, b.2) :: rs, ?_, rfl, by omega, hrs⟩
    rw [List.map_cons]
    exact congrArg (· :: _) (Prod.ext hs.1 rfl)

theorem Stacked.in_order (hs : Stacked 0 lo runs hi) :
    runs.Pairwise fun b c => b.1 + b.2 ≤ c.1 := by
  induction runs generalizing lo with
  | nil => exact .nil
  | cons r runs ih =>
    refine List.pairwise_cons.mpr ⟨fun c hc => ?_, ih hs.2.2⟩
    have hb := hs.2.2.bounds hc
    have hfirst := hs.1
    omega

theorem Stacked.fills {s : Bump} (hs : Stacked 0 s.region.first runs s.top) : Fills [s] runs := by
  refine ⟨hs.separate, fun r hr => ⟨s, by simp, ?_⟩, ?_⟩
  · have hb := hs.bounds hr
    omega
  · simp only [List.mem_singleton, forall_eq]
    exact fun x h1 h2 => hs.covers h1 h2

/-- Free tiles and the others fill their region. -/
theorem Tiles.fills {region : Region} (ht : Tiles h region.first region.limit ts) :
    Fills [⟨region, region.limit⟩] (freeRuns ts ++ usedRuns ts) := by
  obtain ⟨hap, hcov⟩ := ht.share
  refine ⟨hap, fun r hr => ⟨_, List.mem_singleton_self _, ?_⟩, ?_⟩
  · obtain ⟨t, htm, rfl⟩ : ∃ t ∈ ts, t.run = r := by
      simp only [freeRuns, usedRuns, List.mem_append, List.mem_map, List.mem_filter] at hr
      rcases hr with ⟨t, hm, rfl⟩ | ⟨t, hm, rfl⟩ <;> exact ⟨t, hm.1, rfl⟩
    have hb := ht.bounds htm
    exact ⟨hb.1, hb.2.1⟩
  · simp only [List.mem_singleton, forall_eq]
    exact hcov

/-- Spaces one above the other. -/
theorem Fills.append (hf : Fills spaces runs) (hf' : Fills spaces' runs')
    (hap : ∀ s ∈ spaces, ∀ s' ∈ spaces', s.top ≤ s'.region.first) :
    Fills (spaces ++ spaces') (runs ++ runs') := by
  refine ⟨List.pairwise_append.mpr
    ⟨hf.apart, hf'.apart, fun r hr r' hr' => .inl ?_⟩, fun r hr => ?_, fun s hs x h1 h2 => ?_⟩
  · obtain ⟨s, hs, hin⟩ := hf.inside r hr
    obtain ⟨s', hs', hin'⟩ := hf'.inside r' hr'
    have hle := hap s hs s' hs'
    omega
  · rcases List.mem_append.mp hr with hr | hr
    · obtain ⟨s, hs, hin⟩ := hf.inside r hr
      exact ⟨s, List.mem_append_left _ hs, hin⟩
    · obtain ⟨s, hs, hin⟩ := hf'.inside r hr
      exact ⟨s, List.mem_append_right _ hs, hin⟩
  · rw [covered_append]
    rcases List.mem_append.mp hs with hs | hs
    · exact .inl (hf.covers s hs x h1 h2)
    · exact .inr (hf'.covers s hs x h1 h2)

end Fills

/-! ## From an invariant -/

section Shaped

variable {u : Mutator} {S : Nat → Prop} {blocks chunks : List (Nat × Nat)}

/-- The objects that may be used have blocks, and blocks have room for objects. -/
structure Accommodated (u : Mutator) (S : Nat → Prop) (blocks : List (Nat × Nat)) : Prop where
  closed : Closed u.machine.heap S
  roots : u.machine.roots.Within S
  placed : ∀ o, S o → ∃ b ∈ blocks, o = b.1 + u.machine.own.headerWords
  known : ∀ b ∈ blocks, u.machine.heap.tag (b.1 + u.machine.own.headerWords) ≠ none
  fits : ∀ b ∈ blocks, u.machine.own.headerWords + u.machine.heap.payload
    (b.1 + u.machine.own.headerWords) ≤ b.2

theorem Housed.accommodated {hd : Nat} (hh : Housed hd u.machine.heap (blocks.map (objectOf hd)))
    (hhd : u.machine.own.headerWords = hd)
    (hr : u.machine.roots.Within (Held (blocks.map (objectOf hd)))) :
    Accommodated u (Held (blocks.map (objectOf hd))) blocks := by
  subst hhd
  refine ⟨hh.closed, hr, fun o ho => ?_, fun b hb => ?_, fun b hb => ?_⟩
  · obtain ⟨n, hn⟩ := ho
    obtain ⟨b, hb, he⟩ := List.mem_map.mp hn
    exact ⟨b, hb, (congrArg Prod.fst he).symm⟩
  · exact hh.closed.known (b.1 + _) ⟨b.2, List.mem_map_of_mem (f := objectOf _) hb⟩
  · exact hh.fits (objectOf _ b) (List.mem_map_of_mem hb)

theorem Accommodated.shaped (hl : Accommodated u S blocks)
    (hlist : u.objects = .ok (blocks.map (objectOf u.machine.own.headerWords)))
    (hfree : u.view u.machine.own.freeChunks = .ok chunks)
    (hbounds : ∀ s ∈ u.machine.own.spaces, s.top ≤ s.region.limit ∧ s.region.limit ≤
      u.machine.heap.size) (hfilled : Fills u.machine.own.spaces (chunks ++ blocks))
      (hsorted : blocks.Pairwise fun b c => b.1 + b.2 ≤ c.1)
      (hsized : ∀ b ∈ blocks, ∃ info, u.describe (b.1 + u.machine.own.headerWords) = .ok info ∧
        info.size = b.2) :
    Shaped u blocks chunks := by
  refine ⟨hlist, hfree, hbounds, hfilled, hsorted, hsized, fun b hb => ?_, fun slot v o hv ho => ?_,
    fun p i o hp ht hi ho => ?_⟩
  · obtain ⟨s, hs, -, hin⟩ := hfilled.inside b (List.mem_append_right _ hb)
    have hle := hbounds s hs
    have hpos := Arena.payload_pos (hl.known b hb)
    have hfit := hl.fits b hb
    exact ⟨_, payloadWords_run (by omega) (hl.known b hb), hfit⟩
  · exact hl.placed o (hl.roots slot v hv o ho).2
  · have hS : S p := hp.mem hl.closed hl.roots
    exact hl.placed o (hl.closed.field p (p + i) hS ht (by omega) o ho).2

end Shaped

/-! ## Each strategy -/

/-- The size that stands in a header, `offset` words before the object. -/
def headerSize (offset o : Nat) : ReadM Nat := do return (← loadHeader o offset).toNat

theorem headerSize_run {h : Arena} {o offset n : Nat} (hoff : offset ≤ o)
    (hin : o - offset < h.size) (hn : (h.word (o - offset)).toNat = n) :
    headerSize offset o h = .ok n := by
  rw [headerSize, read_bind (loadHeader_run hoff hin), hn]
  rfl

section Strategies

variable {u : Mutator} {S : Nat → Prop}

/-- A strategy with a single bump allocator. -/
theorem Stacked.shaped {hd offset : Nat} {space : Bump} {listed : List (Nat × Nat)}
    (hs : Stacked hd space.region.first listed space.top) (hheader : u.machine.own.headerWords = hd)
    (hspaces : u.machine.own.spaces = [space]) (hfree : u.machine.own.freeChunks = pure [])
    (hinfo : ∀ o, u.machine.own.describe o = do return { size := ← headerSize offset o })
    (hobj : u.objects = .ok listed) (hh : Housed hd u.machine.heap listed)
    (hr : u.machine.roots.Within (Held listed)) (hoff : 1 ≤ offset ∧ offset ≤ hd)
    (hz : Sized offset u.machine.heap listed) (htop : space.top ≤ space.region.limit)
    (hin : space.region.limit ≤ u.machine.heap.size) : ∃ blocks chunks, Shaped u blocks chunks := by
  obtain ⟨blocks, rfl, hruns⟩ := hs.exists_runs
  have hl : Accommodated u _ blocks := hh.accommodated hheader hr
  refine ⟨blocks, [], hl.shaped (by rw [hheader]; exact hobj) ?_ ?_ ?_ hruns.in_order
    fun b hb => ⟨{ size := b.2 }, ?_, rfl⟩⟩
  · rw [hfree]
    rfl
  · rw [hspaces]
    simp only [List.mem_singleton, forall_eq]
    exact ⟨htop, hin⟩
  · rw [hspaces]
    exact hruns.fills
  · have hb' : objectOf hd b ∈ blocks.map (objectOf hd) := List.mem_map_of_mem hb
    have hb1 := hh.inside _ hb'
    have hb2 := hh.room hb'
    simp only [objectOf] at hb1 hb2
    rw [Mutator.describe, hinfo, hheader]
    exact read_bind (headerSize_run (by omega) (by omega) (hz _ hb'))

theorem Semispace.shaped (hi : Collector.Hosted Collector.semispace
      (Kept Semispace.Good) u.machine S) :
    ∃ blocks chunks, Shaped u blocks chunks := by
  obtain ⟨s, hown, listed, hg, -⟩ := hi
  have hst : Stacked 2 s.space.region.first listed s.space.top := hg.stacked
  refine hst.shaped (by rw [hown]; rfl) (by rw [hown]; rfl) (by rw [hown]; rfl)
    (by rw [hown]; intro o; rfl) ?_
    (Semispace.layout.housed hg) hg.roots (by decide) hg.sized hg.top_le hg.inside
  rw [Mutator.objects, hown]
  exact Semispace.layout.objects hg

theorem Sliding.shaped (hi : Collector.Hosted Collector.sliding (Kept Sliding.Good) u.machine S) :
    ∃ blocks chunks, Shaped u blocks chunks := by
  obtain ⟨s, hown, listed, hg, -⟩ := hi
  have hst : Stacked 3 s.space.region.first listed s.space.top := hg.inv.stacked
  refine hst.shaped (by rw [hown]; rfl) (by rw [hown]; rfl) (by rw [hown]; rfl)
    (by rw [hown]; intro o; rfl) ?_
    (Sliding.layout.housed hg) hg.inv.roots (by decide) hg.inv.sized hg.inv.top_le hg.inv.inside
  rw [Mutator.objects, hown]
  exact Sliding.layout.objects hg

/-- The size of a block stands at its start. -/
theorem Tiled.headerSize_run {hd lo hi o n : Nat} {l : FreeList} {h : Arena} {ts : List Tile}
    (ht : Tiled l h lo hi ts) (hb : (o, n) ∈ objectsIn hd ts) : headerSize hd o h = .ok n := by
  obtain ⟨a, n, hm, he⟩ := mem_objectsIn.mp hb
  cases he
  have hbd := ht.bounds hm
  have hin := ht.inside
  simp only at hbd
  refine Reclaim.headerSize_run (by omega) (by omega) ?_
  rw [Nat.add_sub_cancel]
  exact ht.sized _ hm

/-- A strategy with a free list. -/
theorem Tiled.shaped {hd : Nat} {region : Region} {l : FreeList} {ts : List Tile}
    (ht : Tiled l u.machine.heap region.first region.limit ts)
    (hheader : u.machine.own.headerWords = hd)
    (hspaces : u.machine.own.spaces = [⟨region, region.limit⟩])
    (hfree : u.machine.own.freeChunks = l.chunks) (hobj : u.objects = .ok (objectsIn hd ts))
    (hh : Housed hd u.machine.heap (objectsIn hd ts))
    (hr : u.machine.roots.Within (Held (objectsIn hd ts)))
    (hinfo : ∀ o n, (o, n) ∈ objectsIn hd ts → headerSize hd o u.machine.heap = .ok n → ∃ info,
      u.describe o = .ok info ∧ info.size = n) : ∃ blocks chunks, Shaped u blocks chunks := by
  have hl : Accommodated u (Held ((usedRuns ts).map (objectOf hd))) (usedRuns ts) :=
    Housed.accommodated hh hheader hr
  refine ⟨usedRuns ts, freeRuns ts,
    hl.shaped (by rw [hheader]; exact hobj) ?_ ?_ ?_ ?_ fun b hb => ?_⟩
  · rw [hfree]
    exact ht.chunks_run
  · rw [hspaces]
    simp only [List.mem_singleton, forall_eq]
    exact ⟨Nat.le_refl _, ht.inside⟩
  · rw [hspaces]
    exact ht.toTiles.fills
  · exact ht.stacked.in_order.sublist (List.filter_sublist.map _)
  · have hm : (b.1 + hd, b.2) ∈ objectsIn hd ts :=
      mem_objectsIn.mpr ⟨b.1, b.2, mem_usedRuns.mp hb, rfl⟩
    rw [hheader]
    exact hinfo _ _ hm (ht.headerSize_run hm)

theorem MarkSweep.shaped (hi : Collector.Hosted Collector.markSweep
      (Kept MarkSweep.Good) u.machine S) :
    ∃ blocks chunks, Shaped u blocks chunks := by
  obtain ⟨s, hown, listed, ⟨ts, rfl, hg⟩, -⟩ := hi
  have hregion : s.region = ⟨0, u.machine.heap.size⟩ := hg.region.trans (Arena.region_eq _)
  have ht : Tiled s.freeList u.machine.heap s.region.first s.region.limit ts := by
    rw [hregion]
    exact hg.tiled
  refine ht.shaped (by rw [hown]; rfl) (by rw [hown]; rfl) (by rw [hown]; rfl) ?_ hg.housed hg.roots
    fun o n _ hn => ?_
  · rw [Mutator.objects, hown]
    exact hg.objects_run
  · refine ⟨{ size := n }, ?_, rfl⟩
    rw [Mutator.describe, hown]
    exact read_bind hn

theorem Counting.describe_run {c : Counting} {h : Arena} {o n : Nat} {k : Int} {q : Bool}
    (hsize : headerSize c.mode.headerWords o h = .ok n) (hcount : Counting.count c.mode o h = .ok k)
    (hq : c.mode = .deferred → Counting.isQueued c.mode o h = .ok q) :
    c.describe o h =
    .ok { size := n, count := some k, queued := if c.mode = .deferred then some q else none } := by
  have hblock : Counting.blockSize c.mode o h = .ok n := hsize
  rw [Counting.describe, read_bind hblock, read_bind hcount]
  cases hmode : c.mode with
  | eager => rfl
  | deferred =>
    have hflag : (some <$> Counting.isQueued .deferred o : ReadM (Option Bool)) h =
        .ok (some q) := by
      rw [← hmode, map_eq_pure_bind, read_bind (hq hmode)]
      rfl
    simp only
    rw [read_bind hflag]
    rfl

theorem Counting.shaped {mode : CountMode} {cap : Nat}
    (hi : Collector.Hosted Collector.counting (Kept (Counting.Good mode cap)) u.machine S) :
    ∃ blocks chunks, Shaped u blocks chunks := by
  obtain ⟨s, hown, listed, ⟨ts, -, -, rfl, hg⟩, -⟩ := hi
  have hbooks := hg.dying.stock
  have hregion : s.region = ⟨0, u.machine.heap.size⟩ := hbooks.region.trans (Arena.region_eq _)
  have ht : Tiled s.freeList u.machine.heap s.region.first s.region.limit ts := by
    rw [hregion]
    exact hbooks.tiled
  refine ht.shaped (by rw [hown]; rfl) (by rw [hown]; rfl)
    (by rw [hown]; rfl) ?_ hbooks.housed hbooks.roots fun o n hm hn => ?_
  · rw [Mutator.objects, hown]
    exact hbooks.objects_run
  · rw [Mutator.describe, hown]
    exact ⟨_, Counting.describe_run hn (hg.dying.count_run ⟨n, hm⟩)
      fun hmode => hbooks.isQueued_run hmode ⟨n, hm⟩ (by simp), rfl⟩

/-- Every block of the two spaces has room for its object. -/
theorem Generational.Good.block_fits {m : Machine Generational} {young old : List (Nat × Nat)}
    (hg : Generational.Good m young old S) {o n : Nat} (hb : (o, n) ∈ young ∨ (o, n) ∈ old) :
    m.heap.tag o ≠ none ∧ 3 + m.heap.payload o ≤ n := by
  rcases hb with hb | hb
  · exact hg.young_fits _ hb
  · have ho := hg.old_valid _ hb
    obtain ⟨n', hb', hfit⟩ := hg.inv.placed o ho
    refine ⟨hg.known o ho, ?_⟩
    rcases hb' with hb' | hb'
    · have hy := hg.inv.contains_old hb
      rw [hg.inv.not_contains_young hb'] at hy
      cases hy
    · rw [hg.inv.old_stacked.size_unique hb hb']
      exact hfit

theorem Generational.describe_run {h : Arena} {o n : Nat} (hpos : 3 ≤ o) (hin : o ≤ h.size)
    (hsize : headerSize Generational.sizeOffset o h = .ok n) :
    ∃ info, Generational.describe o h = .ok info ∧ info.size = n := by
  have hblock : Generational.blockSize o h = .ok n := hsize
  rw [Generational.describe, read_bind (Generational.flags_run (by omega) (by omega)),
    read_bind hblock]
  exact ⟨_, rfl, rfl⟩

theorem Generational.shaped
    (hi : Collector.Hosted Collector.generational Generational.Intact u.machine S) :
    ∃ blocks chunks, Shaped u blocks chunks := by
  obtain ⟨g, hown, young, old, hg⟩ := hi
  have hinv := hg.inv
  have hsp := hinv.spaces
  have hheader : u.machine.own.headerWords = 3 := by rw [hown]; rfl
  have hspaces : u.machine.own.spaces = [g.nursery, g.tenured] := by rw [hown]; rfl
  obtain ⟨ys, rfl, hys⟩ := hinv.young_stacked.exists_runs
  obtain ⟨os, rfl, hos⟩ := hinv.old_stacked.exists_runs
  have hblock : ∀ b ∈ ys ++ os, objectOf 3 b ∈ ys.map (objectOf 3) ∨
      objectOf 3 b ∈ os.map (objectOf 3) := fun b hb =>
    (List.mem_append.mp hb).imp (List.mem_map_of_mem ·) (List.mem_map_of_mem ·)
  have h1 := hsp.nursery_top
  have h2 := hsp.below
  have h3 := hsp.tenured_top
  have h4 := hsp.tenured
  have h5 := hos.le
  have hfills : Fills [g.nursery, g.tenured] (ys ++ os) := by
    refine hys.fills.append hos.fills ?_
    simp only [List.mem_singleton, forall_eq]
    exact Nat.le_trans h1 h2
  have hl : Accommodated u S (ys ++ os) := by
    refine ⟨hg.closed, hinv.roots, fun o ho => ?_, fun b hb => ?_, fun b hb => ?_⟩ <;> rw [hheader]
    · obtain ⟨n, hn, -⟩ := hinv.placed o ho
      rw [← List.mem_append, ← List.map_append] at hn
      obtain ⟨b, hb, he⟩ := List.mem_map.mp hn
      exact ⟨b, hb, (congrArg Prod.fst he).symm⟩
    · exact (hg.block_fits (hblock b hb)).1
    · exact (hg.block_fits (hblock b hb)).2
  refine ⟨ys ++ os, [], hl.shaped ?_ ?_ ?_ ?_ ?_ fun b hb => ?_⟩
  · rw [Mutator.objects, hheader, List.map_append, hown]
    exact hinv.objects
  · rw [hown]
    rfl
  · rw [hspaces]
    simp only [List.mem_cons, List.not_mem_nil, or_false, forall_eq_or_imp, forall_eq]
    exact ⟨⟨h1, Nat.le_trans h2 (Nat.le_trans h5 (Nat.le_trans h3 h4))⟩, h3, h4⟩
  · rw [hspaces]
    exact hfills
  · refine List.pairwise_append.mpr ⟨hys.in_order, hos.in_order, fun y hy o ho => ?_⟩
    have hb := hys.bounds hy
    have hb' := hos.bounds ho
    simp only [Machine.withOwn_own] at hb hb' h1 h2
    omega
  · obtain ⟨s, hs, hlo, hhi⟩ := hfills.inside b hb
    have hroom := (hg.block_fits (hblock b hb)).2
    have hsz : (u.machine.heap.word (b.1 + 3 - 2)).toNat = b.2 :=
      (hblock b hb).elim (hinv.young_sized _) (hinv.old_sized _)
    have hin : b.1 + b.2 ≤ u.machine.heap.size := by
      simp only [List.mem_cons, List.not_mem_nil, or_false] at hs
      simp only [Machine.withOwn_own, Machine.withOwn_heap] at h1 h2 h3 h4 h5
      rcases hs with rfl | rfl <;> omega
    have hsize : headerSize 2 (b.1 + 3) u.machine.heap = .ok b.2 :=
      headerSize_run (by omega) (by omega) hsz
    rw [hheader, Mutator.describe, hown]
    exact Generational.describe_run (by omega) (by omega) hsize

end Strategies

/-! ## Sessions -/

/-- Throughout a session on an arena of two words or more, the heap can be walked: blocks and free
chunks share out the spaces, and references lead to the objects in the blocks. -/
theorem session_shaped {c : Config} {u : Mutator} {H : Nat → Prop} (h2 : 2 ≤ c.heapWords)
    (hs : Session c u H) :
    ∃ blocks chunks, Shaped u blocks chunks := by
  cases hc : c.strategy with
  | copying =>
    obtain ⟨S, hi, -⟩ := (hs.steady (Semispace.laws.hosted Semispace.hosts)
      fun _ => Semispace.start_kept hc).good
    exact Semispace.shaped hi
  | markSweep =>
    obtain ⟨S, hi, -⟩ := (hs.steady (MarkSweep.laws.hosted MarkSweep.hosts)
      fun _ => MarkSweep.start_kept hc h2).good
    exact MarkSweep.shaped hi
  | markCompact =>
    obtain ⟨S, hi, -⟩ := (hs.steady (Sliding.laws.hosted Sliding.hosts)
      fun _ => Sliding.start_kept hc).good
    exact Sliding.shaped hi
  | generational =>
    obtain ⟨S, hi, -⟩ := (hs.steady (Generational.laws.hosted Generational.hosts)
      fun _ => Generational.start_intact hc).good
    exact Generational.shaped hi
  | counting =>
    obtain ⟨S, hi, -⟩ := (hs.steady
      ((Counting.laws .eager c.zeroCountCapacity).hosted Counting.hosts) fun _ =>
        Counting.start_kept hc h2).good
    exact Counting.shaped hi
  | deferredCounting =>
    obtain ⟨S, hi, -⟩ := (hs.steady
      ((Counting.laws .deferred c.zeroCountCapacity).hosted Counting.hosts) fun _ =>
        Counting.start_kept hc h2).good
    exact Counting.shaped hi

/-- A small heap with a free list. -/
def fiveBlockHeap : Config :=
  { strategy := .markSweep, heapSize := 160, stackCapacity := 8, globalTableSize := 4,
    markStackCapacity := 8 }

/-- Of three pairs the middle one is not on the stack, and a collection leaves a chunk in its
place. -/
theorem hole_shaped : ∃ u H, Session fiveBlockHeap u H ∧
    Shaped u [(0, 4), (8, 4)] [(4, 4), (12, 8)] := by
  let u0 := Mutator.ofConfig fiveBlockHeap
  let u1 := (Command.cons .nil .nil).after u0
  let u2 := (Command.push (.ofRef 1)).after u1
  let u3 := (Command.cons (.ofRef 1) .nil).after u2
  let u4 := (Command.cons (.ofRef 1) .nil).after u3
  let u5 := (Command.push (.ofRef 9)).after u4
  let u6 := Command.collect.after u5
  have hnil : ∀ (u : Mutator) H, u.Allows H .nil := fun _ _ => Mutator.allows_immediate rfl
  have hpair : ∀ (u : Mutator) H, u.machine.roots.get? (.stack 0) = some (.ofRef 1) →
      ∀ v ∈ [Value.ofRef 1, .nil], u.Allows H v := by
    intro u H hroot
    simp only [List.mem_cons, List.not_mem_nil, or_false, forall_eq_or_imp, forall_eq]
    exact ⟨Mutator.allows_root (.stack 0) (by decide) (by decide) hroot, hnil u H⟩
  have h0 : Session fiveBlockHeap u0 _ := .start ⟨_, rfl⟩
  have h1 := h0.next (.cons .nil .nil) [.ofRef 1] (by decide +kernel) (by decide +kernel)
    (by simp [Command.operands, hnil])
  have h2 := h1.next (.push (.ofRef 1)) [] (by decide +kernel) (by decide +kernel) (by
    simp only [Command.operands, List.mem_singleton, forall_eq]
    exact Mutator.allows_returned (by decide) (by decide)
      (show u1.objects.toOption = some [(1, 4)] by decide +kernel) (.head _))
  have h3 := h2.next (.cons (.ofRef 1) .nil) [.ofRef 5] (by decide +kernel) (by decide +kernel)
    (hpair u2 _ (by decide +kernel))
  have h4 := h3.next (.cons (.ofRef 1) .nil) [.ofRef 9] (by decide +kernel) (by decide +kernel)
    (hpair u3 _ (by decide +kernel))
  have h5 := h4.next (.push (.ofRef 9)) [] (by decide +kernel) (by decide +kernel) (by
    simp only [Command.operands, List.mem_singleton, forall_eq]
    exact Mutator.allows_returned (by decide) (by decide)
      (show u4.objects.toOption = some [(1, 4), (5, 4), (9, 4)] by decide +kernel)
      (.tail _ (.tail _ (.head _))))
  obtain ⟨H, h6⟩ : ∃ H, Session fiveBlockHeap u6 H :=
    ⟨_, h5.next .collect [] (by decide +kernel) (by decide +kernel) (by simp [Command.operands])⟩
  have hheader : u6.machine.own.headerWords = 1 := by decide +kernel
  have hlisted : u6.objects = .ok [(1, 4), (9, 4)] := eq_ok_of_toOption (by decide +kernel)
  have hchunks : u6.view u6.machine.own.freeChunks = .ok [(4, 4), (12, 8)] :=
    eq_ok_of_toOption (by decide +kernel)
  clear_value u6
  obtain ⟨blocks, chunks, hs⟩ := session_shaped (by decide) h6
  have hmap := Except.ok.inj (hs.listed.symm.trans hlisted)
  rw [hheader] at hmap
  obtain rfl : blocks = [(0, 4), (8, 4)] := (objectOf_injective 1).list_map hmap
  obtain rfl : chunks = [(4, 4), (12, 8)] := Except.ok.inj (hs.free.symm.trans hchunks)
  exact ⟨u6, H, h6, hs⟩

end Reclaim
