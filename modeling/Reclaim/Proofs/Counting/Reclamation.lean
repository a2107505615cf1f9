import Mathlib.Data.Fintype.Card
import Mathlib.Data.Set.Finite.List
import Mathlib.Logic.Relation
import Mathlib.Order.WellFounded
import Reclaim.Proofs.Counting.Courses
import Reclaim.Proofs.Walk

/-!
# What a scan reclaims

A scan may be made in any state in which the counts are those of the references in fields and the
table is in order (`Consistent`), whatever else the state is: how many roots there are and how many
of them are parked, how full the table is, and which objects wait in it. It ends, and nothing that
the roots reach is gone (`Scavenged`).

How much garbage is left depends on what is not in the table. If every object that is not counted
waits there or is held by a root (`Tracked`), then each one that the scan leaves is held by
something. So garbage that is left hangs together in cycles, and there is none where there is no
cycle.

Results:
* `GivenBack`: free lists that differ by some blocks, each of them given back once.
* `mem_cycle_of_held`: in a finite graph in which everything has a predecessor there is a cycle.
* `scan_reclaims`: what a scan does.
-/

namespace Reclaim

open Relation (TransGen)

/-! ## Blocks that were given back -/

/-- The chunks of `l'` in `h'` are those of `l` in `h` and the `given` blocks, which were not free:
each word of a chunk or a given block lies in one chunk afterwards, and no other word does. -/
structure GivenBack (given : List (Nat × Nat)) (l l' : FreeList) (h h' : Arena) : Prop where
  gained : l'.freeWords = l.freeWords + (given.map Prod.snd).sum
  chunks : ∃ cs cs', l.chunks h = .ok cs ∧ l'.chunks h' = .ok cs' ∧
    (cs ++ given).Pairwise Separate ∧ cs'.Pairwise Separate ∧
    ∀ a, Covered cs' a ↔ Covered (cs ++ given) a

section GivenBack

variable {cs ds given : List (Nat × Nat)} {l l' : FreeList} {h h' : Arena} {hi a : Nat}
  {ts ts' : List Tile}

theorem not_covered_of_separate (hs : (cs ++ ds).Pairwise Separate) (hc : Covered cs a) :
    ¬ Covered ds a := by
  obtain ⟨c, hc, ha⟩ := hc
  rintro ⟨d, hd, hda⟩
  exact ((List.pairwise_append.mp hs).2.2 c hc d hd).not_both ha hda

theorem Tiles.lt_of_covered {lo : Nat} (ht : Tiles h lo hi ts)
    (ha : Covered (freeRuns ts ++ usedRuns ts) a) : lo ≤ a ∧ a < hi := by
  obtain ⟨c, hc, h1, h2⟩ := ha
  have hm : c ∈ ts.map Tile.run := by
    rcases List.mem_append.mp hc with hc | hc
    · obtain ⟨t, ht, rfl⟩ := List.mem_map.mp hc
      exact List.mem_map_of_mem (List.mem_filter.mp ht).1
    · obtain ⟨t, ht, rfl⟩ := List.mem_map.mp hc
      exact List.mem_map_of_mem (List.mem_filter.mp ht).1
  have hb := ht.stacked.bounds hm
  omega

/-- A free list of the same region from which fewer blocks are handed out. -/
theorem Tiled.givenBack (ht : Tiled l h 0 hi ts) (ht' : Tiled l' h' 0 hi ts')
    (hp : (usedRuns ts).Perm (given ++ usedRuns ts')) :
    GivenBack given l l' h h' := by
  obtain ⟨hsep, hfull⟩ := ht.toTiles.share
  obtain ⟨hsep', hfull'⟩ := ht'.toTiles.share
  have hperm : (freeRuns ts ++ usedRuns ts).Perm ((freeRuns ts ++ given) ++ usedRuns ts') := by
    rw [List.append_assoc]
    exact hp.append_left _
  have hparts := hperm.pairwise hsep Separate.symm
  have hcov : ∀ a, Covered (freeRuns ts ++ usedRuns ts) a ↔
      Covered ((freeRuns ts ++ given) ++ usedRuns ts') a := fun a => by
    simp only [Covered, hperm.mem_iff]
  refine ⟨?_, freeRuns ts, freeRuns ts', ht.chunks_run, ht'.chunks_run,
    (List.pairwise_append.mp hparts).1,
    (List.pairwise_append.mp hsep').1, fun a => ⟨fun ha => ?_, fun ha => ?_⟩⟩
  · have hend := ht.stacked.end_eq
    have hend' := ht'.stacked.end_eq
    have hsum := (hp.map Prod.snd).sum_nat
    rw [List.map_append, List.sum_append] at hsum
    rw [sum_runs, ← ht.freeWords] at hend
    rw [sum_runs, ← ht'.freeWords] at hend'
    omega
  · have hlt := ht'.toTiles.lt_of_covered (covered_append.mpr (.inl ha))
    exact (covered_append.mp ((hcov a).mp (hfull a hlt.1 hlt.2))).resolve_right
      (not_covered_of_separate hsep' ha)
  · have hlt := ht.toTiles.lt_of_covered ((hcov a).mpr (covered_append.mpr (.inl ha)))
    exact (covered_append.mp (hfull' a hlt.1 hlt.2)).resolve_right
      (not_covered_of_separate hparts ha)

end GivenBack

/-! ## Garbage that hangs together -/

/-- If each of finitely many things has one of them before it, some of them follow one another in a
cycle. -/
theorem mem_cycle_of_held {α : Type} {r : α → α → Prop} {P : α → Prop} {l : List α} {a : α}
    (hl : ∀ x, P x → x ∈ l) (ha : P a) (hr : ∀ x, P x → ∃ y, P y ∧ r y x) : ∃ x, P x ∧
    TransGen r x x := by
  by_contra! hno
  let above : Subtype P → Subtype P → Prop := fun x y => TransGen r x.1 y.1
  have : Finite (Subtype P) := ((List.finite_toSet l).subset hl).to_subtype
  have : IsTrans _ above := ⟨fun _ _ _ => .trans⟩
  have : Std.Irrefl above := ⟨fun x => hno x.1 x.2⟩
  -- a first one has none before it
  obtain ⟨first, -, hfirst⟩ := (Finite.wellFounded_of_trans_of_irrefl above).has_min Set.univ
    ⟨⟨a, ha⟩, trivial⟩
  obtain ⟨y, hy, hry⟩ := hr first.1 first.2
  exact hfirst ⟨y, hy⟩ trivial (.single hry)

namespace Counting

variable {m m' : Machine Counting} {before gone after : List (Nat × Nat)}
  {ts ts' : List Tile} {o : Nat}

/-! ## States -/

/-- Counting is deferred, the counts are those of the references in the fields of the `listed`
objects, and the table is in order; or the arena has no room for any object. -/
def Consistent (m : Machine Counting) (listed : List (Nat × Nat)) : Prop :=
  (∃ cap, Good .deferred cap m listed) ∨ (m.own.mode = .deferred ∧ Barren m ∧ listed = [])

/-- Every listed object that is not counted waits in the table, or a root holds it. -/
def Tracked (m : Machine Counting) (listed : List (Nat × Nat)) : Prop :=
  ∀ b ∈ listed, count .deferred b.1 m.heap = .ok 0 → b.1 ∈ m.own.zeroCounts.entries.toList ∨
    m.roots.Refers b.1

/-- No listed object that the roots do not reach refers to itself, through whatever other
objects. -/
def Acyclic (m : Machine Counting) (listed : List (Nat × Nat)) : Prop :=
  ∀ b ∈ listed, ¬ m.Reachable b.1 → ¬ TransGen (fun o c => c ∈ m.heap.succ o) b.1 b.1

/-- The blocks in which objects lie. -/
def blocksAt (listed : List (Nat × Nat)) : List (Nat × Nat) :=
  listed.map fun b => (b.1 - CountMode.deferred.headerWords, b.2)

/-- A scan takes `m` to `m'`: of the objects `before`, those of `gone` are reclaimed and those of
`after` are left. -/
structure Scavenged (m m' : Machine Counting) (before gone after : List (Nat × Nat)) : Prop where
  listed : objects m.own m.heap = .ok before
  left : objects m'.own m'.heap = .ok after
  parted : before.Perm (gone ++ after)
  reached : ∀ o, m.Reachable o → ∃ n, (o, n) ∈ after
  /-- What is left has the words that it had. -/
  same : Same (Held after) m.heap m'.heap
  roots : m'.roots = m.roots
  /-- References from what is gone are not counted any more. -/
  counts : ∀ b ∈ after, ∃ n : Nat, count .deferred b.1 m'.heap = .ok n ∧
    count .deferred b.1 m.heap = .ok (n + (heapRefs m.heap gone).count b.1 : Nat)
  returned : GivenBack (blocksAt gone) m.own.freeList m'.own.freeList m.heap m'.heap
  recorded : m'.stats = m.stats.recordCycle .zeroCounts (gone.map Prod.snd).sum
    (m'.own.region.length - m'.own.freeList.freeWords)

/-! ## A scan -/

theorem blocksAt_blocksOf (hmode : m.own.mode = .deferred) :
    blocksAt (blocksOf m ts) = usedRuns ts := by
  rw [blocksAt, blocksOf, objectsIn, List.map_map, hmode]
  exact (List.map_congr_left fun b _ => Prod.ext (Nat.add_sub_cancel _ _) rfl).trans (List.map_id _)

/-- The blocks that are not listed any more. -/
theorem exists_gone (hs : after.Sublist before) : ∃ gone, before.Perm (gone ++ after) := by
  obtain ⟨gone, hp⟩ := hs.exists_perm_append
  exact ⟨gone, hp.trans List.perm_append_comm⟩

theorem Balanced.count_run (hg : Balanced m ts) (hmode : m.own.mode = .deferred) {b : Nat × Nat}
    (hb : b ∈ blocksOf m ts) :
    count .deferred b.1 m.heap = .ok ((heapRefs m.heap (blocksOf m ts)).count b.1 : Nat) := by
  have hrun := hg.dying.count_run ⟨b.2, hb⟩
  simpa [hmode, rootRefs] using hrun

theorem Cleared.scavenged (hs : Cleared m m' ts ts') (hg : Balanced m ts) (hg' : Balanced m' ts')
    (hmode : m.own.mode = .deferred) (hp : (blocksOf m ts).Perm (gone ++ blocksOf m' ts')) :
    Scavenged m m' (blocksOf m ts) gone (blocksOf m' ts') := by
  have hb := hg.dying.stock
  have hb' := hg'.dying.stock
  have hcl := hb.housed.closed
  have hmode' := hs.mode.trans hmode
  have hsize : m'.heap.size = m.heap.size := by
    have hregion := hb'.region.symm.trans (hs.region.trans hb.region)
    rw [Arena.region_eq, Arena.region_eq] at hregion
    exact congrArg Region.limit hregion
  refine ⟨hb.objects_run, hb'.objects_run, hp,
    fun o ho => hs.held_of_reachable hcl hb' ho, hs.same, hs.roots, fun b hm => ?_, ?_, ?_⟩
  · have hrefs : heapRefs m'.heap (blocksOf m' ts') = heapRefs m.heap (blocksOf m' ts') :=
      heapRefs_congr fun b hm => hs.same.succ (hcl.known _ ⟨b.2, hs.sublist.subset hm⟩) ⟨b.2, hm⟩
    refine ⟨_, hg'.count_run hmode' hm, ?_⟩
    rw [hg.count_run hmode (hs.sublist.subset hm), hrefs, heapRefs, heapRefs, heapRefs,
      (hp.flatMap_right _).count_eq,
      List.flatMap_append, List.count_append, Nat.add_comm]
  · have htiled' := hb'.tiled
    rw [hsize] at htiled'
    refine hb.tiled.givenBack htiled' ?_
    rw [← blocksAt_blocksOf hmode, ← blocksAt_blocksOf hmode']
    simpa only [blocksAt, List.map_append] using hp.map fun b =>
      (b.1 - CountMode.deferred.headerWords, b.2)
  · have hsum := (hp.map Prod.snd).sum_nat
    rw [List.map_append, List.sum_append] at hsum
    rw [hs.stats, hb'.usedWords_eq, usedWords, hsum, Nat.add_sub_cancel]

/-- In an arena without room, there is nothing to be reclaimed. -/
theorem Barren.scavenged (hb : Barren m) : Scavenged m { m with
    stats := m.stats.recordCycle .zeroCounts 0
      (m.own.region.length - m.own.freeList.freeWords) } [] [] [] where
  listed := hb.objects_run
  left := (hb.withStats _).objects_run
  parted := .refl _
  reached o ho := absurd (ho.mem (closed m) hb.roots) id
  same := .refl _ _
  roots := rfl
  counts := by simp
  returned := ⟨rfl, [], [], FreeList.chunks_unlinked hb.unlinked,
    FreeList.chunks_unlinked hb.unlinked, by simp [blocksAt], by simp,
    by simp [blocksAt]⟩
  recorded := rfl

/-- If each object that is not counted waited or was held, then each one that is left is held by a
root or a field. -/
theorem Cleared.held (hs : Cleared m m' ts ts') (hg : Balanced m ts) (hg' : Balanced m' ts')
    (hmode : m.own.mode = .deferred) (ht : Tracked m (blocksOf m ts)) {b : Nat × Nat}
    (hb : b ∈ blocksOf m' ts') :
    m'.roots.Refers b.1 ∨ b.1 ∈ heapRefs m'.heap (blocksOf m' ts') := by
  by_contra! hno
  obtain ⟨hroot, hfield⟩ := hno
  rw [hs.roots] at hroot
  have hheld : Held (blocksOf m' ts') b.1 := ⟨b.2, hb⟩
  have hqueue : b.1 ∉ m'.own.zeroCounts.entries.toList := fun hm => by
    obtain ⟨h0, hlt⟩ := hg'.dying.stock.housed.named m'.own.mode.header_pos b.1 hheld
    exact hroot (refers_of_parked (hs.parked b.1 hm) (Value.ref?_ofRef h0 (by omega)))
  -- it was not counted before either, and so it waited or was held
  have hstray := (hs.strays b.1
    ⟨hheld, by simpa [refs] using hfield, by simp, fun _ => hqueue⟩).resolve_right hroot
  have huncounted := List.count_eq_zero.mpr hstray.uncounted
  rw [refs, List.append_nil] at huncounted
  rcases ht b (hs.sublist.subset hb)
    (by rw [hg.count_run hmode (hs.sublist.subset hb), huncounted]; rfl) with hm | hr
  · exact hstray.unqueued hmode hm
  · exact hroot hr

/-- Without cycles, what is held is held in the end by a root. -/
theorem Scavenged.exact (hs : Scavenged m m' before gone after) (hcl : Closed m.heap (Held before))
    (hheld : ∀ b ∈ after, m'.roots.Refers b.1 ∨ b.1 ∈ heapRefs m'.heap after)
    (hac : Acyclic m before) (o : Nat) :
    (∃ n, (o, n) ∈ after) ↔ m'.Reachable o := by
  have hsub : ∀ b ∈ after, b ∈ before :=
    fun b hb => hs.parted.mem_iff.mpr (List.mem_append_right _ hb)
  have hknown : ∀ o, Held after o → m.heap.tag o ≠ none := by
    rintro o ⟨n, hn⟩
    exact hcl.known o ⟨n, hsub _ hn⟩
  have hreach : ∀ o, m'.Reachable o ↔ m.Reachable o := fun o => by
    rw [Machine.Reachable, Machine.Reachable, hs.roots]
    exact (hs.same.mono hs.reached).reach_iff fun o ho => hknown o (hs.reached o ho)
  rw [hreach]
  refine ⟨?_, hs.reached o⟩
  rintro ⟨n, hn⟩
  by_contra hdead
  have hpred : ∀ x, Held after x ∧ ¬ m.Reachable x → ∃ y, (Held after y ∧ ¬ m.Reachable y) ∧
      x ∈ m.heap.succ y := by
    rintro x ⟨⟨n, hn⟩, hx⟩
    rcases hheld _ hn with hr | hf
    · exact absurd (.root (by rwa [← hs.roots])) hx
    · obtain ⟨b, hb, hc⟩ := mem_heapRefs.mp hf
      rw [hs.same.succ (hknown _ ⟨b.2, hb⟩) ⟨b.2, hb⟩] at hc
      exact ⟨b.1, ⟨⟨b.2, hb⟩, fun hr => hx (hr.step hc)⟩, hc⟩
  have hlist : ∀ x, Held after x ∧ ¬ m.Reachable x → x ∈ after.map Prod.fst := by
    rintro x ⟨⟨n, hn⟩, -⟩
    exact List.mem_map_of_mem (f := Prod.fst) hn
  obtain ⟨x, ⟨⟨k, hk⟩, hx⟩, hcycle⟩ := mem_cycle_of_held hlist ⟨⟨n, hn⟩, hdead⟩ hpred
  exact hac _ (hsub _ hk) hx hcycle

/-- A scan ends, in whatever consistent state it is made, and leaves a consistent state. It reclaims
nothing that the roots reach, gives each block that it reclaims back once, and records their words;
roots and the words of what is left are as they were, and the counts lack the references from what
is gone. If every object that was not counted waited in the table or was held by a root, then each
one that is left is held by a root or by a field of another one; and if there is no cycle of
garbage, no garbage is left. -/
theorem scan_reclaims (hc : Consistent m before) : ∃ m' gone after, scan m = .ok () m' ∧
    Consistent m' after ∧
    Scavenged m m' before gone after ∧
    (Tracked m before → (∀ b ∈ after, m'.roots.Refers b.1 ∨ b.1 ∈ heapRefs m'.heap after) ∧
      (Acyclic m before → ∀ o, (∃ n, (o, n) ∈ after) ↔ m'.Reachable o)) := by
  rcases hc with ⟨cap, ts, hmode, hcap, rfl, hg⟩ | ⟨hmode, hb, rfl⟩
  · obtain ⟨m', ts', hrun, hs, hg', -⟩ := hg.scan_run hmode
    obtain ⟨gone, hp⟩ := exists_gone hs.sublist
    have hsc := hs.scavenged hg hg' hmode hp
    refine ⟨m', gone, blocksOf m' ts', hrun,
      .inl ⟨cap, ts', hs.mode.trans hmode, hs.capacity.trans hcap, rfl, hg'⟩, hsc, fun ht => ?_⟩
    have hheld : ∀ b ∈ blocksOf m' ts', m'.roots.Refers b.1 ∨
        b.1 ∈ heapRefs m'.heap (blocksOf m' ts') := fun b hb =>
      hs.held hg hg' hmode ht hb
    exact ⟨hheld, fun hac => hsc.exact hg.dying.stock.housed.closed hheld hac⟩
  · exact ⟨_, [], [], hb.scan_run, .inr ⟨hmode, hb.withStats _, rfl⟩, hb.scavenged,
      fun _ => ⟨by simp, fun hac =>
      hb.scavenged.exact ⟨by simp [Held], by simp [Held]⟩ (by simp) hac⟩⟩

/-- Of two pairs that nothing reaches, one refers to the other; a third one lies on the stack. All
three wait in the table, and a scan leaves the third one alone. -/
theorem chain_reclaimed : ∃ m m' gone, Consistent m [(3, 6), (9, 6), (15, 6)] ∧
    Tracked m [(3, 6), (9, 6), (15, 6)] ∧
    Acyclic m [(3, 6), (9, 6), (15, 6)] ∧ scan m = .ok () m' ∧
    Scavenged m m' [(3, 6), (9, 6), (15, 6)] gone [(15, 6)] := by
  let u0 := Mutator.ofConfig deferredSample
  let u1 := (Command.cons .nil .nil).after u0
  let u2 := (Command.cons (.ofRef 3) .nil).after u1
  let u3 := (Command.cons .nil .nil).after u2
  let u4 := (Command.push (.ofRef 15)).after u3
  have h0 : Course (fun _ _ => True) deferredSample u0 := .start ⟨_, rfl⟩
  have h1 : Course _ deferredSample u1 := h0.next _ trivial (by decide +kernel)
  have h2 : Course _ deferredSample u2 := h1.next _ trivial (by decide +kernel)
  have h3 : Course _ deferredSample u3 := h2.next _ trivial (by decide +kernel)
  have h4 : Course _ deferredSample u4 := h3.next _ trivial (by decide +kernel)
  obtain ⟨m, ts, ht⟩ := course_tallies
    (show deferredSample.strategy = CountMode.deferred.strategy from rfl) (by decide) h4
  have hlisted : u4.objects = .ok [(3, 6), (9, 6), (15, 6)] := eq_ok_of_toOption (by decide +kernel)
  have hblocks : [(3, 6), (9, 6), (15, 6)] = blocksOf m ts :=
    Except.ok.inj (hlisted.symm.trans ht.objects)
  have hcons : Consistent m [(3, 6), (9, 6), (15, 6)] :=
    .inl ⟨_, ts, ht.mode, ht.capacity, hblocks, ht.balanced⟩
  have hown : u4.machine.own = .counting m.own := by
    rw [ht.counts.machine]
    rfl
  have htable : u4.tabled = [3, 9, 15] := by decide +kernel
  rw [Mutator.tabled, hown] at htable
  dsimp only at htable
  have htracked : Tracked m [(3, 6), (9, 6), (15, 6)] := fun b hb _ => .inl (by
    rw [htable]
    exact List.mem_map_of_mem (f := Prod.fst) hb)
  have hsucc : m.heap.succ 3 = [] ∧ m.heap.succ 9 = [3] ∧ m.heap.succ 15 = [] := by
    rw [← ht.counts.heap]
    decide +kernel
  have hacyclic : Acyclic m [(3, 6), (9, 6), (15, 6)] := by
    intro b hb _ hcycle
    obtain ⟨c, hc, hback⟩ := TransGen.head'_iff.mp hcycle
    have hcases : b.1 = 9 ∧ c = 3 := by
      simp only [List.mem_cons, List.not_mem_nil, or_false] at hb
      rcases hb with rfl | rfl | rfl <;> simp [hsucc] at hc
      exact ⟨rfl, hc⟩
    rw [hcases.1, hcases.2] at hback
    rcases hback.cases_head with h | ⟨d, hd, -⟩
    · cases h
    · simp [hsucc] at hd
  have hroots : ∀ o, m.roots.Refers o ↔ o = 15 := fun o => by
    rw [← ht.counts.roots, ← Mutator.mem_rootObjects, show u4.rootObjects = [15] by decide +kernel,
      List.mem_singleton]
  obtain ⟨m', gone, after, hrun, -, hsc, hexact⟩ := scan_reclaims hcons
  refine ⟨m, m', gone, hcons, htracked, hacyclic, hrun, ?_⟩
  obtain ⟨n, hn⟩ := hsc.reached 15 (.root ((hroots 15).mpr rfl))
  have hsucc' : m'.heap.succ 15 = [] := by
    rw [hsc.same.succ (by rw [← ht.counts.heap]; decide +kernel) ⟨n, hn⟩, hsucc.2.2]
  have honly : ∀ b ∈ after, b = (15, 6) := fun b hb => by
    have hreach := ((hexact htracked).2 hacyclic b.1).mp ⟨b.2, hb⟩
    have hb15 : b.1 = 15 := hreach.mem_of_linked (S := (· = 15)) (fun x a hx htag ha c hc => by
      have hmem : c ∈ m'.heap.succ x :=
        Arena.mem_succ.mpr ⟨htag, by rcases ha with rfl | rfl <;> simp [hc]⟩
      rw [hx, hsucc'] at hmem
      cases hmem) fun x hx => (hroots x).mp (by rwa [← hsc.roots])
    have hmem := hsc.parted.mem_iff.mpr (List.mem_append_right _ hb)
    grind
  have hnd : after.Nodup := (hsc.parted.nodup_iff.mp (by decide)).of_append_right
  have hafter : after = [(15, 6)] := by
    cases after with
    | nil => cases hn
    | cons b bs =>
      cases bs with
      | nil => rw [honly b (by simp)]
      | cons c bs => exact absurd ((honly b (by simp)).trans (honly c (by simp)).symm) (by grind)
  rwa [hafter] at hsc

end Counting

end Reclaim
