import Reclaim.Proofs.Audits
import Reclaim.Proofs.MarkSweep.Barren
import Reclaim.Proofs.Reports

/-!
# Accounts of heaps with a free list

A mark-sweep heap and one with deferred counts carve their blocks out of free chunks. A chunk that
is only one word longer than what was asked for is handed out whole, but the measurements count what
was asked for, while a collection counts the words that the free list has gained. So what was handed
out and not reclaimed falls short of the listed blocks by one word for each block that was too long,
and a collection can seem to reclaim more than was ever handed out.

Results:
* `MarkSweep.audited`, `Counting.audited`: the books of the two strategies.
* `free_list_session_balances`: what was handed out, those words included, was reclaimed or is
  listed.
* `whole_chunk_unrecorded`: a heap that has reclaimed more bytes than it has handed out.
-/

namespace Reclaim

/-! ## Mark-sweep -/

namespace MarkSweep

variable {m : Machine MarkSweep} {ts : List Tile} {S : Nat → Prop}
  {blocks : List (Nat × Nat)} {words : Nat}

/-- Whatever is not on the free list. -/
def inUse (s : MarkSweep) : Nat := s.region.length - s.freeList.freeWords

theorem Inv.inUse_eq (hi : Inv m ts S) : inUse m.own = ((objectsIn 1 ts).map Prod.snd).sum := by
  rw [inUse, hi.region, Arena.region, Region.length_ofLength,
    hi.tiled.words_objectsIn, Nat.sub_zero]

theorem words_objectsIn_eq (ts : List Tile) :
    ((objectsIn 1 ts).map Prod.snd).sum = wordsOf (ts.filter fun t => !t.free) := by
  rw [← sum_usedRuns, objectsIn, List.map_map]
  rfl

/-- The words of dead tiles are out of use. -/
theorem Swept.cycled {m' : Machine MarkSweep} {us : List Tile} {ms : List Nat}
    (hs : Swept m m' ts us ms) (hi : Inv m ts S) :
    Books.Cycled (m.books inUse) (m'.books inUse) := by
  have hbefore : inUse m.own = wordsOf (ts.filter (isKept ms)) + wordsOf
      (ts.filter (isDead ms)) := by
    rw [hi.inUse_eq, words_objectsIn_eq, words_used]
  have hafter : inUse m'.own = wordsOf (ts.filter (isKept ms)) := by
    rw [hs.inv.inUse_eq, words_objectsIn_eq, hs.kept]
  refine ⟨.full, ?_, ?_⟩
  · simp only [Machine.books, hbefore, hafter]
    omega
  · simp only [Machine.books, hbefore, hafter, hs.stats]
    congr 1
    omega

theorem collect_cycles (hg : Good m blocks) :
    Runs collect m (fun _ m' => (∃ blocks', Good m' blocks') ∧
    Books.Cycled (m.books inUse) (m'.books inUse)) fun _ _ => True := by
  obtain ⟨ts, rfl, ht⟩ := id hg
  refine (((collect_runs ht.inv).and (collect_moves hg)).mono ?_).mono_fail fun _ _ _ => trivial
  rintro - m' ⟨⟨us, ms, hs⟩, blocks', hg', -⟩
  exact ⟨⟨blocks', hg'⟩, hs.cycled ht.inv⟩

/-- One block more, if there is one, which may have a word too many. -/
theorem take?_issues (hg : Tidy m ts) (hpos : 1 ≤ words) :
    take? (blockWords words) m = .ok none m ∨
    ∃ found m₁, take? (blockWords words) m = .ok (some found) m₁ ∧
      Runs (fill found) m₁ (fun _ m' => Books.Issues 1 (words + headerWords) (m.books inUse)
        (m'.books inUse)) fun _ _ => True := by
  rcases take?_fills hg hpos with hrun | ⟨a, k, l', h', ts', m₁, hrun, hk, hslack, hc, hfill⟩
  · exact .inl hrun
  · have hwords := hc.words hg.tiled.toTiles
    rw [← (hg.carved hc).inv.inUse_eq, ← hg.inv.inUse_eq] at hwords
    refine .inr ⟨(a, k), m₁, hrun, Runs.of_eq hfill
      ⟨m.books inUse, k - (words + headerWords), .refl, ?_, ?_⟩⟩
    · simp only [headerWords]
      omega
    · simp only [Machine.books, hwords]
      congr 1
      simp only [headerWords]
      omega

theorem allocate_issues (hg : Good m blocks) (hpos : 1 ≤ words)
    (hcount : (words + headerWords) * wordBytes < wordValues) : Runs (allocate words) m
    (fun _ m' => Books.Issues 1 (words + headerWords) (m.books inUse) (m'.books inUse))
    fun _ _ => True := by
  let P (_ : Nat) (m₁ : Machine MarkSweep) : Prop := (∃ blocks₁, Good m₁ blocks₁) ∧
    Books.Turns (m.books inUse) (m₁.books inUse)
  refine allocate_by (P := P) (blockWords_eq hpos ▸ hcount) ⟨⟨blocks, hg⟩, .refl⟩ ?_
    (fun _ _ => trivial) (fun _ _ _ _ => trivial) ?_
  · rintro k m₁ - ⟨⟨blocks₁, hg₁⟩, ht⟩
    exact (collect_cycles hg₁).mono fun _ _ h => ⟨h.1, ht.tail h.2⟩
  · rintro k m₁ - ⟨⟨-, ts, rfl, hg₁⟩, ht⟩
    rcases take?_issues hg₁ hpos with hrun | ⟨found, m₂, hrun, hfill⟩
    · exact .inl hrun
    · exact .inr ⟨found, m₂, hrun, hfill.mono fun _ _ h => ht.issues h⟩

/-- The books of a mark-sweep heap. -/
theorem audited : Audited operations (Kept Good) inUse (fun _ => headerWords) 1 := by
  have hcollect : ∀ {m S}, Kept Good m S → Runs collect m
      (fun _ m' => Relation.TransGen Books.Cycled (m.books inUse) (m'.books inUse))
        fun _ _ => True := by
    rintro m S ⟨blocks, hg, -⟩
    exact (collect_cycles hg).mono fun _ _ h => .single h.2
  refine .plain ?_ ?_ hcollect hcollect ?_
  · rintro m S ⟨-, ⟨ts, rfl, ht⟩, -⟩
    exact ⟨_, ht.objects_run, (Mutator.wordsOf_eq_sum _).trans ht.inv.inUse_eq.symm⟩
  · rintro m S n ⟨blocks, hg, -⟩ hpos hcount
    exact allocate_issues hg hpos hcount
  · rintro m S o field v ⟨blocks, hg, rfl⟩ ho ht hf -
    have hin := (layout.apart hg).inside o ho
    have hp := Arena.payload_of_pair ht
    exact Runs.of_eq (heap_lift (storeValue_run (by omega))) rfl

end MarkSweep

/-! ## Deferred counting -/

section Quiet

variable {σ α : Type} {used : σ → Nat}

instance {x : HeapM α} : Keeps (Machine.books used) (fun _ => True) (liftM x : GcM σ α) := by
  refine ⟨fun m => ?_⟩
  unfold Ends
  rw [heap_lift_eq]
  cases x m.heap with
  | ok a h => exact rfl
  | error e h => exact ⟨rfl, fun _ _ => trivial⟩

instance {x : RootsM α} : Keeps (Machine.books used) (fun _ => True) (liftM x : GcM σ α) := by
  refine ⟨fun m => ?_⟩
  unfold Ends
  rw [roots_lift_eq]
  cases x m.roots with
  | ok a r => exact rfl
  | error e r => exact ⟨rfl, fun _ _ => trivial⟩

instance : Keeps (Machine.books used) (fun _ => True) (GcM.own : GcM σ σ) :=
  ⟨fun _ => .of_eq GcM.run_own rfl⟩

end Quiet

namespace Counting

variable {cap : Nat} {m m' : Machine Counting} {ts ts' : List Tile} {n : Nat}

/-- Whatever is not on the free list. -/
def inUse (s : Counting) : Nat := s.region.length - s.freeList.freeWords

instance {mode : CountMode} {field : Nat} :
    Keeps (Machine.books inUse) (fun _ => True) (countField mode field) := by
  unfold countField
  infer_instance

theorem push_quiet (v : Value) : Keeps (Machine.books inUse) (fun _ => True) (push v) := by
  unfold push
  refine Keeps.bind fun _ => Keeps.bind fun c => ?_
  cases c.mode <;> infer_instance

theorem initField_quiet (field : Nat) (v : Value) :
    Keeps (Machine.books inUse) (fun _ => True) (initField field v) := by
  unfold initField
  infer_instance

theorem countCopied_quiet (o : Nat) :
    Keeps (Machine.books inUse) (fun _ => True) (countCopied o) := by
  unfold countCopied
  refine Keeps.bind fun c => Keeps.bind fun fields => ?_
  exact inferInstanceAs (Keeps _ _ (fields.forM (countField c.mode)))

theorem Balanced.books_eq (hg : Balanced m ts) : m.books inUse = booksOf m ts := by
  rw [Machine.books, inUse, hg.dying.stock.usedWords_eq]

theorem Thinned.books (ht : Thinned m m' ts ts') (hg : Balanced m ts)
    (hmode : m.own.mode = .deferred) :
    Books.Turns (m.books inUse) (m'.books inUse) := by
  rw [hg.books_eq, ht.balanced.books_eq]
  exact ht.turns hmode

/-- What is popped was on top of the stack. -/
theorem back_of_pop {v : Value} (hrun : pop m = .ok v m') : ∃ w, m.roots.stack.back? = some w := by
  cases hback : m.roots.stack.back? with
  | some w => exact ⟨w, rfl⟩
  | none =>
    have hfail : pop m = .error (.failed .stackUnderflow) m :=
      bind_error (roots_lift_error (by rw [popRoot, hback]))
    cases hfail.symm.trans hrun

theorem collect_cycles (hg : Balanced m ts) (hmode : m.own.mode = .deferred) : Runs collect m
    (fun _ m' => Relation.TransGen Books.Cycled (m.books inUse) (m'.books inUse))
    fun _ _ => True := by
  obtain ⟨m', ts', hrun, hs, hg', -⟩ := hg.scan_run hmode
  unfold collect
  refine Runs.step GcM.run_own ?_
  simp only [hmode]
  refine Runs.of_eq hrun (.single ?_)
  rw [hg.books_eq, hg'.books_eq]
  exact hs.cycled

theorem allocate_audit (hg : Balanced m ts) (hpos : 1 ≤ n) (hcount : operations.Countable m n) :
    Runs (allocate n) m
    (fun _ m' => Books.Issues 1 (n + m'.own.mode.headerWords) (m.books inUse)
      (m'.books inUse)) fun _ _ => True := by
  refine ((allocate_issues hg hpos hcount).mono ?_).mono_fail fun _ _ _ => trivial
  rintro o m' ⟨m₁, ts₁, k, ts', -, hs, hi⟩
  obtain ⟨extra, hle, hwords⟩ := hi.charge
  rw [hg.books_eq, hi.balanced.books_eq, hi.mode]
  exact ⟨booksOf m₁ ts₁, extra, hs.turns, hle, by rw [booksOf, hwords, hi.stats]⟩

/-- The books of a heap with deferred counts. -/
theorem audited (cap : Nat) :
    Audited operations (Kept (Good .deferred cap)) inUse (fun c => c.mode.headerWords) 1 where
  listed := by
    rintro m S ⟨-, ⟨ts, -, -, rfl, hg⟩, -⟩
    refine ⟨_, hg.dying.stock.objects_run, ?_⟩
    rw [Mutator.wordsOf_eq_sum, inUse, hg.dying.stock.usedWords_eq]
  allocate := by
    rintro m S n ⟨-, ⟨ts, -, -, rfl, hg⟩, -⟩ hpos hcount
    exact allocate_audit hg hpos hcount
  collect := by
    rintro m S ⟨-, ⟨ts, hmode, -, rfl, hg⟩, -⟩
    exact collect_cycles hg hmode
  collectFull := by
    rintro m S ⟨-, ⟨ts, hmode, -, rfl, hg⟩, -⟩
    exact collect_cycles hg hmode
  writeField := by
    rintro m S o field v ⟨-, ⟨ts, hmode, -, rfl, hg⟩, rfl⟩ hpark ho ht hf hv
    refine ((writeField_runs hg hpark ho ht hf hv).mono ?_).mono_fail fun _ _ _ => trivial
    rintro - m' ⟨ts', hthin, -⟩
    exact hthin.books hg hmode
  writeRoot := by
    rintro m m' S slot old v ⟨-, ⟨ts, hmode, -, rfl, hg⟩, rfl⟩ hpark hold hv hrun
    obtain ⟨ts', hthin, -⟩ := (writeRoot_runs hg hpark hold hv).ok hrun
    exact hthin.books hg hmode
  pop := by
    rintro m m' S v ⟨-, ⟨ts, hmode, -, rfl, hg⟩, rfl⟩ hpark hrun
    obtain ⟨w, hback⟩ := back_of_pop hrun
    obtain ⟨-, ts', hthin, -⟩ := (pop_runs hg hpark hback).ok hrun
    exact hthin.books hg hmode
  push {m m' v} hrun := ((push_quiet v).ends m).ok hrun
  initField {m m' field v} hrun := ((initField_quiet field v).ends m).ok hrun
  noteCopy {m m' o} hrun := ((countCopied_quiet o).ends m).ok hrun

/-! ## Heaps without room -/

theorem Barren.collect_untouched (hb : Barren m) (hu : m.stats.Untouched) :
    Runs collect m (fun _ m' => m'.stats.Untouched) fun _ _ => True := by
  unfold collect
  refine Runs.step GcM.run_own ?_
  cases m.own.mode with
  | eager => exact Runs.pure hu
  | deferred => exact Runs.of_eq hb.scan_run (hu.recordCycle _ _)

/-- Counts are kept, and nothing was ever handed out. -/
def Unspent (m : Machine Collector) : Prop := ∃ s, m.own = .counting s ∧ m.stats.Untouched

/-- What the collector did leaves the measurements as they are. -/
theorem Unspent.of_within {α : Type} {m m' : Machine Collector} {s : Counting} {x : GcM Counting α}
    {y : GcM Collector α} {a : α} (hyx : y m = Collector.within .counting s x m)
    (hy : y m = .ok a m') (hx : ∀ m₁, x (m.withOwn s) = .ok a m₁ → m₁.stats.Untouched) :
    Unspent m' := by
  rw [hyx] at hy
  obtain ⟨m₁, hrun, rfl⟩ := Audited.of_within hy
  exact ⟨m₁.own, rfl, hx m₁ hrun⟩

theorem untouched_of_quiet {α : Type} {x : GcM Counting α} {a : α}
    (hx : Keeps (Machine.books inUse) (fun _ => True) x) (hu : m.stats.Untouched)
    (hrun : x m = .ok a m') : m'.stats.Untouched := by
  have hbooks := (hx.ends m).ok hrun
  have hstats : m'.stats = m.stats := congrArg Books.stats hbooks
  rw [hstats]
  exact hu

/-- Nothing is ever handed out by a heap without room. Its scans are on record all the same. -/
theorem noRoom_upkeep : Upkeep (Collector.Hosted Collector.counting NoRoom) Unspent where
  congr := by
    rintro m m' ⟨s, hs, hu⟩ hstats hown
    exact ⟨s, hown.trans hs, by rw [hstats]; exact hu⟩
  allocate := by
    rintro m m' S n o ⟨s, hs, hb, -⟩ - hpos hrun
    rw [hosts.allocate n hs] at hrun
    obtain ⟨m₁, hrun₁, -⟩ := Audited.of_within hrun
    have hcount := barren_laws.countable ⟨hb, rfl⟩ hpos hrun₁
    exact ((hb.allocate_runs hpos hcount (Q := fun _ _ => False)).ok hrun₁).elim
  collect := by
    rintro m m' S ⟨s, hs, hb, -⟩ ⟨-, -, hu⟩ hrun
    exact .of_within (hosts.collect hs) hrun fun _ h => (hb.collect_untouched hu).ok h
  collectFull := by
    rintro m m' S ⟨s, hs, hb, -⟩ ⟨-, -, hu⟩ hrun
    exact .of_within (hosts.collectFull hs) hrun fun _ h => (hb.collect_untouched hu).ok h
  writeField := by
    rintro m m' S o field v ⟨s, hs, hb, rfl⟩ - - ho
    exact ho.elim
  writeRoot := by
    rintro m m' S slot old v ⟨s, hs, hb, rfl⟩ ⟨-, -, hu⟩ - hold hv hrun
    refine .of_within (hosts.writeRoot slot v hs) hrun fun m₁ h => ?_
    cases (hb.writeRoot_run hold hv).symm.trans h
    exact hu
  pop := by
    rintro m m' S v ⟨s, hs, hb, -⟩ ⟨-, -, hu⟩ - hrun
    refine .of_within (hosts.pop hs) hrun fun m₁ h => ?_
    obtain ⟨w, hback⟩ := back_of_pop h
    cases (hb.pop_run hback).symm.trans h
    exact hu
  push := by
    rintro m m' v ⟨s, hs, hu⟩ hrun
    exact .of_within (hosts.push v hs) hrun fun _ h => untouched_of_quiet (push_quiet v) hu h
  initField := by
    rintro m m' field v ⟨s, hs, hu⟩ hrun
    exact .of_within (hosts.initField field v hs) hrun fun _ h =>
      untouched_of_quiet (initField_quiet field v) hu h
  noteCopy := by
    rintro m m' o ⟨s, hs, hu⟩ hrun
    exact .of_within (hosts.noteCopy o hs) hrun fun _ h =>
      untouched_of_quiet (countCopied_quiet o) hu h

end Counting

/-! ## Sessions -/

/-- What went through the heap is `t`, in blocks that are a word too long at most, and the
measurements tell how many bytes the blocks of `listed` take, which are all that the collector
holds, but for the words too many. -/
structure Mutator.Approximates (u : Mutator) (listed : List (Nat × Nat)) (t : Turnover) : Prop where
  objects : u.objects = .ok listed
  /-- Every cycle recorded just what it took out of use and what it left, unless the heap has no
  room for any block. -/
  account : Account 1 u.machine.stats t ∨ u.machine.stats.Untouched ∧ t = {}
  balance : t.asked + t.surplus = t.reclaimed + wordsOf listed
  surplus_le : t.surplus ≤ t.blocks
  short : u.machine.stats.allocatedBytes + byteCount t.surplus -
    u.machine.stats.totalReclaimed = bytesOf listed
  /-- While the totals fit into a word, nothing but the words too many is missing. -/
  exact : (t.asked + t.surplus) * wordBytes < 2 ^ 64 →
    u.machine.stats.allocatedBytes.toNat + t.surplus * wordBytes
    = u.machine.stats.totalReclaimed.toNat + wordsOf listed * wordBytes

namespace Mutator.Approximates

variable {u : Mutator} {listed : List (Nat × Nat)} {t : Turnover}

theorem of_account (hobj : u.objects = .ok listed) (ha : Account 1 u.machine.stats t)
    (hu : t.inUse = wordsOf listed) :
    u.Approximates listed t := by
  obtain ⟨-, hasked, hreclaimed, -⟩ := ha.counted
  have hbalance := ha.balance
  have hsurplus := ha.surplus_le
  rw [hu] at hbalance
  refine ⟨hobj, .inl ha, hbalance, by omega, ?_, fun hfit => ?_⟩
  · rw [hasked, hreclaimed, ← byteCount_add, hbalance, Nat.add_comm, byteCount_add,
      UInt64.add_sub_cancel]
    rfl
  · simp only [wordBytes] at hfit ⊢
    rw [hasked, hreclaimed, byteCount_toNat_of_lt (by omega), byteCount_toNat_of_lt (by omega)]
    omega

theorem of_untouched (hobj : u.objects = .ok []) (hu : u.machine.stats.Untouched) :
    u.Approximates [] {} := by
  refine ⟨hobj, .inr ⟨hu, rfl⟩, rfl, Nat.le_refl _, ?_, fun _ => ?_⟩
  · rw [hu.allocatedBytes, hu.totalReclaimed]
    rfl
  · rw [hu.allocatedBytes, hu.totalReclaimed]
    rfl

/-- The measurements are right just when no block was too long. -/
theorem live_iff (h : u.Approximates listed t) (hfit : (t.asked + t.surplus) * wordBytes < 2 ^ 64) :
    u.machine.stats.allocatedBytes.toNat = u.machine.stats.totalReclaimed.toNat + wordsOf listed *
    wordBytes ↔ t.surplus = 0 := by
  have hexact := h.exact hfit
  simp only [wordBytes] at hexact ⊢
  omega

end Mutator.Approximates

namespace Audited

open Collector

variable {σ : Type} {ops : Operations σ} {I : Machine σ → (Nat → Prop) → Prop}
  {N : Machine σ → Nat → Nat → Prop}
  {used header : σ → Nat} {wrap : σ → Collector} {c : Config} {u : Mutator} {H : Nat → Prop}

theorem approximates (ha : Audited ops I used header 1) (hl : Laws ops I N) (hh : Hosts wrap ops)
    (hheader : ∀ s, (wrap s).headerWords = header s)
    (hstart : ∀ u, c.Makes u → (∃ S, Hosted wrap I u.machine S) ∧ Balances wrap used 1 u.machine)
    (hs : Session c u H) : ∃ listed t, u.Approximates listed t := by
  obtain ⟨listed, hobj, t, hacc, huse⟩ := ha.session hl hh hheader hstart hs
  exact ⟨listed, t, .of_account hobj hacc huse⟩

end Audited

/-- All of a new heap is free. -/
theorem FreeList.freeWords_ofRegion {r : Region} {fit : Fit} {h : Arena}
    (h2 : minChunk ≤ r.length) :
    (ofRegion r fit h).1.freeWords = r.length := by
  rw [ofRegion, if_pos h2]

section Start

variable {c : Config} {u : Mutator}

theorem MarkSweep.start_balances (hc : c.strategy = .markSweep) (h2 : 2 ≤ c.heapWords)
    (hu : c.Makes u) :
    Audited.Balances Collector.markSweep inUse 1 u.machine := by
  have hown : u.machine.own = .markSweep (build c (Arena.ofBytes c.heapSize)).1 := by
    obtain ⟨hash, rfl, -⟩ := hu.eq
    change (Collector.build c (Arena.ofBytes c.heapSize)).1 = _
    rw [Collector.build, hc]
    rfl
  refine Audited.balances_start hu hown ?_
  have hroom : FreeList.minChunk ≤ (Arena.ofBytes c.heapSize).region.length := by
    rw [c.length_region]
    exact h2
  exact Nat.sub_eq_zero_of_le (Nat.le_of_eq (FreeList.freeWords_ofRegion hroom).symm)

theorem Counting.start_balances (hc : c.strategy = .deferredCounting) (h2 : 2 ≤ c.heapWords)
    (hu : c.Makes u) :
    Audited.Balances Collector.counting inUse 1 u.machine := by
  have hown : u.machine.own = .counting (build .deferred c (Arena.ofBytes c.heapSize)).1 := by
    obtain ⟨hash, rfl, -⟩ := hu.eq
    change (Collector.build c (Arena.ofBytes c.heapSize)).1 = _
    rw [Collector.build, hc]
    rfl
  refine Audited.balances_start hu hown ?_
  have hroom : FreeList.minChunk ≤ (Arena.ofBytes c.heapSize).region.length := by
    rw [c.length_region]
    exact h2
  exact Nat.sub_eq_zero_of_le (Nat.le_of_eq (FreeList.freeWords_ofRegion hroom).symm)

end Start

/-- Mark-sweep heaps and heaps with deferred counts: what was handed out, with a word too many for
some of the blocks, was reclaimed or is what the collector lists. -/
theorem free_list_session_balances {c : Config} {u : Mutator} {H : Nat → Prop}
    (hc : c.strategy = .markSweep ∨ c.strategy = .deferredCounting)
    (hs : Session c u H) : ∃ listed t, u.Approximates listed t := by
  rcases hc with hc | hc
  · rcases Nat.lt_or_ge c.heapWords 2 with h2 | h2
    · obtain ⟨hb, -, -⟩ := MarkSweep.session_barren hc h2 hs
      exact ⟨[], {}, .of_untouched hb.objects hb.choose_spec.untouched⟩
    · exact MarkSweep.audited.approximates MarkSweep.laws MarkSweep.hosts (fun _ => rfl)
        (fun u hu => ⟨MarkSweep.start_kept hc h2 hu, MarkSweep.start_balances hc h2 hu⟩) hs
  · rcases Nat.lt_or_ge c.heapWords 2 with h2 | h2
    · have hstart : ∀ u, c.Makes u →
        (∃ S, Collector.Hosted Collector.counting Counting.NoRoom u.machine S) ∧
          Counting.Unspent u.machine := by
        intro u hu
        have hv : Collector.Hosted Collector.counting Counting.NoRoom u.machine Nothing :=
          Counting.start_barren (show c.strategy = CountMode.deferred.strategy from hc) h2 hu
        obtain ⟨s, hown, -⟩ := id hv
        obtain ⟨hash, rfl, -⟩ := hu.eq
        exact ⟨⟨_, hv⟩, s, hown, rfl, rfl, rfl⟩
      have hlaws := Counting.barren_laws.hosted Counting.hosts
      obtain ⟨S, ⟨s, hown, hb, -⟩, -⟩ := (hs.steady hlaws fun u hu => (hstart u hu).1).good
      obtain ⟨t, -, hu⟩ := hs.upholds hlaws Counting.noRoom_upkeep hstart
      refine ⟨[], {}, .of_untouched ?_ hu⟩
      rw [Mutator.objects, Mutator.view, hown]
      exact hb.objects_run
    · exact (Counting.audited c.zeroCountCapacity).approximates
        (Counting.laws .deferred c.zeroCountCapacity) Counting.hosts (fun _ => rfl)
        (fun u hu => ⟨Counting.start_kept
          (show c.strategy = CountMode.deferred.strategy from hc) h2 hu,
            Counting.start_balances hc h2 hu⟩) hs

/-- A small heap. -/
def oneChunkHeap (strategy : Strategy) (bytes : Nat) : Config :=
  { strategy, heapSize := bytes, stackCapacity := 4, globalTableSize := 1 }

/-- A pair of four words is handed out in the only chunk, which has five. -/
theorem oneChunkHeap_approximates :
    ((oneChunkHeap .markSweep 40).strategy = .markSweep ∨ (oneChunkHeap .markSweep 40).strategy =
      .deferredCounting) ∧
    ∃ u H t, Session (oneChunkHeap .markSweep 40) u H ∧ u.Approximates [(1, 5)] t ∧
    u.machine.stats.allocatedBytes = 32 := by
  refine ⟨by decide, ?_⟩
  let u0 := Mutator.ofConfig (oneChunkHeap .markSweep 40)
  let u1 := (Command.cons .nil .nil).after u0
  have h1 := (Session.start (c := oneChunkHeap .markSweep 40) (u := u0) ⟨_, rfl⟩).plain
    (.cons .nil .nil) [.ofRef 1] (by decide +kernel)
    (by decide +kernel) (by decide)
  obtain ⟨listed, t, happ⟩ := free_list_session_balances (.inl rfl) h1
  have hlisted : u1.objects = .ok [(1, 5)] := eq_ok_of_toOption (by decide +kernel)
  cases hlisted.symm.trans happ.objects
  exact ⟨u1, _, t, h1, happ, by decide +kernel⟩

/-- Such a pair is dropped and reclaimed: more bytes were reclaimed than handed out, with either
strategy. -/
theorem whole_chunk_unrecorded :
    (∃ u H, Session (oneChunkHeap .markSweep 40) u H ∧ u.machine.stats.allocatedBytes = 32 ∧
      u.machine.stats.totalReclaimed = 40 ∧
      u.liveBytes = .ok 0) ∧
    ∃ u H, Session (oneChunkHeap .deferredCounting 56) u H ∧ u.machine.stats.allocatedBytes = 48 ∧
    u.machine.stats.totalReclaimed = 56 ∧
      u.liveBytes = .ok 0 := by
  constructor
  · have h1 := (Session.start (c := oneChunkHeap .markSweep 40)
      (u := Mutator.ofConfig (oneChunkHeap .markSweep 40)) ⟨_, rfl⟩).plain (.cons .nil .nil)
      [.ofRef 1] (by decide +kernel) (by decide +kernel) (by decide)
    have h2 := h1.plain .collect [] (by decide +kernel) (by decide +kernel) (by decide)
    exact ⟨_, _, h2, by decide +kernel, by decide +kernel, eq_ok_of_toOption (by decide +kernel)⟩
  · have h1 := (Session.start (c := oneChunkHeap .deferredCounting 56)
      (u := Mutator.ofConfig (oneChunkHeap .deferredCounting 56)) ⟨_, rfl⟩).plain
      (.cons .nil .nil) [.ofRef 3] (by decide +kernel) (by decide +kernel) (by decide)
    have h2 := h1.plain .collect [] (by decide +kernel) (by decide +kernel) (by decide)
    exact ⟨_, _, h2, by decide +kernel, by decide +kernel, eq_ok_of_toOption (by decide +kernel)⟩

end Reclaim
