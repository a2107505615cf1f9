import Reclaim.Proofs.MarkSweep.Barren
import Reclaim.Proofs.Shape

/-!
# The contract of an allocation

An allocation that succeeds returns a new object, whichever way it found room for it: at once, after
a collection, after one that was forced upon it, after a scan of the zero count table. Its block
lies in the space that objects come from, apart from all other blocks and from the free chunks, and
whatever was there before, the header is a new one and the words behind it are zero (`Minted`).
Nothing refers to the object yet, and what the roots reach is what they reached before (`Persists`).

Every way ends with the same last step, from a heap in order. So it is enough to look at that step
once for each strategy.

Results:
* `Semispace.allocate_mints`, `Sliding.allocate_mints`, `Generational.allocate_mints`,
  `MarkSweep.allocate_mints`, `Counting.allocate_mints`: the block of a new object.
* `allocate_provides`: the contract, throughout a session and with operands parked.
-/

namespace Reclaim

/-! ## New objects -/

namespace Collector

/-- The space that new objects come from, with the end of its blocks. -/
def allocationSpace : Collector → Bump
  | semispace s => s.space
  | markSweep s => ⟨s.region, s.region.limit⟩
  | sliding s => s.space
  | generational g => g.nursery
  | counting c => ⟨c.region, c.region.limit⟩

/-- The words that a block may have to spare: a free list leaves no chunk of a single word. -/
def slack : Collector → Nat
  | markSweep _ | counting _ => 1
  | _ => 0

/-- What a collector tells of a new object with a block of `size` words. -/
def newInfo : Collector → Nat → ObjectInfo
  | generational _, size => { size, age := some 0, tenured := some false, remembered := some false }
  | counting c, size =>
    { size, count := some 0, queued := if c.mode = .deferred then some true else none }
  | _, size => { size }

/-- The header of `o` keeps nothing from a collection: neither a new address nor a mark nor flags.
Mark-sweep keeps its marks beside the arena, and a counting heap has none. -/
def Clean : Collector → Arena → Nat → Prop
  | semispace _, h, o => forwardingAt Semispace.forwardOffset o h = .ok none
  | sliding _, h, o =>
    forwardingAt Sliding.forwardOffset o h = .ok none ∧ Sliding.isMarked o h = .ok false
  | generational _, h, o => Generational.forwarding o h = .ok none ∧ Generational.flags o h = .ok 0
  | _, _, _ => True

end Collector

/-- The block `b` is that of a new object of `n` words. -/
structure Minted (m : Machine Collector) (n : Nat) (b : Nat × Nat) : Prop where
  inside : m.own.allocationSpace.region.first ≤ b.1 ∧ b.1 + b.2 ≤ m.own.allocationSpace.top
  size : n + m.own.headerWords ≤ b.2 ∧ b.2 ≤ n + m.own.headerWords + m.own.slack
  /-- What the header says, the size of the block among it. -/
  info : m.own.describe (b.1 + m.own.headerWords) m.heap = .ok (m.own.newInfo b.2)
  clean : m.own.Clean m.heap (b.1 + m.own.headerWords)
  /-- If counting is deferred, the object waits in the table, and only once. -/
  queued : ∀ c, m.own = .counting c → c.mode = .deferred →
    c.zeroCounts.entries.toList.count (b.1 + m.own.headerWords) = 1
  zero : ∀ a, b.1 + m.own.headerWords ≤ a → a < b.1 + b.2 → m.heap.word a = 0

/-- The collector lists `o` with the block of a new object of `n` words. -/
def Mints (m : Machine Collector) (n o : Nat) : Prop :=
  ∃ b, Minted m n b ∧ o = b.1 + m.own.headerWords ∧ Collector.operations.Lists m o b.2

/-! ## The last step under each strategy -/

section Blank

variable {hd offset top words : Nat} {h h' : Arena}

theorem Blank.word_zero (hb : Blank hd offset h h' top words) {a : Nat} (h1 : top + hd ≤ a)
    (h2 : a < top + (words + hd)) : h'.word a = 0 := by
  obtain ⟨i, rfl⟩ := Nat.exists_eq_add_of_le h1
  exact hb.zero i (by omega)

/-- A new block has no forwarding address. -/
theorem Blank.forwarding_run (hb : Blank hd offset h h' top words) {k : Nat} (h1 : 1 ≤ k)
    (h2 : k ≤ hd) (hne : k ≠ offset) (hs : top + hd ≤ h'.size) :
    forwardingAt k (top + hd) h' = .ok none := by
  rw [forwardingAt_run (by omega) (by omega), hb.header k h1 h2 hne]
  rfl

theorem Blank.headerSize_run (hb : Blank hd offset h h' top words) (h1 : 1 ≤ offset)
    (h2 : offset ≤ hd) (hs : top + hd ≤ h'.size) (hsmall : words + hd < 0x10000000000000000) :
    headerSize offset (top + hd) h' = .ok (words + hd) :=
  Reclaim.headerSize_run (by omega) (by omega) (by rw [hb.size, toNat_ofNat_of_lt hsmall])

end Blank

variable {n : Nat}

/-- An allocation of a copying heap. -/
theorem Semispace.allocate_mints {m : Machine Semispace} {blocks : List (Nat × Nat)}
    (hg : Good m blocks) (hn : 1 ≤ n) (hcount : operations.Countable m n) :
    Runs (allocate n) m (fun o m' => Mints (m'.withOwn (.semispace m'.own)) n o) Fatal := by
  refine allocate_by (P := fun _ m₁ => ∃ blocks₁, Good m₁ blocks₁) hcount ⟨blocks, hg⟩ ?_
    (fun _ _ => rfl) ?_
  · refine ((evacuate_moves hg).mono ?_).mono_fail fun _ _ hf => hf.elim
    rintro - m₁ ⟨copies, ρ, hg₁, -⟩
    exact ⟨copies, hg₁⟩
  · rintro k m₁ - ⟨blocks₁, hg₁⟩
    refine handOut_by hcount hg₁.inside (fun _ _ => rfl) fun hroom => ?_
    obtain ⟨hb, hg₂⟩ := hg₁.take hn hroom
    have hle := hg₁.stacked.le
    have hin := hg₂.inside
    have hsmall := hg₂.small
    have hlim : (Semispace.taken m₁ n).own.space.region = m₁.own.space.region := rfl
    rw [hlim] at hin
    refine ⟨(m₁.own.space.top, n + 2),
      ⟨⟨hle, Nat.le_refl _⟩, ⟨Nat.le_refl _, Nat.le_refl _⟩, ?_, ?_, (fun _ h => nomatch h),
      fun a h1 h2 => hb.word_zero h1 h2⟩, rfl, _, layout.objects hg₂, by simp⟩
    · exact read_bind (hb.headerSize_run (by decide) (by decide) (by omega) (by omega))
    · exact hb.forwarding_run (by decide) (by decide) (by decide) (by omega)

/-- An allocation of a compacting heap. -/
theorem Sliding.allocate_mints {m : Machine Sliding} {blocks : List (Nat × Nat)}
    (hg : Good m blocks) (hn : 1 ≤ n) (hcount : operations.Countable m n) :
    Runs (allocate n) m (fun o m' => Mints (m'.withOwn (.sliding m'.own)) n o) Fatal := by
  refine allocate_by (P := fun _ m₁ => ∃ blocks₁, Good m₁ blocks₁) hcount ⟨blocks, hg⟩ ?_
    (fun _ _ => rfl) ?_
  · refine (collect_moves hg).mono ?_
    rintro - m₁ ⟨blocks₁, ρ, hg₁, -⟩
    exact ⟨blocks₁, hg₁⟩
  · rintro k m₁ - ⟨blocks₁, hg₁⟩
    refine handOut_by hcount hg₁.inv.inside (fun _ _ => rfl) fun hroom => ?_
    obtain ⟨hb, hg₂⟩ := hg₁.take hn hroom
    have hle := hg₁.inv.stacked.le
    have hin := hg₂.inv.inside
    have hsmall := hg₂.inv.small
    have hlim : (Sliding.taken m₁ n).own.space.region = m₁.own.space.region := rfl
    rw [hlim] at hin
    have hmark : isMarked (m₁.own.space.top + 3) (Sliding.taken m₁ n).heap = .ok false := by
      rw [isMarked_run (by omega) (by omega), hb.header 1 (by decide) (by decide) (by decide)]
      rfl
    refine ⟨(m₁.own.space.top, n + 3),
      ⟨⟨hle, Nat.le_refl _⟩, ⟨Nat.le_refl _, Nat.le_refl _⟩, ?_, ⟨?_, hmark⟩,
        (fun _ h => nomatch h),
      fun a h1 h2 => hb.word_zero h1 h2⟩, rfl, _, layout.objects hg₂, by simp⟩
    · exact read_bind (hb.headerSize_run (by decide) (by decide) (by omega) (by omega))
    · exact hb.forwarding_run (by decide) (by decide) (by decide) (by omega)

/-- An allocation of a generational heap. -/
theorem Generational.allocate_mints {m : Machine Generational} {young old : List (Nat × Nat)}
    {S : Nat → Prop} (hg : Good m young old S) (hn : 1 ≤ n) (hcount : operations.Countable m n) :
    Runs (allocate n) m (fun o m' => Mints (m'.withOwn (.generational m'.own)) n o) Fatal := by
  let P (_ : Nat) (m₁ : Machine Generational) : Prop := ∃ young₁ old₁ S₁, Good m₁ young₁ old₁ S₁
  refine allocate_by (P := P) hcount ⟨young, old, S, hg⟩ ?_ ?_ (fun _ _ => rfl) ?_
  · refine (collect_runs hg).mono ?_
    rintro - m₁ ⟨young₁, old₁, S₁, ρ, k, hk, hg₁, -⟩
    exact ⟨k, hk, young₁, old₁, S₁, hg₁⟩
  · rintro k m₁ - ⟨young₁, old₁, S₁, hg₁⟩
    refine (evacuate_moves hg₁).mono ?_
    rintro - m₂ ⟨young₂, old₂, S₂, ρ, hg₂, -⟩
    exact ⟨young₂, old₂, S₂, hg₂⟩
  · rintro k m₁ - ⟨young₁, old₁, S₁, hg₁⟩
    have hin := hg₁.nursery_inside
    refine handOut_by hcount hin (fun _ _ => rfl) fun hroom => ?_
    obtain ⟨hg₂, -⟩ := hg₁.take hn hroom
    have hle := hg₁.inv.young_stacked.le
    have hsmall := hg₁.inv.spaces.small
    have hb : Blank 3 2 m₁.heap (Generational.taken m₁ n).heap m₁.own.nursery.top n :=
      blank_blank (by omega)
    have hs : m₁.own.nursery.top + 3 ≤ (Generational.taken m₁ n).heap.size := by
      rw [hb.size_eq]; omega
    have hflags : Generational.flags (m₁.own.nursery.top + 3)
        (Generational.taken m₁ n).heap = .ok 0 := by
      rw [flags_run (by omega) (by omega), hb.header 1 (by decide) (by decide) (by decide)]
    have hsize : Generational.blockSize (m₁.own.nursery.top + 3) (Generational.taken m₁ n).heap =
        .ok (n + 3) := hb.headerSize_run (by decide) (by decide) hs (by omega)
    have hforward : Generational.forwarding (m₁.own.nursery.top + 3)
        (Generational.taken m₁ n).heap = .ok none :=
      hb.forwarding_run (by decide) (by decide) (by decide) hs
    exact ⟨(m₁.own.nursery.top, n + 3), ⟨⟨hle, Nat.le_refl _⟩, ⟨Nat.le_refl _, Nat.le_refl _⟩,
      (read_bind hflags).trans (read_bind hsize), ⟨hforward, hflags⟩,
        (fun _ h => nomatch h), fun a h1 h2 => hb.word_zero h1 h2⟩, rfl, _, hg₂.inv.objects,
      by simp⟩

/-- An allocation of a mark-sweep heap. -/
theorem MarkSweep.allocate_mints {m : Machine MarkSweep} {blocks : List (Nat × Nat)}
    (hg : Good m blocks) (hn : 1 ≤ n) (hcount : operations.Countable m n) :
    Runs (allocate n) m (fun o m' => Mints (m'.withOwn (.markSweep m'.own)) n o) Fatal := by
  refine allocate_by (P := fun _ m₁ => ∃ blocks₁, Good m₁ blocks₁) (blockWords_eq hn ▸ hcount)
    ⟨blocks, hg⟩ ?_
    (fun _ _ => rfl) (fun _ _ _ _ => rfl) ?_
  · rintro k m₁ - ⟨blocks₁, hg₁⟩
    refine (collect_moves hg₁).mono ?_
    rintro - m₂ ⟨blocks₂, hg₂, -⟩
    exact ⟨blocks₂, hg₂⟩
  · rintro k m₁ - ⟨-, ts, rfl, hg₁⟩
    rcases take?_fills hg₁ hn with hrun | ⟨a, k, l', h', ts', m₂, hrun, hk, hslack, hc, hfill⟩
    · exact .inl hrun
    · refine .inr ⟨(a, k), m₂, hrun, Runs.of_eq hfill ?_⟩
      have hg₂ := hg₁.carved hc
      have hnew : (a + 1, k) ∈ objectsIn 1 ts' := (hc.mem _).mpr (.inr rfl)
      have hregion : m₁.own.region = ⟨0, m₁.heap.size⟩ := hg₁.region.trans (Arena.region_eq _)
      have hin : m₁.own.region.first ≤ a ∧ a + k ≤ m₁.own.region.limit := by
        rw [hregion]
        exact ⟨Nat.zero_le a, hc.inside⟩
      exact ⟨(a, k), ⟨hin, ⟨hk, hslack⟩, read_bind (hg₂.tiled.headerSize_run hnew), trivial,
        (fun _ h => nomatch h),
        fun x h1 h2 => hc.zero x h1 h2⟩, rfl, _, hg₂.objects_run, hnew⟩

/-- An allocation of a counting heap. -/
theorem Counting.allocate_mints {m : Machine Counting} {ts : List Tile} (hg : Balanced m ts)
    (hn : 1 ≤ n) (hcount : operations.Countable m n) :
    Runs (allocate n) m (fun o m' => Mints (m'.withOwn (.counting m'.own)) n o) Fatal := by
  refine ((allocate_issues hg hn hcount).mono ?_).mono_fail fun _ _ hf => hf.fatal
  rintro o m' ⟨m₁, ts₁, k, ts', -, -, hi⟩
  have hg' := hi.balanced
  have hb := hg'.dying.stock
  obtain ⟨k, hk, hmem⟩ := hi.block
  have ho : (o, k) ∈ blocksOf m' ts' := (hmem _).mpr (.inr rfl)
  obtain ⟨hslack, hzero⟩ := hi.brim k ho
  rw [← hi.mode] at hk hslack hzero
  obtain ⟨a, n', hm, he⟩ := mem_objectsIn.mp ho
  cases he
  have hcount : Counting.count m'.own.mode (a + m'.own.mode.headerWords) m'.heap = .ok 0 := by
    rw [hg'.dying.count_run ⟨_, ho⟩, List.count_eq_zero.mpr hi.uncounted]
    rfl
  have hwaits : m'.own.mode = .deferred →
      a + m'.own.mode.headerWords ∈ m'.own.zeroCounts.entries.toList := fun hmode =>
    hi.waits (hi.mode.symm.trans hmode)
  have hqueued : m'.own.mode = .deferred →
      Counting.isQueued m'.own.mode (a + m'.own.mode.headerWords) m'.heap = .ok true :=
        fun hmode => by
    rw [hb.isQueued_run hmode ⟨_, ho⟩ (by simp), decide_eq_true (hwaits hmode)]
  have hregion : m'.own.region = ⟨0, m'.heap.size⟩ := hb.region.trans (Arena.region_eq _)
  have hin : m'.own.region.first ≤ a ∧ a + k ≤ m'.own.region.limit := by
    rw [hregion]
    exact ⟨Nat.zero_le a, (hb.tiled.bounds hm).2.1⟩
  refine ⟨(a, k), ⟨hin, ⟨by change n + m'.own.mode.headerWords ≤ k; omega, hslack⟩,
    describe_run (hb.tiled.headerSize_run ho) hcount hqueued, trivial, ?_,
      fun x h1 h2 => ?_⟩, rfl, _, hb.objects_run, ho⟩
  · rintro c hc hmode
    cases hc
    exact List.count_eq_one_of_mem (hb.queued hmode).nodup (hwaits hmode)
  · obtain ⟨i, rfl⟩ := Nat.exists_eq_add_of_le h1
    refine hzero i ?_
    change a + m'.own.mode.headerWords + i < a + k at h2
    omega

/-! ## The contract -/

/-- What the roots of `m` reach is what those of `m'` reach, with the addresses `ρ`, after `k`
collections. -/
structure Persists (m m' : Machine Collector) (ρ : Nat → Nat) (k : Nat) : Prop where
  renamed : Renamed ρ m.Reachable m.heap m'.heap
  roots : m.roots.Mapped (fun v v' => v' = v.rename ρ) m'.roots
  reachable : ∀ o', m'.Reachable o' ↔ ∃ o, m.Reachable o ∧ o' = ρ o
  cycles : m'.stats.collections = m.stats.collections + UInt64.ofNat k
  /-- Only collections move objects. -/
  quiet : k = 0 → ∀ o, m.Reachable o → ρ o = o

/-- What an allocation of `n` words leaves that returned `o`. -/
structure Provides (u u' : Mutator) (n o : Nat) : Prop where
  /-- The heap is in shape, and `o` has a new block in it. -/
  block : ∃ blocks chunks b, Shaped u' blocks chunks ∧ b ∈ blocks ∧
    o = b.1 + u'.machine.own.headerWords ∧ Minted u'.machine n b ∧
    ∀ c ∈ chunks ++ blocks.erase b, Separate b c
  unrooted : ¬ u'.machine.roots.Refers o
  unlinked : ∀ p, u'.machine.Reachable p → o ∉ u'.machine.heap.succ p
  persists : ∃ ρ k, k ≤ 3 ∧ Persists u.machine u'.machine ρ k

/-- A block in its place. -/
theorem Mints.placed {u : Mutator} {o : Nat} {blocks chunks : List (Nat × Nat)}
    (hm : Mints u.machine n o) (hs : Shaped u blocks chunks) :
    ∃ b, b ∈ blocks ∧ o = b.1 + u.machine.own.headerWords ∧ Minted u.machine n b ∧
    ∀ c ∈ chunks ++ blocks.erase b, Separate b c := by
  obtain ⟨b, hnew, ho, bs, hlist, hb⟩ := hm
  have hlisted : u.objects = .ok bs := hlist
  cases hs.listed.symm.trans hlisted
  obtain ⟨c, hc, he⟩ := List.mem_map.mp hb
  rw [ho] at he
  obtain rfl : c = b := objectOf_injective _ he
  have hperm : (chunks ++ blocks).Perm (c :: (chunks ++ blocks.erase c)) :=
    ((List.perm_cons_erase hc).append_left chunks).trans List.perm_middle
  have hap := (hperm.pairwise_iff fun h => h.symm).mp hs.filled.apart
  exact ⟨c, hc, ho, hnew, (List.pairwise_cons.mp hap).1⟩

section Laws

variable {I : Machine Collector → (Nat → Prop) → Prop} {N : Machine Collector → Nat → Nat → Prop}
  {S : Nat → Prop} {u : Mutator} {m' : Machine Collector} {o : Nat}

theorem Moved.persists {m : Machine Collector} {S' : Nat → Prop} {ρ : Nat → Nat} {k : Nat}
    (hm : Moved I m m' S S' ρ k) (hr : ∀ o, m.Reachable o → S o) (hn : Value.Named S') :
    Persists m m' ρ k :=
  ⟨hm.renamed, hm.roots, fun _ => hm.reachable_iff hn, hm.cycles,
    fun hk o ho => (hm.quiet hk o (hr o ho)).1⟩

/-- The contract, for a strategy whose invariant gives the shape of the heap and whose allocations
give new blocks. -/
theorem Laws.provides (hl : Laws Collector.operations I N)
    (hshaped : ∀ {u S}, I u.machine S → ∃ blocks chunks, Shaped u blocks chunks)
    (hi : I u.machine S) (hn : 1 ≤ n)
    (hmints : Runs (Collector.allocate n) u.machine (fun o m' => Mints m' n o) Fatal)
    (hrun : Collector.allocate n u.machine = .ok o m') : Provides u ⟨m', u.poisoned⟩ n o := by
  obtain ⟨ρ, S', k, hk, hm, ho, -, -, hne⟩ := (hl.allocate hi hn (hl.countable hi hn hrun)).ok hrun
  have hpersists := hm.persists (fun o ho => ho.mem (hl.apart hi).closed (hl.roots hi))
    (hl.named hm.inv)
  have hunreached : ¬ m'.Reachable o := by
    rw [hpersists.reachable]
    rintro ⟨x, hx, rfl⟩
    exact hne x hx rfl
  obtain ⟨blocks, chunks, hs⟩ := hshaped (u := ⟨m', u.poisoned⟩) hm.inv
  obtain ⟨b, hb⟩ := (hmints.ok hrun).placed hs
  exact ⟨⟨blocks, chunks, b, hs, hb⟩, fun h => hunreached (.root h),
    fun p hp h => hunreached (.step hp h), ρ, k, hk, hpersists⟩

end Laws

/-! ## Sessions -/

/-- The heap `u'` is `u` with operands parked, as a command parks them before it allocates. -/
inductive Laden (u : Mutator) (H : Nat → Prop) : Mutator → Prop where
  | idle : Laden u H u
  | park {u' u'' : Mutator} {v : Value} : Laden u H u' → u.Allows H v →
      (liftM (park v) : MutatorM Unit) u' = .ok () u'' → Laden u H u''

namespace Laden

variable {u u' u'' : Mutator} {H S : Nat → Prop} {v : Value}

/-- What parking keeps of a heap whose values are within `S`, it keeps with all operands. -/
theorem induct {P : Mutator → Prop} (hl : Laden u H u') (hu : P u)
    (hv : ∀ v, u.Allows H v → v.Within S)
    (hpark : ∀ {u v}, P u → v.Within S → u.machine.roots.stack.size + 1 < tableLimit →
      P (MutatorM.parkedOn u v)) : P u' := by
  induction hl with
  | idle => exact hu
  | park _ hallow hrun ih =>
    obtain ⟨hlim, rfl⟩ := MutatorM.eq_of_park hrun
    exact hpark ih (hv _ hallow) hlim

end Laden

section Session

variable {I : Machine Collector → (Nat → Prop) → Prop} {N : Machine Collector → Nat → Nat → Prop}
  {u u' : Mutator} {H : Nat → Prop}

/-- Operands may be parked in a good state. -/
theorem Steady.laden (hl : Laws Collector.operations I N) (hs : Steady I u H)
    (hp : Laden u H u') : ∃ S, I u'.machine S := by
  obtain ⟨S, hi, hH⟩ := hs.good
  exact ⟨S, hp.induct hi (fun v hv => hv.within hl hi hH) fun hi hv hlim => hl.park hi hv hlim⟩

/-- A strategy keeps the contract throughout a session. -/
theorem Laws.session_provides {σ : Type} {ops : Operations σ} {J : Machine σ → (Nat → Prop) → Prop}
    {N : Machine σ → Nat → Nat → Prop} {wrap : σ → Collector} {c : Config} {o : Nat}
    {m' : Machine Collector} (hl : Laws ops J N) (hh : Collector.Hosts wrap ops)
    (hshaped : ∀ {u S}, Collector.Hosted wrap J u.machine S →
      ∃ blocks chunks, Shaped u blocks chunks)
      (hmints : ∀ {m S}, J m S → ops.Countable m n → Runs (ops.allocate n) m
        (fun o m' => Mints (m'.withOwn (wrap m'.own)) n o) Fatal)
        (hstart : ∀ u, c.Makes u → ∃ S, Collector.Hosted wrap J u.machine S) (hs : Session c u H)
        (hp : Laden u H u') (hn : 1 ≤ n) (hrun : Collector.allocate n u'.machine = .ok o m') :
        Provides u' ⟨m', u'.poisoned⟩ n o := by
  obtain ⟨S, hi⟩ := (hs.steady (hl.hosted hh) hstart).laden (hl.hosted hh) hp
  obtain ⟨s, hown, hJ⟩ := id hi
  have hcount := (hh.countable hown).mp ((hl.hosted hh).countable hi hn hrun)
  exact (hl.hosted hh).provides hshaped hi hn
    (Collector.Hosts.runs (E := Fatal) (hh.allocate n hown) (hmints hJ hcount)) hrun

/-- A heap without room for any object stays so. -/
theorem MarkSweep.Barren.laden (hb : MarkSweep.Barren u) (hH : ∀ o, ¬ H o) (hp : Laden u H u') :
    MarkSweep.Barren u' :=
  hp.induct hb (fun _ hv => hb.allows hH hv) fun hb hv _ => hb.parkedOn hv

end Session

/-- A counting heap keeps the contract, whether it has room for any object or not. -/
theorem Counting.session_provides {mode : CountMode} {c : Config} {u u₁ : Mutator} {H : Nat → Prop}
    {o : Nat} {m' : Machine Collector} (hc : c.strategy = mode.strategy) (hs : Session c u H)
    (hp : Laden u H u₁) (hn : 1 ≤ n) (hrun : Collector.allocate n u₁.machine = .ok o m') :
    Provides u₁ ⟨m', u₁.poisoned⟩ n o := by
  by_cases h2 : 2 ≤ c.heapWords
  · refine (laws mode c.zeroCountCapacity).session_provides hosts shaped ?_
      (fun _ => start_kept hc h2) hs hp hn hrun
    rintro m S ⟨blocks, ⟨ts, -, -, -, hg⟩, -⟩ hcount
    exact allocate_mints hg hn hcount
  · -- nothing is ever allocated
    have hl := barren_laws.hosted hosts
    obtain ⟨S, hi⟩ := (hs.steady hl
      fun _ hu => ⟨_, start_barren hc (Nat.lt_of_not_le h2) hu⟩).laden hl hp
    obtain ⟨ρ, S', k, -, hm, ho, -⟩ := (hl.allocate hi hn (hl.countable hi hn hrun)).ok hrun
    obtain ⟨s, -, -, rfl⟩ := hm.inv
    exact ho.elim

/-- Whenever an allocation returns an object, throughout a session and with operands parked, the
contract is kept. -/
theorem allocate_provides {c : Config} {u u₁ : Mutator} {H : Nat → Prop} {n o : Nat}
    {m' : Machine Collector} (hs : Session c u H) (hp : Laden u H u₁) (hn : 1 ≤ n)
    (hrun : Collector.allocate n u₁.machine = .ok o m') : Provides u₁ ⟨m', u₁.poisoned⟩ n o := by
  cases hc : c.strategy with
  | copying =>
    exact Semispace.laws.session_provides Semispace.hosts Semispace.shaped
      (fun ⟨_, hg, _⟩ => Semispace.allocate_mints hg hn)
      (fun _ => Semispace.start_kept hc) hs hp hn hrun
  | markSweep =>
    by_cases h2 : 2 ≤ c.heapWords
    · exact MarkSweep.laws.session_provides MarkSweep.hosts MarkSweep.shaped
        (fun ⟨_, hg, _⟩ => MarkSweep.allocate_mints hg hn)
        (fun _ => MarkSweep.start_kept hc h2) hs hp hn hrun
    · obtain ⟨hb, -, hH⟩ := MarkSweep.session_barren hc (Nat.lt_of_not_le h2) hs
      have hb₁ := hb.laden hH hp
      by_cases hcount : Collector.operations.Countable u₁.machine n
      · obtain ⟨f, hstop⟩ := hb₁.allocate_stops hn hcount
        cases hrun.symm.trans hstop
      · cases hrun.symm.trans (hb₁.allocate_overflows hn hcount)
  | markCompact =>
    exact Sliding.laws.session_provides Sliding.hosts Sliding.shaped
      (fun ⟨_, hg, _⟩ => Sliding.allocate_mints hg hn)
      (fun _ => Sliding.start_kept hc) hs hp hn hrun
  | generational =>
    exact Generational.laws.session_provides Generational.hosts Generational.shaped
      (fun ⟨_, _, hg⟩ => Generational.allocate_mints hg hn)
        (fun _ => Generational.start_intact hc) hs hp hn hrun
  | counting =>
    exact Counting.session_provides (show _ = CountMode.eager.strategy from hc) hs hp hn hrun
  | deferredCounting =>
    exact Counting.session_provides (show _ = CountMode.deferred.strategy from hc) hs hp hn hrun

/-- A small heap with generations: a nursery half has room for one pair, and two collections promote
it. -/
def onePairNursery : Config :=
  { strategy := .generational, heapSize := 240, stackCapacity := 4, globalTableSize := 1,
    tenuringThreshold := 2 }

/-- The small heap with a pair, which is on the stack and fills the nursery. -/
def onePairNurseryFull : Mutator :=
  (Command.push (.ofRef 3)).after ((Command.cons .nil .nil).after (.ofConfig onePairNursery))

/-- The pair is parked as well. -/
def onePairNurseryParked : Mutator := MutatorM.parkedOn onePairNurseryFull (.ofRef 3)

/-- A minor collection leaves no room for another pair, and a forced one does. -/
theorem onePairNursery_forced : ∃ m', Collector.allocate 3 onePairNurseryParked.machine = .ok 3 m' ∧
    m'.stats.collections = 2 ∧
    m'.roots.stack = #[.ofRef 15, .ofRef 15] := by
  have hok : (match Collector.allocate 3 onePairNurseryParked.machine with
      | .ok o m' => o == 3 && m'.stats.collections == 2 && m'.roots.stack == #[.ofRef 15, .ofRef 15]
      | .error _ _ => false) = true := by decide +kernel
  cases hrun : Collector.allocate 3 onePairNurseryParked.machine with
  | error e m' =>
    rw [hrun] at hok
    cases hok
  | ok o m' =>
    rw [hrun] at hok
    simp only [Bool.and_eq_true, beq_iff_eq] at hok
    obtain ⟨⟨rfl, hcycles⟩, hstack⟩ := hok
    exact ⟨m', rfl, hcycles, hstack⟩

/-- The new pair is made where the first one was, whose header is still there before the two
collections. -/
theorem onePairNursery_provides : ∃ u H u₁ m', Session onePairNursery u H ∧ Laden u H u₁ ∧
    Collector.allocate 3 u₁.machine = .ok 3 m' ∧
    Provides u₁ ⟨m', u₁.poisoned⟩ 3 3 ∧ u₁.machine.heap.word 3 = 2 ∧ m'.stats.collections = 2 ∧
    m'.roots.stack = #[.ofRef 15, .ofRef 15] := by
  have hstart : Session onePairNursery (.ofConfig onePairNursery) _ := .start ⟨_, rfl⟩
  have hmade := hstart.plain (.cons .nil .nil) [.ofRef 3] (by decide +kernel)
    (by decide +kernel) (by decide)
  obtain ⟨H, hfull⟩ : ∃ H, Session onePairNursery onePairNurseryFull H :=
    ⟨_, hmade.next (.push (.ofRef 3)) [] (by decide +kernel) (by decide +kernel) (by
      simp only [Command.operands, List.mem_singleton, forall_eq]
      exact Mutator.allows_returned (by decide) (by decide)
        (show ((Command.cons .nil .nil).after (.ofConfig onePairNursery)).objects.toOption =
          some [(3, 6)] by decide +kernel) (.head _))⟩
  have hpark : (liftM (park (.ofRef 3)) : MutatorM Unit) onePairNurseryFull =
      .ok () onePairNurseryParked :=
    MutatorM.roots_lift (park_run (by decide +kernel) (by decide +kernel))
  have hladen : Laden onePairNurseryFull H onePairNurseryParked :=
    .park .idle (Mutator.allows_root (.stack 0) (by decide) (by decide) (by decide +kernel)) hpark
  have hstale : onePairNurseryParked.machine.heap.word 3 = 2 := by decide +kernel
  obtain ⟨m', hrun, hcycles, hstack⟩ := onePairNursery_forced
  exact ⟨onePairNurseryFull, H, onePairNurseryParked, m', hfull, hladen, hrun,
    allocate_provides hfull hladen (by decide) hrun, hstale, hcycles,
    hstack⟩

end Reclaim
