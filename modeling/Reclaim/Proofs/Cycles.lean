import Reclaim.Proofs.Audits
import Reclaim.Proofs.Underway

/-!
# What a cycle measures

A strategy that moves objects collects in cycles, and every cycle subtracts two numbers of words:
what was in use before it and what it kept. `Paced` says of such a strategy that the subtraction
never clips, that the difference is what went out of use, and that an allocation does nothing to the
measurements but run some cycles. So the measurements are right after every cycle, also after those
inside of an allocation.

Results:
* `Paced.audited`: such a strategy keeps books of the words in use.
* `Paced.measures`: at every moment of its work the measurements are exact, and those of the next
  cycle will be.
-/

namespace Reclaim

variable {σ : Type}

/-- The words that a cycle of this kind subtracts from each other: those that were in use and those
that it kept. A minor cycle keeps what it promotes as well, and a major one leaves the nursery
alone. -/
def Collector.measured (kind : CycleKind) : Collector → Collector → Nat × Nat
  | .semispace s, .semispace s' => (s.space.used, s'.space.used)
  | .sliding s, .sliding s' => (s.space.used, s'.space.used)
  | .generational g, .generational g' =>
    if kind = .minor then (g.nursery.used, g'.nursery.used + (g'.tenured.used - g.tenured.used))
    else (g.tenured.used, g'.tenured.used)
  | _, _ => (0, 0)

/-! ## One strategy -/

/-- A cycle took out of use what it says: `used` are the words in use, and `spent` are the two
numbers that the cycle subtracts. -/
def Recorded (used : σ → Nat) (spent : CycleKind → σ → σ → Nat × Nat) (m m' : Machine σ) : Prop :=
  ∃ kind before kept, spent kind m.own m'.own = (before, kept) ∧ kept ≤ before ∧
    used m.own = used m'.own + (before - kept) ∧
    m'.stats = m.stats.recordCycle kind (before - kept) (used m'.own)

theorem Recorded.cycled {used : σ → Nat} {spent : CycleKind → σ → σ → Nat × Nat} {m m' : Machine σ}
    (h : Recorded used spent m m') :
    Books.Cycled (m.books used) (m'.books used) := by
  obtain ⟨kind, before, kept, -, -, hused, hstats⟩ := h
  refine ⟨kind, ?_, ?_⟩
  · simp only [Machine.books]
    omega
  · simp only [Machine.books]
    rw [hstats, show used m.own - used m'.own = before - kept by omega]

/-- A strategy that collects in the cycles `C`, and hands out blocks that are just as large as was
asked for. -/
structure Paced (ops : Operations σ) (I : Machine σ → (Nat → Prop) → Prop) (used : σ → Nat)
    (spent : CycleKind → σ → σ → Nat × Nat) (C : Machine σ → Machine σ → Prop) : Prop where
  listed : ∀ {m S}, I m S → ∃ bs, ops.objects m.own m.heap = .ok bs ∧
    Mutator.wordsOf bs = used m.own
  cycle : ∀ {m m' S}, I m S → C m m' → (∃ S', I m' S') ∧ Recorded used spent m m'
  allocate : ∀ {m S n}, I m S → 1 ≤ n → ops.Countable m n → Runs (ops.allocate n) m
    (fun _ m' => ∃ m₁, Relation.ReflTransGen C m m₁ ∧ m'.stats = m₁.stats ∧ used m'.own =
      used m₁.own + (n + ops.headerWords m'.own))
    fun _ _ => True
  collect : ∀ {m S}, I m S → Runs ops.collect m (fun _ m' => Relation.TransGen C m m')
    fun _ _ => True
  collectFull : ∀ {m S}, I m S → Runs ops.collectFull m (fun _ m' => Relation.TransGen C m m')
    fun _ _ => True

namespace Paced

variable {ops : Operations σ} {I : Machine σ → (Nat → Prop) → Prop}
  {N : Machine σ → Nat → Nat → Prop} {used : σ → Nat}
  {spent : CycleKind → σ → σ → Nat × Nat} {C : Machine σ → Machine σ → Prop} {m m' : Machine σ}
  {S : Nat → Prop}

theorem turns (hp : Paced ops I used spent C) (hi : I m S) (h : Relation.ReflTransGen C m m') :
    (∃ S', I m' S') ∧ Books.Turns (m.books used) (m'.books used) := by
  induction h with
  | refl => exact ⟨⟨S, hi⟩, .refl⟩
  | tail _ hc ih =>
    obtain ⟨⟨S₁, hi₁⟩, ht⟩ := ih
    obtain ⟨hi', hr⟩ := hp.cycle hi₁ hc
    exact ⟨hi', ht.tail hr.cycled⟩

theorem cycled (hp : Paced ops I used spent C) (hi : I m S) (h : Relation.TransGen C m m') :
    Relation.TransGen Books.Cycled (m.books used) (m'.books used) := by
  obtain ⟨m₁, hturn, hc⟩ := Relation.TransGen.tail'_iff.mp h
  obtain ⟨⟨S₁, hi₁⟩, ht⟩ := hp.turns hi hturn
  exact .tail' ht (hp.cycle hi₁ hc).2.cycled

/-- The books of such a strategy, when it also traces. -/
theorem audited {allocate : Nat → GcM σ Nat} {collect collectFull : GcM σ Unit}
    {writeField : Nat → Nat → Value → GcM σ Unit} {objects : σ → ReadM (List (Nat × Nat))}
    {header : Nat} (hp : Paced
      (.plain allocate collect collectFull writeField objects header) I used spent C)
      (hstore : ∀ {m S o field v}, I m S → S o → m.heap.tag o = some .pair → field = o + 1 ∨
        field = o + 2 → v.Within S → Runs (writeField o field v) m
        (fun _ m' => m'.books used = m.books used) fun _ _ => True) :
    Audited (.plain allocate collect collectFull writeField objects header) I used
    (fun _ => header) 0 := by
  refine .plain hp.listed (fun {m S n} hi hn hcount => ?_)
    (fun hi => (hp.collect hi).mono fun _ _ h => hp.cycled hi h)
    (fun hi => (hp.collectFull hi).mono fun _ _ h => hp.cycled hi h) hstore
  refine (hp.allocate hi hn hcount).mono ?_
  rintro o m' ⟨m₁, hturn, hstats, hused⟩
  exact (hp.turns hi hturn).2.issues
    ⟨m₁.books used, 0, .refl, Nat.le_refl 0, by rw [Machine.books, hstats, hused]; rfl⟩

end Paced

/-! ## Heaps at work -/

/-- What went through the heap is `t`, in blocks as large as asked for, and the measurements tell
how many bytes the blocks of `listed` take, which are all that the collector holds. -/
structure Mutator.Accounts (u : Mutator) (listed : List (Nat × Nat)) (t : Turnover) : Prop where
  objects : u.objects = .ok listed
  /-- Every cycle recorded just what it took out of use and what it left. -/
  account : Account 0 u.machine.stats t
  inUse : t.inUse = wordsOf listed
  live : u.machine.stats.allocatedBytes - u.machine.stats.totalReclaimed = bytesOf listed
  /-- The last cycle measured what is listed, except for what was handed out since. -/
  since : u.machine.stats.liveBytes + byteCount t.fresh = bytesOf listed
  /-- Nothing wraps while the total fits into a word. -/
  exact : t.asked * wordBytes < 2 ^ 64 →
    u.machine.stats.allocatedBytes.toNat = u.machine.stats.totalReclaimed.toNat +
      wordsOf listed * wordBytes

/-- The cycle from `u` to `u'` is measured: `before` and `after` are the blocks listed. -/
structure Mutator.Measured (u u' : Mutator) (kind : CycleKind) (before after : List (Nat × Nat))
    (had kept : Nat) : Prop where
  listed : u.objects = .ok before
  left : u'.objects = .ok after
  /-- These two numbers are subtracted, and the difference does not clip. -/
  measured : Collector.measured kind u.machine.own u'.machine.own = (had, kept)
  le : kept ≤ had
  recorded : u'.machine.stats = u.machine.stats.recordCycle kind (had - kept) (wordsOf after)
  /-- The difference is what is no longer listed. -/
  reclaimed : wordsOf before = wordsOf after + (had - kept)
  /-- What was measured as live is what is listed. -/
  live : u'.liveBytes = .ok u'.machine.stats.liveBytes

/-- The measurements are exact, and so is what the next cycle will measure, whatever operation it is
part of. -/
structure Mutator.Measures (u : Mutator) : Prop where
  accounts : ∃ listed t, u.Accounts listed t
  cycle : ∀ m', Collector.Cycle u.machine m' →
    ∃ kind before after had kept, u.Measured (u.withMachine m') kind before after had kept
  /-- An allocation runs some cycles, and what it does after them is not measured by the
  collector. -/
  allocate : ∀ n o m', 1 ≤ n → Collector.allocate n u.machine = .ok o m' →
    ∃ m₁, Relation.ReflTransGen Collector.Cycle u.machine m₁ ∧ m'.stats = m₁.stats
  /-- A collection runs at least one cycle, and the last one measured what is listed. -/
  collect : ∀ m', Collector.collect u.machine = .ok () m' ∨
    Collector.collectFull u.machine = .ok () m' →
    Relation.TransGen Collector.Cycle u.machine m' ∧ (u.withMachine m').liveBytes =
      .ok m'.stats.liveBytes

namespace Paced

open Collector Mutator

variable {ops : Operations σ} {I : Machine σ → (Nat → Prop) → Prop}
  {N : Machine σ → Nat → Nat → Prop} {used header : σ → Nat}
  {spent : CycleKind → σ → σ → Nat × Nat} {C : Machine σ → Machine σ → Prop} {wrap : σ → Collector}
  {c : Config} {u : Mutator}
  {H : Nat → Prop} {m m' : Machine Collector} {s : σ}

/-- The cycles of a collector are those of the strategy that it follows. -/
def Drives (wrap : σ → Collector) (C : Machine σ → Machine σ → Prop) : Prop :=
  ∀ {m m' s}, m.own = wrap s →
    (Cycle m m' ↔ ∃ m₁, C (m.withOwn s) m₁ ∧ m' = m₁.withOwn (wrap m₁.own))

theorem Drives.lift (hd : Drives wrap C) {a b : Machine σ} (h : C a b) :
    Cycle (a.withOwn (wrap a.own)) (b.withOwn (wrap b.own)) :=
  (hd rfl).mpr ⟨b, h, rfl⟩

/-- The invariant after a cycle. -/
theorem hosted_cycle (hp : Paced ops I used spent C) (hd : Drives wrap C) (hi : Hosted wrap I m S)
    (hc : Cycle m m') : ∃ S', Hosted wrap I m' S' := by
  obtain ⟨s, hs, hi⟩ := hi
  obtain ⟨m₁, hc₁, rfl⟩ := (hd hs).mp hc
  obtain ⟨⟨S', hi'⟩, -⟩ := hp.cycle hi hc₁
  exact ⟨S', m₁.own, rfl, hi'⟩

theorem balances_cycle (hp : Paced ops I used spent C) (hh : Hosts wrap ops) (hd : Drives wrap C)
    (hi : Hosted wrap I m S) (hb : Audited.Balances wrap used 0 m) (hc : Cycle m m') :
    Audited.Balances wrap used 0 m' := by
  obtain ⟨s, hs, hi⟩ := hi
  obtain ⟨t, ht, hsound⟩ := hb
  cases hh.injective s t (hs.symm.trans ht)
  obtain ⟨m₁, hc₁, rfl⟩ := (hd hs).mp hc
  exact ⟨m₁.own, rfl, Books.Accounted.turns (b := (m.withOwn s).books used) hsound
    (.single (hp.cycle hi hc₁).2.cycled)⟩

/-- One cycle, of a heap in order. -/
theorem measured (hp : Paced ops I used spent C) (ha : Audited ops I used header 0)
    (hh : Hosts wrap ops) (hd : Drives wrap C)
    (hspent : ∀ kind s s', Collector.measured kind (wrap s) (wrap s') = spent kind s s')
    (hi : Hosted wrap I u.machine S) (hc : Cycle u.machine m') :
    ∃ kind before after had kept, u.Measured (u.withMachine m') kind before after had kept := by
  obtain ⟨s, hs, hi₁⟩ := id hi
  obtain ⟨m₁, hc₁, rfl⟩ := (hd hs).mp hc
  obtain ⟨hi', kind, had, kept, hmeas, hle, hused, hstats⟩ := hp.cycle hi₁ hc₁
  obtain ⟨S', hi'⟩ := hi'
  obtain ⟨before, hbefore, hwb⟩ := ha.objects hh hi hs
  obtain ⟨after, hafter, hwa⟩ := ha.objects (u := u.withMachine (m₁.withOwn (wrap m₁.own))) hh
    ⟨m₁.own, rfl, hi'⟩ rfl
  refine ⟨kind, before, after, had, kept, hbefore, hafter, ?_, hle, ?_, ?_, ?_⟩
  · rw [hs]
    exact (hspent kind s m₁.own).trans hmeas
  · rw [hwa]
    exact hstats
  · rw [hwb, hwa]
    exact hused
  · rw [liveBytes, hafter]
    refine congrArg Except.ok ?_
    change bytesOf after = m₁.stats.liveBytes
    rw [hstats, bytesOf, hwa]
    rfl

/-- After some cycles, the last one measured what is listed. -/
theorem live_of_chain (hp : Paced ops I used spent C) (ha : Audited ops I used header 0)
    (hh : Hosts wrap ops) {m m₁ : Machine σ} (hi : I m S) (h : Relation.TransGen C m m₁) :
    (u.withMachine (m₁.withOwn (wrap m₁.own))).liveBytes = .ok m₁.stats.liveBytes := by
  obtain ⟨m₂, hturn, hlast⟩ := Relation.TransGen.tail'_iff.mp h
  obtain ⟨⟨S₂, hi₂⟩, -⟩ := hp.turns hi hturn
  obtain ⟨⟨S', hi'⟩, kind, had, kept, -, -, -, hstats⟩ := hp.cycle hi₂ hlast
  obtain ⟨after, hafter, hwords⟩ := ha.objects (u := u.withMachine (m₁.withOwn (wrap m₁.own))) hh
    ⟨m₁.own, rfl, hi'⟩ rfl
  rw [liveBytes, hafter, hstats]
  refine congrArg Except.ok ?_
  rw [bytesOf, hwords]
  rfl

/-- Some cycles of the strategy are cycles of the collector. -/
theorem Drives.chain (hd : Drives wrap C) (hs : m.own = wrap s) {m₁ : Machine σ}
    (h : Relation.ReflTransGen C (m.withOwn s) m₁) :
    Relation.ReflTransGen Cycle m (m₁.withOwn (wrap m₁.own)) := by
  have hself : (m.withOwn s).withOwn (wrap s) = m := by
    rw [← hs]
    rfl
  have hlift : Relation.ReflTransGen Cycle ((m.withOwn s).withOwn (wrap s))
      (m₁.withOwn (wrap m₁.own)) :=
    h.lift (fun a : Machine σ => a.withOwn (wrap a.own)) fun _ _ h => hd.lift h
  rwa [hself] at hlift

theorem Drives.chain_pos (hd : Drives wrap C) (hs : m.own = wrap s) {m₁ : Machine σ}
    (h : Relation.TransGen C (m.withOwn s) m₁) :
    Relation.TransGen Cycle m (m₁.withOwn (wrap m₁.own)) := by
  obtain ⟨m₂, hfirst, hrest⟩ := Relation.TransGen.head'_iff.mp h
  refine .head' ((hd hs).mpr ⟨m₂, hfirst, rfl⟩)
    (hd.chain (m := m₂.withOwn (wrap m₂.own)) (s := m₂.own) rfl hrest)

/-- The measurements of a heap agree with what its collector lists. -/
theorem accounts (hi : Hosted wrap I u.machine S) (hb : Audited.Balances wrap used 0 u.machine)
    (ha : Audited ops I used header 0) (hh : Hosts wrap ops) : ∃ listed t, u.Accounts listed t := by
  obtain ⟨s, hs, t, hacc, hused⟩ := hb
  obtain ⟨listed, hobj, hwords⟩ := ha.objects hh hi hs
  have huse : t.inUse = wordsOf listed := hused.trans hwords.symm
  refine ⟨listed, t, hobj, hacc, huse, ?_, ?_, fun hfit => ?_⟩
  · rw [hacc.live_eq, huse]
    rfl
  · rw [hacc.counted.2.2.2, ← byteCount_add]
    exact congrArg byteCount huse
  · rw [hacc.live_exact hfit, huse]

/-- Every moment of a heap that such a strategy collects. -/
theorem measures (hp : Paced ops I used spent C) (ha : Audited ops I used header 0)
    (hl : Laws ops I N) (hh : Hosts wrap ops) (hd : Drives wrap C)
    (hspent : ∀ kind s s', Collector.measured kind (wrap s) (wrap s') = spent kind s s')
    (hheader : ∀ s, (wrap s).headerWords = header s)
    (hstart : ∀ u, c.Makes u → ∃ S, Hosted wrap I u.machine S)
    (hnew : ∀ u, c.Makes u → ∃ s, u.machine.own = wrap s ∧ used s = 0) (hw : Underway c u H) :
    u.Measures := by
  have hboth : ∀ u, c.Makes u → (∃ S, Hosted wrap I u.machine S) ∧
      Audited.Balances wrap used 0 u.machine := by
    intro u hu
    obtain ⟨s, hown, hzero⟩ := hnew u hu
    exact ⟨hstart u hu, Audited.balances_start hu hown hzero⟩
  obtain ⟨-, S, hi, -⟩ := hw.good (hl.hosted hh) (hp.hosted_cycle hd) hstart
  have hb := hw.upholds (hl.hosted hh) (ha.upkeep hl hh hheader) (hp.hosted_cycle hd)
    (hp.balances_cycle hh hd) hboth
  obtain ⟨s, hs, hi₁⟩ := id hi
  have hcollected : ∀ {m₁ : Machine σ}, Relation.TransGen C (u.machine.withOwn s) m₁ →
      Relation.TransGen Cycle u.machine (m₁.withOwn (wrap m₁.own)) ∧
        (u.withMachine (m₁.withOwn (wrap m₁.own))).liveBytes = .ok m₁.stats.liveBytes := fun h =>
    ⟨hd.chain_pos hs h, hp.live_of_chain ha hh hi₁ h⟩
  refine ⟨accounts hi hb ha hh, fun m' hc => hp.measured ha hh hd hspent hi hc, ?_, ?_⟩
  · intro n o m' hn hrun
    rw [hh.allocate n hs] at hrun
    obtain ⟨m₂, hrun₂, rfl⟩ := Audited.of_within hrun
    obtain ⟨m₁, hturn, hstats, -⟩ := (hp.allocate hi₁ hn (hl.countable hi₁ hn hrun₂)).ok hrun₂
    exact ⟨_, hd.chain hs hturn, hstats⟩
  · rintro m' (hrun | hrun)
    · rw [hh.collect hs] at hrun
      obtain ⟨m₁, hrun₁, rfl⟩ := Audited.of_within hrun
      exact hcollected ((hp.collect hi₁).ok hrun₁)
    · rw [hh.collectFull hs] at hrun
      obtain ⟨m₁, hrun₁, rfl⟩ := Audited.of_within hrun
      exact hcollected ((hp.collectFull hi₁).ok hrun₁)

end Paced

end Reclaim
