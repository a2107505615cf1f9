import Reclaim.Proofs.Shape

/-!
# What a failing operation leaves

An operation may fail when it has changed the heap already: a minor collection runs out of room
between two copies, a collection has marked what it found so far, a count went down whose object no
longer fits into the table. The heap is poisoned then, and nothing changes it any more, but a
program can still read it. `Legible` is what reading relies on, and `Brittle` says of a strategy
that its operations leave a legible heap when they fail. What could be used before and is still
listed may still be used, if there was no collection.

Results:
* `Brittle.hosted`: what is known of a strategy is known of the collector that follows it.
* `Wrecks.after`: a failure after some collections.
* `Semispace.brittle`, `MarkSweep.brittle`, `Sliding.brittle`: three strategies that trace.
-/

namespace Reclaim

variable {σ : Type} {S S₁ S' : Nat → Prop}

/-- Objects, lists and the heap as a whole can be read: the objects of `S` are well-formed, roots
and fields refer to them alone, and the collector lists objects behind whole headers. -/
structure Legible (m : Machine Collector) (S : Nat → Prop) : Prop where
  apart : ∃ hd, Apart hd m.heap S
  roots : m.roots.Within S
  listed : ∃ bs, m.own.objects m.heap = .ok bs ∧
    ∀ b ∈ bs, m.own.headerWords ≤ b.1 ∧ b.1 ≤ m.heap.size
  chunks : ∃ cs, m.own.freeChunks m.heap = .ok cs

/-- What an operation leaves of `m` and of the objects `S` when it fails after `k` collections. -/
structure Wrecked (m m' : Machine Collector) (S S' : Nat → Prop) (k : Nat) : Prop where
  legible : Legible m' S'
  cycles : m'.stats.collections = m.stats.collections + UInt64.ofNat k
  kept : k = 0 → ∀ o n, S o → Collector.operations.Lists m' o n → S' o

/-- The machine with its collector as one of any strategy. -/
def Machine.hosted (wrap : σ → Collector) (m : Machine σ) : Machine Collector :=
  m.withOwn (wrap m.own)

/-- An operation that failed after `bound` collections at most left `m'`. -/
def Wrecks (wrap : σ → Collector) (bound : Nat) (m : Machine σ) (S : Nat → Prop)
    (m' : Machine σ) : Prop :=
  ∃ S' k, k ≤ bound ∧ Wrecked (m.hosted wrap) (m'.hosted wrap) S S' k

/-- The operations of a strategy leave a legible heap when they fail. -/
structure Brittle (ops : Operations σ) (wrap : σ → Collector)
    (I : Machine σ → (Nat → Prop) → Prop) : Prop where
  legible : ∀ {m S}, I m S → Legible (m.hosted wrap) S
  allocate : ∀ {m S n}, I m S → 1 ≤ n → ops.Countable m n →
    Runs (ops.allocate n) m (fun _ _ => True) fun _ => Wrecks wrap 3 m S
  collect : ∀ {m S}, I m S → Runs ops.collect m (fun _ _ => True) fun _ => Wrecks wrap 3 m S
  collectFull : ∀ {m S}, I m S → Runs ops.collectFull m (fun _ _ => True) fun _ => Wrecks wrap 3 m S
  writeField : ∀ {m S o field v}, I m S → m.roots.parked = 0 → S o → m.heap.tag o = some .pair →
    field = o + 1 ∨ field = o + 2 → v.Within S →
    Runs (ops.writeField o field v) m (fun _ _ => True) fun _ => Wrecks wrap 3 m S
  writeRoot : ∀ {m S slot old v}, I m S → m.roots.parked = 0 → m.roots.get? slot = some old →
    v.Within S → Runs (ops.writeRoot slot v) m (fun _ _ => True) fun _ => Wrecks wrap 3 m S
  pop : ∀ {m S v}, I m S → m.roots.parked = 0 → m.roots.stack.back? = some v →
    Runs ops.pop m (fun _ _ => True) fun _ => Wrecks wrap 3 m S

section Wrecks

variable {wrap : σ → Collector} {I : Machine σ → (Nat → Prop) → Prop} {L : Nat → Prop}
  {m m₁ m' : Machine σ} {ρ : Nat → Nat} {k l : Nat}

/-- A failure after some collections. -/
theorem Wrecked.after (hmv : Carried I L m m₁ S S₁ ρ k)
    (h : Wrecked (m₁.hosted wrap) (m'.hosted wrap) S₁ S' l) :
    Wrecked (m.hosted wrap) (m'.hosted wrap) S S' (k + l) := by
  refine ⟨h.legible, ?_, fun hkl o n ho hlist => ?_⟩
  · have h₁ := hmv.cycles
    have h₂ := h.cycles
    simp only [Machine.hosted, Machine.withOwn_stats] at h₁ h₂ ⊢
    rw [h₂, h₁, UInt64.ofNat_add, UInt64.add_assoc]
  · exact h.kept (by omega) o n (hmv.quiet (by omega) o ho).2 hlist

theorem Wrecks.mono {b b' : Nat} (hw : Wrecks wrap b m S m') (hb : b ≤ b') :
    Wrecks wrap b' m S m' := by
  obtain ⟨S', k, hk, h⟩ := hw
  exact ⟨S', k, Nat.le_trans hk hb, h⟩

theorem Wrecks.after {b : Nat} (hmv : Carried I L m m₁ S S₁ ρ k) (hw : Wrecks wrap b m₁ S₁ m') :
    Wrecks wrap (k + b) m S m' := by
  obtain ⟨S', l, hl, h⟩ := hw
  exact ⟨S', k + l, by omega, h.after hmv⟩

/-- A failure that leaves the machine as it was. -/
theorem Wrecks.refl (hleg : Legible (m.hosted wrap) S) : Wrecks wrap 0 m S m :=
  ⟨S, 0, Nat.le_refl 0, hleg, by simp, fun _ _ _ ho _ => ho⟩

/-- A failure that leaves the machine as it was after some collections. -/
theorem Wrecks.of_moved {b : Nat} (hmv : Carried I L m m₁ S S₁ ρ k) (hk : k ≤ b)
    (hleg : Legible (m₁.hosted wrap) S₁) : Wrecks wrap b m S m₁ :=
  ((Wrecks.refl hleg).after hmv).mono hk

end Wrecks

/-! ## Marks that are left -/

section Unmoved

variable {mask : Word} {bs : List (Nat × Nat)} {m m' : Machine σ}

/-- A mark is no part of an object. -/
theorem Marking.Unmoved.same (hu : Unmoved mask bs m m') (hb : Spaced m.heap S (· ∈ bs)) :
    Same S m.heap m'.heap := by
  intro o i ho hi
  obtain ⟨n, hn, hfit⟩ := hb.placed o ho
  refine hu.word _ fun c hc => ?_
  have hin := hb.inside hc
  rcases hb.apart hn hc with rfl | h | h
  · simp only at *
    omega
  · simp only at h
    omega
  · simp only at h
    omega

/-- Nor is it the size of a block. -/
theorem Marking.Unmoved.sized {offset : Nat} (hu : Unmoved mask bs m m')
    (hb : Spaced m.heap S (· ∈ bs)) (hoff : 2 ≤ offset ∧ offset ≤ 3)
    {blocks : List (Nat × Nat)} (hsub : ∀ b ∈ blocks, b ∈ bs) (hs : Sized offset m.heap blocks) :
    Sized offset m'.heap blocks := by
  intro b hbm
  have hword : m'.heap.word (b.1 - offset) = m.heap.word (b.1 - offset) := by
    refine hu.word _ fun c hc => ?_
    have hin := hb.inside (hsub b hbm)
    have hin' := hb.inside hc
    rcases hb.apart (hsub b hbm) hc with rfl | h | h
    · omega
    · omega
    · omega
  rw [hword]
  exact hs b hbm

/-- A heap with marks left in it. -/
theorem Marking.Unmoved.wrecks {wrap : σ → Collector} (hu : Unmoved mask bs m m')
    (hb : Spaced m.heap S (· ∈ bs)) (hap : Apart 3 m.heap S) (hroots : m.roots.Within S)
    (hhead : (wrap m.own).headerWords ≤ 3)
    (hlist : (wrap m.own).objects m'.heap = .ok bs)
    (hchunks : ∃ cs, (wrap m.own).freeChunks m'.heap = .ok cs) : Wrecks wrap 0 m S m' := by
  have hrest := hu.rest
  refine ⟨S, 0, Nat.le_refl 0, ⟨⟨3, ?_⟩, ?_, ⟨bs, ?_, fun b hbm => ?_⟩, ?_⟩, ?_,
    fun _ _ _ ho _ => ho⟩
  · exact hap.congr hu.size_eq (hu.same hb)
  · rw [hrest]
    exact hroots
  · rw [hrest]
    exact hlist
  · have hin := hb.inside hbm
    rw [hrest, Machine.hosted, Machine.withOwn_heap, Machine.withHeap_heap, hu.size_eq]
    refine ⟨Nat.le_trans hhead hin.1, ?_⟩
    omega
  · rw [hrest]
    exact hchunks
  · rw [hrest]
    simp [Machine.hosted]

end Unmoved

/-! ## Collectors -/

section Hosted

open Collector

variable {ops : Operations σ} {I : Machine σ → (Nat → Prop) → Prop} {wrap : σ → Collector}

/-- What is known of a strategy is known of the collector that follows it. -/
theorem Brittle.hosted (hb : Brittle ops wrap I) (hh : Hosts wrap ops) :
    Brittle Collector.operations id (Hosted wrap I) := by
  have hruns : ∀ {α : Type} {m : Machine Collector} {s : σ} {S : Nat → Prop} {x : GcM σ α}
      {y : GcM Collector α}, m.own = wrap s → y m = within wrap s x m →
      Runs x (m.withOwn s) (fun _ _ => True) (fun _ => Wrecks wrap 3 (m.withOwn s) S) →
      Runs y m (fun _ _ => True) fun _ => Wrecks id 3 m S := by
    intro α m s S x y hs he hx
    refine Hosts.runs he ((hx.mono fun _ _ _ => trivial).mono_fail ?_)
    rintro f m' ⟨S', k, hk, hw⟩
    have hm : (m.withOwn s).hosted wrap = m := by
      rw [Machine.hosted, Machine.withOwn_own, ← hs]
      rfl
    rw [hm] at hw
    exact ⟨S', k, hk, hw⟩
  refine ⟨?_, ?_, ?_, ?_, ?_, ?_, ?_⟩
  · rintro m S ⟨s, hs, hi⟩
    have hleg := hb.legible hi
    rw [Machine.hosted, Machine.withOwn_own, ← hs] at hleg
    exact hleg
  · rintro m S n ⟨s, hs, hi⟩ hn hcount
    exact hruns hs (hh.allocate n hs) (hb.allocate hi hn ((hh.countable hs).mp hcount))
  · rintro m S ⟨s, hs, hi⟩
    exact hruns hs (hh.collect hs) (hb.collect hi)
  · rintro m S ⟨s, hs, hi⟩
    exact hruns hs (hh.collectFull hs) (hb.collectFull hi)
  · rintro m S o field v ⟨s, hs, hi⟩ hpark ho ht hf hv
    exact hruns hs (hh.writeField o field v hs) (hb.writeField hi hpark ho ht hf hv)
  · rintro m S slot old v ⟨s, hs, hi⟩ hpark hold hv
    exact hruns hs (hh.writeRoot slot v hs) (hb.writeRoot hi hpark hold hv)
  · rintro m S v ⟨s, hs, hi⟩ hpark hv
    exact hruns hs (hh.pop hs) (hb.pop hi hpark hv)

/-- A heap in shape. -/
theorem Laws.legible {I : Machine Collector → (Nat → Prop) → Prop}
    {N : Machine Collector → Nat → Nat → Prop} {m : Machine Collector}
    {blocks chunks : List (Nat × Nat)} (hl : Laws Collector.operations I N) (hi : I m S)
    (hs : Shaped ⟨m, false⟩ blocks chunks) : Legible m S := by
  refine ⟨⟨1, hl.apart hi⟩, hl.roots hi, ⟨_, hs.listed, fun b hb => ?_⟩, chunks, hs.free⟩
  obtain ⟨c, hc, rfl⟩ := List.mem_map.mp hb
  obtain ⟨s, hspace, -, htop⟩ := hs.filled.inside c (List.mem_append_right _ hc)
  obtain ⟨n, -, hroom⟩ := hs.roomy c hc
  have hbounds := hs.bounds s hspace
  simp only [objectOf] at hbounds hroom ⊢
  omega

end Hosted

/-! ## Strategies that trace -/

/-- A strategy that has nothing of its own to do when roots change fails in few of its
operations. -/
theorem Brittle.plain {allocate : Nat → GcM σ Nat} {collect collectFull : GcM σ Unit}
    {writeField : Nat → Nat → Value → GcM σ Unit} {objects : σ → ReadM (List (Nat × Nat))}
    {header : Nat} {wrap : σ → Collector} {I : Machine σ → (Nat → Prop) → Prop}
    (hlegible : ∀ {m S}, I m S → Legible (m.hosted wrap) S)
    (hallocate : ∀ {m S n}, I m S → 1 ≤ n → (n + header) * wordBytes < wordValues →
      Runs (allocate n) m (fun _ _ => True) fun _ => Wrecks wrap 3 m S)
    (hcollect : ∀ {m S}, I m S → Runs collect m (fun _ _ => True) fun _ => Wrecks wrap 3 m S)
    (hfull : ∀ {m S}, I m S → Runs collectFull m (fun _ _ => True) fun _ => Wrecks wrap 3 m S)
    (hstore : ∀ {m S o field v}, I m S → S o → m.heap.tag o = some .pair →
      field = o + 1 ∨ field = o + 2 → v.Within S →
      Runs (writeField o field v) m (fun _ _ => True) fun _ => Wrecks wrap 3 m S) :
    Brittle (.plain allocate collect collectFull writeField objects header) wrap I where
  legible := hlegible
  allocate := hallocate
  collect := hcollect
  collectFull := hfull
  writeField hi _ := hstore hi
  writeRoot _ _ hold _ := Runs.of_eq (roots_lift (setRoot_run hold)) trivial
  pop _ _ hv := Runs.of_eq (roots_lift (popRoot_run hv)) trivial

namespace Semispace

variable {m : Machine Semispace} {blocks : List (Nat × Nat)}

theorem Good.legible (hg : Good m blocks) : Legible (m.hosted .semispace) (Held blocks) := by
  have hi : Collector.Hosted .semispace (Kept Good) (m.hosted .semispace) (Held blocks) :=
    ⟨m.own, rfl, blocks, hg, rfl⟩
  obtain ⟨bs, chunks, hs⟩ := Semispace.shaped (u := ⟨m.hosted .semispace, false⟩) hi
  exact (laws.hosted hosts).legible hi hs

/-- A collection of a copying heap cannot fail. -/
theorem brittle : Brittle operations .semispace (Kept Good) := by
  have hcollect : ∀ {m : Machine Semispace} {S : Nat → Prop}, Kept Good m S →
      Runs evacuate m (fun _ _ => True) fun _ => Wrecks .semispace 3 m S := by
    rintro m S ⟨blocks, hg, rfl⟩
    exact ((evacuate_moves hg).mono fun _ _ _ => trivial).mono_fail fun _ _ h => h.elim
  refine .plain ?_ ?_ hcollect hcollect ?_
  · rintro m S ⟨blocks, hg, rfl⟩
    exact hg.legible
  · rintro m S n ⟨blocks, hg, rfl⟩ hn hcount
    let P (k : Nat) (m₁ : Machine Semispace) : Prop :=
      ∃ blocks₁ ρ, Good m₁ blocks₁ ∧ Moved (Kept Good) m m₁ (Held blocks) (Held blocks₁) ρ k
    refine allocate_by (P := P) hcount
      ⟨blocks, id, hg, Moved.refl ⟨blocks, hg, rfl⟩ hg.closed hg.roots⟩
      ((evacuate_moves hg).mono_fail fun _ _ h => h.elim)
        (fun _ _ => (Wrecks.refl hg.legible).mono (by decide)) ?_
    rintro k m₁ hk ⟨blocks₁, ρ, hg₁, hmv⟩
    exact handOut_by hcount hg₁.inside (fun _ _ => .of_moved hmv (by omega) hg₁.legible)
      fun _ => trivial
  · rintro m S o field v ⟨blocks, hg, rfl⟩ ho ht hf hv
    exact Runs.of_eq (heap_lift (layout.store hg ho ht hf hv).1) trivial

end Semispace

namespace MarkSweep

variable {m : Machine MarkSweep} {blocks : List (Nat × Nat)}

theorem Good.legible (hg : Good m blocks) : Legible (m.hosted .markSweep) (Held blocks) := by
  have hi : Collector.Hosted .markSweep (Kept Good) (m.hosted .markSweep) (Held blocks) :=
    ⟨m.own, rfl, blocks, hg, rfl⟩
  obtain ⟨bs, chunks, hs⟩ := MarkSweep.shaped (u := ⟨m.hosted .markSweep, false⟩) hi
  exact (laws.hosted hosts).legible hi hs

/-- A collection that fails has not begun to sweep. -/
theorem collect_wrecks (hg : Good m blocks) :
    Runs collect m (fun _ m' => ∃ blocks', Good m' blocks' ∧
      Moved (Kept Good) m m' (Held blocks) (Held blocks') id 1) fun _ m' => m' = m := by
  obtain ⟨ts, rfl, ht⟩ := id hg
  exact (((collect_moves hg).and (collect_sweeps ht.inv.filled)).mono fun _ _ h => h.1).mono_fail
    fun _ _ h => h.2.2

theorem brittle : Brittle operations .markSweep (Kept Good) := by
  have hcollect : ∀ {m : Machine MarkSweep} {S : Nat → Prop}, Kept Good m S →
      Runs collect m (fun _ _ => True) fun _ => Wrecks .markSweep 3 m S := by
    rintro m S ⟨blocks, hg, rfl⟩
    refine ((collect_wrecks hg).mono fun _ _ _ => trivial).mono_fail ?_
    rintro - m' rfl
    exact (Wrecks.refl hg.legible).mono (by decide)
  refine .plain ?_ ?_ hcollect hcollect ?_
  · rintro m S ⟨blocks, hg, rfl⟩
    exact hg.legible
  · rintro m S n ⟨blocks, hg, rfl⟩ hn hcount
    let P (k : Nat) (m₁ : Machine MarkSweep) : Prop :=
      ∃ blocks₁ ρ, Good m₁ blocks₁ ∧ Moved (Kept Good) m m₁ (Held blocks) (Held blocks₁) ρ k
    refine allocate_by (P := P) (blockWords_eq hn ▸ hcount)
      ⟨blocks, id, hg, Moved.refl ⟨blocks, hg, rfl⟩ (layout.housed hg).closed (layout.roots hg)⟩ ?_
      (fun _ _ => (Wrecks.refl hg.legible).mono (by decide)) ?_ ?_
    · rintro k m₁ hk ⟨blocks₁, ρ, hg₁, hmv⟩
      refine ((collect_wrecks hg₁).mono ?_).mono_fail ?_
      · rintro - m₂ ⟨blocks₂, hg₂, hmv₂⟩
        exact ⟨blocks₂, _, hg₂, hmv.trans hmv₂ ((layout.housed hg₁).named layout.header)⟩
      · rintro - m₂ rfl
        exact .of_moved hmv (by omega) hg₁.legible
    · rintro k m₁ s bytes hk ⟨blocks₁, ρ, hg₁, hmv⟩
      exact .of_moved hmv (by omega) hg₁.legible
    · rintro k m₁ hk ⟨blocks₁, ρ, ⟨ts, rfl, ht⟩, hmv⟩
      rcases take?_fills ht hn with hrun | ⟨a, k, l', h', ts', m₂, hrun, -, -, -, hfill⟩
      · exact .inl hrun
      · exact .inr ⟨(a, k), m₂, hrun, Runs.of_eq hfill trivial⟩
  · rintro m S o field v ⟨blocks, hg, rfl⟩ ho ht hf hv
    exact Runs.of_eq (heap_lift (layout.store hg ho ht hf hv).1) trivial

end MarkSweep

namespace Sliding

variable {m : Machine Sliding} {blocks : List (Nat × Nat)}

theorem Good.legible (hg : Good m blocks) : Legible (m.hosted .sliding) (Held blocks) := by
  have hi : Collector.Hosted .sliding (Kept Good) (m.hosted .sliding) (Held blocks) :=
    ⟨m.own, rfl, blocks, hg, rfl⟩
  obtain ⟨bs, chunks, hs⟩ := Sliding.shaped (u := ⟨m.hosted .sliding, false⟩) hi
  exact (laws.hosted hosts).legible hi hs

/-- A collection that fails has left marks. -/
theorem collect_wrecks (hg : Good m blocks) :
    Runs collect m (fun _ _ => True) fun _ => Wrecks .sliding 0 m (Held blocks) := by
  have hi := hg.inv.filled
  refine ((collect_records hi).mono fun _ _ _ => trivial).mono_fail ?_
  rintro - m' ⟨-, hu⟩
  refine hu.wrecks hi.spaced hg.housed.objects_apart hi.roots (Nat.le_refl _) ?_ ⟨_, rfl⟩
  refine blocksOf_run hi.stacked (hu.sized hi.spaced (by decide) (fun _ h => h) hi.sized)
    (by decide) (by decide) ?_
  rw [hu.size_eq]
  exact Nat.le_trans hi.top_le hi.inside

theorem brittle : Brittle operations .sliding (Kept Good) := by
  have hcollect : ∀ {m : Machine Sliding} {S : Nat → Prop}, Kept Good m S →
      Runs collect m (fun _ _ => True) fun _ => Wrecks .sliding 3 m S := by
    rintro m S ⟨blocks, hg, rfl⟩
    exact (collect_wrecks hg).mono_fail fun _ _ h => h.mono (by decide)
  refine .plain ?_ ?_ hcollect hcollect ?_
  · rintro m S ⟨blocks, hg, rfl⟩
    exact hg.legible
  · rintro m S n ⟨blocks, hg, rfl⟩ hn hcount
    let P (k : Nat) (m₁ : Machine Sliding) : Prop :=
      ∃ blocks₁ ρ, Good m₁ blocks₁ ∧ Moved (Kept Good) m m₁ (Held blocks) (Held blocks₁) ρ k
    refine allocate_by (P := P) hcount
      ⟨blocks, id, hg, Moved.refl ⟨blocks, hg, rfl⟩ hg.closed hg.inv.roots⟩ ?_
      (fun _ _ => (Wrecks.refl hg.legible).mono (by decide)) ?_
    · exact (collect_moves hg).failing
        ((collect_wrecks hg).mono_fail fun _ _ h => h.mono (by decide))
    · rintro k m₁ hk ⟨blocks₁, ρ, hg₁, hmv⟩
      exact handOut_by hcount hg₁.inv.inside (fun _ _ => .of_moved hmv (by omega) hg₁.legible)
        fun _ => trivial
  · rintro m S o field v ⟨blocks, hg, rfl⟩ ho ht hf hv
    exact Runs.of_eq (heap_lift (layout.store hg ho ht hf hv).1) trivial

end Sliding

end Reclaim
