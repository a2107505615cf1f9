import Reclaim.Proofs.Blank
import Reclaim.Proofs.Session
import Reclaim.Proofs.Sliding.Collection

/-!
# Sliding operations

Between operations every block of the space holds an object that refers to such objects alone
(`Good`), the ones that nothing refers to included. A collection leaves the objects that the roots
reach, and an allocation places a new block behind the last one; the rest follows from the layout.

Results:
* `allocate_by`: what holds before the last step of an allocation, whichever way leads there,
  decides its outcome.
* `collect_moves`, `allocate_runs`: collections and allocations keep the state.
* `laws`: the laws of a compacting heap.
* `start_kept`: a new compacting heap satisfies the invariant.
-/

namespace Reclaim.Sliding

/-- The state between operations. -/
structure Good (m : Machine Sliding) (blocks : List (Nat × Nat)) : Prop where
  region : m.own.space.region = m.heap.region
  inv : Inv m blocks (Held blocks)
  known : ∀ b ∈ blocks, m.heap.tag b.1 ≠ none

variable {m m' : Machine Sliding} {blocks : List (Nat × Nat)}

/-- What the mutator is offered. -/
def operations : Operations Sliding :=
  .plain allocate collect collect (fun _ field v => storeValue field v) objects headerWords

theorem Good.closed (hg : Good m blocks) : Closed m.heap (Held blocks) :=
  ⟨fun _ ⟨_, hb⟩ => hg.known _ hb, hg.inv.linked⟩

theorem Good.housed (hg : Good m blocks) : Housed 3 m.heap blocks := by
  refine ⟨hg.inv.small, fun b hb => ?_,
    fun b hb c hc => hg.inv.filled.block_apart hb hc, fun b hb => ?_, hg.closed⟩
  · have hin := hg.inv.filled.block_inside hb
    omega
  · obtain ⟨n, hn, hfit⟩ := hg.inv.placed b.1 ⟨b.2, hb⟩
    rw [hg.inv.stacked.size_unique hn hb] at hfit
    exact hfit

theorem layout : Layout.Free operations 3 Good where
  header := by decide
  housed hg := hg.housed
  roots hg := hg.inv.roots
  objects hg := hg.inv.filled.objects
  update := by
    intro m m' blocks hg hown hsize hout hh hroots
    have hi := hg.inv
    have hheader : ∀ b ∈ blocks, ∀ k, 1 ≤ k → k ≤ 3 →
        m'.heap.word (b.1 - k) = m.heap.word (b.1 - k) := by
      intro b hb k h1 h2
      refine hout _ fun c hc => ?_
      have hin := hi.filled.block_inside hb
      have hin' := hi.filled.block_inside hc
      rcases hi.filled.block_apart hb hc with rfl | hap | hap <;> omega
    refine ⟨by rw [hown, hg.region, Arena.region_eq, Arena.region_eq, hsize],
      ⟨hh.small, by rw [hown]; exact hi.top_le, by rw [hown, hsize]; exact hi.inside, by
        rw [hown]; exact hi.stacked,
      fun b hb => ?_, fun b hb => ?_, fun b hb => ?_, ?_, hh.closed.linked, hroots⟩,
        fun b hb => hh.closed.known _ ⟨b.2, hb⟩⟩
    · rw [hheader b hb 3 (by omega) (by omega)]
      exact hi.sized b hb
    · rw [hheader b hb 2 (by omega) (by omega)]
      exact hi.unforwarded b hb
    · rw [hheader b hb 1 (by omega) (by omega)]
      exact hi.unmarked b hb
    · rintro o ⟨n, hb⟩
      exact ⟨n, hb, hh.fit hb⟩

/-- A collection carries along what the roots reach. -/
theorem collect_moves (hg : Good m blocks) :
    Runs collect m (fun _ m' => ∃ blocks' ρ, Good m' blocks' ∧
    Moved (Kept Good) m m' (Held blocks) (Held blocks') ρ 1) Fatal := by
  refine ((collect_runs hg.inv).mono ?_).mono_fail fun _ _ hf => Marking.MarkStops.fatal hf
  rintro - m' ⟨ms, hc⟩
  have hreach : m.Reachable = (· ∈ ms) := funext fun o => propext (hc.reach o).symm
  have hf : Found m blocks (Held blocks) ms :=
    ⟨hg.inv.filled, hc.reach,
      fun o ho => hg.closed.known o
        (((hc.reach o).mp ho).mem_of_closed hg.closed fun _ h => hg.inv.roots.refers h)⟩
  have hheld : (fun o' => ∃ o, o ∈ ms ∧ o' = relocate (moves m blocks ms) o) =
      Held ((moves m blocks ms).map Copy.block) := by
    funext o'
    simp only [Held, List.mem_map, eq_iff_iff]
    constructor
    · rintro ⟨o, ho, rfl⟩
      obtain ⟨p, hp, rfl, hpn, -⟩ := hf.move ho
      exact ⟨p.size, p, hp, by rw [hpn]; rfl⟩
    · rintro ⟨n, p, hp, he⟩
      cases he
      exact ⟨p.old, (hf.mem_moves hp).2.1, (hf.relocate_old hp).symm⟩
  have hg' : Good m' ((moves m blocks ms).map Copy.block) := by
    refine ⟨by rw [hc.region, hg.region, Arena.region_eq, Arena.region_eq, hc.size_eq], hheld ▸
      hc.inv, fun b hb => ?_⟩
    have hcl := hc.closed
    rw [hheld] at hcl
    exact hcl.known b.1 ⟨b.2, hb⟩
  refine ⟨_, relocate (moves m blocks ms), hg', .intro hg.closed hg.inv.roots
    ⟨_, hg', rfl⟩ ?_ ?_ hc.roots hc.stress
    (by rw [hc.cycles]; rfl) (by omega)⟩
  · rw [hreach]
    exact hc.renamed
  · intro o ho
    rw [← hheld]
    exact ⟨o, (hc.reach o).mpr ho, rfl⟩

/-! ## Allocation -/

/-- The heap after the header of a new block was written and its words were cleared. -/
def blank (h : Arena) (top words : Nat) : Arena :=
  (((h.put top (UInt64.ofNat (words + 3))).put (top + 1) 0).put (top + 2) 0).zero (top + 3) words

theorem blank_blank {h : Arena} {top words : Nat} (hs : top + (words + 3) ≤ h.size) :
    Blank 3 3 h (blank h top words) top words := by
  have hword : ∀ a, (blank h top words).word a = if top + 3 ≤ a ∧ a < top + 3 + words then 0 else
      (((h.put top (UInt64.ofNat (words + 3))).put (top + 1) 0).put (top + 2) 0).word a :=
        fun a => Arena.word_zero (by simp; omega)
  refine ⟨by simp [blank], fun a ha => ?_, ?_, fun k h1 h2 hne => ?_, fun i hi => ?_⟩
  · rw [hword, if_neg (by omega), Arena.word_put_ne _ (by omega), Arena.word_put_ne _ (by omega),
      Arena.word_put_ne _ (by omega)]
  · rw [hword, if_neg (by omega), Arena.word_put_ne _ (by omega), Arena.word_put_ne _ (by omega),
      Nat.add_sub_cancel,
      Arena.word_put_self _ (by omega)]
  · obtain rfl | rfl : k = 1 ∨ k = 2 := by omega
    · rw [hword, if_neg (by omega), show top + 3 - 1 = top + 2 by omega, Arena.word_put_self _
        (by simp; omega)]
    · rw [hword, if_neg (by omega), Arena.word_put_ne _ (by omega), show top + 3 - 2 =
        top + 1 by omega,
        Arena.word_put_self _ (by simp; omega)]
  · rw [hword, if_pos (by omega)]

/-- The machine after a block was taken from the space. -/
def taken (m : Machine Sliding) (words : Nat) : Machine Sliding :=
  (m.withOwn { m.own with space := ⟨m.own.space.region, m.own.space.top + (words + 3)⟩ }).withHeap
    (blank m.heap m.own.space.top words)

/-- The last step of an allocation: a block from the space. -/
def handOut (words : Nat) : GcM Sliding Nat := do
  match (← GcM.own).space.allocate? (words + headerWords) with
  | none => GcM.exhausted .markCompact (words + headerWords)
  | some (block, space) =>
    GcM.modifyOwn fun s => { s with space }
    let obj := block + headerWords
    storeHeader obj sizeOffset (UInt64.ofNat (words + headerWords))
    storeHeader obj forwardOffset 0
    storeHeader obj markOffset 0
    clearWords obj words
    return obj

theorem allocate_eq (words : Nat) : allocate words = (do
    let s ← GcM.own
    let limit := s.space.region.length
    if limit < words + headerWords then GcM.tooLarge (words + headerWords) limit
    if (← GcM.stressed) || !s.space.fits (words + headerWords) then collect
    handOut words) := rfl

theorem handOut_run {words : Nat} (hfits : m.own.space.fits (words + 3) = true)
    (hs : m.own.space.top + (words + 3) ≤ m.heap.size) :
    handOut words m = .ok (m.own.space.top + 3) (taken m words) := by
  have halloc : m.own.space.allocate? (words + headerWords)
      = some (m.own.space.top, ⟨m.own.space.region, m.own.space.top + (words + 3)⟩) :=
    Bump.allocate?_eq_some_iff.mpr ⟨hfits, rfl, rfl⟩
  let t := m.own.space.top
  let m1 := m.withOwn { m.own with space := ⟨m.own.space.region, t + (words + 3)⟩ }
  let h1 := m.heap.put t (UInt64.ofNat (words + 3))
  let h2 := h1.put (t + 1) 0
  let h3 := h2.put (t + 2) 0
  have hs1 : storeHeader (t + headerWords) sizeOffset
      (UInt64.ofNat (words + headerWords)) m.heap = .ok () h1 :=
    storeHeader_run (by simp [headerWords, sizeOffset]) (by simp [headerWords, sizeOffset]; omega)
  have hs2 : storeHeader (t + headerWords) forwardOffset 0 h1 = .ok () h2 :=
    storeHeader_run (by simp [headerWords, forwardOffset])
      (by simp [headerWords, forwardOffset, h1]; omega)
  have hs3 : storeHeader (t + headerWords) markOffset 0 h2 = .ok () h3 :=
    storeHeader_run (by simp [headerWords, markOffset])
      (by simp [headerWords, markOffset, h1, h2]; omega)
  have hs4 : clearWords (t + headerWords) words h3 = .ok () (blank m.heap t words) :=
    clearWords_run (by simp [headerWords, h1, h2, h3]; omega)
  have l1 : (liftM (storeHeader (t + headerWords) sizeOffset (UInt64.ofNat (words + headerWords))) :
    GcM Sliding Unit) m1
      = .ok () (m1.withHeap h1) := heap_lift (m := m1) hs1
  have l2 : (liftM (storeHeader (t + headerWords) forwardOffset 0) : GcM Sliding Unit)
      (m1.withHeap h1) = .ok () (m1.withHeap h2) :=
    heap_lift (m := m1.withHeap h1) hs2
  have l3 : (liftM (storeHeader (t + headerWords) markOffset 0) : GcM Sliding Unit)
      (m1.withHeap h2) = .ok () (m1.withHeap h3) :=
    heap_lift (m := m1.withHeap h2) hs3
  have l4 : (liftM (clearWords (t + headerWords) words) : GcM Sliding Unit) (m1.withHeap h3) =
      .ok () (taken m words) :=
    heap_lift (m := m1.withHeap h3) hs4
  rw [handOut, bind_ok GcM.run_own, halloc]
  dsimp only
  rw [bind_ok (GcM.run_modifyOwn _), bind_ok l1, bind_ok l2, bind_ok l3, bind_ok l4]
  rfl

section Allocate

variable {words : Nat} {P : Nat → Machine Sliding → Prop} {Q : Nat → Machine Sliding → Prop}
  {E : Failure → Machine Sliding → Prop}

/-- A block is handed out if there is room. -/
theorem handOut_by (hcount : (words + headerWords) * wordBytes < wordValues)
    (hin : m.own.space.region.limit ≤ m.heap.size) (hfull : ∀ s bytes, E (.heapExhausted s bytes) m)
    (hq : m.own.space.top + (words + 3) ≤ m.own.space.region.limit → Q (m.own.space.top + 3)
      (taken m words)) :
    Runs (handOut words) m Q E := by
  cases hfits : m.own.space.fits (words + 3) with
  | false =>
    unfold handOut
    refine Runs.step GcM.run_own ?_
    rw [show m.own.space.allocate? (words + headerWords) = none
      from (Bump.allocate?_eq_none_iff _ _).mpr hfits]
    exact GcM.runs_exhausted hcount (hfull _ _)
  | true =>
    have hroom := (Bump.fits_iff _ _).mp hfits
    exact Runs.of_eq (handOut_run hfits (by omega)) (hq hroom)

/-- An allocation hands out a block after a collection at most; `P k` is what holds after `k` of
them. -/
theorem allocate_by (hcount : (words + headerWords) * wordBytes < wordValues) (hm : P 0 m)
    (hcollect : Runs collect m (fun _ => P 1) E)
    (hlarge : ∀ size limit, E (.objectTooLarge size limit) m)
    (hlast : ∀ {k m₁}, k ≤ 1 → P k m₁ → Runs (handOut words) m₁ Q E) :
    Runs (allocate words) m Q E := by
  rw [allocate_eq]
  refine Runs.step GcM.run_own ?_
  by_cases hlim : m.own.space.region.length < words + headerWords
  · simp only [hlim, if_true]
    exact Runs.stop (GcM.run_tooLarge hcount hlim) (hlarge _ _)
  · simp only [hlim, if_false]
    refine Runs.step GcM.run_stressed ?_
    cases m.stress || !m.own.space.fits (words + headerWords) with
    | false =>
      simp only [Bool.false_eq_true, if_false]
      exact hlast (by decide) hm
    | true =>
      simp only [if_true]
      exact hcollect.bind fun _ _ h₁ => hlast (by decide) h₁

end Allocate

/-- The state with a new block behind the others. -/
theorem Good.take (hg : Good m blocks) {words : Nat} (hpos : 1 ≤ words)
    (hroom : m.own.space.top + (words + 3) ≤ m.own.space.region.limit) :
    Blank 3 3 m.heap (taken m words).heap m.own.space.top words ∧ Good (taken m words)
    (blocks ++ [(m.own.space.top + 3, words + 3)]) := by
  have hi := hg.inv
  have hin := hi.inside
  have hsmall := hi.small
  have hb : Blank 3 3 m.heap (taken m words).heap m.own.space.top words := blank_blank (by omega)
  have hhoused := hb.housed hi.stacked hg.housed hpos (by omega)
  have hregion : (taken m words).own.space.region = (taken m words).heap.region := by
    rw [Arena.region_eq, hb.size_eq, ← Arena.region_eq]
    exact hg.region
  refine ⟨hb, hregion, ⟨hhoused.small, hroom, by rw [hb.size_eq]; exact hin,
    hi.stacked.snoc (by omega),
    hb.sized hi.stacked hi.sized (by decide) (by omega),
    hb.clean hi.stacked (by decide) (by decide) (by decide) hi.unforwarded,
    hb.clean hi.stacked (by decide) (by decide) (by decide) hi.unmarked, ?_,
      hhoused.closed.linked, ?_⟩,
    fun b hbm => hhoused.closed.known _ ⟨b.2, hbm⟩⟩
  · rintro o ⟨n, hbm⟩
    exact ⟨n, hbm, hhoused.fit hbm⟩
  · exact Roots.Within.mono (r := m.roots) hi.roots fun o ⟨n, hbm⟩ => ⟨n, by simp [hbm]⟩

theorem handOut_grows (hg : Good m blocks) {words : Nat} (hpos : 1 ≤ words)
    (hcount : (words + headerWords) * wordBytes < wordValues) :
    Runs (handOut words) m (Grows 3 Good m blocks words) Fatal := by
  refine handOut_by hcount hg.inv.inside (fun _ _ => rfl) fun hroom => ?_
  obtain ⟨hb, hg'⟩ := hg.take hpos hroom
  exact ⟨_, words + 3, hg', fun c => by simp, by omega, Blank.fresh hg.inv.stacked, hb.zero,
    hb.same hg.inv.stacked hg.housed, rfl, rfl, rfl⟩

/-- A new object, after a collection if need be. -/
theorem allocate_runs (hg : Good m blocks) {words : Nat} (hpos : 1 ≤ words)
    (hcount : (words + headerWords) * wordBytes < wordValues) :
    Runs (allocate words) m (fun o m' => ∃ ρ S' k, k ≤ 3 ∧ Moved (Kept Good) m m'
      (Held blocks) S' ρ k ∧ S' o ∧
      operations.Roomy 3 m' o words ∧ (∀ i, i < words → m'.heap.word (o + i) = 0) ∧ ∀ x,
        m.Reachable x → ρ x ≠ o) Fatal := by
  let P (k : Nat) (m₁ : Machine Sliding) : Prop :=
    ∃ blocks₁ ρ, Good m₁ blocks₁ ∧ Moved (Kept Good) m m₁ (Held blocks) (Held blocks₁) ρ k
  refine allocate_by (P := P) hcount
    ⟨blocks, id, hg, Moved.refl ⟨blocks, hg, rfl⟩ hg.closed hg.inv.roots⟩ (collect_moves hg)
      (fun _ _ => rfl) ?_
  rintro k m₁ hk ⟨blocks₁, ρ, hg₁, hmv⟩
  exact layout.allocated (by omega) hmv hg₁ (handOut_grows hg₁ hpos hcount)

/-- No failure can tell of so many bytes, and the request ends there. -/
theorem allocate_overflows (hg : Good m blocks) {words : Nat} (_ : 1 ≤ words)
    (hover : wordValues ≤ (words + headerWords) * wordBytes) :
    allocate words m = .error .trap m := by
  have hlim : m.own.space.region.length < words + headerWords := by
    have hin := hg.inv.inside
    have hsmall := hg.inv.small
    simp only [wordValues, wordBytes, headerWords, Region.length] at hover ⊢
    omega
  rw [allocate_eq, bind_ok GcM.run_own]
  simp only [hlim, if_true]
  exact bind_error (GcM.tooLarge_trap hover)

/-! ## All operations -/

/-- The laws of a compacting heap. -/
theorem laws : Laws operations (Kept Good) (operations.Roomy 3) := by
  have hcollect : ∀ {m blocks}, Good m blocks → Runs collect m (fun _ m' => ∃ ρ S' k, k ≤ 3 ∧
      Moved (Kept Good) m m' (Held blocks) S' ρ k) Fatal := by
    intro m blocks hg
    refine (collect_moves hg).mono ?_
    rintro - m' ⟨blocks', ρ, -, hmv⟩
    exact ⟨ρ, _, 1, by decide, hmv⟩
  exact (layout.plain allocate_runs allocate_overflows hcollect hcollect).laws

theorem hosts : Collector.Hosts Collector.sliding operations where
  injective s t h := by
    cases h
    rfl
  allocate n h := by rw [Collector.allocate, bind_ok GcM.run_own, h]; rfl
  collect h := by rw [Collector.collect, bind_ok GcM.run_own, h]; rfl
  collectFull h := by
    rw [Collector.collectFull, bind_ok GcM.run_own, h]
    change Collector.collect _ = _
    rw [Collector.collect, bind_ok GcM.run_own, h]
    rfl
  writeField o a v h := by rw [Collector.writeField,
    bind_ok GcM.run_own, h]; exact (Collector.within_heap h).symm
  writeRoot r v h := by rw [Collector.writeRoot,
    bind_ok GcM.run_own, h]; exact (Collector.within_roots h).symm
  initField a v h := by rw [Collector.initField,
    bind_ok GcM.run_own, h]; exact (Collector.within_heap h).symm
  push v h := by rw [Collector.push, bind_ok GcM.run_own, h]; exact (Collector.within_roots h).symm
  pop h := by rw [Collector.pop, bind_ok GcM.run_own, h]; exact (Collector.within_roots h).symm
  noteCopy o h := by rw [Collector.noteCopy,
    bind_ok GcM.run_own, h]; exact (Collector.within_pure h).symm
  objects _ := rfl
  headerWords _ := rfl

/-- A new compacting heap satisfies the invariant. -/
theorem start_kept {c : Config} {u : Mutator} (hc : c.strategy = .markCompact) (hu : c.Makes u) :
    ∃ S, Collector.Hosted Collector.sliding (Kept Good) u.machine S := by
  obtain ⟨hash, rfl, hres⟩ := hu.eq
  have hbuild : Machine.ofConfig c hash =
    ⟨Arena.ofBytes c.heapSize, Roots.empty c.stackCapacity c.globalTableSize hash, c.stress, {},
      .sliding (build c (Arena.ofBytes c.heapSize).size)⟩ := by
    rw [Machine.ofConfig, Collector.build, hc]
  have hsmall : (Arena.ofBytes c.heapSize).size < tableLimit := by
    rw [c.size_ofBytes]
    exact (Config.reserved hres).1
  refine ⟨Held [], _, congrArg Machine.own hbuild, [], ?_, rfl⟩
  rw [Mutator.ofConfig, hbuild]
  refine ⟨rfl, ⟨hsmall, ?_, ?_, rfl, by simp [Sized], by simp, by simp,
    fun o ho => absurd ho not_held_nil, (closed_nil _).linked,
    Roots.empty_within _ _ _ _⟩, by simp⟩
  all_goals dsimp only [Machine.withOwn_own, Machine.withOwn_heap, build,
    Region.ofLength, Bump.empty]; omega

end Reclaim.Sliding
