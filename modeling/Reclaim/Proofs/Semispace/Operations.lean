import Reclaim.Proofs.Blank
import Reclaim.Proofs.Session
import Reclaim.Proofs.Semispace.Collection

/-!
# Semispace operations

Between operations every block of the half in use holds an object that refers to such objects alone
(`Good`), the ones that nothing refers to included. A collection leaves the objects that the roots
reach, and an allocation places a new block behind the last one; the rest follows from the layout.

Results:
* `allocate_by`: what holds before the last step of an allocation, whichever way leads there,
  decides its outcome.
* `evacuate_moves`, `allocate_runs`: collections and allocations keep the state.
* `laws`: the laws of a copying heap.
* `start_kept`: a new copying heap satisfies the invariant.
-/

namespace Reclaim.Semispace

/-- The state between operations. -/
def Good (m : Machine Semispace) (blocks : List (Nat × Nat)) : Prop := Inv m blocks (Held blocks)

variable {m m' : Machine Semispace} {blocks : List (Nat × Nat)}

/-- What the mutator is offered. -/
def operations : Operations Semispace :=
  .plain allocate evacuate evacuate (fun _ field v => storeValue field v) objects headerWords

theorem Inv.housed {S : Nat → Prop} (hi : Inv m blocks S) (hS : S = Held blocks) :
    Housed 2 m.heap blocks := by
  subst hS
  refine ⟨hi.small, fun b hb => ?_,
    fun b hb c hc => hi.block_apart hb hc, fun b hb => ?_, hi.closed⟩
  · have hin := hi.block_inside hb
    omega
  · obtain ⟨n, hn, hfit⟩ := hi.placed b.1 ⟨b.2, hb⟩
    rw [hi.stacked.size_unique hn hb] at hfit
    exact hfit

theorem layout : Layout.Free operations 2 Good where
  header := by decide
  housed hg := hg.housed rfl
  roots hg := hg.roots
  objects hg := hg.objects
  update := by
    intro m m' blocks hg hown hsize hout hh hroots
    have hheader : ∀ b ∈ blocks, ∀ k, 1 ≤ k → k ≤ 2 →
        m'.heap.word (b.1 - k) = m.heap.word (b.1 - k) := by
      intro b hb k h1 h2
      refine hout _ fun c hc => ?_
      have hin := hg.block_inside hb
      have hin' := hg.block_inside hc
      rcases hg.block_apart hb hc with rfl | hap | hap <;> omega
    refine ⟨hh.small, by rw [hown]; exact hg.top_le, by rw [hown, hsize]; exact hg.inside, by
      rw [hown]; exact hg.spare,
      by
        rw [hown, hsize]; exact hg.spare_inside, by
          rw [hown]; exact hg.apart, by rw [hown]; exact hg.length_eq,
      by rw [hown]; exact hg.stacked, fun b hb => ?_, fun b hb => ?_, ?_, hh.closed, hroots⟩
    · rw [hheader b hb 2 (by omega) (by omega)]
      exact hg.sized b hb
    · rw [hheader b hb 1 (by omega) (by omega)]
      exact hg.unforwarded b hb
    · rintro o ⟨n, hb⟩
      exact ⟨n, hb, hh.fit hb⟩

/-- A collection carries along what the roots reach. -/
theorem evacuate_moves (hg : Good m blocks) :
    Runs evacuate m (fun _ m' => ∃ copies ρ, Good m' copies ∧
    Moved (Kept Good) m m' (Held blocks) (Held copies) ρ 1) fun _ _ => False := by
  refine (evacuate_runs hg).mono ?_
  rintro - m' ⟨copies, ρ, hc⟩
  have hheld : (fun o' => ∃ o, Live m o ∧ o' = ρ o) = Held copies := by
    funext o'
    simp only [Held, hc.image, eq_iff_iff]
    constructor
    · rintro ⟨o, ho, rfl⟩
      obtain ⟨n, hb, -⟩ := hg.placed o (hg.valid ho)
      exact ⟨n, o, ho, hb, rfl⟩
    · rintro ⟨n, o, ho, -, rfl⟩
      exact ⟨o, ho, rfl⟩
  have hg' : Good m' copies := by
    rw [Good, ← hheld]
    exact hc.inv
  refine ⟨copies, ρ, hg', .intro hg.closed hg.roots ⟨copies, hg', rfl⟩ hc.renamed
    (fun o ho => ?_) hc.roots hc.stress
    (by rw [hc.cycles]; rfl) (by omega)⟩
  rw [← hheld]
  exact ⟨o, ho, rfl⟩

/-! ## Allocation -/

/-- The heap after the header of a new block was written and its words were cleared. -/
def blank (h : Arena) (top words : Nat) : Arena :=
  ((h.put top (UInt64.ofNat (words + 2))).put (top + 1) 0).zero (top + 2) words

theorem blank_blank {h : Arena} {top words : Nat} (hs : top + (words + 2) ≤ h.size) :
    Blank 2 2 h (blank h top words) top words := by
  have hword : ∀ a, (blank h top words).word a = if top + 2 ≤ a ∧ a < top + 2 + words then 0 else
      ((h.put top (UInt64.ofNat (words + 2))).put (top + 1) 0).word a :=
        fun a => Arena.word_zero (by simp; omega)
  refine ⟨by simp [blank], fun a ha => ?_, ?_, fun k h1 h2 hne => ?_, fun i hi => ?_⟩
  · rw [hword, if_neg (by omega), Arena.word_put_ne _ (by omega), Arena.word_put_ne _ (by omega)]
  · rw [hword, if_neg (by omega), Arena.word_put_ne _ (by omega), Nat.add_sub_cancel,
      Arena.word_put_self _ (by omega)]
  · obtain rfl : k = 1 := by omega
    rw [hword, if_neg (by omega), show top + 2 - 1 = top + 1 by omega, Arena.word_put_self _
      (by simp; omega)]
  · rw [hword, if_pos (by omega)]

/-- The machine after a block was taken from the half in use. -/
def taken (m : Machine Semispace) (words : Nat) : Machine Semispace :=
  (m.withOwn { m.own with space := ⟨m.own.space.region, m.own.space.top + (words + 2)⟩ }).withHeap
    (blank m.heap m.own.space.top words)

/-- The last step of an allocation: a block from the half in use. -/
def handOut (words : Nat) : GcM Semispace Nat := do
  match (← GcM.own).space.allocate? (words + headerWords) with
  | none => GcM.exhausted .copying (words + headerWords)
  | some (block, space) =>
    GcM.modifyOwn fun s => { s with space }
    let obj := block + headerWords
    storeHeader obj sizeOffset (UInt64.ofNat (words + headerWords))
    setForwarding obj 0
    clearWords obj words
    return obj

theorem allocate_eq (words : Nat) : allocate words = (do
    let s ← GcM.own
    if s.spare.length < words + headerWords then GcM.tooLarge (words + headerWords) s.spare.length
    if (← GcM.stressed) || !s.space.fits (words + headerWords) then evacuate
    handOut words) := rfl

theorem handOut_run {words : Nat} (hfits : m.own.space.fits (words + 2) = true)
    (hs : m.own.space.top + (words + 2) ≤ m.heap.size) :
    handOut words m = .ok (m.own.space.top + 2) (taken m words) := by
  have halloc : m.own.space.allocate? (words + headerWords)
      = some (m.own.space.top, ⟨m.own.space.region, m.own.space.top + (words + 2)⟩) :=
    Bump.allocate?_eq_some_iff.mpr ⟨hfits, rfl, rfl⟩
  let t := m.own.space.top
  let m1 := m.withOwn { m.own with space := ⟨m.own.space.region, t + (words + 2)⟩ }
  let h1 := m.heap.put t (UInt64.ofNat (words + 2))
  let h2 := h1.put (t + 1) 0
  have hs1 : storeHeader (t + headerWords) sizeOffset
      (UInt64.ofNat (words + headerWords)) m.heap = .ok () h1 :=
    storeHeader_run (by simp [headerWords, sizeOffset]) (by simp [headerWords, sizeOffset]; omega)
  have hs2 : setForwarding (t + headerWords) 0 h1 = .ok () h2 :=
    setForwarding_run (by simp [headerWords]) (by simp [headerWords, h1]; omega)
  have hs3 : clearWords (t + headerWords) words h2 = .ok () (blank m.heap t words) :=
    clearWords_run (by simp [headerWords, h1, h2]; omega)
  have l1 : (liftM (storeHeader (t + headerWords) sizeOffset (UInt64.ofNat (words + headerWords))) :
    GcM Semispace Unit) m1
      = .ok () (m1.withHeap h1) := heap_lift (m := m1) hs1
  have l2 : (liftM (setForwarding (t + headerWords) 0) : GcM Semispace Unit) (m1.withHeap h1) =
      .ok () (m1.withHeap h2) :=
    heap_lift (m := m1.withHeap h1) hs2
  have l3 : (liftM (clearWords (t + headerWords) words) : GcM Semispace Unit) (m1.withHeap h2) =
      .ok () (taken m words) :=
    heap_lift (m := m1.withHeap h2) hs3
  rw [handOut, bind_ok GcM.run_own, halloc]
  dsimp only
  rw [bind_ok (GcM.run_modifyOwn _), bind_ok l1, bind_ok l2, bind_ok l3]
  rfl

section Allocate

variable {words : Nat} {P : Nat → Machine Semispace → Prop} {Q : Nat → Machine Semispace → Prop}
  {E : Failure → Machine Semispace → Prop}

/-- A block is handed out if there is room. -/
theorem handOut_by (hcount : (words + headerWords) * wordBytes < wordValues)
    (hin : m.own.space.region.limit ≤ m.heap.size) (hfull : ∀ s bytes, E (.heapExhausted s bytes) m)
    (hq : m.own.space.top + (words + 2) ≤ m.own.space.region.limit → Q (m.own.space.top + 2)
      (taken m words)) :
    Runs (handOut words) m Q E := by
  cases hfits : m.own.space.fits (words + 2) with
  | false =>
    unfold handOut
    refine Runs.step GcM.run_own ?_
    rw [show m.own.space.allocate? (words + headerWords) = none
      from (Bump.allocate?_eq_none_iff _ _).mpr hfits]
    exact GcM.runs_exhausted hcount (hfull _ _)
  | true =>
    have hroom := (Bump.fits_iff _ _).mp hfits
    exact Runs.of_eq (handOut_run hfits (by omega)) (hq hroom)

/-- An allocation hands out a block after a collection at most; `P k` is what holds after `k` of
them. -/
theorem allocate_by (hcount : (words + headerWords) * wordBytes < wordValues) (hm : P 0 m)
    (hcollect : Runs evacuate m (fun _ => P 1) E)
    (hlarge : ∀ size limit, E (.objectTooLarge size limit) m)
    (hlast : ∀ {k m₁}, k ≤ 1 → P k m₁ → Runs (handOut words) m₁ Q E) :
    Runs (allocate words) m Q E := by
  rw [allocate_eq]
  refine Runs.step GcM.run_own ?_
  by_cases hlim : m.own.spare.length < words + headerWords
  · simp only [hlim, if_true]
    exact Runs.stop (GcM.run_tooLarge hcount hlim) (hlarge _ _)
  · simp only [hlim, if_false]
    refine Runs.step GcM.run_stressed ?_
    cases m.stress || !m.own.space.fits (words + headerWords) with
    | false =>
      simp only [Bool.false_eq_true, if_false]
      exact hlast (by decide) hm
    | true =>
      simp only [if_true]
      exact hcollect.bind fun _ _ h₁ => hlast (by decide) h₁

end Allocate

/-- The state with a new block behind the others. -/
theorem Good.take (hg : Good m blocks) {words : Nat} (hpos : 1 ≤ words)
    (hroom : m.own.space.top + (words + 2) ≤ m.own.space.region.limit) :
    Blank 2 2 m.heap (taken m words).heap m.own.space.top words ∧ Good (taken m words)
    (blocks ++ [(m.own.space.top + 2, words + 2)]) := by
  have hin := hg.inside
  have hsmall := hg.small
  have hb : Blank 2 2 m.heap (taken m words).heap m.own.space.top words := blank_blank (by omega)
  have hhoused := hb.housed hg.stacked (hg.housed rfl) hpos (by omega)
  refine ⟨hb, hhoused.small, hroom, by rw [hb.size_eq]; exact hin, hg.spare, by
    rw [hb.size_eq]; exact hg.spare_inside, hg.apart,
    hg.length_eq, hg.stacked.snoc (by omega), hb.sized hg.stacked hg.sized (by decide) (by omega),
    hb.clean hg.stacked (by decide) (by decide) (by decide) hg.unforwarded, ?_, hhoused.closed, ?_⟩
  · rintro o ⟨n, hbm⟩
    exact ⟨n, hbm, hhoused.fit hbm⟩
  · exact Roots.Within.mono (r := m.roots) hg.roots fun o ⟨n, hbm⟩ => ⟨n, by simp [hbm]⟩

theorem handOut_grows (hg : Good m blocks) {words : Nat} (hpos : 1 ≤ words)
    (hcount : (words + headerWords) * wordBytes < wordValues) :
    Runs (handOut words) m (Grows 2 Good m blocks words) Fatal := by
  refine handOut_by hcount hg.inside (fun _ _ => rfl) fun hroom => ?_
  obtain ⟨hb, hg'⟩ := hg.take hpos hroom
  exact ⟨_, words + 2, hg', fun c => by simp, by omega, Blank.fresh hg.stacked, hb.zero,
    hb.same hg.stacked (hg.housed rfl), rfl, rfl, rfl⟩

/-- A new object, after a collection if need be. -/
theorem allocate_runs (hg : Good m blocks) {words : Nat} (hpos : 1 ≤ words)
    (hcount : (words + headerWords) * wordBytes < wordValues) :
    Runs (allocate words) m (fun o m' => ∃ ρ S' k, k ≤ 3 ∧ Moved (Kept Good) m m'
      (Held blocks) S' ρ k ∧ S' o ∧
      operations.Roomy 2 m' o words ∧ (∀ i, i < words → m'.heap.word (o + i) = 0) ∧ ∀ x,
        m.Reachable x → ρ x ≠ o) Fatal := by
  let P (k : Nat) (m₁ : Machine Semispace) : Prop :=
    ∃ blocks₁ ρ, Good m₁ blocks₁ ∧ Moved (Kept Good) m m₁ (Held blocks) (Held blocks₁) ρ k
  refine allocate_by (P := P) hcount
    ⟨blocks, id, hg, Moved.refl ⟨blocks, hg, rfl⟩ hg.closed hg.roots⟩
    ((evacuate_moves hg).mono_fail fun _ _ hf => hf.elim) (fun _ _ => rfl) ?_
  rintro k m₁ hk ⟨blocks₁, ρ, hg₁, hmv⟩
  exact layout.allocated (by omega) hmv hg₁ (handOut_grows hg₁ hpos hcount)

/-- No failure can tell of so many bytes, and the request ends there. -/
theorem allocate_overflows (hg : Good m blocks) {words : Nat} (_ : 1 ≤ words)
    (hover : wordValues ≤ (words + headerWords) * wordBytes) :
    allocate words m = .error .trap m := by
  have hlim : m.own.spare.length < words + headerWords := by
    have hin := hg.spare_inside
    have hsmall := hg.small
    simp only [wordValues, wordBytes, headerWords, Region.length] at hover ⊢
    omega
  rw [allocate_eq, bind_ok GcM.run_own]
  simp only [hlim, if_true]
  exact bind_error (GcM.tooLarge_trap hover)

/-! ## All operations -/

/-- The laws of a copying heap. -/
theorem laws : Laws operations (Kept Good) (operations.Roomy 2) := by
  have hcollect : ∀ {m blocks}, Good m blocks → Runs evacuate m (fun _ m' => ∃ ρ S' k, k ≤ 3 ∧
      Moved (Kept Good) m m' (Held blocks) S' ρ k) Fatal := by
    intro m blocks hg
    refine ((evacuate_moves hg).mono ?_).mono_fail fun _ _ hf => hf.elim
    rintro - m' ⟨copies, ρ, -, hmv⟩
    exact ⟨ρ, _, 1, by decide, hmv⟩
  exact (layout.plain allocate_runs allocate_overflows hcollect hcollect).laws

theorem hosts : Collector.Hosts Collector.semispace operations where
  injective s t h := by
    cases h
    rfl
  allocate n h := by rw [Collector.allocate, bind_ok GcM.run_own, h]; rfl
  collect h := by rw [Collector.collect, bind_ok GcM.run_own, h]; rfl
  collectFull h := by
    rw [Collector.collectFull, bind_ok GcM.run_own, h]
    change Collector.collect _ = _
    rw [Collector.collect, bind_ok GcM.run_own, h]
    rfl
  writeField o a v h := by rw [Collector.writeField,
    bind_ok GcM.run_own, h]; exact (Collector.within_heap h).symm
  writeRoot r v h := by rw [Collector.writeRoot,
    bind_ok GcM.run_own, h]; exact (Collector.within_roots h).symm
  initField a v h := by rw [Collector.initField,
    bind_ok GcM.run_own, h]; exact (Collector.within_heap h).symm
  push v h := by rw [Collector.push, bind_ok GcM.run_own, h]; exact (Collector.within_roots h).symm
  pop h := by rw [Collector.pop, bind_ok GcM.run_own, h]; exact (Collector.within_roots h).symm
  noteCopy o h := by rw [Collector.noteCopy,
    bind_ok GcM.run_own, h]; exact (Collector.within_pure h).symm
  objects _ := rfl
  headerWords _ := rfl

/-- A new copying heap satisfies the invariant. -/
theorem start_kept {c : Config} {u : Mutator} (hc : c.strategy = .copying) (hu : c.Makes u) :
    ∃ S, Collector.Hosted Collector.semispace (Kept Good) u.machine S := by
  obtain ⟨hash, rfl, hres⟩ := hu.eq
  have hbuild : Machine.ofConfig c hash =
    ⟨Arena.ofBytes c.heapSize, Roots.empty c.stackCapacity c.globalTableSize hash, c.stress, {},
      .semispace (ofWords (Arena.ofBytes c.heapSize).size)⟩ := by
    rw [Machine.ofConfig, Collector.build, hc]
  have hsmall : (Arena.ofBytes c.heapSize).size < tableLimit := by
    rw [c.size_ofBytes]
    exact (Config.reserved hres).1
  refine ⟨Held [], _, congrArg Machine.own hbuild, [], ?_, rfl⟩
  rw [Mutator.ofConfig, hbuild]
  refine ⟨hsmall, ?_, ?_, ?_, ?_, ?_, ?_, rfl, by simp [Sized], by simp,
    fun o ho => absurd ho not_held_nil, closed_nil _, Roots.empty_within _ _ _ _⟩
  all_goals dsimp only [Machine.withOwn_own, Machine.withOwn_heap, ofWords,
    Region.ofLength, Bump.empty, Region.length]; omega

end Reclaim.Semispace
