import Reclaim.Proofs.Blank
import Reclaim.Proofs.Generational.Operations

/-!
# Allocation in the nursery

An allocation collects first if it must, and then takes the next words of the nursery. With the
stores and the collections of the other modules, this makes the laws of a generational heap
complete.

Results:
* `allocate_by`: what holds before the last step of an allocation, whichever way leads there,
  decides its outcome.
* `allocate_runs`: a new object, and everything that the roots reach carried along.
* `laws`: the laws of a generational heap.
-/

namespace Reclaim.Generational

variable {m m' : Machine Generational} {young old : List (Nat × Nat)} {S : Nat → Prop}

section Blank

variable {h' : Arena} {words : Nat} (hi : Inv m young old S)
  (hb : Blank 3 2 m.heap h' m.own.nursery.top words)
  (hfits : m.own.nursery.top + (words + 3) ≤ m.own.nursery.region.limit)

include hi hb hfits

/-- A new block of the nursery leaves the words of the blocks of both spaces as they are. -/
theorem Inv.word_blank {c : Nat × Nat} (hc : c ∈ young ∨ c ∈ old) {a : Nat} (h1 : c.1 ≤ a + 3)
    (h2 : a + 3 < c.1 + c.2) :
    h'.word a = m.heap.word a := by
  have hbelow := hi.spaces.below
  refine hb.outside a ?_
  rcases hc with hc | hc
  · have hbd := hi.young_bounds hc
    omega
  · have hbd := hi.old_bounds hc
    omega

theorem Inv.header_blank {c : Nat × Nat} (hc : c ∈ young ∨ c ∈ old) {k : Nat} (hk : k ≤ 3) :
    h'.word (c.1 - k) = m.heap.word (c.1 - k) := by
  have hcin := hi.block_inside hc
  exact hi.word_blank hb hfits hc (by omega) (by omega)

theorem Inv.same_blank : Same S m.heap h' := by
  intro x i hx hlt
  obtain ⟨n, hc, hfit⟩ := hi.placed x hx
  exact hi.word_blank hb hfits hc (by simp only; omega) (by simp only; omega)

/-- With the new object, which is a character at first. -/
theorem Inv.closed_blank (hcl : Closed m.heap S) (hzero : h'.word (m.own.nursery.top + 3) = 0) :
    Closed h' fun x => S x ∨ x = m.own.nursery.top + 3 := by
  have hS := (hi.same_blank hb hfits).closed hcl
  refine ⟨?_, ?_⟩
  · rintro x (hx | rfl)
    · exact hS.known x hx
    · rw [Arena.tag_of_zero hzero]
      decide
  · rintro x a (hx | rfl) ht ha
    · exact (hS.field x a hx ht ha).mono fun _ => .inl
    · rw [Arena.tag_of_zero hzero] at ht
      cases ht

end Blank

/-- The nursery with one more block. -/
theorem Inv.grown (hi : Inv m young old S) (hk : ∀ o, S o → m.heap.tag o ≠ none) {words : Nat}
    (hpos : 1 ≤ words) (hfits : m.own.nursery.top + (words + 3) ≤ m.own.nursery.region.limit)
    (hb : Blank 3 2 m.heap m'.heap m.own.nursery.top words) (hroots : m'.roots = m.roots)
    (hown : m'.own = { m.own with
      nursery := ⟨m.own.nursery.region, m.own.nursery.top + (words + 3)⟩ }) :
    Inv m' (young ++ [(m.own.nursery.top + 3, words + 3)]) old fun x =>
    S x ∨ x = m.own.nursery.top + 3 := by
  have hsp := hi.spaces
  have hsmall := hsp.small
  have hbelow := hsp.below
  have htop := hsp.tenured_top
  have hlim := hsp.tenured
  have hfirst := hi.old_stacked.le
  have hyoung : ∀ b ∈ young ++ [(m.own.nursery.top + 3, words + 3)], b ∈ young ∨
      b = (m.own.nursery.top + 3, words + 3) := by
    intro b hb
    simpa using hb
  have hany : ∀ b, b ∈ young ++ [(m.own.nursery.top + 3, words + 3)] ∨ b ∈ old →
      (b ∈ young ∨ b ∈ old) ∨ b = (m.own.nursery.top + 3, words + 3) := by
    rintro b (hb | hb)
    · exact (hyoung b hb).imp .inl id
    · exact .inl (.inr hb)
  have hsame := hi.same_blank hb hfits
  have hzero : m'.heap.word (m.own.nursery.top + 3) = 0 := hb.zero 0 (by omega)
  have hflags : m'.heap.word (m.own.nursery.top + 3 - 1) = 0 :=
    hb.header 1 (by decide) (by decide) (by decide)
  exact {
    spaces := by
      rw [hb.size_eq, hown]
      exact ⟨hsmall, hsp.nursery, hfits, hsp.survivor, hsp.halves, hbelow,
        hsp.survivor_below, htop, hlim⟩
    young_stacked := by
      rw [hown]
      exact hi.young_stacked.snoc (by omega)
    old_stacked := by
      rw [hown]
      exact hi.old_stacked
    young_sized := fun b hbm => by
      rcases hyoung b hbm with hby | rfl
      · rw [hi.header_blank hb hfits (.inl hby) (show 2 ≤ 3 by omega)]
        exact hi.young_sized b hby
      · rw [hb.size, toNat_ofNat_of_lt (by omega)]
    old_sized := fun b hbo => by
      rw [hi.header_blank hb hfits (.inr hbo) (show 2 ≤ 3 by omega)]
      exact hi.old_sized b hbo
    no_forward := fun b hbm => by
      rcases hany b hbm with hbm | rfl
      · rw [hi.header_blank hb hfits hbm (show 3 ≤ 3 by omega)]
        exact hi.no_forward b hbm
      · exact hb.header 3 (by decide) (by decide) (by decide)
    no_mark := fun b hbm => by
      rcases hany b hbm with hbm | rfl
      · rw [hi.header_blank hb hfits hbm (show 1 ≤ 3 by omega)]
        exact hi.no_mark b hbm
      · rw [hflags]
        rfl
    young_flags := fun b hbm => by
      rcases hyoung b hbm with hby | rfl
      · rw [hi.header_blank hb hfits (.inl hby) (show 1 ≤ 3 by omega)]
        exact hi.young_flags b hby
      · rw [hflags]
        exact ⟨rfl, rfl⟩
    old_flags := fun b hbo => by
      rw [hi.header_blank hb hfits (.inr hbo) (show 1 ≤ 3 by omega)]
      exact hi.old_flags b hbo
    flagged := fun b hbo => by
      rw [hi.header_blank hb hfits (.inr hbo) (show 1 ≤ 3 by omega), hown]
      exact hi.flagged b hbo
    entries_nodup := by
      rw [hown]
      exact hi.entries_nodup
    entries_old := by
      rw [hown]
      exact hi.entries_old
    remembers := fun b hbo hSb hpt => by
      -- the new object is no tenured one
      have hSb' : S b.1 := by
        refine hSb.elim id fun he => ?_
        have hbd := hi.old_bounds hbo
        omega
      rw [hown] at hpt ⊢
      refine hi.remembers b hbo hSb' ?_
      rwa [PointsInto, hsame.succ (hk _ hSb') hSb'] at hpt
    linked := (hi.closed_blank hb hfits ⟨hk, hi.linked⟩ hzero).linked
    placed := by
      rintro x (hx | rfl)
      · obtain ⟨n, hc, hfit⟩ := hi.placed x hx
        refine ⟨n, hc.imp (fun h => List.mem_append.mpr (.inl h)) id, ?_⟩
        rw [hsame.payload (hk x hx) hx]
        exact hfit
      · refine ⟨words + 3, .inl (by simp), ?_⟩
        rw [Arena.payload_of_zero hzero]
        omega
    roots := by
      rw [hroots]
      exact fun slot v hv => (hi.roots slot v hv).mono fun _ => .inl
    entries := by
      rw [hown]
      exact fun e he => .inl (hi.entries e he) }

theorem Good.grown (hg : Good m young old S) {words : Nat} (hpos : 1 ≤ words)
    (hfits : m.own.nursery.top + (words + 3) ≤ m.own.nursery.region.limit)
    (hb : Blank 3 2 m.heap m'.heap m.own.nursery.top words) (hroots : m'.roots = m.roots)
    (hown : m'.own = { m.own with
      nursery := ⟨m.own.nursery.region, m.own.nursery.top + (words + 3)⟩ }) :
    Good m' (young ++ [(m.own.nursery.top + 3, words + 3)]) old fun x =>
    S x ∨ x = m.own.nursery.top + 3 := by
  have hzero : m'.heap.word (m.own.nursery.top + 3) = 0 := hb.zero 0 (by omega)
  refine ⟨hg.inv.grown hg.known hpos hfits hb hroots hown,
    (hg.inv.closed_blank hb hfits hg.closed hzero).known,
    fun b hbo => .inl (hg.old_valid b hbo), ?_, fun b hbm => ?_, ?_⟩
  · rw [hown]
    exact hg.room
  · rcases List.mem_append.mp hbm with hby | hbm
    · have hw : m'.heap.word b.1 = m.heap.word b.1 :=
        hg.inv.header_blank hb hfits (.inl hby) (show 0 ≤ 3 by omega)
      rw [Arena.tag_congr hw, Arena.payload_congr hw]
      exact hg.young_fits b hby
    · obtain rfl := List.mem_singleton.mp hbm
      rw [Arena.tag_of_zero hzero, Arena.payload_of_zero hzero]
      exact ⟨by decide, by omega⟩
  · rw [hown]
    exact hg.halves

/-- The heap after the header of a new block was written and its words were cleared. -/
def blank (h : Arena) (top words : Nat) : Arena :=
  (((h.put top 0).put (top + 1) (UInt64.ofNat (words + 3))).put (top + 2) 0).zero (top + 3) words

theorem blank_blank {h : Arena} {top words : Nat} (hs : top + (words + 3) ≤ h.size) :
    Blank 3 2 h (blank h top words) top words := by
  have hword : ∀ a, (blank h top words).word a = if top + 3 ≤ a ∧ a < top + 3 + words then 0 else
      (((h.put top 0).put (top + 1) (UInt64.ofNat (words + 3))).put (top + 2) 0).word a := fun a =>
    Arena.word_zero (by simp; omega)
  refine ⟨by simp [blank], fun a ha => ?_, ?_, fun k h1 h3 hne => ?_, fun i hi => ?_⟩
  · rw [hword, if_neg (by omega), Arena.word_put_ne _ (by omega), Arena.word_put_ne _ (by omega),
      Arena.word_put_ne _ (by omega)]
  · rw [show top + 3 - 2 = top + 1 by omega, hword, if_neg (by omega),
      Arena.word_put_ne _ (by omega), Arena.word_put_self _ (by simp; omega)]
  · rw [hword, if_neg (by omega)]
    obtain rfl | rfl : k = 1 ∨ k = 3 := by omega
    · rw [show top + 3 - 1 = top + 2 by omega, Arena.word_put_self _ (by simp; omega)]
    · rw [show top + 3 - 3 = top by omega, Arena.word_put_ne _ (by omega),
        Arena.word_put_ne _ (by omega), Arena.word_put_self _ (by omega)]
  · rw [hword, if_pos (by omega)]

/-- The nursery after a block was taken from it. -/
def taken (m : Machine Generational) (words : Nat) : Machine Generational :=
  (m.withOwn { m.own with
    nursery := ⟨m.own.nursery.region, m.own.nursery.top + (words + 3)⟩ }).withHeap
    (blank m.heap m.own.nursery.top words)

/-- The last step of an allocation: a block from the nursery. -/
def handOut (words : Nat) : GcM Generational Nat := do
  match (← GcM.own).nursery.allocate? (words + headerWords) with
  | none => GcM.exhausted .generational (words + headerWords)
  | some (block, nursery) =>
    GcM.modifyOwn fun g => { g with nursery }
    let obj := block + headerWords
    setForwarding obj 0
    storeHeader obj sizeOffset (UInt64.ofNat (words + headerWords))
    storeHeader obj flagsOffset 0
    clearWords obj words
    return obj

theorem allocate_eq (words : Nat) : allocate words = (do
    let g ← GcM.own
    let limit := g.nursery.region.length
    if limit < words + headerWords then GcM.tooLarge (words + headerWords) limit
    if (← GcM.stressed) || !g.nursery.fits (words + headerWords) then collect
    if !(← GcM.own).nursery.fits (words + headerWords) then evacuate 0
    handOut words) := rfl

theorem handOut_run {words : Nat}
    (hfits : m.own.nursery.top + (words + 3) ≤ m.own.nursery.region.limit)
    (hs : m.own.nursery.top + words + 3 ≤ m.heap.size) :
    handOut words m = .ok (m.own.nursery.top + 3) (taken m words) := by
  have halloc : m.own.nursery.allocate? (words + headerWords)
      = some (m.own.nursery.top, ⟨m.own.nursery.region, m.own.nursery.top + (words + 3)⟩) :=
    Bump.allocate?_eq_some_iff.mpr ⟨(Bump.fits_iff _ _).mpr hfits, rfl, rfl⟩
  let t := m.own.nursery.top
  let m1 := m.withOwn { m.own with nursery := ⟨m.own.nursery.region, t + (words + 3)⟩ }
  have h1 : setForwarding (t + headerWords) 0 m.heap = .ok () (m.heap.put t 0) :=
    setForwarding_run (by simp [headerWords]) (by simp [headerWords]; omega)
  have h2 : storeHeader (t + headerWords) sizeOffset (UInt64.ofNat (words + headerWords))
    (m.heap.put t 0)
      = .ok () ((m.heap.put t 0).put (t + 1) (UInt64.ofNat (words + 3))) :=
    storeHeader_run (by simp [headerWords, sizeOffset]) (by simp [headerWords, sizeOffset]; omega)
  have h3 : storeHeader (t + headerWords) flagsOffset 0
    ((m.heap.put t 0).put (t + 1) (UInt64.ofNat (words + 3)))
      = .ok () (((m.heap.put t 0).put (t + 1) (UInt64.ofNat (words + 3))).put (t + 2) 0) :=
    storeHeader_run (by simp [headerWords, flagsOffset]) (by simp [headerWords, flagsOffset]; omega)
  have h4 : clearWords (t + headerWords) words
    (((m.heap.put t 0).put (t + 1) (UInt64.ofNat (words + 3))).put (t + 2) 0)
      = .ok () (blank m.heap t words) := clearWords_run (by simp [headerWords]; omega)
  have l1 : (liftM (setForwarding (t + headerWords) 0) : GcM Generational Unit) m1 = .ok ()
      (m1.withHeap (m.heap.put t 0)) :=
    heap_lift (m := m1) h1
  have l2 : (liftM (storeHeader (t + headerWords) sizeOffset (UInt64.ofNat (words + headerWords))) :
    GcM Generational Unit)
      (m1.withHeap (m.heap.put t 0)) = .ok ()
        (m1.withHeap ((m.heap.put t 0).put (t + 1) (UInt64.ofNat (words + 3)))) :=
    heap_lift (m := m1.withHeap (m.heap.put t 0)) h2
  have l3 : (liftM (storeHeader (t + headerWords) flagsOffset 0) : GcM Generational Unit)
      (m1.withHeap ((m.heap.put t 0).put (t + 1) (UInt64.ofNat (words + 3))))
      = .ok ()
        (m1.withHeap (((m.heap.put t 0).put (t + 1) (UInt64.ofNat (words + 3))).put (t + 2) 0)) :=
    heap_lift (m := m1.withHeap ((m.heap.put t 0).put (t + 1) (UInt64.ofNat (words + 3)))) h3
  have l4 : (liftM (clearWords (t + headerWords) words) : GcM Generational Unit)
      (m1.withHeap (((m.heap.put t 0).put (t + 1) (UInt64.ofNat (words + 3))).put (t + 2) 0)) =
        .ok () (taken m words) :=
    heap_lift (m := m1.withHeap
      (((m.heap.put t 0).put (t + 1) (UInt64.ofNat (words + 3))).put (t + 2) 0)) h4
  rw [handOut, bind_ok GcM.run_own, halloc]
  dsimp only
  rw [bind_ok (GcM.run_modifyOwn _), bind_ok l1, bind_ok l2, bind_ok l3, bind_ok l4]
  rfl

section Allocate

variable {words : Nat} {P : Nat → Machine Generational → Prop}
  {Q : Nat → Machine Generational → Prop}
  {E : Failure → Machine Generational → Prop}

/-- A block is handed out if there is room. -/
theorem handOut_by (hcount : (words + headerWords) * wordBytes < wordValues)
    (hin : m.own.nursery.region.limit ≤ m.heap.size)
    (hfull : ∀ s bytes, E (.heapExhausted s bytes) m)
    (hq : m.own.nursery.top + (words + 3) ≤ m.own.nursery.region.limit → Q (m.own.nursery.top + 3)
      (taken m words)) :
    Runs (handOut words) m Q E := by
  cases hfits : m.own.nursery.fits (words + 3) with
  | false =>
    unfold handOut
    refine Runs.step GcM.run_own ?_
    rw [show m.own.nursery.allocate? (words + headerWords) = none
      from (Bump.allocate?_eq_none_iff _ _).mpr hfits]
    exact GcM.runs_exhausted hcount (hfull _ _)
  | true =>
    have hroom := (Bump.fits_iff _ _).mp hfits
    exact Runs.of_eq (handOut_run hroom (by omega)) (hq hroom)

/-- An allocation hands out a block after a regular collection at most, and a forced one; `P k` is
what holds after `k` cycles. -/
theorem allocate_by (hcount : (words + headerWords) * wordBytes < wordValues) (hm : P 0 m)
    (hcollect : Runs collect m (fun _ m₁ => ∃ k, k ≤ 2 ∧ P k m₁) E)
    (hevacuate : ∀ {k m₁}, k ≤ 2 → P k m₁ → Runs (evacuate 0) m₁ (fun _ => P (k + 1)) E)
    (hlarge : ∀ size limit, E (.objectTooLarge size limit) m)
    (hlast : ∀ {k m₁}, k ≤ 3 → P k m₁ → Runs (handOut words) m₁ Q E) :
    Runs (allocate words) m Q E := by
  have hforce : ∀ {k m₁}, k ≤ 2 → P k m₁ → Runs (do
      if !(← GcM.own).nursery.fits (words + headerWords) then evacuate 0
      handOut words) m₁ Q E := by
    intro k m₁ hk hP
    refine Runs.step GcM.run_own ?_
    cases m₁.own.nursery.fits (words + headerWords) with
    | true =>
      simp only [Bool.not_true, Bool.false_eq_true, if_false]
      exact hlast (by omega) hP
    | false =>
      simp only [Bool.not_false, if_true]
      exact (hevacuate hk hP).bind fun _ _ hP₂ => hlast (by omega) hP₂
  rw [allocate_eq]
  refine Runs.step GcM.run_own ?_
  by_cases hlim : m.own.nursery.region.length < words + headerWords
  · simp only [hlim, if_true]
    exact Runs.stop (GcM.run_tooLarge hcount hlim) (hlarge _ _)
  · simp only [hlim, if_false]
    refine Runs.step GcM.run_stressed ?_
    cases m.stress || !m.own.nursery.fits (words + headerWords) with
    | false =>
      simp only [Bool.false_eq_true, if_false]
      exact hforce (by decide) hm
    | true =>
      simp only [if_true]
      refine hcollect.bind ?_
      rintro - m₁ ⟨k, hk, hP⟩
      exact hforce hk hP

end Allocate

/-- The nursery lies in the arena. -/
theorem Good.nursery_inside (hg : Good m young old S) :
    m.own.nursery.region.limit ≤ m.heap.size := by
  have hsp := hg.inv.spaces
  have h1 := hg.inv.old_stacked.le
  have h2 := hsp.below
  have h3 := hsp.tenured_top
  have h4 := hsp.tenured
  omega

/-- Taking a block from the nursery loses nothing. -/
theorem Good.take (hg : Good m young old S) {words : Nat} (hpos : 1 ≤ words)
    (hfits : m.own.nursery.top + (words + 3) ≤ m.own.nursery.region.limit) :
    Good (taken m words) (young ++ [(m.own.nursery.top + 3, words + 3)]) old
    (fun x => S x ∨ x = m.own.nursery.top + 3) ∧
      Moved Intact m (taken m words) S (fun x => S x ∨ x = m.own.nursery.top + 3) id 0 ∧
      New (taken m words) (m.own.nursery.top + 3) words ∧
      (∀ i, i < words → (taken m words).heap.word (m.own.nursery.top + 3 + i) = 0) ∧
      ¬ S (m.own.nursery.top + 3) := by
  have hi := hg.inv
  have hsp := hi.spaces
  have h1 := hi.young_stacked.le
  have h2 := hi.old_stacked.le
  have h3 := hsp.below
  have h4 := hsp.tenured_top
  have h5 := hsp.tenured
  have h6 := hsp.small
  have hb : Blank 3 2 m.heap (taken m words).heap m.own.nursery.top words := blank_blank (by omega)
  have hgood := hg.grown hpos hfits hb rfl rfl
  have hnew : ¬ S (m.own.nursery.top + 3) := by
    intro hS
    obtain ⟨n, hc | hc, -⟩ := hi.placed _ hS
    · have hbd := hi.young_bounds hc
      omega
    · have hbd := hi.old_bounds hc
      omega
  have hsame : Same S m.heap (taken m words).heap := by
    intro x i hx hlt
    obtain ⟨n, hc, hfit⟩ := hi.placed x hx
    refine hb.outside _ ?_
    rcases hc with hc | hc
    · have hbd := hi.young_bounds hc
      omega
    · have hbd := hi.old_bounds hc
      omega
  refine ⟨hgood, .of_same hg.closed hi.roots ⟨_, _, hgood⟩ hsame
    (fun _ ho => .inl ho) rfl rfl rfl, ⟨?_, ?_⟩, hb.zero, hnew⟩
  · have hregion : (Generational.taken m words).own.nursery.region = m.own.nursery.region := rfl
    rw [hregion, Region.contains_iff]
    omega
  · rw [hb.size, toNat_ofNat_of_lt (by omega)]
    omega

/-- A new object, after collections if need be; what the roots reach is carried along. -/
theorem allocate_runs (hg : Good m young old S) {words : Nat} (hpos : 1 ≤ words)
    (hcount : (words + headerWords) * wordBytes < wordValues) :
    Runs (allocate words) m (fun o m' => ∃ ρ S' k, k ≤ 3 ∧ Moved Intact m m' S S' ρ k ∧ S' o ∧
      New m' o words ∧
      (∀ i, i < words → m'.heap.word (o + i) = 0) ∧ ∀ x, m.Reachable x → ρ x ≠ o) Fatal := by
  let P (k : Nat) (m₁ : Machine Generational) : Prop := ∃ young₁ old₁ S₁ ρ, Good m₁ young₁ old₁ S₁ ∧
    Moved Intact m m₁ S S₁ ρ k
  refine allocate_by (P := P) hcount
    ⟨young, old, S, id, hg, Moved.refl ⟨young, old, hg⟩ hg.closed hg.inv.roots⟩ ?_ ?_
      (fun _ _ => rfl) ?_
  · refine (collect_runs hg).mono ?_
    rintro - m₁ ⟨young₁, old₁, S₁, ρ, k, hk, hg₁, hmv⟩
    exact ⟨k, hk, young₁, old₁, S₁, ρ, hg₁, hmv⟩
  · rintro k m₁ - ⟨young₁, old₁, S₁, ρ, hg₁, hmv⟩
    refine (hg₁.cycle hmv (evacuate_moves hg₁)).mono ?_
    rintro - m₂ ⟨young₂, old₂, S₂, τ, hg₂, hmv₂⟩
    exact ⟨young₂, old₂, S₂, τ, hg₂, hmv₂⟩
  · rintro k m₁ hk ⟨young₁, old₁, S₁, ρ, hg₁, hmv⟩
    refine handOut_by hcount hg₁.nursery_inside (fun _ _ => rfl) fun hroom => ?_
    obtain ⟨hg₂, hmv₂, hnew, hzero, hfresh⟩ := hg₁.take hpos hroom
    refine ⟨id ∘ ρ, _, k + 0, by omega, Moved.trans hmv hmv₂ hg₁.inv.named, .inr rfl, hnew, hzero,
      fun x hx he => hfresh ?_⟩
    rw [← show ρ x = m₁.own.nursery.top + 3 from he]
    exact hmv.kept x hx

/-- No failure can tell of so many bytes, and the request ends there. -/
theorem allocate_overflows (hg : Good m young old S) {words : Nat}
    (hover : wordValues ≤ (words + headerWords) * wordBytes) :
    allocate words m = .error .trap m := by
  have hlim : m.own.nursery.region.length < words + headerWords := by
    have hin := hg.nursery_inside
    have hsmall := hg.inv.spaces.small
    simp only [wordValues, wordBytes, headerWords, Region.length] at hover ⊢
    omega
  rw [allocate_eq, bind_ok GcM.run_own]
  simp only [hlim, if_true]
  exact bind_error (GcM.tooLarge_trap hover)

/-! ## All operations -/

/-- What the mutator is offered. -/
def operations : Operations Generational :=
  .plain allocate collect collectFull writeField objects headerWords

/-- The block of a new object lies in the nursery and has room. -/
theorem Good.new_block (hg : Good m young old S) {o n : Nat} (ho : S o) (hN : New m o n) :
    ∃ k, (o, k) ∈ young ∧ 3 + n ≤ k := by
  have hi := hg.inv
  obtain ⟨hin, hroom⟩ := hN
  rw [Region.contains_iff] at hin
  obtain ⟨k, hb | hb, -⟩ := hi.placed o ho
  · refine ⟨k, hb, ?_⟩
    rw [hi.young_sized _ hb] at hroom
    exact hroom
  · have hbd := hi.old_bounds hb
    have hbelow := hi.spaces.below
    omega

/-- A new object may be filled with any words that are well-formed. -/
theorem Good.fill (hg : Good m young old S) {o n : Nat} {h' : Arena} (ho : S o) (hN : New m o n)
    (hsize : h'.size = m.heap.size) (hout : ∀ a, a < o ∨ o + n ≤ a → h'.word a = m.heap.word a)
    (hcl : Closed h' S) (hpay : h'.payload o ≤ n) : Good (m.withHeap h') young old S ∧
    New (m.withHeap h') o n := by
  obtain ⟨k, hb, hroom⟩ := hg.new_block ho hN
  have hin := hg.inv.young_inside hb
  simp only at hin
  refine ⟨hg.rewrite ho (.inl hb) hsize (fun a ha => hout a (by omega)) hcl
    (by omega) fun hbo => ?_, hN.1, ?_⟩
  · have hsep := hg.inv.separate hb hbo
    simp only at hsep
    omega
  · rw [Machine.withHeap_heap, hout _ (by omega)]
    exact hN.2

theorem plain : Plain operations Intact New where
  small := by
    rintro m S ⟨young, old, hg⟩
    exact hg.inv.spaces.small
  objects := by
    rintro m S ⟨young, old, hg⟩
    refine ⟨young ++ old, hg.inv.objects, fun o ho => ?_⟩
    obtain ⟨n, hb, -⟩ := hg.inv.placed o ho
    exact ⟨n, List.mem_append.mpr hb⟩
  apart := by
    rintro m S ⟨young, old, hg⟩
    exact hg.objects_apart.weaken (by decide)
  roots := by
    rintro m S ⟨young, old, hg⟩
    exact hg.inv.roots
  congr := by
    rintro m m' S ⟨young, old, hg⟩ hheap hroots hown
    have hi := hg.inv
    refine ⟨young, old, ?_, by rw [hheap]; exact hg.known, hg.old_valid, by
      rw [hown]; exact hg.room, by rw [hheap]; exact hg.young_fits,
      by rw [hown]; exact hg.halves⟩
    refine hi.update (by rw [hown]) (by rw [hown]) (by rw [hown])
      (by rw [hheap]) ?_ ?_ ?_ ?_ ?_ ?_ ?_ ?_ ?_ hroots
    all_goals simp only [hheap, hown]
    · exact fun _ _ => ⟨trivial, trivial⟩
    · exact fun _ _ => trivial
    · exact fun _ _ => trivial
    · exact hi.flagged
    · exact hi.entries_nodup
    · exact fun e he => ⟨hi.entries e he, hi.entries_old e he⟩
    · exact hi.remembers
    · exact hi.linked
    · exact fun _ _ ho hb => hi.fits ho hb
  new_congr := by
    rintro m m' o n hN hheap hown
    rw [New, hheap, hown]
    exact hN
  new_inside := by
    rintro m S o n ⟨young, old, hg⟩ ho hN
    obtain ⟨k, hb, hroom⟩ := hg.new_block ho hN
    have hin := hg.inv.young_inside hb
    simp only at hin
    omega
  new_apart := by
    rintro m S o n x ⟨young, old, hg⟩ ho hN hx hne
    have hi := hg.inv
    obtain ⟨k, hb, hroom⟩ := hg.new_block ho hN
    obtain ⟨n', hbx, hfit⟩ := hi.placed x hx
    have hin := hi.young_inside hb
    have hxin := hi.block_inside hbx
    rcases hi.block_apart hbx (.inl hb) with h | h | h
    · cases h
      exact absurd rfl hne
    · simp only at h hin hxin
      omega
    · simp only at h hin hxin
      omega
  allocate := by
    rintro m S n ⟨young, old, hg⟩ hn hcount
    exact allocate_runs hg hn hcount
  overflow := by
    rintro m S n ⟨young, old, hg⟩ - hcount
    exact allocate_overflows hg (Nat.not_lt.mp hcount)
  collect := by
    rintro m S ⟨young, old, hg⟩
    refine (collect_runs hg).mono ?_
    rintro - m' ⟨-, -, S', ρ, k, hk, -, hmv⟩
    exact ⟨ρ, S', k, by omega, hmv⟩
  collectFull := by
    rintro m S ⟨young, old, hg⟩
    refine (collectFull_runs hg).mono ?_
    rintro - m' ⟨-, -, S', ρ, -, hmv⟩
    exact ⟨ρ, S', 2, by decide, hmv⟩
  rewrite := by
    rintro m S o n h' ⟨young, old, hg⟩ ho hN hsize hout hcl hpay
    obtain ⟨hg', hN'⟩ := hg.fill ho hN hsize hout hcl hpay
    exact ⟨⟨young, old, hg'⟩, hN'⟩
  writeField := by
    rintro m S o field v ⟨young, old, hg⟩ ho ht hf hv
    refine ((writeField_runs hg ho ht hf hv).mono ?_).mono_fail fun _ _ hfull => hfull.1 ▸ rfl
    rintro - m' ⟨hg', hst, hroots, hstress, hstats⟩
    exact ⟨S, ⟨⟨young, old, hg'⟩, fun _ h => h, fun _ _ h _ => h, hstress, 0, by omega, by
      rw [hstats]; simp⟩, hst, hroots⟩

/-- The laws of a generational heap. -/
theorem laws : Laws operations Intact New := plain.laws

theorem hosts : Collector.Hosts Collector.generational operations where
  injective s t h := by
    cases h
    rfl
  allocate n h := by rw [Collector.allocate, bind_ok GcM.run_own, h]; rfl
  collect h := by rw [Collector.collect, bind_ok GcM.run_own, h]; rfl
  collectFull h := by rw [Collector.collectFull, bind_ok GcM.run_own, h]; rfl
  writeField o a v h := by rw [Collector.writeField, bind_ok GcM.run_own, h]; rfl
  writeRoot r v h := by rw [Collector.writeRoot,
    bind_ok GcM.run_own, h]; exact (Collector.within_roots h).symm
  initField a v h := by rw [Collector.initField,
    bind_ok GcM.run_own, h]; exact (Collector.within_heap h).symm
  push v h := by rw [Collector.push, bind_ok GcM.run_own, h]; exact (Collector.within_roots h).symm
  pop h := by rw [Collector.pop, bind_ok GcM.run_own, h]; exact (Collector.within_roots h).symm
  noteCopy o h := by rw [Collector.noteCopy,
    bind_ok GcM.run_own, h]; exact (Collector.within_pure h).symm
  objects _ := rfl
  headerWords _ := rfl

end Reclaim.Generational
