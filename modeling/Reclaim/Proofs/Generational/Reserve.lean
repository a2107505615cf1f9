import Reclaim.Proofs.Generational.Allocation

/-!
# When tenured space runs out

A minor collection promotes before anyone looks whether a major one is due, so tenured space must
have room for what it promotes. After a collection it has, as a rule: there is room for a full
nursery, or else a major collection was made, and all that tenured space holds is in use
(`Relieved`). The rule says nothing of a collection that comes later. By then what was in use may
have become garbage, and the room that is left is still the room that was left (`Overdrawn`).

So an operation that reports want of room has one of two reasons. Either what the roots reach takes
more words than tenured space has (`Outgrown`), or what the first minor collection promotes takes
more than is left of them. Without garbage in tenured space the second comes down to the first.

Results:
* `Good.outgrown_or_stale`: tenured space is overdrawn because of what the roots reach, or there is
  garbage in it.
* `collect_relieves`: a collection on request.
* `collectFull_wants`, `allocate_wants`: why a full collection and an allocation fail.
-/

namespace Reclaim.Generational

variable {m m' : Machine Generational}
  {young old young' old' survivors promoted listed : List (Nat × Nat)} {S S' : Nat → Prop}
  {ρ : Nat → Nat} {ms : List Nat} {threshold room words : Nat}

/-- What the roots reach takes more words than tenured space has. -/
def Outgrown (m : Machine Generational) (listed : List (Nat × Nat)) : Prop :=
  Exceeds listed m.Reachable m.own.tenured.region.length

/-- The next minor collection promotes the object at `o`. -/
def Promotable (m : Machine Generational) (o : Nat) : Prop :=
  m.own.nursery.region.contains o = true ∧ Live m o ∧ isPromoted m.own.threshold
    (m.heap.word (o - 1)) = true

/-- What the next minor collection promotes takes more words than are left of tenured space. -/
def Overdrawn (m : Machine Generational) (listed : List (Nat × Nat)) : Prop :=
  Exceeds listed (Promotable m) m.own.tenured.remaining

/-- There is garbage in tenured space. -/
def Stale (m : Machine Generational) (listed : List (Nat × Nat)) : Prop :=
  ∃ b ∈ listed, m.own.tenured.region.contains b.1 = true ∧ ¬ m.Reachable b.1

/-- How an operation may fail: for good, and for want of room only with one of the two reasons. -/
def Wants (m : Machine Generational) (listed : List (Nat × Nat)) (f : Failure)
    (_ : Machine Generational) : Prop :=
  f.isFatal = true ∧ ∀ s bytes, f = .heapExhausted s bytes → Outgrown m listed ∨ Overdrawn m listed

/-- What is promoted comes from the nursery. -/
theorem Good.exceeds_of_overdrawn (hg : Good m young old S) (h : Overdrawn m (young ++ old)) :
    Exceeds young (Promotable m) m.own.tenured.remaining := by
  refine h.mono (fun b hb hp => ⟨?_, hp⟩) (Nat.le_refl _)
  refine (List.mem_append.mp hb).elim id fun hbo => ?_
  have hin := (Region.contains_iff _ _).mp hp.1
  have hbd := hg.inv.old_bounds hbo
  have hbelow := hg.inv.spaces.below
  omega

/-- The nursery holds more than is left of tenured space. -/
theorem Good.remaining_lt (hg : Good m young old S) (h : Overdrawn m (young ++ old)) :
    m.own.tenured.remaining < m.own.nursery.used := by
  refine Nat.lt_of_not_le fun hle => hg.inv.young_stacked.not_exceeds ?_ (hg.exceeds_of_overdrawn h)
  have hfirst := hg.inv.young_stacked.le
  rw [Bump.used] at hle
  omega

/-- If the roots reach all that tenured space holds, they reach whatever the remembered objects
do. -/
theorem Good.outgrown_of_reachable (hg : Good m young old S) (hold : ∀ b ∈ old, m.Reachable b.1)
    (h : Exceeds young (Live m) m.own.tenured.remaining) : Outgrown m (young ++ old) := by
  have hreach : ∀ o, Live m o → m.Reachable o := by
    intro o ho
    refine Reach.trans ho fun x hx => hx.elim .root fun he => ?_
    obtain ⟨n, hn⟩ := hg.inv.entries_old x he
    exact hold _ hn
  have hyoung : Exceeds young m.Reachable m.own.tenured.remaining :=
    h.mono (fun _ hb ho => ⟨hb, hreach _ ho⟩) (Nat.le_refl _)
  refine hg.inv.old_stacked.exceeds_append hold hyoung
    (fun _ hb hbo => hg.inv.young_ne_old hb hbo rfl) ?_
  have htop := hg.inv.spaces.tenured_top
  have hfirst := hg.inv.old_stacked.le
  rw [Region.length, Bump.remaining]
  omega

theorem Good.outgrown_or_stale (hg : Good m young old S) (h : Overdrawn m (young ++ old)) :
    Outgrown m (young ++ old) ∨ Stale m (young ++ old) := by
  by_cases hold : ∀ b ∈ old, m.Reachable b.1
  · left
    exact hg.outgrown_of_reachable hold
      ((hg.exceeds_of_overdrawn h).mono (fun _ hb hp => ⟨hb, hp.2.1⟩) (Nat.le_refl _))
  · right
    push Not at hold
    obtain ⟨b, hb, hdead⟩ := hold
    exact ⟨b, List.mem_append_right _ hb, hg.inv.contains_old hb, hdead⟩

/-! ## Minor collections -/

/-- The other half of the nursery takes in whatever this one holds, so only tenured space may be too
small. -/
theorem Good.exceeds_of_overfull (hg : Good m young old S) (h : Overfull m young threshold) :
    Exceeds young (fun o => Live m o ∧ isPromoted threshold (m.heap.word (o - 1)) = true)
    m.own.tenured.remaining := by
  refine h.resolve_right (hg.inv.young_stacked.not_exceeds ?_)
  have htop := hg.inv.spaces.nursery_top
  have hhalves := hg.halves
  simp only [Region.length] at hhalves ⊢
  omega

theorem collectMinor_runs (hg : Good m young old S) :
    Runs collectMinor m (fun _ m' => ∃ survivors promoted ρ, Evacuated m m' young old survivors
      promoted m.own.threshold S ρ)
      (Wants m (young ++ old)) := by
  unfold collectMinor
  refine Runs.step GcM.run_own
    ((evacuate_runs hg.inv).mono_fail fun f _ hf => ⟨hf.1, fun s bytes h => .inr ?_⟩)
  refine (hg.exceeds_of_overfull (hf.2 s bytes h)).mono
    (fun b hb hp => ⟨List.mem_append_left _ hb, ?_⟩) (Nat.le_refl _)
  exact ⟨hg.inv.contains_young hb, hp⟩

/-- The survivors and the tenured objects that the roots reach need no more room than what they
reached before. -/
theorem Evacuated.demand (hg : Good m young old S)
    (he : Evacuated m m' young old survivors promoted threshold S ρ)
    (h : Exceeds (survivors ++ (old ++ promoted)) m'.Reachable room) :
    Exceeds (young ++ old) m.Reachable room := by
  obtain ⟨hg', hmv⟩ := he.moved hg
  -- an original that the roots do not reach has an image that they do not reach
  have hback : ∀ o, KeptByMinor m old S o → m'.Reachable (ρ o) → m.Reachable o := by
    intro o ho hr
    obtain ⟨x, hx, hxo⟩ := (hmv.reachable_iff hg'.inv.named).mp hr
    rw [he.renamed.injective o x ho (.inl (hx.mono fun _ h => .inl h)) hxo]
    exact hx
  have hcopy : ∀ b, b ∈ survivors ∨ b ∈ promoted → m'.Reachable b.1 →
      ∃ o, (o, b.2) ∈ young ++ old ∧ m.Reachable o ∧ ρ o = b.1 := by
    intro b hb hr
    obtain ⟨o, ho, hl, hob⟩ := he.origin b hb
    exact ⟨o, List.mem_append_left _ ho, hback o (.inl hl) (hob ▸ hr), hob⟩
  refine h.pull (ρ := ρ) (fun b hb hr => ?_) (Nat.le_refl _)
  rcases List.mem_append.mp hb with hb | hb
  · exact hcopy b (.inl hb) hr
  · rcases List.mem_append.mp hb with hb | hb
    · have hstay := he.tenured b hb
      exact ⟨b.1, List.mem_append_right _ hb, hback b.1 (.inr ⟨hg.old_valid b hb, b.2, hb⟩)
        (by rwa [hstay]), hstay⟩
    · exact hcopy b (.inr hb) hr

/-- A minor collection that promotes everything empties the nursery. -/
theorem Evacuated.emptied (he : Evacuated m m' young old survivors promoted 0 S ρ) :
    m'.own.nursery.top = m'.own.nursery.region.first := by
  have hnone : survivors = [] := by
    refine List.eq_nil_iff_forall_not_mem.mpr fun b hb => ?_
    obtain ⟨o, ho, hl, hob⟩ := he.origin b (.inl hb)
    have hp := he.copied o b.2 ho hl
    rw [if_pos (Nat.zero_le _), hob] at hp
    exact he.inv.young_ne_old hb (List.mem_append_right _ hp) rfl
  have hst := he.inv.young_stacked
  rw [hnone] at hst
  exact Eq.symm hst

/-! ## Major collections -/

/-- What the roots reach after a major collection needs no more room than what they reached
before. -/
theorem Compacted.demand (hg : Good m young old S) (hc : Compacted m m' young old ms)
    (h : Exceeds (young ++ (moves m old ms).map Copy.block) m'.Reachable room) :
    Exceeds (young ++ old) m.Reachable room := by
  obtain ⟨hg', hmv⟩ := hc.moved hg
  have hf := hc.found hg
  refine h.pull (ρ := relocate (moves m old ms)) (fun b hb hr => ?_) (Nat.le_refl _)
  rcases List.mem_append.mp hb with hb | hb
  · obtain ⟨o, ho, hbo⟩ := (hmv.reachable_iff hg'.inv.named).mp hr
    obtain ⟨n, hn | hn, -⟩ := hg.inv.placed o (ho.mem hg.closed hg.inv.roots)
    · rw [hc.stays _ hn] at hbo
      exact ⟨b.1, List.mem_append_left _ hb, hbo ▸ ho, hc.stays b hb⟩
    · -- a tenured object stays in tenured space
      obtain ⟨p, hp, rfl, -⟩ : ∃ p ∈ moves m old ms, p.old = o ∧ p.size = n :=
        exists_target (mem_marked.mpr ⟨hn, (hc.reach o).mpr ho⟩)
      rw [relocate_old hf hp] at hbo
      exact absurd hbo (hg'.inv.young_ne_old hb (List.mem_map_of_mem hp))
  · obtain ⟨p, hp, rfl⟩ := List.mem_map.mp hb
    obtain ⟨hpo, hm, -⟩ := mem_moves hf hp
    exact ⟨p.old, List.mem_append_right _ hpo, (hc.reach _).mp hm, relocate_old hf hp⟩

/-- A major collection never wants room. -/
theorem collectMajor_wants (hg : Good m young old S) :
    Runs collectMajor m (fun _ m' => ∃ ms, Compacted m m' young old ms)
      (fun f _ => f.isFatal = true ∧ ∀ s bytes, f ≠ .heapExhausted s bytes) := by
  refine (collectMajor_runs hg.inv).mono_fail fun f _ hf => ⟨hf.fatal, fun s bytes h => ?_⟩
  obtain (rfl | ⟨_, _, _, rfl⟩) | ⟨rfl, _⟩ := hf <;> cases h

/-! ## Operations -/

/-- After the collection that took `m`, where the objects of `listed` were listed, to `m'`: tenured
space has room for a full nursery, or the roots reach all that it holds. -/
structure Relieved (m m' : Machine Generational) (listed young old : List (Nat × Nat)) : Prop where
  half : m'.own.nursery.region.length = m.own.nursery.region.length
  tenured_region : m'.own.tenured.region = m.own.tenured.region
  demand : ∀ room, Exceeds (young ++ old) m'.Reachable room → Exceeds listed m.Reachable room
  reserve : m'.own.tenured.fits m'.own.nursery.region.length = true ∨ ∀ b ∈ old, m'.Reachable b.1

theorem collect_relieves (hg : Good m young old S) :
    Runs collect m (fun _ m' => ∃ young' old' S', Good m' young' old' S' ∧
      Relieved m m' (young ++ old) young' old')
      (Wants m (young ++ old)) := by
  unfold collect
  refine (collectMinor_runs hg).bind ?_
  rintro - m1 ⟨survivors, promoted, ρ, he⟩
  obtain ⟨hg1, -⟩ := he.moved hg
  have hhalf : m1.own.nursery.region.length = m.own.nursery.region.length := by
    rw [he.nursery, hg.halves]
  refine Runs.step GcM.run_own ?_
  cases hfit : m1.own.tenured.fits m1.own.nursery.region.length with
  | true =>
    simp only [Bool.not_true, Bool.false_eq_true, if_false]
    exact Runs.pure ⟨_, _, _, hg1, hhalf, he.tenured_region, fun _ => he.demand hg, .inl hfit⟩
  | false =>
    simp only [Bool.not_false, if_true]
    refine ((collectMajor_wants hg1).mono ?_).mono_fail fun f _ hf =>
      ⟨hf.1, fun s bytes h => absurd h (hf.2 s bytes)⟩
    rintro - m2 ⟨ms, hc⟩
    refine ⟨_, _, _, (hc.moved hg1).1, ?_, hc.tenured_region.trans he.tenured_region,
      fun _ h => he.demand hg (hc.demand hg1 h), .inr fun b hb => hc.tenured_reachable hg1 hb⟩
    rw [hc.nursery, hhalf]

theorem collectFull_wants (hg : Good m young old S) :
    Runs collectFull m (fun _ _ => True) (Wants m (young ++ old)) := by
  unfold collectFull
  refine (collectMinor_runs hg).bind ?_
  rintro - m1 ⟨survivors, promoted, ρ, he⟩
  exact ((collectMajor_wants (he.moved hg).1).mono fun _ _ _ => trivial).mono_fail
    fun f _ hf => ⟨hf.1, fun s bytes h => absurd h (hf.2 s bytes)⟩

/-- What is left of a collection's relief when everything is promoted: there is room, or the roots
reach too much. -/
theorem Relieved.outgrown (hg' : Good m' young old S) (h : Relieved m m' listed young old)
    (hfull : Overfull m' young 0) :
    Outgrown m listed := by
  have hover := hg'.exceeds_of_overfull hfull
  have hlive : Exceeds young (Live m') m'.own.tenured.remaining :=
    hover.mono (fun _ hb hp => ⟨hb, hp.1⟩) (Nat.le_refl _)
  rcases h.reserve with hfit | hold
  · refine absurd hlive (hg'.inv.young_stacked.not_exceeds ?_)
    have htop := hg'.inv.spaces.nursery_top
    have hfirst := hg'.inv.young_stacked.le
    rw [Bump.fits_iff, Region.length] at hfit
    rw [Bump.remaining]
    omega
  · have hboth := hg'.outgrown_of_reachable hold hlive
    rw [Outgrown, h.tenured_region] at hboth
    exact h.demand _ hboth

/-- A block is handed out if it fits. -/
theorem Good.handOut_runs (hg : Good m young old S)
    (hfits : m.own.nursery.fits (words + headerWords) = true)
    {E : Failure → Machine Generational → Prop} : Runs (handOut words) m (fun _ _ => True) E := by
  have hlim := (Bump.fits_iff _ _).mp hfits
  have hsp := hg.inv.spaces
  have h1 := hsp.below
  have h2 := hsp.tenured
  have h3 := hsp.tenured_top
  have h4 := hg.inv.old_stacked.le
  simp only [headerWords] at hlim
  exact Runs.of_eq (handOut_run hlim (by omega)) trivial

theorem allocate_wants (hg : Good m young old S)
    (hcount : (words + headerWords) * wordBytes < wordValues) :
    Runs (allocate words) m (fun _ _ => True) (Wants m (young ++ old)) := by
  rw [allocate_eq]
  refine Runs.step GcM.run_own ?_
  by_cases hlim : m.own.nursery.region.length < words + headerWords
  · simp only [hlim, if_true]
    exact Runs.stop (GcM.run_tooLarge hcount hlim) ⟨rfl, fun _ _ h => nomatch h⟩
  · simp only [hlim, if_false]
    refine Runs.step GcM.run_stressed ?_
    cases hcond : m.stress || !m.own.nursery.fits (words + headerWords) with
    | false =>
      -- there is room, and nothing is collected
      have hfits : m.own.nursery.fits (words + headerWords) = true := by
        simpa using (Bool.or_eq_false_iff.mp hcond).2
      simp only [Bool.false_eq_true, if_false]
      refine Runs.step GcM.run_own ?_
      simp only [hfits, Bool.not_true, Bool.false_eq_true, if_false]
      exact hg.handOut_runs hfits
    | true =>
      simp only [if_true]
      refine (collect_relieves hg).bind ?_
      rintro - m1 ⟨young1, old1, S1, hg1, hrel⟩
      refine Runs.step GcM.run_own ?_
      cases hfits : m1.own.nursery.fits (words + headerWords) with
      | true =>
        simp only [Bool.not_true, Bool.false_eq_true, if_false]
        exact hg1.handOut_runs hfits
      | false =>
        simp only [Bool.not_false, if_true]
        refine Runs.bind ((evacuate_runs hg1.inv).mono_fail fun f _ hf =>
          ⟨hf.1, fun s bytes h => .inl (hrel.outgrown hg1 (hf.2 s bytes h))⟩) ?_
        rintro - m2 ⟨survivors, promoted, ρ, he⟩
        refine (he.moved hg1).1.handOut_runs ?_
        have hhalf : m2.own.nursery.region.length = m.own.nursery.region.length := by
          rw [he.nursery, hg1.halves, hrel.half]
        have htop := he.emptied
        have hle := he.inv.spaces.nursery
        simp only [Region.length] at hhalf hlim
        rw [Bump.fits_iff]
        omega

end Reclaim.Generational
