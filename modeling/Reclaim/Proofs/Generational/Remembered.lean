import Reclaim.Proofs.Generational.Allocation
import Reclaim.Proofs.Underway

/-!
# The remembered set of a heap at work

A minor collection trusts the remembered set: what it does not list is not a root. `Remembers` says
what the set must be for that, and what the flags of objects say about it. It holds between any two
commands and between any two cycles of the collector, since the invariant of the generational
collector does.

Results:
* `start_intact`: a new generational heap satisfies the invariant.
* `intact_cycle`: so does a heap after a minor or a major collection.
* `Good.remembers`: the invariant says all there is to say about the remembered set.
* `underway_remembers`: at every moment the set is as it should be, and a major collection cannot
  fail because of it.
-/

namespace Reclaim.Generational

/-- What the remembered set of `g` holds of the objects that are listed. -/
structure Remembers (g : Generational) (h : Arena) (listed : List (Nat × Nat)) : Prop where
  /-- A tenured object with a field in the nursery is an entry. -/
  complete : ∀ b ∈ listed, g.tenured.region.contains b.1 = true →
    ∃ points, pointsInto g.nursery.region b.1 h = .ok points ∧
      (points = true → b.1 ∈ g.remembered.toList)
  distinct : g.remembered.toList.Nodup
  /-- The entries are tenured objects. -/
  tenured : ∀ e ∈ g.remembered.toList, g.tenured.region.contains e = true ∧ ∃ n, (e, n) ∈ listed
  room : g.remembered.length ≤ g.remembered.capacity
  /-- The remembered flag is that of the entries. -/
  flagged : ∀ b ∈ listed, hasFlag rememberedFlag b.1 h = .ok (decide (b.1 ∈ g.remembered.toList))
  /-- The tenured flag is that of the objects in tenured space. -/
  aged : ∀ b ∈ listed, hasFlag tenuredFlag b.1 h = .ok (g.tenured.region.contains b.1)

/-! ## A new heap -/

theorem spaces_build (c : Config) {words : Nat} (hw : words < 0x1000000000000000) :
    Spaces (build c words) words := by
  have hdiv : words / max c.nurseryFraction 3 ≤ words / 3 :=
    Nat.div_le_div_left (by omega) (by omega)
  have hhalf : 3 * (words / max c.nurseryFraction 3) ≤ words := by
    have h3 : words / 3 * 3 ≤ words := Nat.div_mul_le_self words 3
    generalize words / max c.nurseryFraction 3 = half at hdiv ⊢
    omega
  unfold build
  generalize words / max c.nurseryFraction 3 = half at hhalf
  refine ⟨hw, ?_, ?_, ?_, ?_, ?_, ?_, ?_, ?_⟩ <;> dsimp only [Region.ofLength, Bump.empty] <;> omega

theorem good_start (c : Config) {m : Machine Generational} (hown : m.own = build c m.heap.size)
    (hw : m.heap.size < 0x1000000000000000) (hr : m.roots.Within fun _ => False) :
    Good m [] [] fun _ => False where
  inv :=
    { spaces := by rw [hown]; exact spaces_build c hw
      young_stacked := by rw [hown]; rfl
      old_stacked := by rw [hown]; rfl
      young_sized := by simp [Sized]
      old_sized := by simp [Sized]
      no_forward := by simp
      no_mark := by simp
      young_flags := by simp
      old_flags := by simp
      flagged := by simp
      entries_nodup := by rw [hown]; exact .nil
      entries_old := by rw [hown]; simp [build]
      remembers := by simp
      linked := fun _ _ h => h.elim
      placed := fun _ h => h.elim
      roots := hr
      entries := by rw [hown]; simp [build] }
  known _ h := h.elim
  old_valid := by simp
  room := by rw [hown]; exact Nat.zero_le _
  young_fits := by simp
  halves := by rw [hown, build, Bump.empty, Region.length_ofLength, Region.length_ofLength]

/-- A new generational heap satisfies the invariant. -/
theorem start_intact {c : Config} {u : Mutator} (hc : c.strategy = .generational) (hu : c.Makes u) :
    ∃ S, Collector.Hosted Collector.generational Intact u.machine S := by
  obtain ⟨hash, rfl, hres⟩ := hu.eq
  have hbuild : Machine.ofConfig c hash =
    ⟨Arena.ofBytes c.heapSize, Roots.empty c.stackCapacity c.globalTableSize hash, c.stress, {},
      .generational (build c (Arena.ofBytes c.heapSize).size)⟩ := by
    rw [Machine.ofConfig, Collector.build, hc]
  refine ⟨fun _ => False, build c (Arena.ofBytes c.heapSize).size, ?_, [], [],
    good_start c ?_ ?_ ?_⟩
  · rw [Mutator.ofConfig, hbuild]
  · rw [Mutator.ofConfig, hbuild]
    rfl
  · rw [Mutator.ofConfig, hbuild]
    change (Arena.ofBytes c.heapSize).size < _
    rw [c.size_ofBytes]
    exact (Config.reserved hres).1
  · rw [Mutator.ofConfig, hbuild]
    exact Roots.empty_within _ _ _ _

/-! ## Cycles -/

/-- A minor or a major collection keeps the invariant. -/
theorem intact_cycle {m m' : Machine Collector} {S : Nat → Prop}
    (hi : Collector.Hosted Collector.generational Intact m S) (hc : Collector.Cycle m m') : ∃ S',
    Collector.Hosted Collector.generational Intact m' S' := by
  obtain ⟨g, hs, young, old, hg⟩ := hi
  cases hc with
  | full hs' | sliding hs' => cases hs.symm.trans hs'
  | minor threshold hs' hrun =>
    cases hs.symm.trans hs'
    obtain ⟨⟨survivors, promoted, ρ, hc⟩, -⟩ := (evacuate_records hg.inv).ok hrun
    exact ⟨_, _, rfl, _, _, (hc.moved hg).1⟩
  | major hs' hrun =>
    cases hs.symm.trans hs'
    obtain ⟨⟨ms, hc⟩, -⟩ := (collectMajor_records hg.inv).ok hrun
    exact ⟨_, _, rfl, _, _, (hc.moved hg).1⟩

/-! ## Every moment -/

section Good

variable {m : Machine Generational} {young old : List (Nat × Nat)} {S : Nat → Prop}

theorem Inv.not_contains_young (hi : Inv m young old S) {o n : Nat} (hb : (o, n) ∈ young) :
    m.own.tenured.region.contains o = false := by
  have hbd := hi.young_bounds hb
  have ht := hi.spaces.nursery_top
  have h1 := hi.spaces.below
  refine Bool.eq_false_iff.mpr fun hc => ?_
  rw [Region.contains_iff] at hc
  omega

/-- The header of every block can be read. -/
theorem Inv.header_inside (hi : Inv m young old S) {o n : Nat}
    (hb : (o, n) ∈ young ∨ (o, n) ∈ old) : 1 ≤ o ∧ o - 1 < m.heap.size := by
  have hsp := hi.spaces
  have h1 := hsp.nursery_top
  have h2 := hsp.below
  have h3 := hsp.tenured_top
  have h4 := hsp.tenured
  have h5 := hi.old_stacked.le
  rcases hb with hb | hb
  · have hbd := hi.young_bounds hb
    omega
  · have hbd := hi.old_bounds hb
    omega

/-- The invariant says what the remembered set and the flags are. -/
theorem Good.remembers (hg : Good m young old S) : Remembers m.own m.heap (young ++ old) := by
  have hi := hg.inv
  have hnot : ∀ b ∈ young, b.1 ∉ m.own.remembered.toList := by
    intro b hb he
    obtain ⟨n, hn⟩ := hi.entries_old _ he
    have h1 := hi.contains_old hn
    rw [hi.not_contains_young hb] at h1
    cases h1
  refine ⟨?_, hi.entries_nodup, ?_, ?_, ?_, ?_⟩
  · intro b hb hc
    rcases List.mem_append.mp hb with hb | hb
    · rw [hi.not_contains_young hb] at hc
      cases hc
    · have hS := hg.old_valid b hb
      have hin := (hg.objects_apart.inside _ hS).2
      have hrun : pointsInto m.own.nursery.region b.1 m.heap
          = .ok ((m.heap.succ b.1).any m.own.nursery.region.contains) :=
            anyChild_run _ (hg.known _ hS) hin
      exact ⟨_, hrun, fun hany => hi.remembers b hb hS (List.any_eq_true.mp hany)⟩
  · intro e he
    obtain ⟨n, hn⟩ := hi.entries_old e he
    exact ⟨hi.contains_old hn, n, List.mem_append_right _ hn⟩
  · have hr := hg.room
    rw [RememberedSet.toList, Array.length_toList] at hr
    exact hr
  · intro b hb
    have hb' := List.mem_append.mp hb
    obtain ⟨h1, h2⟩ := hi.header_inside hb'
    rw [hasFlag_run h1 h2]
    rcases hb' with hb' | hb'
    · simp [(hi.young_flags b hb').2, hnot b hb']
    · by_cases he : b.1 ∈ m.own.remembered.toList
      · simp [(hi.flagged b hb').mpr he, he]
      · have hz : m.heap.word (b.1 - 1) &&& rememberedFlag = 0 :=
          Decidable.byContradiction fun hne => he ((hi.flagged b hb').mp hne)
        simp [hz, he]
  · intro b hb
    have hb' := List.mem_append.mp hb
    obtain ⟨h1, h2⟩ := hi.header_inside hb'
    rw [hasFlag_run h1 h2]
    rcases hb' with hb' | hb'
    · rw [hi.not_contains_young hb', (hi.young_flags b hb').1]
      rfl
    · rw [hi.contains_old hb']
      simp [hi.old_flags b hb']

end Good

/-- At every moment of a generational heap at work, between commands and between the cycles of the
collector, the remembered set is as it should be, and a major collection ends or overflows its mark
stack. -/
theorem underway_remembers {c : Config} {u : Mutator} {H : Nat → Prop}
    (hc : c.strategy = .generational) (hw : Underway c u H) :
    ∃ g listed, u.machine.own = .generational g ∧ u.objects = .ok listed ∧
    Remembers g u.machine.heap listed ∧
      Runs collectMajor (u.machine.withOwn g) (fun _ _ => True) fun f _ =>
      f = .markStackOverflow g.markCapacity := by
  obtain ⟨-, S, ⟨g, hown, young, old, hg⟩, -⟩ := hw.good (laws.hosted hosts) intact_cycle
    fun _ hu => start_intact hc hu
  refine ⟨g, young ++ old, hown, ?_, hg.remembers, ?_⟩
  · rw [Mutator.objects, Mutator.view, hown]
    exact hg.inv.objects
  · refine (collectMajor_runs_of_room hg.inv (fun o ho => ?_) hg.room).mono fun _ _ _ => trivial
    exact hg.known o (ho.mem_of_closed hg.closed fun _ h => hg.inv.roots.refers h)

/-- A small heap that promotes what survives twice. -/
def sample : Config :=
  { strategy := .generational, heapSize := 512, stackCapacity := 4, globalTableSize := 1,
    tenuringThreshold := 2 }

/-- A pair is promoted, and then made to refer to a new one. -/
def crossed : Mutator :=
  (Command.setCar (.ofRef 27) (.ofRef 3)).after
    ((Command.cons .nil .nil).after (Command.collect.after (Command.collect.after
    ((Command.push (.ofRef 3)).after ((Command.cons .nil .nil).after (Mutator.ofConfig sample))))))

theorem session_crossed : ∃ H, Session sample crossed H := by
  let u0 := Mutator.ofConfig sample
  let u1 := (Command.cons .nil .nil).after u0
  let u2 := (Command.push (.ofRef 3)).after u1
  let u3 := Command.collect.after u2
  let u4 := Command.collect.after u3
  let u5 := (Command.cons .nil .nil).after u4
  have hnil : ∀ (u : Mutator) H, ∀ v ∈ [Value.nil, Value.nil], u.Allows H v := by
    intro u H v hv
    simp only [List.mem_cons, List.not_mem_nil, or_false, or_self] at hv
    rw [hv]
    exact Mutator.allows_immediate rfl
  have h0 : Session sample u0 _ := .start ⟨_, rfl⟩
  have h1 := h0.next (.cons .nil .nil) [.ofRef 3] (by decide +kernel)
    (by decide +kernel) (hnil u0 _)
  have h2 := h1.next (.push (.ofRef 3)) [] (by decide +kernel) (by decide +kernel) (by
    simp only [Command.operands, List.mem_singleton, forall_eq]
    exact Mutator.allows_returned (n := 6) (by decide) (by decide)
      (show u1.objects.toOption = some [(3, 6)] by decide +kernel) (by simp))
  have h3 := h2.next .collect [] (by decide +kernel) (by decide +kernel)
    (by simp [Command.operands])
  have h4 := h3.next .collect [] (by decide +kernel) (by decide +kernel)
    (by simp [Command.operands])
  have h5 := h4.next (.cons .nil .nil) [.ofRef 3] (by decide +kernel)
    (by decide +kernel) (hnil u4 _)
  exact ⟨_, h5.next (.setCar (.ofRef 27) (.ofRef 3)) [] (by decide +kernel) (by decide +kernel) (by
    intro v hv
    simp only [Command.operands, List.mem_cons, List.not_mem_nil, or_false] at hv
    rcases hv with rfl | rfl
    · exact Mutator.allows_root (.stack 0) (by decide) (by decide) (by decide +kernel)
    · exact Mutator.allows_returned (n := 6) (by decide) (by decide)
        (show u5.objects.toOption = some [(3, 6), (27, 6)] by decide +kernel)
        (by simp))⟩

/-- A minor collection alone moves the new pair to the other half of the nursery, and the old one
stays an entry. -/
theorem crossing_remembered : ∃ g m' H, crossed.machine.own = .generational g ∧
    evacuate g.threshold (crossed.machine.withOwn g) = .ok () m' ∧
    Underway sample (crossed.withMachine (m'.withOwn (.generational m'.own))) H ∧
    m'.own.remembered.toList = [27] ∧
    ∃ listed, Remembers m'.own m'.heap listed ∧ (15, 6) ∈ listed := by
  obtain ⟨H, hs⟩ := session_crossed
  let g : Generational :=
    ⟨⟨⟨0, 12⟩, 6⟩, ⟨12, 24⟩, ⟨⟨24, 64⟩, 30⟩, ⟨#[27], 100⟩, 1000, 2⟩
  have hown : crossed.machine.own = .generational g := by decide +kernel
  have hok : (match evacuate g.threshold (crossed.machine.withOwn g) with
      | .ok _ m' => m'.own.remembered.toList == [27] &&
        (crossed.withMachine (m'.withOwn (.generational m'.own))).objects.toOption ==
          some [(15, 6), (27, 6)]
      | .error _ _ => false) = true := by decide +kernel
  cases hrun : evacuate g.threshold (crossed.machine.withOwn g) with
  | ok a m' =>
    rw [hrun] at hok
    obtain ⟨hrem, hlisted⟩ := Bool.and_eq_true_iff.mp hok
    have hw := (Underway.idle hs).cycle (.minor g.threshold hown hrun)
    obtain ⟨g', listed, hown', hlisted', hremembers, -⟩ := underway_remembers rfl hw
    cases hown'
    cases hlisted'.symm.trans (eq_ok_of_toOption (eq_of_beq hlisted))
    exact ⟨g, m', _, hown, hrun, hw, eq_of_beq hrem, _, hremembers, .head _⟩
  | error e m' =>
    rw [hrun] at hok
    cases hok

end Reclaim.Generational
