import Reclaim.Proofs.Generational.Minor
import Reclaim.Proofs.Generational.Remembering

/-!
# Minor collection: visiting what was copied

Survivors and promoted objects are visited in the order in which they were copied, each from where
the last visit stopped, until both are done. `Scanned` is the state between two visits: the
survivors `ys` and the promoted objects `os` are visited, and so are the objects that were
remembered at the start. Promoted objects that refer to survivors join the remembered set as they
are visited, so what is dropped from a full set is dropped for good.

Results:
* `Minor.recalled`: adding a visited object to the remembered set keeps the state.
* `scanYoung_runs`, `scanOld_runs`, `scanAll_runs`: the loops end, with everything visited.
-/

namespace Reclaim.Generational

/-- How the visit of a promoted object ends: it is remembered if it refers to a survivor, unless it
is already. -/
def enroll (young : Region) (obj : Nat) : GcM (Generational × Evacuation) Unit := do
  if !(← hasFlag rememberedFlag obj) then
    if ← pointsInto young obj then remember young obj

/-- One step of the visits of promoted objects. -/
theorem scanOld_succ (young : Region) (n scan : Nat) : scanOld young (n + 1) scan = (do
    if scan < (← GcM.scratch).tenured.top then
      let obj := scan + headerWords
      traceObject forward obj
      enroll young obj
      scanOld young n (scan + (← blockSize obj))
    else return scan) := by
  rw [scanOld]
  simp only [enroll, bind_assoc]
  congr! with ev h _ flag
  cases flag
  · simp only [bind_assoc, Bool.not_false, if_true]
    congr! with points
    cases points <;> simp
  · simp

variable {m₀ : Machine Generational} {young old : List (Nat × Nat)} {threshold : Nat}

namespace Minor

variable {X : Nat → Prop} {m : Machine (Generational × Evacuation)} {g : Survivors}
  {done : List Nat}

theorem payload_eq (hM : Minor m₀ young old threshold X m g done) {c : Copy} (hc : Placed old g c) :
    m.heap.payload c.new = m₀.heap.payload c.old := Arena.payload_congr (hM.evac.head hc)

/-- An image that may be visited can be read, if it is that of an object. -/
theorem readable (hi : Inv m₀ young old (Live m₀)) (hM : Minor m₀ young old threshold X m g done)
    {c : Copy} (hc : Traced m₀ old g c) (hk : m₀.heap.tag c.old ≠ none) :
    ReadableAt m.heap c.new := by
  obtain ⟨-, hs⟩ := hM.fits hi hc
  have hci := hM.evac.inside c hc.placed
  have hsize := hM.evac.size_eq
  simp only [header_words] at hci
  refine ⟨by omega, ?_, ?_⟩
  · rw [hM.evac.tag hc.placed]
    exact hk
  · rw [hM.payload_eq hc.placed]
    omega

theorem entries_readable (hi : Inv m₀ young old (Live m₀))
    (hM : Minor m₀ young old threshold X m g done) (hE : ∀ e ∈ m.own.1.remembered.toList, X e) :
    ∀ e ∈ m.own.1.remembered.toList, ReadableAt m.heap e := by
  intro e he
  obtain ⟨c, hc, rfl, hk, -⟩ := hM.settled e (hE e he)
  exact hM.readable hi hc hk

theorem entries_apart (hi : Inv m₀ young old (Live m₀))
    (hM : Minor m₀ young old threshold X m g done) :
    FlagsApart m.heap m.own.1.remembered.toList := by
  intro e he o ho
  obtain ⟨c, hc, -, rfl⟩ := hM.entries_traced e he
  obtain ⟨d, hd, -, rfl⟩ := hM.entries_traced o ho
  obtain ⟨-, hs⟩ := hM.fits hi hd
  have hci := hM.evac.inside c hc.placed
  rw [hM.payload_eq hd.placed]
  simp only [header_words] at hci
  rcases hM.evac.apart c d hc.placed hd.placed with rfl | h | h <;> omega

/-- A flag word lies in the header of one image only. -/
theorem flag_unique (hM : Minor m₀ young old threshold X m g done) {c d : Copy}
    (hc : Placed old g c) (hd : Placed old g d) {a : Nat} (ha : a + 1 = d.new) (h1 : c.new ≤ a + 3)
    (h2 : a + 3 < c.new + c.size) :
    a + 1 = c.new := by
  have hci := hM.evac.inside c hc
  have hdi := hM.evac.inside d hd
  simp only [header_words] at hci hdi
  rcases hM.evac.apart c d hc hd with rfl | h | h <;> omega

/-! ### The words that change when an object joins the remembered set -/

section Relisted

variable {m' : Machine Generational} {c : Copy}

/-- Only flag words change, those of entries and of the object itself. -/
theorem relisted_word (hM : Minor m₀ young old threshold X m g done) (hc : Placed old g c)
    (hcy : c ∉ g.young) (hr : Relisted c.new (m.withOwn m.own.1) m') {a : Nat}
    (ha : ∀ d, Placed old g d → d ∉ g.young → a + 1 ≠ d.new) :
    m'.heap.word a = m.heap.word a := by
  refine hr.other a (ha c hc hcy) fun he => ?_
  obtain ⟨d, hd, hdy, hde⟩ := hM.entries_traced _ he
  exact absurd hde.symm (ha d hd.placed hdy)

/-- The words of an image stay, except its flags. -/
theorem relisted_image (hM : Minor m₀ young old threshold X m g done) (hc : Placed old g c)
    (hcy : c ∉ g.young) (hr : Relisted c.new (m.withOwn m.own.1) m') {d : Copy}
    (hd : Placed old g d) {a : Nat} (h1 : a + 3 < d.new + d.size)
    (h2 : d.new ≤ a ∨ a + 2 = d.new ∨ a + 3 = d.new) :
    m'.heap.word a = m.heap.word a := by
  refine hM.relisted_word hc hcy hr fun d' hd' _ ha => ?_
  have hself := hM.flag_unique hd hd' ha (by omega) h1
  omega

theorem relisted_evac (hM : Minor m₀ young old threshold X m g done) (hc : Placed old g c)
    (hcy : c ∉ g.young) (hr : Relisted c.new (m.withOwn m.own.1) m') :
    Evac header m₀.heap m'.heap young (Placed old g) done := by
  refine hM.evac.congr hr.size_eq (fun b hb a h1 h2 => ?_) (fun d hd a h1 h2 => ?_) header_distinct
  · simp only [header_words] at h1 h2
    refine hM.relisted_word hc hcy hr fun d hd _ ha => ?_
    have hcl := hM.evac.clear d hd b hb
    have hdi := hM.evac.inside d hd
    simp only [header_words] at hdi
    omega
  · exact hM.relisted_image hc hcy hr hd h1 h2

theorem relisted_own (hM : Minor m₀ young old threshold X m g done)
    (hr : Relisted c.new (m.withOwn m.own.1) m') :
    m'.own = remembering m₀.own m'.own.remembered.toList := by
  have ho := hr.own
  rw [Machine.withOwn_own, hM.own] at ho
  exact ho

/-- A collection that cannot remember an object stops here. -/
theorem relisted (hM : Minor m₀ young old threshold X m g done) (hc : Placed old g c)
    (hcy : c ∉ g.young) (hr : Relisted c.new (m.withOwn m.own.1) m') :
    Interrupted m₀ young old m' := by
  refine ⟨g, done, hM.relisted_evac hc hcy hr, hM.relisted_own hr, hM.live, ?_,
    hr.stats.trans hM.stats⟩
  rw [hr.roots]
  exact hM.roots

end Relisted

section Recalled

variable {m' : Machine Generational} {kept : List Nat} {c : Copy}

/-- The flags of an image stay if neither it is the object nor an entry that is dropped. -/
theorem recalled_flags_eq (hM : Minor m₀ young old threshold X m g done)
    (hr : Recalled m₀.own.survivorSpace c.new (m.withOwn m.own.1) m' kept) {d : Copy}
    (hd : Placed old g d) (hdc : d.new ≠ c.new)
    (hk : d.new ∈ m.own.1.remembered.toList → d.new ∈ kept) :
    m'.heap.word (d.new - 1) = m.heap.word (d.new - 1) := by
  have hdi := hM.evac.inside d hd
  simp only [header_words] at hdi
  have hd1 : d.new - 1 + 1 = d.new := by omega
  exact hr.other (d.new - 1) (by omega) (by rw [hd1]; exact hk)

/-- Of the flags of an image at most the remembered bit changes. -/
theorem recalled_flags (hM : Minor m₀ young old threshold X m g done)
    (hr : Recalled m₀.own.survivorSpace c.new (m.withOwn m.own.1) m' kept) {d : Copy}
    (hd : Placed old g d) :
    m'.heap.word (d.new - 1) &&& ~~~rememberedFlag = m.heap.word (d.new - 1) &&&
    ~~~rememberedFlag := by
  by_cases hdc : d.new = c.new
  · rw [hdc, hr.flag_self]
    exact or_and_not_self _ _
  · by_cases hk : d.new ∈ m.own.1.remembered.toList → d.new ∈ kept
    · rw [hM.recalled_flags_eq hr hd hdc hk]
    · simp only [Classical.not_imp] at hk
      rw [hr.flag_dropped d.new hk.1 hk.2]
      exact and_not_and_not_self _ _

/-- The remembered bit is that of the entries again. -/
theorem recalled_flagged (hM : Minor m₀ young old threshold X m g done)
    (hr : Recalled m₀.own.survivorSpace c.new (m.withOwn m.own.1) m' kept) {d : Copy}
    (hd : Placed old g d) (hdy : d ∉ g.young) :
    m'.heap.word (d.new - 1) &&& rememberedFlag ≠ 0 ↔ d.new ∈ m'.own.remembered.toList := by
  simp only [hr.own, remembering_toList, List.mem_append, List.mem_singleton]
  by_cases hdc : d.new = c.new
  · rw [hdc, hr.flag_self, or_and_self]
    simp [rememberedFlag]
  · by_cases hk : d.new ∈ m.own.1.remembered.toList → d.new ∈ kept
    · rw [hM.recalled_flags_eq hr hd hdc hk, hM.flagged d hd hdy]
      exact ⟨fun he => .inl (hk he), fun he => he.elim (fun he => hr.sublist.subset he)
        fun he => absurd he hdc⟩
    · simp only [Classical.not_imp] at hk
      rw [hr.flag_dropped d.new hk.1 hk.2, and_not_and_self]
      simp [hk.2, hdc]

/-- What was settled stays so: it refers to what it referred to, and of the entries only those were
dropped that refer to no survivor. -/
theorem recalled_settled (hi : Inv m₀ young old (Live m₀))
    (hM : Minor m₀ young old threshold X m g done) (hc : Placed old g c) (hcy : c ∉ g.young)
    (hr : Recalled m₀.own.survivorSpace c.new (m.withOwn m.own.1) m' kept) {x : Nat} (hx : X x) :
    ∃ d, Traced m₀ old g d ∧ d.new = x ∧ m₀.heap.tag d.old ≠ none ∧
    (∀ a, d.IsField m₀.heap a → a ∈ done) ∧
      (PointsInto m'.heap m₀.own.survivorSpace x → x ∈ m'.own.remembered.toList) := by
  obtain ⟨d, hd, rfl, hdk, hdf, hp⟩ := hM.settled x hx
  refine ⟨d, hd, rfl, hdk, hdf, fun hpt => ?_⟩
  have hsucc : m'.heap.succ d.new = m.heap.succ d.new := hM.succ_settled hi hd fun i _ =>
    hM.relisted_image hc hcy hr.relisted hd.placed (by omega) (.inl (by omega))
  have hpt : PointsInto m.heap m₀.own.survivorSpace d.new := by
    unfold PointsInto at hpt ⊢
    rwa [← hsucc]
  have hkept : d.new ∈ kept := Classical.byContradiction fun hk => hr.dropped d.new (hp hpt) hk hpt
  simp [hr.own, hkept]

/-- Adding a visited object to the remembered set keeps the state, and the object is settled. -/
theorem recalled (hi : Inv m₀ young old (Live m₀)) (hM : Minor m₀ young old threshold X m g done)
    (hc : Traced m₀ old g c) (hcy : c ∉ g.young) (hk : m₀.heap.tag c.old ≠ none)
    (hnew : c.new ∉ m.own.1.remembered.toList) (hf : ∀ a, c.IsField m₀.heap a → a ∈ done)
    (hr : Recalled m₀.own.survivorSpace c.new (m.withOwn m.own.1) m' kept) :
    Minor m₀ young old threshold (fun x => X x ∨ x = c.new)
    (m'.withOwn (m'.own, m.own.2)) g done where
  evac := hM.relisted_evac hc.placed hcy hr.relisted
  own := hM.relisted_own hr.relisted
  threshold_eq := hM.threshold_eq
  survivors_region := hM.survivors_region
  tenured_region := hM.tenured_region
  young_stacked := hM.young_stacked
  young_room := hM.young_room
  old_stacked := hM.old_stacked
  old_room := hM.old_room
  live := hM.live
  traced := hM.traced
  young_flags d hd := by
    have hdi := hM.evac.inside d (.inr (.inl hd))
    simp only [header_words] at hdi
    have hw : m'.heap.word (d.new - 1) = m.heap.word (d.new - 1) := by
      refine hM.relisted_word hc.placed hcy hr.relisted fun d' hd' hy' ha => hy' ?_
      rw [← hM.evac.eq_of_new (.inr (.inl hd)) hd' (by omega)]
      exact hd
    rw [Machine.withOwn_heap, hw]
    exact hM.young_flags d hd
  promoted_flags d hd := by
    rw [Machine.withOwn_heap, hM.recalled_flags hr (.inr (.inr hd))]
    exact hM.promoted_flags d hd
  old_flags b hb := (hM.recalled_flags hr (d := stay b) (.inl ⟨b, hb, rfl⟩)).trans
    (hM.old_flags b hb)
  flagged d hd hdy := hM.recalled_flagged hr hd hdy
  entries_nodup := by
    simp only [Machine.withOwn_own, hr.own, remembering_toList]
    refine List.nodup_append.mpr ⟨hM.entries_nodup.sublist hr.sublist, by simp, ?_⟩
    rintro a ha b hb rfl
    obtain rfl := List.mem_singleton.mp hb
    exact hnew (hr.sublist.subset ha)
  entries_traced e he := by
    simp only [Machine.withOwn_own, hr.own, remembering_toList, List.mem_append,
      List.mem_singleton] at he
    rcases he with he | rfl
    · exact hM.entries_traced e (hr.sublist.subset he)
    · exact ⟨c, hc, hcy, rfl⟩
  settled x hx := by
    rcases hx with hx | rfl
    · exact hM.recalled_settled hi hc.placed hcy hr hx
    · exact ⟨c, hc, rfl, hk, hf, fun _ => by simp [hr.own]⟩
  room _ := by
    have hroom := hr.room
    simp only [Machine.withOwn_own, hr.own, remembering_toList, remembering_capacity,
      List.length_append,
      List.length_singleton] at hroom ⊢
    omega
  stress := hr.stress.trans hM.stress
  stats := hr.stats.trans hM.stats
  counted := hM.counted
  roots := by
    rw [Machine.withOwn_roots, hr.roots]
    exact hM.roots

end Recalled

theorem remember_runs (hi : Inv m₀ young old (Live m₀))
    (hM : Minor m₀ young old threshold X m g done) {c : Copy} (hc : Traced m₀ old g c)
    (hcy : c ∉ g.young) (hk : m₀.heap.tag c.old ≠ none) (hnew : c.new ∉ m.own.1.remembered.toList)
    (hf : ∀ a, c.IsField m₀.heap a → a ∈ done) (hE : ∀ e ∈ m.own.1.remembered.toList, X e) :
    Runs (liftM (remember m₀.own.survivorSpace c.new) : GcM (Generational × Evacuation) Unit) m
      (fun _ m' => Minor m₀ young old threshold (fun x => X x ∨ x = c.new) m' g done ∧
        (∀ e ∈ m'.own.1.remembered.toList, X e ∨ e = c.new) ∧ m'.roots = m.roots)
          (BreaksOff m₀ young old threshold) := by
  have hrun := Generational.remember_runs (m := m.withOwn m.own.1) (r := m₀.own.survivorSpace)
    (hM.entries_readable hi hE) (hM.entries_apart hi) (hM.readable hi hc hk) hnew
  refine GcM.runs_lift ((hrun.mono ?_).mono_fail ?_)
  · rintro - m' ⟨kept, hr⟩
    refine ⟨hM.recalled hi hc hcy hk hnew hf hr, fun e he => ?_, hr.roots⟩
    simp only [Machine.withOwn_own, hr.own, remembering_toList, List.mem_append,
      List.mem_singleton] at he
    exact he.imp (fun hk => hE e (hr.sublist.subset hk)) id
  · -- the set is full, which is no want of room
    rintro f m' ⟨rfl, hr⟩
    exact ⟨⟨rfl, fun _ _ h => nomatch h⟩, hM.relisted hc.placed hcy hr⟩

/-- A visited object that needs no entry is settled. -/
theorem settle (hM : Minor m₀ young old threshold X m g done) {c : Copy} (hc : Traced m₀ old g c)
    (hk : m₀.heap.tag c.old ≠ none) (hf : ∀ a, c.IsField m₀.heap a → a ∈ done)
    (hp : PointsInto m.heap m₀.own.survivorSpace c.new → c.new ∈ m.own.1.remembered.toList) :
    Minor m₀ young old threshold (fun x => X x ∨ x = c.new) m g done :=
  { hM with
    settled := by
      rintro x (hx | rfl)
      · exact hM.settled x hx
      · exact ⟨c, hc, rfl, hk, hf, hp⟩ }

theorem congr_settled (hM : Minor m₀ young old threshold X m g done) {Y : Nat → Prop}
    (hY : ∀ x, Y x → X x) :
    Minor m₀ young old threshold Y m g done :=
  { hM with settled := fun x hx => hM.settled x (hY x hx) }

/-- Visiting an image that is not among the visited ones `W`: it is that of an object, or the visit
fails. -/
theorem trace (hi : Inv m₀ young old (Live m₀)) (hM : Minor m₀ young old threshold X m g done)
    {W : Copy → Prop} (hdone : ∀ a, a ∈ done ↔ ∃ d, W d ∧ d.IsField m₀.heap a)
    (hW : ∀ d, W d → Traced m₀ old g d) {c : Copy} (hc : Traced m₀ old g c) (hn : ¬ W c) :
    Runs (traceObject forward c.new) m (fun _ m' => m₀.heap.tag c.old ≠ none ∧ ∃ g' done', g.le g' ∧
      Minor m₀ young old threshold X m' g' done' ∧
      (∀ a, a ∈ done' ↔ ∃ d, (W d ∨ d = c) ∧ d.IsField m₀.heap a) ∧
      m'.roots = m.roots ∧ m'.own.1 = m.own.1) (BreaksOff m₀ young old threshold) := by
  obtain ⟨hlive, hs⟩ := hM.fits hi hc
  by_cases hk : m₀.heap.tag c.old = none
  · have hci := hM.evac.inside c hc.placed
    have hsize := hM.evac.size_eq
    simp only [header_words] at hci
    exact traceObject_fails ((hM.evac.tag hc.placed).trans hk) (by omega)
      ⟨⟨rfl, fun _ _ h => nomatch h⟩, hM.interrupted⟩
  have hV : ∀ i, c.IsField m₀.heap (c.new + i) → (m₀.heap.value (c.old + i)).Within (Live m₀) := by
    rintro i ⟨ht, j, hj, hij, -⟩
    exact hi.linked _ _ hlive ht (by omega)
  have hd : ∀ a ∈ done, ¬ c.IsField m₀.heap a := by
    intro a ha hca
    obtain ⟨d, hdv, hda⟩ := (hdone a).mp ha
    have hdT := hW d hdv
    obtain ⟨-, hds⟩ := hM.fits hi hdT
    have hcd := hM.evac.eq_of_isField hc.placed hdT.placed hs hds hca hda
    exact hn (hcd ▸ hdv)
  refine ((evacuates hi threshold X m.own.1).traceObject_runs ⟨hM, rfl⟩ hc hk hs hV hd).mono ?_
  rintro - m' ⟨g', done', hle, ⟨hM', hown⟩, hdone', hroots⟩
  refine ⟨hk, g', done', hle, hM', fun a => ?_, hroots, hown⟩
  rw [hdone' a, hdone a]
  constructor
  · rintro (⟨d, hd, hf⟩ | hf)
    · exact ⟨d, .inl hd, hf⟩
    · exact ⟨c, .inr rfl, hf⟩
  · rintro ⟨d, hd | rfl, hf⟩
    · exact .inl ⟨d, hd, hf⟩
    · exact .inr hf

/-- Survivors lie in the nursery, and every other image in tenured space. -/
theorem survivor_apart (hi : Inv m₀ young old (Live m₀))
    (hM : Minor m₀ young old threshold X m g done) {c d : Copy} (hc : c ∈ g.young)
    (hd : (∃ b ∈ old, d = stay b) ∨ d ∈ g.old) : c ≠ d := by
  rintro rfl
  have hcb := hM.survivor_bounds hc
  have h1 := hi.spaces.survivor_below
  have h2 := hM.young_room
  have h3 := hi.old_stacked.le
  rcases hd with ⟨b, hb, rfl⟩ | hd
  · have hob := hi.old_bounds hb
    simp only [stay] at hcb
    omega
  · have hdb := hM.promoted_bounds hd
    omega

/-- An image has the size of what it was copied from. -/
theorem blockSize_run (hM : Minor m₀ young old threshold X m g done) {c : Copy}
    (hc : Placed old g c) :
    blockSize c.new m.heap = .ok c.size := by
  have hin := hM.evac.inside c hc
  have hsize := hM.evac.size_eq
  simp only [header_words] at hin
  rw [← hM.evac.new_size c hc]
  exact Generational.blockSize_run (by omega) (by omega)

/-- A visited object joins the remembered set if it refers to a survivor, and is settled. -/
theorem enroll_runs (hi : Inv m₀ young old (Live m₀)) (hM : Minor m₀ young old threshold X m g done)
    {c : Copy} (hc : Traced m₀ old g c) (hcy : c ∉ g.young) (hk : m₀.heap.tag c.old ≠ none)
    (hf : ∀ a, c.IsField m₀.heap a → a ∈ done) (hE : ∀ e ∈ m.own.1.remembered.toList, X e) :
    Runs (enroll m₀.own.survivorSpace c.new) m
      (fun _ m' => Minor m₀ young old threshold (fun x => X x ∨ x = c.new) m' g done ∧
        (∀ e ∈ m'.own.1.remembered.toList, X e ∨ e = c.new) ∧ m'.roots = m.roots)
          (BreaksOff m₀ young old threshold) := by
  have hci := hM.evac.inside c hc.placed
  have hsize := hM.evac.size_eq
  have hflag := hM.flagged c hc.placed hcy
  simp only [header_words] at hci
  refine Runs.step (read_lift (hasFlag_run (by omega) (by omega))) ?_
  by_cases hfl : m.heap.word (c.new - 1) &&& rememberedFlag = 0
  · rw [if_pos (by simp [hfl])]
    refine Runs.step (read_lift (pointsInto_run (hM.readable hi hc hk))) ?_
    cases hp : pointsInto? m.heap m₀.own.survivorSpace c.new with
    | true => exact hM.remember_runs hi hc hcy hk (fun he => hflag.mpr he hfl) hf hE
    | false =>
      refine Runs.pure ⟨hM.settle hc hk hf fun hpt => ?_, fun e he => .inl (hE e he), rfl⟩
      rw [pointsInto?_iff.mpr hpt] at hp
      cases hp
  · rw [if_neg (by simp [hfl])]
    exact Runs.pure ⟨hM.settle hc hk hf fun _ => hflag.mp hfl, fun e he => .inl (hE e he), rfl⟩

end Minor

/-! ## The state between two visits -/

/-- The objects whose fields are final once the promoted objects `os` are visited. -/
def FieldsFinal (m₀ : Machine Generational) (os : List Copy) (x : Nat) : Prop :=
  x ∈ m₀.own.remembered.toList ∨ ∃ c ∈ os, c.new = x

/-- The images whose fields have been visited. -/
def Visited (m₀ : Machine Generational) (old : List (Nat × Nat)) (ys os : List Copy)
    (c : Copy) : Prop :=
  (∃ b ∈ old, c = stay b ∧ b.1 ∈ m₀.own.remembered.toList) ∨ c ∈ ys ∨ c ∈ os

/-- The survivors `ys` and the promoted objects `os` have been visited, and no others. -/
structure Scanned (m₀ : Machine Generational) (young old : List (Nat × Nat)) (threshold : Nat)
    (ys os : List Copy) (m : Machine (Generational × Evacuation)) (g : Survivors) : Prop where
  minor : ∃ done, Minor m₀ young old threshold (FieldsFinal m₀ os) m g done ∧
    ∀ a, a ∈ done ↔ ∃ c, Visited m₀ old ys os c ∧ c.IsField m₀.heap a
  young_prefix : ys <+: g.young
  old_prefix : os <+: g.old
  entries : ∀ e ∈ m.own.1.remembered.toList, FieldsFinal m₀ os e

namespace Scanned

variable {ys os : List Copy} {m : Machine (Generational × Evacuation)} {g : Survivors}

theorem visited_traced (hS : Scanned m₀ young old threshold ys os m g) {c : Copy}
    (hc : Visited m₀ old ys os c) :
    Traced m₀ old g c :=
  hc.imp id fun hc => hc.imp (fun hy => hS.young_prefix.subset hy) fun ho => hS.old_prefix.subset ho

/-- Visiting one more image. -/
theorem trace (hi : Inv m₀ young old (Live m₀)) (hS : Scanned m₀ young old threshold ys os m g)
    {c : Copy} (hc : Traced m₀ old g c) (hn : ¬ Visited m₀ old ys os c) :
    Runs (traceObject forward c.new) m (fun _ m' => m₀.heap.tag c.old ≠ none ∧ ∃ g' done', g.le g' ∧
      Minor m₀ young old threshold (FieldsFinal m₀ os) m' g' done' ∧
      (∀ a, a ∈ done' ↔ ∃ d, (Visited m₀ old ys os d ∨ d = c) ∧ d.IsField m₀.heap a) ∧
      m'.roots = m.roots ∧ m'.own.1 = m.own.1) (BreaksOff m₀ young old threshold) := by
  obtain ⟨done, hM, hdone⟩ := hS.minor
  exact hM.trace hi hdone (fun _ => hS.visited_traced) hc hn

/-- A survivor that the visits have not come to is not visited. -/
theorem survivor_unvisited (hi : Inv m₀ young old (Live m₀))
    (hS : Scanned m₀ young old threshold ys os m g) {c : Copy} (hc : c ∈ g.young) (hn : c ∉ ys) :
    ¬ Visited m₀ old ys os c := by
  obtain ⟨done, hM, -⟩ := hS.minor
  rintro (⟨b, hb, rfl, -⟩ | hy | ho)
  · exact hM.survivor_apart hi hc (.inl ⟨b, hb, rfl⟩) rfl
  · exact hn hy
  · exact hM.survivor_apart hi hc (.inr (hS.old_prefix.subset ho)) rfl

/-- A promoted object that the visits have not come to is not visited. -/
theorem promoted_unvisited (hi : Inv m₀ young old (Live m₀))
    (hS : Scanned m₀ young old threshold ys os m g) {c : Copy} (hc : c ∈ g.old) (hn : c ∉ os) :
    ¬ Visited m₀ old ys os c := by
  obtain ⟨done, hM, -⟩ := hS.minor
  have hcb := hM.promoted_bounds hc
  rintro (⟨b, hb, rfl, -⟩ | hy | ho)
  · have hob := hi.old_bounds hb
    simp only [stay] at hcb
    omega
  · exact hM.survivor_apart hi (hS.young_prefix.subset hy) (.inr hc) rfl
  · exact hn ho

/-- The visits of survivors end where the survivors end. -/
theorem scanYoung_runs (hi : Inv m₀ young old (Live m₀)) {n scan : Nat}
    (hS : Scanned m₀ young old threshold ys os m g)
    (hpos : Stacked 3 m₀.own.survivorSpace.first (ys.map Copy.block) scan)
    (hn : m₀.own.survivorSpace.limit < n + scan) :
    Runs (scanYoung n scan) m
    (fun scan' m' => ∃ g', g.le g' ∧ Scanned m₀ young old threshold g'.young os m' g' ∧
      scan' = m'.own.2.survivors.top ∧ scan ≤ scan' ∧
        (scan < m.own.2.survivors.top → scan < scan') ∧
      m'.roots = m.roots) (BreaksOff m₀ young old threshold) := by
  -- the survivors `ys` end at `scan`; each step visits the next one
  induction n generalizing scan ys m g with
  | zero =>
    obtain ⟨done, hM, -⟩ := hS.minor
    have hle := (Stacked.all_copies hS.young_prefix hpos hM.young_stacked).1
    have hroom := hM.young_room
    omega
  | succ n ih =>
    obtain ⟨done, hM, hdone⟩ := id hS.minor
    rw [scanYoung]
    refine Runs.step GcM.run_scratch ?_
    by_cases hlt : scan < m.own.2.survivors.top
    · rw [if_pos hlt]
      obtain ⟨c, hnext, hcy, hcn, hpos1⟩ :=
        Stacked.next_copy hS.young_prefix hpos hM.young_stacked hlt
      have hc : c ∈ g.young := hnext.subset (by simp)
      have hb := hM.survivor_bounds hc
      rw [show scan + headerWords = c.new from hcn.symm]
      refine (hS.trace hi (.inr (.inl hc)) (hS.survivor_unvisited hi hc hcy)).bind ?_
      rintro - m1 ⟨-, g1, done1, hle1, hM1, hdone1, hroots1, hown1⟩
      have hc1 : c ∈ g1.young := hle1.1.subset hc
      refine Runs.step (read_lift (hM1.blockSize_run (.inr (.inl hc1)))) ?_
      have hS1 : Scanned m₀ young old threshold (ys ++ [c]) os m1 g1 := by
        refine ⟨⟨done1, hM1, fun a => ?_⟩, hnext.trans hle1.1, hS.old_prefix.trans hle1.2,
          fun e he => hS.entries e (hown1 ▸ he)⟩
        rw [hdone1 a]
        simp only [Visited, List.mem_append, List.mem_singleton]
        grind
      refine (ih hS1 hpos1 (by omega)).mono ?_
      rintro scan' m2 ⟨g2, hle2, hS2, htop, hge, -, hroots2⟩
      exact ⟨g2, hle1.trans hle2, hS2, htop, by omega, fun _ => by omega, hroots2.trans hroots1⟩
    · rw [if_neg hlt]
      obtain ⟨rfl, rfl⟩ := (Stacked.all_copies hS.young_prefix hpos hM.young_stacked).2 (by omega)
      exact Runs.pure ⟨g, .refl g, hS, rfl, Nat.le_refl _, fun h => h, rfl⟩

/-- The visits of promoted objects end where these end. -/
theorem scanOld_runs (hi : Inv m₀ young old (Live m₀)) {n scan : Nat}
    (hS : Scanned m₀ young old threshold ys os m g)
    (hpos : Stacked 3 m₀.own.tenured.top (os.map Copy.block) scan)
    (hn : m₀.own.tenured.region.limit < n + scan) :
    Runs (scanOld m₀.own.survivorSpace n scan) m (fun scan' m' => ∃ g', g.le g' ∧
      Scanned m₀ young old threshold ys g'.old m' g' ∧ scan' = m'.own.2.tenured.top ∧ scan ≤ scan' ∧
      (scan < m.own.2.tenured.top → scan < scan') ∧ m'.roots = m.roots)
        (BreaksOff m₀ young old threshold) := by
  -- the promoted objects `os` end at `scan`; each step visits the next one and enrolls it
  induction n generalizing scan os m g with
  | zero =>
    obtain ⟨done, hM, -⟩ := hS.minor
    have hle := (Stacked.all_copies hS.old_prefix hpos hM.old_stacked).1
    have hroom := hM.old_room
    omega
  | succ n ih =>
    obtain ⟨done, hM, hdone⟩ := id hS.minor
    rw [scanOld_succ]
    refine Runs.step GcM.run_scratch ?_
    by_cases hlt : scan < m.own.2.tenured.top
    · rw [if_pos hlt]
      obtain ⟨c, hnext, hco, hcn, hpos1⟩ := Stacked.next_copy hS.old_prefix hpos hM.old_stacked hlt
      have hc : c ∈ g.old := hnext.subset (by simp)
      have hb := hM.promoted_bounds hc
      rw [show scan + headerWords = c.new from hcn.symm]
      refine (hS.trace hi (.inr (.inr hc)) (hS.promoted_unvisited hi hc hco)).bind ?_
      rintro - m1 ⟨hk, g1, done1, hle1, hM1, hdone1, hroots1, hown1⟩
      have hcT : Traced m₀ old g1 c := .inr (.inr (hle1.2.subset hc))
      have hcy : c ∉ g1.young := fun hy => hM1.survivor_apart hi hy (.inr (hle1.2.subset hc)) rfl
      refine (hM1.enroll_runs hi hcT hcy hk (fun a ha => (hdone1 a).mpr ⟨c, .inr rfl, ha⟩)
        fun e he => hS.entries e (hown1 ▸ he)).bind ?_
      rintro - m2 ⟨hM2, hE2, hroots2⟩
      refine Runs.step (read_lift (hM2.blockSize_run hcT.placed)) ?_
      have hset : ∀ x, FieldsFinal m₀ (os ++ [c]) x ↔ FieldsFinal m₀ os x ∨ x = c.new := by
        intro x
        simp only [FieldsFinal, List.mem_append, List.mem_singleton]
        grind
      have hS2 : Scanned m₀ young old threshold ys (os ++ [c]) m2 g1 := by
        refine ⟨⟨done1, hM2.congr_settled fun x => (hset x).mp, fun a => ?_⟩,
          hS.young_prefix.trans hle1.1,
          hnext.trans hle1.2, fun e he => (hset e).mpr (hE2 e he)⟩
        rw [hdone1 a]
        simp only [Visited, List.mem_append, List.mem_singleton]
        grind
      refine (ih hS2 hpos1 (by omega)).mono ?_
      rintro scan' m3 ⟨g3, hle3, hS3, htop, hge, -, hroots3⟩
      exact ⟨g3, hle1.trans hle3, hS3, htop, by omega, fun _ => by omega,
        hroots3.trans (hroots2.trans hroots1)⟩
    · rw [if_neg hlt]
      obtain ⟨rfl, rfl⟩ := (Stacked.all_copies hS.old_prefix hpos hM.old_stacked).2 (by omega)
      exact Runs.pure ⟨g, .refl g, hS, rfl, Nat.le_refl _, fun h => h, rfl⟩

/-- Survivors and promoted objects are visited in turn until both are done. -/
theorem scanAll_runs (hi : Inv m₀ young old (Live m₀)) {n youngScan oldScan : Nat}
    (hS : Scanned m₀ young old threshold ys os m g)
    (hy : Stacked 3 m₀.own.survivorSpace.first (ys.map Copy.block) youngScan)
    (ho : Stacked 3 m₀.own.tenured.top (os.map Copy.block) oldScan)
    (hn : m₀.heap.size + m₀.own.survivorSpace.first + m₀.own.tenured.top < n +
      youngScan + oldScan) :
    Runs (scanAll m₀.own.survivorSpace (m₀.heap.size + 1) n youngScan oldScan) m
      (fun _ m' => ∃ g', g.le g' ∧ Scanned m₀ young old threshold g'.young g'.old m' g' ∧
        m'.roots = m.roots) (BreaksOff m₀ young old threshold) := by
  have hsp := hi.spaces
  have h1 := hsp.survivor_below
  have h2 := hsp.tenured
  have h3 := hi.old_stacked.le
  have h4 := hsp.tenured_top
  induction n generalizing youngScan oldScan ys os m g with
  | zero =>
    obtain ⟨done, hM, -⟩ := hS.minor
    have hly := (Stacked.all_copies hS.young_prefix hy hM.young_stacked).1
    have hlo := (Stacked.all_copies hS.old_prefix ho hM.old_stacked).1
    have hry := hM.young_room
    have hro := hM.old_room
    omega
  | succ n ih =>
    obtain ⟨done, hM, -⟩ := id hS.minor
    rw [scanAll]
    refine Runs.step GcM.run_scratch ?_
    by_cases hmore : youngScan < m.own.2.survivors.top ∨ oldScan < m.own.2.tenured.top
    · rw [if_pos (by simpa using hmore)]
      refine (hS.scanYoung_runs hi hy (by omega)).bind ?_
      rintro youngScan' m1 ⟨g1, hle1, hS1, rfl, hge1, hgt1, hroots1⟩
      obtain ⟨done1, hM1, -⟩ := id hS1.minor
      have hlo := (Stacked.all_copies hS.old_prefix ho hM.old_stacked).1
      refine (hS1.scanOld_runs hi ho (by omega)).bind ?_
      rintro oldScan' m2 ⟨g2, hle2, hS2, rfl, hge2, hgt2, hroots2⟩
      obtain ⟨done2, hM2, -⟩ := id hS2.minor
      have hold : m.own.2.tenured.top ≤ m1.own.2.tenured.top :=
        (Stacked.all_copies hle1.2 hM.old_stacked hM1.old_stacked).1
      refine (ih hS2 hM1.young_stacked hM2.old_stacked (by omega)).mono ?_
      rintro - m3 ⟨g3, hle3, hS3, hroots3⟩
      exact ⟨g3, hle1.trans (hle2.trans hle3), hS3, hroots3.trans (hroots2.trans hroots1)⟩
    · rw [if_neg (by simpa using hmore)]
      obtain ⟨rfl, -⟩ := (Stacked.all_copies hS.young_prefix hy hM.young_stacked).2 (by omega)
      obtain ⟨rfl, -⟩ := (Stacked.all_copies hS.old_prefix ho hM.old_stacked).2 (by omega)
      exact Runs.pure ⟨g, .refl g, hS, rfl⟩

end Scanned

end Reclaim.Generational
