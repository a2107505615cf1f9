import Reclaim.Proofs.Generational.Scanning
import Reclaim.Proofs.Renaming

/-!
# Minor collection

What a whole minor collection does to a heap in a good state. Every object that the roots or the
remembered objects reach is renamed: a tenured object keeps its address, a nursery object gets that
of its one copy. Roots, fields of survivors and fields of remembered objects are renamed, and no
other word of an object changes.

Results:
* `evacuate_runs`: a minor collection ends, or fails for want of room; what it leaves is
  `Evacuated`.
-/

namespace Reclaim.Generational

variable {m₀ : Machine Generational} {young old : List (Nat × Nat)} {threshold : Nat}

/-! ## From the start to the end of the visits -/

/-- The state in which a minor collection begins. -/
def begun (m : Machine Generational) (threshold : Nat) : Machine (Generational × Evacuation) :=
  m.withOwn (m.own, ⟨Bump.empty m.own.survivorSpace, m.own.tenured, threshold, 0⟩)

/-- Before anything is copied, the tenured objects are the only images. -/
theorem Evac.start {S : Nat → Prop} (hi : Inv m₀ young old S) :
    Evac header m₀.heap m₀.heap young (Placed old ⟨[], []⟩) [] := by
  have hp : ∀ p, Placed old ⟨[], []⟩ p → ∃ b ∈ old, p = stay b := by
    rintro p (hp | hp | hp)
    · exact hp
    · cases hp
    · cases hp
  refine ⟨rfl, fun _ _ _ _ _ _ => rfl, ?_, ?_, ?_, ?_, ?_, ?_, ?_, ?_, ?_, ?_, ?_, ?_, ?_⟩
  · intro b hb _
    exact hi.no_forward b (.inl hb)
  · intro b hb p hp' ho
    obtain ⟨c, hc, rfl⟩ := hp p hp'
    have hs := hi.separate hb hc
    have hin := hi.young_inside hb
    simp only [stay] at ho
    omega
  · intro p hp' i _ _
    obtain ⟨c, hc, rfl⟩ := hp p hp'
    rfl
  · intro p hp' i _ hd
    cases hd
  · intro a ha
    cases ha
  · intro p hp'
    obtain ⟨c, hc, rfl⟩ := hp p hp'
    exact hi.old_sized c hc
  · intro p hp'
    obtain ⟨c, hc, rfl⟩ := hp p hp'
    exact hi.no_forward c (.inr hc)
  · intro p q hp' hq'
    obtain ⟨c, hc, rfl⟩ := hp p hp'
    obtain ⟨d, hd, rfl⟩ := hp q hq'
    rcases hi.old_stacked.apart hc hd with he | he
    · exact .inl (by simp [stay, he.1, he.2])
    · exact .inr he
  · intro p q hp' hq' ho
    obtain ⟨⟨c, n⟩, hc, rfl⟩ := hp p hp'
    obtain ⟨⟨d, k⟩, hd, rfl⟩ := hp q hq'
    simp only [stay] at ho
    subst ho
    rw [hi.old_stacked.size_unique hc hd]
  · intro p hp' b hb
    obtain ⟨c, hc, rfl⟩ := hp p hp'
    exact .inr (hi.separate hb hc)
  · intro p hp'
    obtain ⟨c, hc, rfl⟩ := hp p hp'
    exact hi.old_inside hc
  · intro b hb
    exact hi.young_inside hb
  · rintro ⟨b, n⟩ hb ⟨c, k⟩ hc
    rcases hi.young_stacked.apart hb hc with ⟨rfl, rfl⟩ | he
    · exact .inl rfl
    · exact .inr he

theorem Minor.start (hi : Inv m₀ young old (Live m₀)) :
    Minor m₀ young old threshold (fun _ => False) (begun m₀ threshold) ⟨[], []⟩ [] := by
  refine ⟨Evac.start hi, (remembering_self _).symm, rfl, rfl, rfl, rfl, hi.spaces.survivor, rfl,
    hi.spaces.tenured_top, ?_, ?_, ?_, ?_,
    fun b _ => rfl, ?_, hi.entries_nodup, ?_, ?_, fun hroom => hroom, rfl, rfl, rfl,
    Roots.Within.mono (r := m₀.roots) hi.roots fun _ => .inl⟩
  · rintro c (hc | hc) <;> cases hc
  · intro a ha
    cases ha
  · intro c hc
    cases hc
  · intro c hc
    cases hc
  · rintro c (⟨b, hb, rfl⟩ | hc | hc) -
    · exact hi.flagged b hb
    · cases hc
    · cases hc
  · intro e he
    obtain ⟨n, hn⟩ := hi.entries_old e he
    exact ⟨stay (e, n), .inl ⟨_, hn, rfl, he⟩, by simp, rfl⟩
  · rintro x ⟨⟩

/-- The objects that were remembered at the start are visited after the roots. -/
theorem Minor.remembered_runs (hi : Inv m₀ young old (Live m₀))
    {m : Machine (Generational × Evacuation)} {g : Survivors}
    (hM : Minor m₀ young old threshold (fun _ => False) m g []) (hown : m.own.1 = m₀.own) :
    Runs (m₀.own.remembered.toList.forM (traceObject forward)) m
      (fun _ m' => ∃ g', g.le g' ∧ Scanned m₀ young old threshold [] [] m' g' ∧ m'.roots = m.roots)
      (BreaksOff m₀ young old threshold) := by
  -- the objects of `es` are still to come
  let J : List Nat → Machine (Generational × Evacuation) → Prop := fun es m' => ∃ g' done, g.le g' ∧
    Minor m₀ young old threshold (fun _ => False) m' g' done ∧ m'.own.1 = m₀.own ∧
      m'.roots = m.roots ∧
    es.Nodup ∧ (∀ e ∈ es, e ∈ m₀.own.remembered.toList) ∧
    (∀ e ∈ m₀.own.remembered.toList, e ∉ es → m₀.heap.tag e ≠ none) ∧
    ∀ a, a ∈ done ↔ ∃ c, (∃ b ∈ old, c = stay b ∧ b.1 ∈ m₀.own.remembered.toList ∧ b.1 ∉ es) ∧
      c.IsField m₀.heap a
  have hstart : J m₀.own.remembered.toList m := by
    refine ⟨g, [], .refl g, hM, hown, rfl, hi.entries_nodup, fun e he => he,
      fun e he hn => absurd he hn,
      fun a => ⟨fun ha => ?_, ?_⟩⟩
    · cases ha
    · rintro ⟨c, ⟨b, -, -, h1, h2⟩, -⟩
      exact absurd h1 h2
  refine (forM_runs (J := J) ?_ hstart).mono ?_
  · rintro e es m1 ⟨g1, done1, hle1, hM1, hown1, hroots1, hnd, hsub, hknown1, hdone1⟩
    obtain ⟨n, hn⟩ := hi.entries_old e (hsub e (by simp))
    have hc : Traced m₀ old g1 (stay (e, n)) := .inl ⟨_, hn, rfl, hsub e (by simp)⟩
    refine (hM1.trace hi hdone1 ?_ hc ?_).mono ?_
    · rintro d ⟨b, hb, rfl, he, -⟩
      exact .inl ⟨b, hb, rfl, he⟩
    · rintro ⟨b, hb, hbe, -, hne⟩
      have hbe : e = b.1 := congrArg Copy.old hbe
      exact hne (by simp [← hbe])
    · rintro - m2 ⟨hk, g2, done2, hle2, hM2, hdone2, hroots2, hown2⟩
      refine ⟨g2, done2, hle1.trans hle2, hM2, hown2.trans hown1, hroots2.trans hroots1,
        (List.nodup_cons.mp hnd).2,
        fun x hx => hsub x (by simp [hx]), fun x hx hne => ?_, fun a => ?_⟩
      · by_cases hxe : x = e
        · rw [hxe]
          exact hk
        · exact hknown1 x hx (by simp [hxe, hne])
      rw [hdone2 a]
      constructor
      · rintro ⟨d, ⟨b, hb, rfl, he, hne⟩ | rfl, hf⟩
        · exact ⟨_, ⟨b, hb, rfl, he, fun hx => hne (by simp [hx])⟩, hf⟩
        · exact ⟨_, ⟨(e, n), hn, rfl, hsub e (by simp), (List.nodup_cons.mp hnd).1⟩, hf⟩
      · rintro ⟨d, ⟨b, hb, rfl, he, hne⟩, hf⟩
        by_cases hbe : b.1 = e
        · refine ⟨stay b, .inr ?_, hf⟩
          obtain ⟨b1, b2⟩ := b
          simp only at hbe
          subst hbe
          rw [hi.old_stacked.size_unique hb hn]
        · exact ⟨_, .inl ⟨b, hb, rfl, he, by simp [hbe, hne]⟩, hf⟩
  · rintro - m' ⟨g', done, hle, hM', hown', hroots', -, -, hknown, hdone⟩
    refine ⟨g', hle, ⟨⟨done, { hM' with
      settled := ?_ }, fun a => ?_⟩, List.nil_prefix, List.nil_prefix, ?_⟩, hroots'⟩
    · rintro x (hx | ⟨c, hc, -⟩)
      · obtain ⟨n, hn⟩ := hi.entries_old x hx
        refine ⟨stay (x, n), .inl ⟨_, hn, rfl, hx⟩, rfl, hknown x hx (by simp), fun a ha => ?_,
          fun _ => by rw [hown']; exact hx⟩
        exact (hdone a).mpr ⟨_, ⟨_, hn, rfl, hx, by simp⟩, ha⟩
      · cases hc
    · rw [hdone a]
      simp [Visited]
    · intro e he
      rw [hown'] at he
      exact .inl he

/-- Roots, remembered objects and copies are all visited. -/
theorem visit_runs (hi : Inv m₀ young old (Live m₀)) :
    Runs (do
        traceRoots forward
        m₀.own.remembered.toList.forM (traceObject forward)
        scanAll m₀.own.survivorSpace (m₀.heap.size + 1)
          (m₀.heap.size + 1) m₀.own.survivorSpace.first
          m₀.own.tenured.top) (begun m₀ threshold)
      (fun _ m' => ∃ g, Scanned m₀ young old threshold g.young g.old m' g ∧
        m₀.roots.Mapped (Image (ImageIn (Placed old g))) m'.roots)
          (BreaksOff m₀ young old threshold) := by
  have hroots : ∀ slot v, (begun m₀ threshold).roots.get? slot = some v → v.isRef = true →
      v.Within (Live m₀) :=
    fun slot v hv _ => hi.roots slot v hv
  refine (traceRoots_runs ((evacuates hi threshold (fun _ => False) m₀.own).visits [])
    ⟨Minor.start hi, rfl⟩ hroots).bind ?_
  rintro - m1 ⟨g1, -, ⟨hM1, hown1⟩, hmap1⟩
  refine (hM1.remembered_runs hi hown1).bind ?_
  rintro - m2 ⟨g2, hle2, hS2, hroots2⟩
  refine (hS2.scanAll_runs hi rfl rfl (by omega)).mono ?_
  rintro - m3 ⟨g3, hle3, hS3, hroots3⟩
  refine ⟨g3, hS3, ?_⟩
  rw [hroots3, hroots2]
  refine ⟨hmap1.depth, hmap1.table, hmap1.capacity, hmap1.parked, hmap1.hash, fun slot v hv => ?_⟩
  obtain ⟨v', hv', him⟩ := hmap1.slot slot v hv
  refine ⟨v', hv', ?_⟩
  rcases him with ⟨hr, him⟩ | him
  · exact .inl ⟨hr, him.mono fun _ hc => (hle2.trans hle3).placed hc⟩
  · exact .inr him

/-! ## The renaming -/

/-- The renaming of objects to their copies. -/
def Survivors.rename (g : Survivors) : Nat → Nat := relocate (g.young ++ g.old)

section Rename

variable {g : Survivors} {m : Machine (Generational × Evacuation)} {X : Nat → Prop}
  {done : List Nat} {c : Copy}

/-- The renaming takes an original to its image. -/
theorem Minor.rename_eq (hM : Minor m₀ young old threshold X m g done) (hc : Placed old g c) :
    g.rename c.old = c.new := by
  have hsingle : ∀ d ∈ g.young ++ g.old, d.old = c.old → d = c := fun d hd ho =>
    hM.evac.single d c (.inr (List.mem_append.mp hd)) hc ho
  by_cases hmem : c ∈ g.young ++ g.old
  · exact relocate_of_mem hmem hsingle
  · have hnone : g.rename c.old = c.old :=
      relocate_of_not_mem fun d hd ho => hmem (hsingle d hd ho ▸ hd)
    rcases hc with ⟨b, hb, rfl⟩ | hc
    · exact hnone
    · exact absurd (List.mem_append.mpr hc) hmem

/-- A tenured object keeps its address. -/
theorem Minor.rename_tenured (hM : Minor m₀ young old threshold X m g done) {b : Nat × Nat}
    (hb : b ∈ old) :
    g.rename b.1 = b.1 :=
  hM.rename_eq (c := stay b) (.inl ⟨b, hb, rfl⟩)

/-- An image of a value is the value renamed. -/
theorem Minor.image_eq (hM : Minor m₀ young old threshold X m g done) {v v' : Value}
    (him : Image (ImageIn (Placed old g)) v v') : v' = v.rename g.rename :=
  ImageIn.eq_rename (fun _ => hM.rename_eq) him

end Rename

/-- Every live object has an image when all visits are done. -/
theorem Scanned.image_of_live (hi : Inv m₀ young old (Live m₀))
    {m : Machine (Generational × Evacuation)} {g : Survivors}
    (hS : Scanned m₀ young old threshold g.young g.old m g)
    (hmap : m₀.roots.Mapped (Image (ImageIn (Placed old g))) m.roots) {o : Nat} (ho : Live m₀ o) :
    ∃ c, Placed old g c ∧ c.old = o := by
  obtain ⟨done, hM, hdone⟩ := hS.minor
  induction ho with
  | @root o hroot =>
    rcases hroot with ⟨slot, v, hv, hr⟩ | he
    · obtain ⟨v', -, him⟩ := hmap.slot slot v hv
      rcases him with ⟨-, p, hp, hpo, -⟩ | ⟨hn, -⟩
      · rw [hr] at hpo
        cases hpo
        exact ⟨p, hp, rfl⟩
      · rw [Value.ref?_eq_none hn] at hr
        cases hr
    · obtain ⟨n, hn⟩ := hi.entries_old o he
      exact ⟨stay (o, n), .inl ⟨_, hn, rfl⟩, rfl⟩
  | @step o o' ho hc ih =>
    obtain ⟨c, hcp, rfl⟩ := ih
    by_cases hT : Traced m₀ old g c
    · -- all fields of the image were visited
      obtain ⟨ht, hc⟩ := Arena.mem_succ.mp hc
      obtain ⟨i, hi12, hci⟩ : ∃ i, (i = 1 ∨ i = 2) ∧
        (m₀.heap.value (c.old + i)).ref? = some o' := by
        rcases hc with hc | hc
        · exact ⟨1, .inl rfl, hc⟩
        · exact ⟨2, .inr rfl, hc⟩
      have hf : c.IsField m₀.heap (c.new + i) := ⟨ht, i, hi12, rfl, Value.isRef_of_ref? hci⟩
      obtain ⟨-, hs⟩ := hM.fits hi hT
      rw [Arena.payload_of_pair ht] at hs
      obtain ⟨p, hp, hpo, -⟩ := hM.evac.visited c hcp i (by simp only [header_words]; omega)
        ((hdone _).mpr ⟨c, hT, hf⟩)
      rw [hci] at hpo
      cases hpo
      exact ⟨p, hp, rfl⟩
    · -- a tenured object that was not remembered refers to no nursery object
      obtain ⟨b, hb, rfl⟩ : ∃ b ∈ old, c = stay b := by
        rcases hcp with hcp | hcp
        · exact hcp
        · exact absurd (.inr hcp) hT
      have hlive : Live m₀ o' := ho.step hc
      obtain ⟨n, hn | hn, -⟩ := hi.placed o' hlive
      · refine absurd (.inl ⟨b, hb, rfl, ?_⟩) hT
        exact hi.remembers b hb ho ⟨o', hc, hi.contains_young hn⟩
      · exact ⟨stay (o', n), .inl ⟨_, hn, rfl⟩, rfl⟩

/-! ## The outcome -/

/-- The objects that a minor collection keeps: what is live, and those of `S` in tenured space. -/
def KeptByMinor (m : Machine Generational) (old : List (Nat × Nat)) (S : Nat → Prop)
    (o : Nat) : Prop :=
  Live m o ∨ (S o ∧ ∃ n, (o, n) ∈ old)

/-- The object at `o` is visited by a minor collection: it survives in the nursery, or it is
remembered. -/
def IsVisited (m : Machine Generational) (young old : List (Nat × Nat)) (o n : Nat) : Prop :=
  ((o, n) ∈ young ∧ Live m o) ∨ ((o, n) ∈ old ∧ o ∈ m.own.remembered.toList)

/-- What a minor collection with the given threshold makes of `m`: the blocks `survivors` in the
nursery and `promoted` behind `old` in tenured space. -/
structure Evacuated (m m' : Machine Generational) (young old survivors promoted : List (Nat × Nat))
    (threshold : Nat) (S : Nat → Prop) (ρ : Nat → Nat) : Prop where
  /-- Tenured objects stay where they are. -/
  tenured : ∀ b ∈ old, ρ b.1 = b.1
  /-- No two objects get one address, and each has its words at the new one. -/
  renamed : Renamed ρ (KeptByMinor m old S) m.heap m'.heap
  roots : m.roots.Mapped (fun v v' => v' = v.rename ρ) m'.roots
  /-- A live nursery object is copied, to the space that its new age demands. -/
  copied : ∀ o n, (o, n) ∈ young → Live m o →
    (ρ o, n) ∈ if threshold ≤ nextAge (m.heap.word (o - 1)) then promoted else survivors
  /-- Nothing else is copied. -/
  origin : ∀ b, b ∈ survivors ∨ b ∈ promoted → ∃ o, (o, b.2) ∈ young ∧ Live m o ∧ ρ o = b.1
  aged : ∀ o n, (o, n) ∈ young → Live m o →
    ageOf (m'.heap.word (ρ o - 1)) = nextAge (m.heap.word (o - 1))
  /-- The fields of visited objects are renamed, their other words are kept. -/
  visited : ∀ o n i, IsVisited m young old o n → i + 3 < n → m'.heap.word (ρ o + i)
    = if m.heap.tag o = some .pair ∧ (i = 1 ∨ i = 2) then ((m.heap.value (o + i)).rename ρ).bits
      else m.heap.word (o + i)
  /-- All other objects of tenured space are as they were. -/
  unvisited : ∀ b ∈ old, b.1 ∉ m.own.remembered.toList → ∀ i, i + 3 < b.2 →
    m'.heap.word (b.1 + i) = m.heap.word (b.1 + i)
  old_flags : ∀ b ∈ old, m'.heap.word (b.1 - 1) &&& ~~~rememberedFlag = m.heap.word (b.1 - 1) &&&
    ~~~rememberedFlag
  inv : Inv m' survivors (old ++ promoted) fun o' => ∃ o, KeptByMinor m old S o ∧ o' = ρ o
  nursery : m'.own.nursery.region = m.own.survivorSpace
  survivorSpace : m'.own.survivorSpace = m.own.nursery.region
  tenured_region : m'.own.tenured.region = m.own.tenured.region
  size_eq : m'.heap.size = m.heap.size
  capacity : m'.own.remembered.capacity = m.own.remembered.capacity
  room : m.own.remembered.toList.length ≤ m.own.remembered.capacity →
    m'.own.remembered.toList.length ≤ m'.own.remembered.capacity
  markCapacity : m'.own.markCapacity = m.own.markCapacity
  own_threshold : m'.own.threshold = m.own.threshold
  stress : m'.stress = m.stress
  cycles : m'.stats.collections = m.stats.collections + 1

/-- The machine after a minor collection whose visits left `m`. -/
def ended (m₀ : Machine Generational) (m : Machine (Generational × Evacuation)) (stats : Stats) :
    Machine Generational where
  heap := m.heap
  roots := m.roots
  stress := m.stress
  stats := stats
  own := { m.own.1 with
    nursery := m.own.2.survivors, survivorSpace := m₀.own.nursery.region, tenured :=
      m.own.2.tenured }

section Outcome

variable {m : Machine (Generational × Evacuation)} {g : Survivors} {S : Nat → Prop} {stats : Stats}

/-- The image of an object that is kept. -/
theorem Scanned.image_of_kept (hi : Inv m₀ young old (Live m₀))
    (hS : Scanned m₀ young old threshold g.young g.old m g)
    (hmap : m₀.roots.Mapped (Image (ImageIn (Placed old g))) m.roots) {o : Nat}
    (ho : KeptByMinor m₀ old S o) :
    ∃ c, Placed old g c ∧ c.old = o ∧ c.new = g.rename o := by
  have him : ∃ c, Placed old g c ∧ c.old = o := by
    rcases ho with ho | ⟨-, n, hn⟩
    · exact hS.image_of_live hi hmap ho
    · exact ⟨stay (o, n), .inl ⟨_, hn, rfl⟩, rfl⟩
  obtain ⟨c, hc, rfl⟩ := him
  obtain ⟨done, hM, -⟩ := hS.minor
  exact ⟨c, hc, rfl, (hM.rename_eq hc).symm⟩

/-- A word of an object that was visited. -/
theorem Scanned.word_visited (hS : Scanned m₀ young old threshold g.young g.old m g) {c : Copy}
    (hc : Traced m₀ old g c) {i : Nat} (hs : i + 3 < c.size) : m.heap.word (c.new + i)
      = if m₀.heap.tag c.old = some .pair ∧ (i = 1 ∨ i = 2) then
      ((m₀.heap.value (c.old + i)).rename g.rename).bits
        else m₀.heap.word (c.old + i) := by
  obtain ⟨done, hM, hdone⟩ := hS.minor
  exact hM.evac.word_visited (fun _ => hM.rename_eq) hc.placed
    (fun a ha => (hdone a).mpr ⟨c, hc, ha⟩) hs

/-- A word of a tenured object that was not visited. -/
theorem Scanned.word_unvisited (hi : Inv m₀ young old (Live m₀))
    (hS : Scanned m₀ young old threshold g.young g.old m g) {b : Nat × Nat} (hb : b ∈ old)
    (hn : b.1 ∉ m₀.own.remembered.toList) {i : Nat} (hs : i + 3 < b.2) :
    m.heap.word (b.1 + i) = m₀.heap.word (b.1 + i) := by
  obtain ⟨done, hM, hdone⟩ := hS.minor
  have hp : Placed old g (stay b) := .inl ⟨b, hb, rfl⟩
  refine hM.evac.plain (stay b) hp i hs fun hd => ?_
  obtain ⟨c, hc, hf⟩ := hM.traced _ hd
  obtain ⟨ht, j, hj, hij, -⟩ := id hf
  obtain ⟨-, hcs⟩ := hM.fits hi hc
  rw [Arena.payload_of_pair ht] at hcs
  rcases hM.evac.apart c (stay b) hc.placed hp with rfl | hap | hap
  · rcases hc with ⟨b', hb', hbb, he⟩ | hc
    · have hbb : b.1 = b'.1 := congrArg Copy.old hbb
      exact hn (hbb ▸ he)
    · have hsep := hi.separate (hM.live _ hc).2 hb
      simp only [stay] at hsep hcs
      omega
  · simp only [stay] at hap hij
    omega
  · simp only [stay] at hap hij hs
    omega

/-- A tenured object that was not visited refers to what it referred to. -/
theorem Scanned.succ_unvisited (hi : Inv m₀ young old (Live m₀))
    (hS : Scanned m₀ young old threshold g.young g.old m g) {b : Nat × Nat} (hb : b ∈ old)
    (hn : b.1 ∉ m₀.own.remembered.toList) (hfit : 3 + m₀.heap.payload b.1 ≤ b.2) :
    m.heap.succ b.1 = m₀.heap.succ b.1 := by
  have hbd := hi.old_bounds hb
  refine Arena.succ_congr (hS.word_unvisited hi hb hn (i := 0) (by omega)) fun ht => ?_
  rw [Arena.payload_of_pair ht] at hfit
  exact ⟨hS.word_unvisited hi hb hn (by omega), hS.word_unvisited hi hb hn (by omega)⟩

/-- An object that is kept fits into the block of its image. -/
theorem Scanned.fits (hi : Inv m₀ young old S)
    (hS : Scanned m₀ young old threshold g.young g.old m g) {c : Copy} (hc : Placed old g c)
    (hk : KeptByMinor m₀ old S c.old) : S c.old ∧ 3 + m₀.heap.payload c.old ≤ c.size := by
  obtain ⟨done, hM, -⟩ := hS.minor
  have hSo : S c.old := hk.elim hi.live_mem fun h => h.1
  refine ⟨hSo, ?_⟩
  rcases hc with ⟨b, hb, rfl⟩ | hc
  · obtain ⟨n, hn | hn, hfit⟩ := hi.placed _ hSo
    · have hsep := hi.separate hn hb
      have hin := hi.young_inside hn
      simp only [stay] at hsep hin
      omega
    · rw [hi.old_stacked.size_unique hn hb] at hfit
      exact hfit
  · exact (hM.fits hi.live (.inr hc)).2

/-- A tenured object that is not remembered refers to tenured objects alone. -/
theorem Inv.unremembered (hi : Inv m₀ young old S) {b : Nat × Nat} (hb : b ∈ old) (hSb : S b.1)
    (hn : b.1 ∉ m₀.own.remembered.toList) {i : Nat} (ht : m₀.heap.tag b.1 = some .pair)
    (hi12 : i = 1 ∨ i = 2) :
    (m₀.heap.value (b.1 + i)).Within fun o => S o ∧ ∃ n, (o, n) ∈ old := by
  intro o ho
  obtain ⟨he, hSo⟩ := hi.linked b.1 (b.1 + i) hSb ht (by omega) o ho
  refine ⟨he, hSo, ?_⟩
  obtain ⟨n, hy | hn', -⟩ := hi.placed o hSo
  · refine absurd (hi.remembers b hb hSb ⟨o, Arena.mem_succ.mpr ⟨ht, ?_⟩, hi.contains_young hy⟩) hn
    rcases hi12 with rfl | rfl
    · exact .inl ho
    · exact .inr ho
  · exact ⟨n, hn'⟩

/-- What is kept refers to what is kept. -/
theorem Inv.kept_linked (hi : Inv m₀ young old S) : Linked m₀.heap (KeptByMinor m₀ old S) := by
  intro o a ho ht ha
  have hlive : Live m₀ o → (m₀.heap.value a).Within (KeptByMinor m₀ old S) := fun hl =>
    (hi.live.linked o a hl ht ha).mono fun _ => .inl
  rcases ho with ho | ⟨hSo, n, hn⟩
  · exact hlive ho
  · by_cases he : o ∈ m₀.own.remembered.toList
    · exact hlive (.root (.inr he))
    · rcases ha with rfl | rfl
      · exact (hi.unremembered hn hSo he ht (.inl rfl)).mono fun _ => .inr
      · exact (hi.unremembered hn hSo he ht (.inr rfl)).mono fun _ => .inr

/-- What is kept has its first word at the new address. -/
theorem Scanned.head (hi : Inv m₀ young old S)
    (hS : Scanned m₀ young old threshold g.young g.old m g)
    (hmap : m₀.roots.Mapped (Image (ImageIn (Placed old g))) m.roots) {o : Nat}
    (ho : KeptByMinor m₀ old S o) :
    m.heap.word (g.rename o) = m₀.heap.word o := by
  obtain ⟨done, hM, -⟩ := id hS.minor
  obtain ⟨c, hc, rfl, hcn⟩ := hS.image_of_kept hi.live hmap ho
  rw [← hcn]
  exact hM.evac.head hc

/-- Tenured objects and copies are found under their new addresses. -/
theorem Scanned.renamed (hi : Inv m₀ young old S)
    (hS : Scanned m₀ young old threshold g.young g.old m g)
    (hmap : m₀.roots.Mapped (Image (ImageIn (Placed old g))) m.roots) :
    Renamed g.rename (KeptByMinor m₀ old S) m₀.heap m.heap := by
  obtain ⟨done, hM, -⟩ := id hS.minor
  -- an image is visited, or a tenured object that is not remembered
  have hcases : ∀ c, Placed old g c → Traced m₀ old g c ∨
      ∃ b ∈ old, c = stay b ∧ b.1 ∉ m₀.own.remembered.toList := by
    rintro c (⟨b, hb, rfl⟩ | hc)
    · by_cases he : b.1 ∈ m₀.own.remembered.toList
      · exact .inl (.inl ⟨b, hb, rfl, he⟩)
      · exact .inr ⟨b, hb, rfl, he⟩
    · exact .inl (.inr hc)
  refine ⟨?_, ?_, ?_⟩
  · intro o o' ho ho' he
    obtain ⟨c, hc, rfl, hcn⟩ := hS.image_of_kept hi.live hmap ho
    obtain ⟨d, hd, rfl, hdn⟩ := hS.image_of_kept hi.live hmap ho'
    rw [hM.evac.eq_of_new hc hd (by omega)]
  · intro o i ho hp hnf
    obtain ⟨c, hc, rfl, hcn⟩ := hS.image_of_kept hi.live hmap ho
    have hfit := (hS.fits hi hc ho).2
    rw [← hcn]
    rcases hcases c hc with hT | ⟨b, hb, rfl, hn⟩
    · rw [hS.word_visited hT (by omega), if_neg hnf]
    · exact hS.word_unvisited hi.live hb hn (by simp only [stay] at hfit hp; omega)
  · intro o i ho ht hi12
    obtain ⟨c, hc, rfl, hcn⟩ := hS.image_of_kept hi.live hmap ho
    obtain ⟨hSo, hfit⟩ := hS.fits hi hc ho
    rw [Arena.payload_of_pair ht] at hfit
    rw [← hcn]
    rcases hcases c hc with hT | ⟨b, hb, rfl, hn⟩
    · rw [Arena.value, hS.word_visited hT (by omega), if_pos ⟨ht, hi12⟩]
    · simp only [stay] at hfit ht hSo ⊢
      rw [Arena.value_congr (hS.word_unvisited hi.live hb hn (by omega))]
      refine ((hi.unremembered hb hSo hn ht hi12).rename_self ?_).symm
      rintro o ⟨-, n, hn⟩
      exact hM.rename_tenured hn

theorem Scanned.named (hi : Inv m₀ young old S)
    (hS : Scanned m₀ young old threshold g.young g.old m g)
    (hmap : m₀.roots.Mapped (Image (ImageIn (Placed old g))) m.roots) :
    Value.Named fun o' => ∃ o, KeptByMinor m₀ old S o ∧ o' = g.rename o := by
  rintro o' ⟨o, ho, rfl⟩
  obtain ⟨done, hM, -⟩ := id hS.minor
  obtain ⟨c, hc, rfl, hcn⟩ := hS.image_of_kept hi.live hmap ho
  have hin := hM.evac.inside c hc
  have hsmall := hi.spaces.small
  simp only [header_words] at hin
  omega

/-- A block of the new spaces is that of an image. -/
theorem placed_of_block {b : Nat × Nat} (hb : b ∈ old ++ g.old.map Copy.block) :
    ∃ c, Placed old g c ∧ c.block = b ∧ ((∃ b' ∈ old, c = stay b') ∨ c ∈ g.old) := by
  rcases List.mem_append.mp hb with hb | hb
  · exact ⟨stay b, .inl ⟨b, hb, rfl⟩, rfl, .inl ⟨b, hb, rfl⟩⟩
  · obtain ⟨c, hc, rfl⟩ := List.mem_map.mp hb
    exact ⟨c, .inr (.inr hc), rfl, .inr hc⟩

/-- The flags of a survivor in the nursery. -/
theorem Minor.survivor_flags {X : Nat → Prop} {done : List Nat} (hi : Inv m₀ young old S)
    (hM : Minor m₀ young old threshold X m g done) {c : Copy} (hc : c ∈ g.young) :
    m.heap.word (c.new - 1) &&& markedFlag = 0 ∧ m.heap.word (c.new - 1) &&& tenuredFlag = 0 ∧
      m.heap.word (c.new - 1) &&& rememberedFlag = 0 := by
  obtain ⟨hnp, hw⟩ := hM.young_flags c hc
  have hb := (hM.live c (.inl hc)).2
  have hyf := hi.young_flags _ hb
  rw [hw, agedFlags_and (by decide) (by decide), agedFlags_and (g := rememberedFlag)
    (by decide) (by decide)]
  refine ⟨hi.no_mark _ (.inl hb), ?_, hyf.2⟩
  have ht : agedFlags threshold _ &&& tenuredFlag ≠ 0 ↔ isPromoted threshold _ = true :=
    agedFlags_tenured hyf.1
  rw [hnp] at ht
  simpa using ht

/-- The flags of an object in tenured space. -/
theorem Minor.tenured_flags {X : Nat → Prop} {done : List Nat} (hi : Inv m₀ young old S)
    (hM : Minor m₀ young old threshold X m g done) {c : Copy}
    (hc : (∃ b ∈ old, c = stay b) ∨ c ∈ g.old) :
    m.heap.word (c.new - 1) &&& markedFlag = 0 ∧ m.heap.word (c.new - 1) &&& tenuredFlag ≠ 0 := by
  rcases hc with ⟨b, hb, rfl⟩ | hc
  · simp only [stay]
    rw [and_eq_of_and_not_eq (g := markedFlag) (hM.old_flags b hb) (by decide),
      and_eq_of_and_not_eq (g := tenuredFlag) (hM.old_flags b hb) (by decide)]
    exact ⟨hi.no_mark b (.inr hb), hi.old_flags b hb⟩
  · obtain ⟨hp, hw⟩ := hM.promoted_flags c hc
    have hb := (hM.live c (.inr hc)).2
    rw [← and_not_and_of_disjoint (f := rememberedFlag) (g := markedFlag) (by decide),
      ← and_not_and_of_disjoint (f := rememberedFlag) (g := tenuredFlag) (by decide), hw]
    refine ⟨?_, (agedFlags_tenured (hi.young_flags _ hb).1).mpr hp⟩
    rw [agedFlags_and (by decide) (by decide)]
    exact hi.no_mark _ (.inl hb)

theorem Scanned.spaces (hi : Inv m₀ young old S)
    (hS : Scanned m₀ young old threshold g.young g.old m g) :
    Spaces (ended m₀ m stats).own (ended m₀ m stats).heap.size := by
  obtain ⟨done, hM, -⟩ := hS.minor
  have hsp := hi.spaces
  refine ⟨?_, ?_, ?_, hsp.nursery, ?_, ?_, ?_, ?_, ?_⟩
  · simpa only [ended, hM.evac.size_eq] using hsp.small
  · simpa only [ended, hM.survivors_region] using hsp.survivor
  · simpa only [ended, hM.survivors_region] using hM.young_room
  · simpa only [ended, hM.survivors_region] using hsp.halves.symm
  · simpa only [ended, hM.survivors_region, hM.tenured_region] using hsp.survivor_below
  · simpa only [ended, hM.tenured_region] using hsp.below
  · simpa only [ended, hM.tenured_region] using hM.old_room
  · simpa only [ended, hM.tenured_region, hM.evac.size_eq] using hsp.tenured

/-- A tenured object that refers to a survivor is remembered. -/
theorem Scanned.remembers (hi : Inv m₀ young old S)
    (hS : Scanned m₀ young old threshold g.young g.old m g)
    (hmap : m₀.roots.Mapped (Image (ImageIn (Placed old g))) m.roots) {c : Copy}
    (hc : (∃ b ∈ old, c = stay b) ∨ c ∈ g.old)
    (hk : ∃ o, KeptByMinor m₀ old S o ∧ c.new = g.rename o)
    (hpt : PointsInto m.heap m₀.own.survivorSpace c.new) : c.new ∈ m.own.1.remembered.toList := by
  obtain ⟨done, hM, -⟩ := id hS.minor
  have hset : ∀ x, FieldsFinal m₀ g.old x → PointsInto m.heap m₀.own.survivorSpace x →
      x ∈ m.own.1.remembered.toList := by
    intro x hx hp
    obtain ⟨d, -, rfl, -, -, hd⟩ := hM.settled x hx
    exact hd hp
  rcases hc with ⟨b, hb, rfl⟩ | hc
  · by_cases he : b.1 ∈ m₀.own.remembered.toList
    · exact hset b.1 (.inl he) hpt
    · -- it refers to tenured objects alone
      obtain ⟨o, ho, hbo⟩ := hk
      have hc : Placed old g (stay b) := .inl ⟨b, hb, rfl⟩
      obtain ⟨d, hd, rfl, hdn⟩ := hS.image_of_kept hi.live hmap ho
      obtain rfl := hM.evac.eq_of_new hd hc (hdn.trans hbo.symm)
      obtain ⟨hSb, hfit⟩ := hS.fits hi hc ho
      obtain ⟨a, ha, har⟩ := hpt
      rw [show (stay b).new = b.1 from rfl, hS.succ_unvisited hi.live hb he hfit] at ha
      obtain ⟨ht, ha⟩ := Arena.mem_succ.mp ha
      have hold : ∃ n, (a, n) ∈ old := by
        rcases ha with ha | ha
        · exact (hi.unremembered hb hSb he ht (.inl rfl) a ha).2.2
        · exact (hi.unremembered hb hSb he ht (.inr rfl) a ha).2.2
      obtain ⟨n, hn⟩ := hold
      rw [Region.contains_iff] at har
      have hob := hi.old_bounds hn
      have h1 := hi.spaces.survivor_below
      omega
  · exact hset c.new (.inr ⟨c, hc, rfl⟩) hpt

/-- The heap is in a good state again. -/
theorem Scanned.inv (hi : Inv m₀ young old S)
    (hS : Scanned m₀ young old threshold g.young g.old m g)
    (hmap : m₀.roots.Mapped (Image (ImageIn (Placed old g))) m.roots) :
    Inv (ended m₀ m stats) (g.young.map Copy.block) (old ++ g.old.map Copy.block)
      fun o' => ∃ o, KeptByMinor m₀ old S o ∧ o' = g.rename o := by
  obtain ⟨done, hM, hdone⟩ := id hS.minor
  have hren := hS.renamed hi hmap
  have hnamed := hS.named hi hmap
  exact {
    spaces := hS.spaces hi
    young_stacked := by simpa only [ended, hM.survivors_region] using hM.young_stacked
    old_stacked := by simpa only [ended,
      hM.tenured_region] using hi.old_stacked.append hM.old_stacked
    young_sized := fun b hb => by
      obtain ⟨c, hc, rfl⟩ := List.mem_map.mp hb
      exact hM.evac.new_size c (.inr (.inl hc))
    old_sized := fun b hb => by
      obtain ⟨c, hc, rfl, -⟩ := placed_of_block hb
      exact hM.evac.new_size c hc
    no_forward := by
      rintro b (hb | hb)
      · obtain ⟨c, hc, rfl⟩ := List.mem_map.mp hb
        exact hM.evac.new_forward c (.inr (.inl hc))
      · obtain ⟨c, hc, rfl, -⟩ := placed_of_block hb
        exact hM.evac.new_forward c hc
    no_mark := by
      rintro b (hb | hb)
      · obtain ⟨c, hc, rfl⟩ := List.mem_map.mp hb
        exact (hM.survivor_flags hi hc).1
      · obtain ⟨c, -, rfl, hco⟩ := placed_of_block hb
        exact (hM.tenured_flags hi hco).1
    young_flags := fun b hb => by
      obtain ⟨c, hc, rfl⟩ := List.mem_map.mp hb
      exact (hM.survivor_flags hi hc).2
    old_flags := fun b hb => by
      obtain ⟨c, -, rfl, hco⟩ := placed_of_block hb
      exact (hM.tenured_flags hi hco).2
    flagged := fun b hb => by
      obtain ⟨c, hc, rfl, hco⟩ := placed_of_block hb
      exact hM.flagged c hc fun hy => hM.survivor_apart hi.live hy hco rfl
    entries_nodup := hM.entries_nodup
    entries_old := fun e he => by
      obtain ⟨c, hc, hcy, rfl⟩ := hM.entries_traced e he
      refine ⟨c.size, List.mem_append.mpr ?_⟩
      rcases hc with ⟨b, hb, rfl, -⟩ | hc | hc
      · exact .inl hb
      · exact absurd hc hcy
      · exact .inr (List.mem_map.mpr ⟨c, hc, rfl⟩)
    remembers := fun b hb hk hpt => by
      obtain ⟨c, -, rfl, hco⟩ := placed_of_block hb
      simp only [ended, hM.survivors_region] at hpt
      exact hS.remembers hi hmap hco hk hpt
    linked := hren.linked hi.kept_linked (fun _ ho => Arena.tag_congr (hS.head hi hmap ho)) hnamed
    placed := by
      rintro o' ⟨o, ho, rfl⟩
      obtain ⟨c, hc, rfl, hcn⟩ := hS.image_of_kept hi.live hmap ho
      refine ⟨c.size, ?_, ?_⟩
      · rw [← hcn, List.mem_append]
        rcases hc with ⟨b, hb, rfl⟩ | hc | hc
        · exact .inr (.inl hb)
        · exact .inl (List.mem_map.mpr ⟨c, hc, rfl⟩)
        · exact .inr (.inr (List.mem_map.mpr ⟨c, hc, rfl⟩))
      · rw [show (ended m₀ m stats).heap = m.heap from rfl, Arena.payload_congr
          (hS.head hi hmap ho)]
        exact (hS.fits hi hc ho).2
    roots := fun slot v' hv' => by
      obtain ⟨v, hv, him⟩ := hmap.of_slot hv'
      rw [hM.image_eq him]
      refine Value.rename_within ?_ hnamed
      exact (hi.live.roots slot v hv).mono fun _ => .inl
    entries := fun e he => by
      obtain ⟨c, hc, -, rfl⟩ := hM.entries_traced e he
      exact ⟨c.old, .inl (hM.fits hi.live hc).1, (hM.rename_eq hc.placed).symm⟩ }

/-- The copy of a live nursery object. -/
theorem Scanned.copy_of_live (hi : Inv m₀ young old S)
    (hS : Scanned m₀ young old threshold g.young g.old m g)
    (hmap : m₀.roots.Mapped (Image (ImageIn (Placed old g))) m.roots) {o n : Nat}
    (hn : (o, n) ∈ young) (hl : Live m₀ o) :
    ∃ c, c.old = o ∧ c.size = n ∧ c.new = g.rename o ∧ (c ∈ g.young ∨ c ∈ g.old) := by
  obtain ⟨done, hM, -⟩ := id hS.minor
  obtain ⟨c, hc, rfl, hcn⟩ := hS.image_of_kept (S := S) hi.live hmap (.inl hl)
  obtain ⟨hsz, -⟩ := hM.evac.moved _ hn c hc rfl
  refine ⟨c, rfl, hsz, hcn, ?_⟩
  rcases hc with ⟨b, hb, rfl⟩ | hc
  · have hsep := hi.separate hn hb
    have hin := hi.young_inside hn
    simp only [stay] at hsep hin
    omega
  · exact hc

/-- What the visits leave is the outcome of a minor collection. -/
theorem Scanned.evacuated (hi : Inv m₀ young old S)
    (hS : Scanned m₀ young old threshold g.young g.old m g)
    (hmap : m₀.roots.Mapped (Image (ImageIn (Placed old g))) m.roots)
    (hstats : stats.collections = m₀.stats.collections + 1) :
    Evacuated m₀ (ended m₀ m stats) young old (g.young.map Copy.block)
    (g.old.map Copy.block) threshold S g.rename := by
  obtain ⟨done, hM, -⟩ := id hS.minor
  have hown := hM.own
  exact {
    tenured := fun b hb => hM.rename_tenured hb
    renamed := hS.renamed hi hmap
    roots := by
      refine ⟨hmap.depth, hmap.table, hmap.capacity, hmap.parked, hmap.hash, fun slot v hv => ?_⟩
      obtain ⟨v', hv', him⟩ := hmap.slot slot v hv
      exact ⟨v', hv', hM.image_eq him⟩
    copied := fun o n hn hl => by
      obtain ⟨c, rfl, rfl, hcn, hc⟩ := hS.copy_of_live hi hmap hn hl
      rw [← hcn]
      rcases hc with hc | hc
      · have hp := (hM.young_flags c hc).1
        rw [if_neg (by rw [← isPromoted_iff, hp]; decide)]
        exact List.mem_map.mpr ⟨c, hc, rfl⟩
      · rw [if_pos (isPromoted_iff.mp (hM.promoted_flags c hc).1)]
        exact List.mem_map.mpr ⟨c, hc, rfl⟩
    origin := fun b hb => by
      obtain ⟨c, hc, rfl⟩ : ∃ c, (c ∈ g.young ∨ c ∈ g.old) ∧ c.block = b := by
        rcases hb with hb | hb <;> obtain ⟨c, hc, rfl⟩ := List.mem_map.mp hb
        · exact ⟨c, .inl hc, rfl⟩
        · exact ⟨c, .inr hc, rfl⟩
      obtain ⟨hl, hn⟩ := hM.live c hc
      exact ⟨c.old, hn, hl, hM.rename_eq (.inr hc)⟩
    aged := fun o n hn hl => by
      obtain ⟨c, rfl, rfl, hcn, hc⟩ := hS.copy_of_live hi hmap hn hl
      rw [← hcn]
      rcases hc with hc | hc
      · rw [show (ended m₀ m stats).heap = m.heap from rfl, (hM.young_flags c hc).2, age_agedFlags]
      · rw [← age_agedFlags threshold, ← (hM.promoted_flags c hc).2, ageOf, ageOf,
          and_not_and_of_disjoint (by decide)]
        rfl
    visited := fun o n i hv hs => by
      obtain ⟨c, rfl, rfl, hcn, hc⟩ : ∃ c, c.old = o ∧ c.size = n ∧ c.new = g.rename o ∧
        Traced m₀ old g c := by
        rcases hv with ⟨hn, hl⟩ | ⟨hn, he⟩
        · obtain ⟨c, ho, hz, hcn, hc⟩ := hS.copy_of_live hi hmap hn hl
          exact ⟨c, ho, hz, hcn, .inr hc⟩
        · exact ⟨stay (o, n), rfl, rfl, (hM.rename_tenured hn).symm, .inl ⟨_, hn, rfl, he⟩⟩
      rw [← hcn]
      exact hS.word_visited hc hs
    unvisited := fun b hb hn i hs => hS.word_unvisited hi.live hb hn hs
    old_flags := hM.old_flags
    inv := hS.inv hi hmap
    nursery := hM.survivors_region
    survivorSpace := rfl
    tenured_region := hM.tenured_region
    size_eq := hM.evac.size_eq
    capacity := by
      simp only [ended]
      rw [hown]
      rfl
    room := hM.room
    markCapacity := by
      simp only [ended]
      rw [hown]
      rfl
    own_threshold := by
      simp only [ended]
      rw [hown]
      rfl
    stress := hM.stress
    cycles := hstats }

end Outcome

/-- A minor collection ends, or fails for want of room. It records what the nursery holds no more,
less what was added to tenured space, and what both hold afterwards. -/
theorem evacuate_records {m : Machine Generational} {S : Nat → Prop} (hi : Inv m young old S) :
    Runs (evacuate threshold) m (fun _ m' => (∃ survivors promoted ρ,
      Evacuated m m' young old survivors promoted threshold S ρ) ∧
        m'.stats = m.stats.recordCycle .minor
        (m.own.nursery.used - (m'.own.nursery.used + (m'.own.tenured.used - m.own.tenured.used)))
        (m'.own.nursery.used + m'.own.tenured.used))
      fun f m' => Starves m young threshold f m' ∧ Interrupted m young old m' := by
  unfold evacuate
  refine Runs.step GcM.run_own ?_
  refine Runs.step GcM.run_heapSize ?_
  refine (GcM.runs_cycle (visit_runs hi.live)).bind ?_
  rintro ⟨-, ev⟩ m1 ⟨m2, ⟨g, hS, hmap⟩, rfl, rfl⟩
  obtain ⟨done, hM, -⟩ := id hS.minor
  have hpromoted : m2.own.2.promoted = m2.own.2.tenured.used - m.own.tenured.used := by
    have hle := hi.old_stacked.le
    have hcount := hM.counted
    unfold Bump.used
    rw [hM.tenured_region]
    omega
  refine Runs.step (GcM.run_modifyOwn _) ?_
  refine Runs.of_eq (GcM.run_recordCycle _ _ _) ⟨⟨_, _, _, hS.evacuated hi hmap ?_⟩, ?_⟩
  · simp only [Stats.recordCycle, Machine.withOwn_stats, hM.stats]
  · simp only [Machine.withOwn_stats, Machine.withOwn_own, hM.stats, hpromoted]

theorem evacuate_runs {m : Machine Generational} {S : Nat → Prop} (hi : Inv m young old S) :
    Runs (evacuate threshold) m (fun _ m' => ∃ survivors promoted ρ,
      Evacuated m m' young old survivors promoted threshold S ρ) (Starves m young threshold) :=
  ((evacuate_records hi).mono fun _ _ h => h.1).mono_fail fun _ _ h => h.1

/-- A minor collection that ends has renamed the survivors: whatever the roots or the remembered
objects reach in the nursery is copied once, a year older, and nothing else is. -/
theorem evacuate_renames_survivors {m m' : Machine Generational} {S : Nat → Prop}
    (hi : Inv m young old S) (hrun : evacuate threshold m = .ok () m') :
    ∃ survivors promoted ρ, Evacuated m m' young old survivors promoted threshold S ρ :=
  (evacuate_runs hi).ok hrun

/-- A nursery pair and a remembered tenured pair that refer to each other. -/
def crossing : Machine Generational where
  heap := ⟨#[0, 6, 0, 2, 120, 14, 0, 0, 0, 0, 0, 0, 0, 6, 0x300, 2, 24, 14, 0, 0, 0, 0, 0, 0]⟩
  roots :=
    { stack := #[.ofRef 15], capacity := 4, parked := 0, globals := #[.undef], hash := fun _ => 0 }
  stress := false
  stats := {}
  own := {
    nursery := ⟨⟨0, 6⟩, 6⟩
    survivorSpace := ⟨6, 12⟩
    tenured := ⟨⟨12, 24⟩, 18⟩
    remembered := ⟨#[15], 4⟩
    markCapacity := 4
    threshold := 2 }

theorem crossing_inv : Inv crossing [(3, 6)] [(15, 6)] fun o => o = 3 ∨ o = 15 where
  spaces := by constructor <;> decide
  young_stacked := ⟨rfl, by decide, rfl⟩
  old_stacked := ⟨rfl, by decide, rfl⟩
  young_sized := by unfold Sized; decide
  old_sized := by unfold Sized; decide
  no_forward := by
    rintro b (hb | hb) <;> obtain rfl := List.mem_singleton.mp hb <;> decide
  no_mark := by
    rintro b (hb | hb) <;> obtain rfl := List.mem_singleton.mp hb <;> decide
  young_flags := by decide
  old_flags := by decide
  flagged := by decide
  entries_nodup := by decide
  entries_old := by
    intro e he
    obtain rfl : e = 15 := List.mem_singleton.mp he
    exact ⟨6, by decide⟩
  remembers := by
    intro b hb _ _
    obtain rfl := List.mem_singleton.mp hb
    decide
  linked := by
    have hold : (Value.ofRef 15).Within fun o => o = 3 ∨ o = 15 :=
      Value.ofRef_within (by decide) (by decide) (.inr rfl)
    have hyoung : (Value.ofRef 3).Within fun o => o = 3 ∨ o = 15 :=
      Value.ofRef_within (by decide) (by decide) (.inl rfl)
    have hnil : Value.nil.Within fun o => o = 3 ∨ o = 15 := .of_not_ref (by decide)
    rintro o a (rfl | rfl) - (rfl | rfl)
    · exact hold
    · exact hnil
    · exact hyoung
    · exact hnil
  placed := by
    rintro o (rfl | rfl)
    · exact ⟨6, .inl (by decide), by decide⟩
    · exact ⟨6, .inr (by decide), by decide⟩
  roots := Roots.within_of_single rfl rfl (Value.ofRef_within (by decide) (by decide) (.inr rfl))
    (.of_not_ref (v := .undef) (by decide))
  entries := by
    intro e he
    exact .inr (List.mem_singleton.mp he)

/-- The collection that promotes the nursery pair. -/
theorem crossing_evacuates : ∃ m' survivors promoted ρ,
    evacuate 1 crossing = .ok () m' ∧
    Evacuated crossing m' [(3, 6)] [(15, 6)] survivors promoted 1 (fun o => o = 3 ∨ o = 15) ρ := by
  have hok : (match evacuate 1 crossing with
      | .ok _ _ => true
      | .error _ _ => false) = true := by decide +kernel
  cases hrun : evacuate 1 crossing with
  | ok a m' =>
    obtain ⟨survivors, promoted, ρ, h⟩ := evacuate_renames_survivors crossing_inv hrun
    exact ⟨m', survivors, promoted, ρ, rfl, h⟩
  | error e m' =>
    rw [hrun] at hok
    cases hok

end Reclaim.Generational
