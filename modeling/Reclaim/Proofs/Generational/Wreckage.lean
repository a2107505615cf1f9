import Reclaim.Proofs.Wreckage

/-!
# What a failing operation of a generational heap leaves

A minor collection that stops half-way leaves two generations of objects: those of the start, which
are as they were but for their forwarding words, and the copies made so far. A field that was
visited leads to a copy or to a tenured object, any other one to an object of the start, and so do
the roots. A major collection that stops has only flagged objects, and so has a store whose object
finds no room in the remembered set.

Results:
* `Stranded.legible`: the heap after a minor collection that stopped.
* `brittle`: all operations.
-/

namespace Reclaim.Generational

variable {m₀ m m' : Machine Generational} {young old : List (Nat × Nat)} {S S₁ : Nat → Prop}
  {g : Survivors} {done : List Nat} {ρ : Nat → Nat} {threshold k : Nat}

/-! ## Minor collections -/

/-- An image, or an object of the nursery where it was. -/
def Extant (young old : List (Nat × Nat)) (g : Survivors) (c : Copy) : Prop :=
  (∃ b ∈ young, c = stay b) ∨ Placed old g c

namespace Stranded

variable {c d : Copy} (hg : Good m₀ young old S) (hs : Stranded m₀ young old m g done)

/-- An image stands where its words are. -/
theorem standing (hold : ∀ b ∈ old, S b.1) (hc : Placed old g c) : Standing S g c.new := by
  rcases hc with ⟨b, hb, rfl⟩ | hc
  · exact .inl (hold b hb)
  · exact .inr ⟨c, hc, rfl⟩

include hs

theorem inside (hc : Extant young old g c) :
    3 ≤ c.new ∧ c.new + c.size ≤ m.heap.size + 3 ∧ 3 < c.size := by
  rw [hs.evac.size_eq]
  rcases hc with ⟨b, hb, rfl⟩ | hc
  · exact hs.evac.source_inside b hb
  · exact hs.evac.inside c hc

theorem separate (hc : Extant young old g c) (hd : Extant young old g d) :
    c = d ∨ c.new + c.size ≤ d.new ∨ d.new + d.size ≤ c.new := by
  rcases hc with ⟨b, hb, rfl⟩ | hc <;> rcases hd with ⟨b', hb', rfl⟩ | hd
  · exact (hs.evac.source_apart b hb b' hb').imp (congrArg stay) id
  · exact .inr (hs.evac.clear d hd b hb).symm
  · exact .inr (hs.evac.clear c hc b' hb')
  · exact hs.evac.apart c d hc hd

/-- Only fields change, and only those of images. -/
theorem word (hc : Extant young old g c) {i : Nat} (hi : i + 3 < c.size)
    (hplain : c.new + i ∉ done) : m.heap.word (c.new + i) = m₀.heap.word (c.old + i) := by
  rcases hc with ⟨b, hb, rfl⟩ | hc
  · simp only [stay] at hi ⊢
    exact hs.evac.source b hb _ (by simp only [header_words]; omega)
      (by simp only [header_words]; omega) (by simp only [header_forward]; omega)
  · exact hs.evac.plain c hc i hi hplain

/-- A field refers to what it referred to, or to its image. -/
theorem field (hc : Extant young old g c) {i : Nat} (hi : i + 3 < c.size) (hpos : 1 ≤ i) :
    m.heap.value (c.new + i) = m₀.heap.value (c.old + i) ∨
      ∃ d, Placed old g d ∧ m.heap.value (c.new + i) = .ofRef d.new := by
  by_cases hd : c.new + i ∈ done
  · rcases hc with ⟨b, hb, rfl⟩ | hc
    · left
      refine Arena.value_congr (hs.evac.source b hb _ ?_ ?_ ?_)
      all_goals simp only [header_words, header_forward, stay] at hi ⊢
      all_goals omega
    · obtain ⟨d, hd, -, hv⟩ := hs.evac.visited c hc i hi hd
      exact .inr ⟨d, hd, hv⟩
  · exact .inl (Arena.value_congr (hs.word hc hi hd))

include hg

theorem extant {o : Nat} (ho : Standing S g o) :
    ∃ c, Extant young old g c ∧ c.new = o ∧ S c.old ∧ 3 + m₀.heap.payload c.old ≤ c.size := by
  rcases ho with ho | ⟨c, hc, rfl⟩
  · obtain ⟨n, hb | hb, hfit⟩ := hg.inv.placed o ho
    · exact ⟨stay (o, n), .inl ⟨_, hb, rfl⟩, rfl, ho, hfit⟩
    · exact ⟨stay (o, n), .inr (.inl ⟨_, hb, rfl⟩), rfl, ho, hfit⟩
  · obtain ⟨hlive, hb⟩ := hs.live c hc
    have hS := hg.inv.live_mem hlive
    exact ⟨c, .inr (.inr hc), rfl, hS, hg.inv.fits hS (.inl hb)⟩

theorem head (hc : Extant young old g c) : m.heap.word c.new = m₀.heap.word c.old := by
  rcases hc with ⟨b, hb, rfl⟩ | hc
  · have hin := hg.inv.young_inside hb
    exact hs.evac.source b hb _ (by simp only [header_words, stay]; omega)
      (by simp only [header_words, stay]; omega) (by simp only [header_forward, stay]; omega)
  · exact hs.evac.head hc

/-- All objects are well-formed, and refer to each other. -/
theorem apart : Apart 3 m.heap (Standing S g) := by
  have htag : ∀ {c}, Extant young old g c → m.heap.tag c.new = m₀.heap.tag c.old :=
    fun hc => Arena.tag_congr (hs.head hg hc)
  have hpay : ∀ {c}, Extant young old g c → m.heap.payload c.new = m₀.heap.payload c.old :=
    fun hc => Arena.payload_congr (hs.head hg hc)
  refine ⟨⟨fun o ho => ?_, fun o a ho ht ha => ?_⟩, fun o ho => ?_, fun o o' ho ho' => ?_⟩
  · obtain ⟨c, hc, rfl, hS, -⟩ := hs.extant hg ho
    rw [htag hc]
    exact hg.known _ hS
  · obtain ⟨c, hc, rfl, hS, hfit⟩ := hs.extant hg ho
    rw [htag hc] at ht
    rw [Arena.payload_of_pair ht] at hfit
    obtain ⟨i, hi, rfl⟩ : ∃ i, (i = 1 ∨ i = 2) ∧ a = c.new + i := by
      rcases ha with rfl | rfl
      · exact ⟨1, .inl rfl, rfl⟩
      · exact ⟨2, .inr rfl, rfl⟩
    rcases hs.field hc (i := i) (by omega) (by omega) with hv | ⟨d, hd, hv⟩
    · rw [hv]
      exact (hg.closed.field c.old _ hS ht (by omega)).mono fun _ => .inl
    · have hin := hs.inside (.inr hd)
      have hsmall := hg.inv.spaces.small
      rw [← hs.evac.size_eq] at hsmall
      rw [hv]
      exact Value.ofRef_within (by omega) (by omega) (standing hg.old_valid hd)
  · obtain ⟨c, hc, rfl, -, hfit⟩ := hs.extant hg ho
    have hin := hs.inside hc
    rw [hpay hc]
    omega
  · obtain ⟨c, hc, rfl, -, hfit⟩ := hs.extant hg ho
    obtain ⟨d, hd, rfl, -, hfit'⟩ := hs.extant hg ho'
    rw [hpay hc, hpay hd]
    rcases hs.separate hc hd with rfl | h | h
    · exact .inl rfl
    · exact .inr (.inl (by omega))
    · exact .inr (.inr (by omega))

theorem roots_within : m.roots.Within (Standing S g) :=
  Roots.Within.mono hs.roots fun _ ho => ho.imp hg.inv.live_mem id

/-- The blocks are those of the start: no space was switched. -/
theorem objects : Generational.objects m.own m.heap = .ok (young ++ old) := by
  refine hg.inv.objects_of (by rw [hs.own]; rfl) (by rw [hs.own]; rfl) hs.evac.size_eq ?_
  intro b hb
  rcases hb with hb | hb
  · have hin := hg.inv.young_inside hb
    exact hs.evac.source b hb _ (by simp only [header_words]; omega)
      (by simp only [header_words]; omega) (by simp only [header_forward]; omega)
  · have hnew := hs.evac.new_size (stay b) (.inl ⟨b, hb, rfl⟩)
    have hsize := hg.inv.old_sized b hb
    exact UInt64.toNat_inj.mp (hnew.trans hsize.symm)

theorem legible : Legible (m.hosted .generational) (Standing S g) := by
  refine ⟨⟨3, hs.apart hg⟩, hs.roots_within hg, ⟨_, hs.objects hg, fun b hb => ?_⟩, _, rfl⟩
  have hin := hg.inv.block_inside (List.mem_append.mp hb)
  rw [← hs.evac.size_eq] at hin
  refine ⟨hin.1, ?_⟩
  change b.1 ≤ m.heap.size
  omega

theorem wrecks : Wrecks .generational 0 m₀ S m := by
  refine ⟨_, 0, Nat.le_refl 0, hs.legible hg, ?_, fun _ o _ ho _ => .inl ho⟩
  simp [Machine.hosted, hs.stats]

end Stranded

theorem evacuate_wrecks (hg : Good m young old S) :
    Runs (evacuate threshold) m (fun _ _ => True) fun _ => Wrecks .generational 0 m S := by
  refine ((evacuate_records hg.inv).mono fun _ _ _ => trivial).mono_fail ?_
  rintro f m' ⟨-, g, done, hs⟩
  exact hs.wrecks hg

/-! ## All operations -/

theorem Good.legible (hg : Good m young old S) : Legible (m.hosted .generational) S := by
  have hi : Collector.Hosted .generational Intact (m.hosted .generational) S :=
    ⟨m.own, rfl, young, old, hg⟩
  obtain ⟨bs, chunks, hs⟩ := Generational.shaped (u := ⟨m.hosted .generational, false⟩) hi
  exact (laws.hosted hosts).legible hi hs

/-- A major collection that fails has left marks and remembered flags. -/
theorem collectMajor_wrecks (hg : Good m young old S) :
    Runs collectMajor m (fun _ _ => True) fun _ => Wrecks .generational 0 m S := by
  have hi := hg.inv.filled
  refine ((collectMajor_slides hi).mono fun _ _ _ => trivial).mono_fail ?_
  rintro - m' ⟨-, hu⟩
  have hb : Marking.Spaced m.heap S (· ∈ young ++ old) := by
    refine ⟨fun hb => hi.block_inside (List.mem_append.mp hb),
      fun hb hc => hi.block_apart (List.mem_append.mp hb) (List.mem_append.mp hc), fun o ho => ?_⟩
    obtain ⟨n, hn, hfit⟩ := hi.placed o ho
    exact ⟨n, List.mem_append.mpr hn, hfit⟩
  have hown : m'.own = m.own := by
    rw [hu.rest]
    rfl
  have hlist : objects m'.own m'.heap = .ok (young ++ old) := by
    refine hg.inv.objects_of (by rw [hown]) (by rw [hown]) hu.size_eq fun b hbm => ?_
    exact hu.word _ fun c hc => hg.inv.header_ne hbm (List.mem_append.mp hc) (.inl rfl)
  rw [hown] at hlist
  exact hu.wrecks hb hg.objects_apart hi.roots (Nat.le_refl _) hlist ⟨_, rfl⟩

/-- A regular collection that fails may have run a minor one. -/
theorem collect_wrecks (hg : Good m young old S) :
    Runs collect m (fun _ _ => True) fun _ => Wrecks .generational 3 m S := by
  unfold collect
  refine ((evacuate_moves hg).failing
    ((evacuate_wrecks hg).mono_fail fun _ _ h => h.mono (by decide))).bind ?_
  rintro - m₁ ⟨young₁, old₁, S₁, ρ, hg₁, hmv₁⟩
  refine Runs.step GcM.run_own ?_
  cases m₁.own.tenured.fits m₁.own.nursery.region.length with
  | true => exact Runs.pure trivial
  | false =>
    exact (collectMajor_wrecks hg₁).mono_fail fun _ _ h => (h.after hmv₁).mono (by decide)

theorem collectFull_wrecks (hg : Good m young old S) :
    Runs collectFull m (fun _ _ => True) fun _ => Wrecks .generational 3 m S := by
  unfold collectFull
  refine ((evacuate_moves hg).failing
    ((evacuate_wrecks hg).mono_fail fun _ _ h => h.mono (by decide))).bind ?_
  rintro - m₁ ⟨young₁, old₁, S₁, ρ, hg₁, hmv₁⟩
  exact (collectMajor_wrecks hg₁).mono_fail fun _ _ h => (h.after hmv₁).mono (by decide)

theorem allocate_wrecks {words : Nat} (hg : Good m young old S)
    (hcount : (words + headerWords) * wordBytes < wordValues) :
    Runs (allocate words) m (fun _ _ => True) fun _ => Wrecks .generational 3 m S := by
  let P (k : Nat) (m₁ : Machine Generational) : Prop :=
    ∃ young₁ old₁ S₁ ρ, Good m₁ young₁ old₁ S₁ ∧ Moved Intact m m₁ S S₁ ρ k
  refine allocate_by (P := P) hcount
    ⟨young, old, S, id, hg, Moved.refl ⟨young, old, hg⟩ hg.closed hg.inv.roots⟩ ?_ ?_
    (fun _ _ => (Wrecks.refl hg.legible).mono (by decide)) ?_
  · refine ((collect_runs hg).failing (collect_wrecks hg)).mono ?_
    rintro - m₁ ⟨young₁, old₁, S₁, ρ, k, hk, hg₁, hmv⟩
    exact ⟨k, hk, young₁, old₁, S₁, ρ, hg₁, hmv⟩
  · rintro k m₁ hk ⟨young₁, old₁, S₁, ρ, hg₁, hmv⟩
    refine (hg₁.cycle hmv (evacuate_moves hg₁)).failing
      ((evacuate_wrecks hg₁).mono_fail fun _ _ h => ?_)
    exact (h.after hmv).mono (by omega)
  · rintro k m₁ hk ⟨young₁, old₁, S₁, ρ, hg₁, hmv⟩
    exact handOut_by hcount hg₁.nursery_inside (fun _ _ => .of_moved hmv hk hg₁.legible)
      fun _ => trivial

/-- An object that cannot be remembered is not flagged, and its field is written. -/
theorem writeField_wrecks {o field : Nat} {v : Value} (hg : Good m young old S) (ho : S o)
    (ht : m.heap.tag o = some .pair) (hf : field = o + 1 ∨ field = o + 2) (hv : v.Within S) :
    Runs (writeField o field v) m (fun _ _ => True) fun _ => Wrecks .generational 0 m S := by
  refine ((writeField_runs hg ho ht hf hv).mono fun _ _ _ => trivial).mono_fail ?_
  rintro - m' ⟨-, hr⟩
  have hap := hg.objects_apart
  have hstored := hr.stored hg ho ht hf
  have hsize : m'.heap.size = m.heap.size := by
    rw [hr.size_eq, Machine.withHeap_heap, Arena.size_put]
  have hpay : ∀ x, S x → m'.heap.payload x = m.heap.payload x :=
    fun x hx => Arena.payload_congr (hstored.head hap ho ht hf hx)
  refine ⟨S, 0, Nat.le_refl 0, ⟨⟨3, hstored.closed hap ho ht hf hv, fun x hx => ?_,
    fun x y hx hy => ?_⟩, ?_, ⟨young ++ old, ?_, fun b hb => ?_⟩, _, rfl⟩, ?_, fun _ _ _ hx _ => hx⟩
  · change 3 ≤ x ∧ x + m'.heap.payload x ≤ m'.heap.size
    rw [hpay x hx, hsize]
    exact hap.inside x hx
  · change x = y ∨ x + m'.heap.payload x + 3 ≤ y ∨ y + m'.heap.payload y + 3 ≤ x
    rw [hpay x hx, hpay y hy]
    exact hap.apart x y hx hy
  · change m'.roots.Within S
    rw [hr.roots]
    exact hg.inv.roots
  · refine hg.inv.objects_of (by rw [hr.own]; rfl) (by rw [hr.own]; rfl) hsize ?_
    exact fun b hb => hr.header hg ho ht hf hb (.inl rfl)
  · have hin := hg.inv.block_inside (List.mem_append.mp hb)
    rw [← hsize] at hin
    refine ⟨hin.1, ?_⟩
    change b.1 ≤ m'.heap.size
    omega
  · simp [Machine.hosted, hr.stats]

/-- The operations of a generational heap. -/
theorem brittle : Brittle operations .generational Intact := by
  refine .plain ?_ ?_ ?_ ?_ ?_
  · rintro m S ⟨young, old, hg⟩
    exact hg.legible
  · rintro m S n ⟨young, old, hg⟩ - hcount
    exact allocate_wrecks hg hcount
  · rintro m S ⟨young, old, hg⟩
    exact collect_wrecks hg
  · rintro m S ⟨young, old, hg⟩
    exact collectFull_wrecks hg
  · rintro m S o field v ⟨young, old, hg⟩ ho ht hf hv
    exact (writeField_wrecks hg ho ht hf hv).mono_fail fun _ _ h => h.mono (by decide)

end Reclaim.Generational
