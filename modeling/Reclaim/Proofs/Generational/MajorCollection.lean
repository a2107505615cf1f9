import Reclaim.Proofs.Generational.Major

/-!
# Major collection: redirecting and moving

The second half of a major collection redirects every reference to a marked tenured object, takes
the marks off the nursery and moves the marked tenured objects down, adding those that refer into
the nursery to the emptied remembered set.

Results:
* `Prepared.ready`: the heap when all references are redirected.
* `slideAll_runs`: moving the tenured objects never overflows the remembered set.
-/

namespace Reclaim.Generational

variable {m₀ : Machine Generational} {young old : List (Nat × Nat)} {S : Nat → Prop} {ms : List Nat}

/-- The marked tenured objects with their new places. -/
def moves (m₀ : Machine Generational) (old : List (Nat × Nat)) (ms : List Nat) : List Copy :=
  targets 3 m₀.own.tenured.region.first (marked ms old)

namespace Found

/-- No word of a block but those of its header belongs to a marked header. -/
theorem not_header (hf : Found m₀ young old S ms) {b : Nat × Nat} (hb : b ∈ young ∨ b ∈ old)
    {a k : Nat} (hk : k = 1 ∨ k = 3) (h1 : b.1 ≤ a + 3) (h2 : a + 3 < b.1 + b.2)
    (hne : a + k ≠ b.1) : a + k ∉ ms := by
  intro hmem
  obtain ⟨n, hc, -⟩ := hf.inv.placed _ (hf.valid _ hmem)
  have hcin := hf.inv.block_inside hc
  simp only at hcin
  rcases hf.inv.block_apart hb hc with rfl | h | h
  · exact hne rfl
  · simp only at h; omega
  · simp only at h; omega

end Found

section Prepared

variable {h : Arena}

/-- A word of a block that is not a flag word and no forwarding word is as it was. -/
theorem Prepared.word_eq (hf : Found m₀ young old S ms) (hp : Prepared m₀ young old ms h)
    {b : Nat × Nat} (hb : b ∈ young ∨ b ∈ old) {a : Nat} (h1 : b.1 ≤ a + 3) (h2 : a + 3 < b.1 + b.2)
    (h3 : a + 1 ≠ b.1) (h4 : a + 3 ≠ b.1) : h.word a = m₀.heap.word a := by
  refine hp.other a (hf.not_header hb (.inl rfl) h1 h2 h3) fun c hc he => ?_
  exact hf.not_header hb (.inr rfl) h1 h2 h4 (he ▸ (mem_marked.mp hc).2)

/-- The words of a marked object are as they were. -/
theorem Prepared.payload (hf : Found m₀ young old S ms) (hp : Prepared m₀ young old ms h)
    {o i : Nat} (ho : o ∈ ms) (hlt : i < m₀.heap.payload o) :
    h.word (o + i) = m₀.heap.word (o + i) := by
  obtain ⟨n, hb, hfit⟩ := hf.inv.placed o (hf.valid o ho)
  exact hp.word_eq hf hb (by simp only; omega) (by simp only; omega) (by simp only; omega)
    (by simp only; omega)

theorem Prepared.apart (hf : Found m₀ young old S ms) (hp : Prepared m₀ young old ms h) :
    Apart 3 h (· ∈ ms) :=
  hf.apart.congr hp.size_eq fun _ _ ho hlt => hp.payload hf ho hlt

/-- A move is one of a marked tenured object, downwards. -/
theorem mem_moves (hf : Found m₀ young old S ms) {p : Copy} (hp : p ∈ moves m₀ old ms) :
    (p.old, p.size) ∈ old ∧ p.old ∈ ms ∧ m₀.own.tenured.region.first + 3 ≤ p.new ∧
    p.new ≤ p.old := by
  obtain ⟨hb, hm⟩ := mem_marked.mp (mem_targets hp)
  obtain ⟨top, hsl, -⟩ := slides_targets hf.inv.old_stacked
    (List.filter_sublist : (marked ms old).Sublist old)
    (Nat.le_refl _)
  have hmem := hsl.mem hp
  exact ⟨hb, hm, hmem.1, hmem.2.2.1⟩

/-- Where a marked object goes. -/
theorem relocate_old (hf : Found m₀ young old S ms) {p : Copy} (hp : p ∈ moves m₀ old ms) :
    relocate (moves m₀ old ms) p.old = p.new :=
  relocate_of_mem hp fun _ hq he => target_unique (marked_nodup hf.inv) hp hq he

theorem relocate_young (hf : Found m₀ young old S ms) {b : Nat × Nat} (hb : b ∈ young) :
    relocate (moves m₀ old ms) b.1 = b.1 := by
  refine relocate_of_not_mem fun p hp he => ?_
  have hsep := hf.inv.separate hb (mem_moves hf hp).1
  have hin := hf.inv.young_inside hb
  simp only at hsep
  omega

/-- The headers tell where each marked object goes. -/
theorem Prepared.redirection (hf : Found m₀ young old S ms) (hp : Prepared m₀ young old ms h)
    (hclean : ∀ b ∈ young, m₀.heap.word (b.1 - 3) = 0) {o : Nat} (ho : o ∈ ms) :
    redirection 3 h o = relocate (moves m₀ old ms) o := by
  obtain ⟨n, hb | hb, -⟩ := hf.block ho
  · obtain ⟨hby, -⟩ := mem_marked.mp hb
    have hin := hf.inv.young_inside hby
    have hw : h.word (o - 3) = 0 := by
      rw [hp.other]
      · exact hclean _ hby
      · exact hf.not_header (.inl hby) (.inl rfl) (by simp only; omega) (by simp only; omega)
          (by simp only at hin ⊢; omega)
      · intro c hc he
        have hsep := hf.inv.separate hby (mem_marked.mp hc).1
        simp only at hin hsep
        omega
    rw [Reclaim.redirection, hw, if_pos (show UInt64.toNat 0 = 0 from rfl)]
    exact (relocate_young hf hby).symm
  · obtain ⟨p, hpm, rfl, rfl⟩ : ∃ p ∈ moves m₀ old ms, p.old = o ∧ p.size = n := exists_target hb
    obtain ⟨hbo, -, h1, h2⟩ := mem_moves hf hpm
    have hin := hf.inv.old_inside hbo
    have hsmall := hf.inv.spaces.small
    simp only at hin
    have hnat : (h.word (p.old - 3)).toNat = p.new := by
      rw [hp.forward p hpm, toNat_ofNat_of_lt (by omega)]
    rw [Reclaim.redirection, hnat, if_neg (by omega)]
    exact (relocate_old hf hpm).symm

end Prepared

/-! ## Redirecting -/

section Redirect

variable {h : Arena} {E : Failure → Machine Generational → Prop}

/-- Taking marks off changes flag words alone. -/
theorem Prepared.unset_word (hf : Found m₀ young old S ms) {os : List Nat} (hos : ∀ o ∈ os, o ∈ ms)
    {b : Nat × Nat} (hb : b ∈ young ∨ b ∈ old) {a : Nat} (h1 : b.1 ≤ a + 3) (h2 : a + 3 < b.1 + b.2)
    (h3 : a + 1 ≠ b.1) :
    (unset markedFlag h os).word a = h.word a := by
  refine word_unset_of_ne (fun e he hea => ?_) fun e he => ?_
  · exact hf.not_header hb (.inl rfl) h1 h2 h3 (hea ▸ hos e he)
  · have hin := hf.apart.inside e (hos e he)
    omega

theorem Prepared.unset_apart (hf : Found m₀ young old S ms) (hp : Prepared m₀ young old ms h)
    {os : List Nat} (hos : ∀ o ∈ os, o ∈ ms) : Apart 3 (unset markedFlag h os) (· ∈ ms) := by
  refine (hp.apart hf).congr (size_unset _ _ _) fun o i ho hlt => ?_
  obtain ⟨n, hb, hfit⟩ := hf.inv.placed o (hf.valid o ho)
  have hpay : h.payload o = m₀.heap.payload o :=
    Arena.payload_congr (hp.payload hf (i := 0) ho (Arena.payload_pos (hf.closed.known o ho)))
  exact Prepared.unset_word hf hos hb (by simp only; omega) (by simp only; omega)
    (by simp only; omega)

theorem Prepared.unset_redirection (hf : Found m₀ young old S ms) {os : List Nat}
    (hos : ∀ o ∈ os, o ∈ ms) {o : Nat} (ho : o ∈ ms) :
    Reclaim.redirection 3 (unset markedFlag h os) o = Reclaim.redirection 3 h o := by
  obtain ⟨n, hb, -⟩ := hf.inv.placed o (hf.valid o ho)
  have hin := hf.inv.block_inside hb
  simp only at hin
  have hw : (unset markedFlag h os).word (o - 3) = h.word (o - 3) :=
    Prepared.unset_word hf hos hb (by simp only; omega) (by simp only; omega) (by simp only; omega)
  rw [Reclaim.redirection, Reclaim.redirection, hw]

/-- The nursery objects are redirected one by one, and their marks are taken off. -/
theorem redirectYoung_runs (hf : Found m₀ young old S ms) (hp : Prepared m₀ young old ms h)
    {m : Machine Generational}
    (hr : Redirected h (Reclaim.redirection 3 h) m.heap ((marked ms old).map Prod.fst)) :
    Runs (((marked ms young).map Prod.fst).forM fun obj => do
        traceObject redirect obj
        setFlag markedFlag false obj) m
      (fun _ m' => m' = m.withHeap m'.heap ∧
        Redirected (unset markedFlag h ((marked ms young).map Prod.fst))
        (Reclaim.redirection 3 h) m'.heap
          ((marked ms young).map Prod.fst ++ (marked ms old).map Prod.fst)) E := by
  have hnd : ((marked ms young).map Prod.fst).Nodup :=
    hf.inv.young_stacked.nodup.sublist (List.Sublist.map _ List.filter_sublist)
  let J : List Nat → Machine Generational → Prop := fun todo m' => m' = m.withHeap m'.heap ∧ ∃ done,
    (marked ms young).map Prod.fst = done ++ todo ∧ Redirected (unset markedFlag h done)
      (Reclaim.redirection 3 h) m'.heap (done ++ (marked ms old).map Prod.fst)
  refine (forM_runs (J := J) ?_ ⟨rfl, [], rfl, hr⟩).mono ?_
  · rintro o todo m1 ⟨hm1, done, hsplit, hr1⟩
    have hdone : ∀ x ∈ done, x ∈ ms := by
      intro x hx
      have hxy : x ∈ (marked ms young).map Prod.fst := by simp [hsplit, hx]
      exact mem_of_marked hxy
    obtain ⟨b, hb, rfl⟩ : ∃ b ∈ marked ms young, b.1 = o := List.mem_map.mp (by simp [hsplit])
    obtain ⟨hby, hbm⟩ := mem_marked.mp hb
    have hin := hf.inv.young_inside hby
    have hos : ∀ x ∈ done ++ (marked ms old).map Prod.fst, x ∈ ms := fun x hx =>
      (List.mem_append.mp hx).elim (hdone x) mem_of_marked
    have hnot : b.1 ∉ done ++ (marked ms old).map Prod.fst := by
      intro hx
      rcases List.mem_append.mp hx with hx | hx
      · rw [hsplit] at hnd
        exact (List.nodup_append.mp hnd).2.2 _ hx _ (by simp) rfl
      · obtain ⟨c, hc, hce⟩ := List.mem_map.mp hx
        have hsep := hf.inv.separate hby (mem_marked.mp hc).1
        omega
    have hap := hp.unset_apart hf hdone
    refine (redirectObject_runs hap (by decide) (by decide)
      (fun x hx => Prepared.unset_redirection hf hdone hx) hr1 hos hbm
      hnot).bind ?_
    rintro - m2 ⟨hm2, hr2⟩
    have hsize : m2.heap.size = m₀.heap.size := by rw [hr2.size_eq, size_unset, hp.size_eq]
    have hset : setFlag markedFlag false b.1 m2.heap
        = .ok () (m2.heap.put (b.1 - 1) (m2.heap.word (b.1 - 1) &&& ~~~markedFlag)) :=
      setFlag_run (by omega) (by omega)
    refine Runs.of_eq (heap_lift hset) ⟨by rw [hm2, hm1]; rfl, done ++ [b.1], by simp [hsplit], ?_⟩
    have hw : m2.heap.word (b.1 - 1) = (unset markedFlag h done).word (b.1 - 1) := by
      refine hr2.header hap (fun x hx => ?_) hbm (by omega) (by omega)
      rcases List.mem_cons.mp hx with rfl | hx
      · exact hbm
      · exact hos x hx
    rw [unset_snoc, Machine.withHeap_heap, hw]
    refine (hr2.put (fun x hx => ?_) _).congr fun x => by simp; grind
    have hx : x ∈ ms := by
      rcases List.mem_cons.mp hx with rfl | hx
      · exact hbm
      · exact hos x hx
    have hpx := Arena.payload_pos (hap.closed.known x hx)
    have hxin := hap.inside x hx
    refine ⟨?_, fun ht => ?_⟩
    · rcases hap.apart x b.1 hx hbm with h | h | h <;> omega
    · have hp3 := Arena.payload_of_pair ht
      rcases hap.apart x b.1 hx hbm with h | h | h <;> omega
  · rintro - m' ⟨hm', done, hsplit, hr'⟩
    rw [List.append_nil] at hsplit
    rw [hsplit]
    exact ⟨hm', hr'⟩

/-- The heap when all references are redirected by `ρ` and only the tenured objects are still to be
moved. -/
structure Ready (m₀ : Machine Generational) (young old : List (Nat × Nat)) (ms : List Nat)
    (ρ : Nat → Nat) (h : Arena) : Prop where
  size_eq : h.size = m₀.heap.size
  /-- Nothing in a block has changed but the fields of marked pairs, and what the header holds. -/
  word : ∀ b, b ∈ young ∨ b ∈ old → ∀ i, i + 3 < b.2 →
    ¬ (b.1 ∈ ms ∧ m₀.heap.tag b.1 = some .pair ∧ (i = 1 ∨ i = 2)) →
    h.word (b.1 + i) = m₀.heap.word (b.1 + i)
  field : ∀ o ∈ ms, m₀.heap.tag o = some .pair → ∀ i, i = 1 ∨ i = 2 →
    h.value (o + i) = (m₀.heap.value (o + i)).rename ρ
  forward : ∀ p ∈ moves m₀ old ms, h.word (p.old - 3) = UInt64.ofNat p.new
  size : ∀ b, b ∈ young ∨ b ∈ old → h.word (b.1 - 2) = m₀.heap.word (b.1 - 2)
  young_forward : ∀ b ∈ young, h.word (b.1 - 3) = m₀.heap.word (b.1 - 3)
  young_flags : ∀ b ∈ young, h.word (b.1 - 1) = m₀.heap.word (b.1 - 1)
  old_flags : ∀ b ∈ marked ms old, h.word (b.1 - 1)
    = flagAs (pointsInto? m₀.heap m₀.own.nursery.region b.1) (m₀.heap.word (b.1 - 1) ||| markedFlag)

/-- Redirections that agree on what is marked. -/
theorem Ready.congr (hf : Found m₀ young old S ms) {ρ τ : Nat → Nat}
    (hr : Ready m₀ young old ms ρ h) (hρ : ∀ o ∈ ms, ρ o = τ o) :
    Ready m₀ young old ms τ h :=
  { hr with
    field := fun o ho ht i hi => by
      rw [hr.field o ho ht i hi, (hf.closed.field o _ ho ht (by omega)).rename_congr hρ] }

section Unset

variable {os : List Nat}

/-- Before redirecting, a word of a block that is not a flag word and no forwarding word is as it
was. -/
theorem Prepared.unset_eq (hf : Found m₀ young old S ms) (hp : Prepared m₀ young old ms h)
    (hos : ∀ o ∈ os, o ∈ ms) {b : Nat × Nat} (hb : b ∈ young ∨ b ∈ old) {a : Nat} (h1 : b.1 ≤ a + 3)
    (h2 : a + 3 < b.1 + b.2) (h3 : a + 1 ≠ b.1) (h4 : a + 3 ≠ b.1) :
    (unset markedFlag h os).word a = m₀.heap.word a := by
  rw [Prepared.unset_word hf hos hb h1 h2 h3]
  exact hp.word_eq hf hb h1 h2 h3 h4

theorem Prepared.unset_payload (hf : Found m₀ young old S ms) (hp : Prepared m₀ young old ms h)
    (hos : ∀ o ∈ os, o ∈ ms) {o i : Nat} (ho : o ∈ ms) (hlt : i < m₀.heap.payload o) :
    (unset markedFlag h os).word (o + i) = m₀.heap.word (o + i) := by
  obtain ⟨n, hb, hfit⟩ := hf.inv.placed o (hf.valid o ho)
  exact hp.unset_eq hf hos hb (by simp only; omega) (by simp only; omega) (by simp only; omega)
    (by simp only; omega)

theorem Prepared.unset_tag (hf : Found m₀ young old S ms) (hp : Prepared m₀ young old ms h)
    (hos : ∀ o ∈ os, o ∈ ms) {o : Nat} (ho : o ∈ ms) :
    (unset markedFlag h os).tag o = m₀.heap.tag o :=
  Arena.tag_congr (hp.unset_payload hf hos ho (i := 0) (Arena.payload_pos (hf.closed.known o ho)))

/-- The flags of a nursery object are as they were once its mark is off. -/
theorem Prepared.unset_young_flags (hf : Found m₀ young old S ms) (hp : Prepared m₀ young old ms h)
    {b : Nat × Nat} (hb : b ∈ young) :
    (unset markedFlag h ((marked ms young).map Prod.fst)).word (b.1 - 1) = m₀.heap.word
    (b.1 - 1) := by
  have hin := hf.inv.young_inside hb
  have h1 : b.1 - 1 + 1 = b.1 := by omega
  by_cases hbm : b.1 ∈ ms
  · have hby : b ∈ marked ms young := mem_marked.mpr ⟨hb, hbm⟩
    rw [word_unset_self (List.mem_map_of_mem hby) (by rw [hp.size_eq]; omega), hp.young_flags b hby,
      or_and_not_self,
      and_not_of_and_eq_zero (hf.inv.no_mark b (.inl hb))]
  · rw [word_unset_of_ne, hp.other]
    · rwa [h1]
    · intro c hc he
      have hsep := hf.inv.separate hb (mem_marked.mp hc).1
      omega
    · intro e he hee
      rw [h1] at hee
      exact hbm (hee ▸ mem_of_marked he)
    · intro e he
      have hein := hf.apart.inside e (mem_of_marked he)
      omega

/-- Taking marks off the nursery leaves the flags of tenured objects. -/
theorem Prepared.unset_old_flags (hf : Found m₀ young old S ms) {b : Nat × Nat} (hb : b ∈ old) :
    (unset markedFlag h ((marked ms young).map Prod.fst)).word (b.1 - 1) = h.word (b.1 - 1) := by
  have hin := hf.inv.old_inside hb
  refine word_unset_of_ne (fun e he hee => ?_) fun e he => ?_
  · obtain ⟨c, hc, rfl⟩ := List.mem_map.mp he
    have hsep := hf.inv.separate (mem_marked.mp hc).1 hb
    have hcin := hf.inv.young_inside (mem_marked.mp hc).1
    omega
  · have hein := hf.apart.inside e (mem_of_marked he)
    omega

/-- Redirecting changes no word of a block but the fields of a marked pair. -/
theorem Prepared.redirected_word (hf : Found m₀ young old S ms) (hp : Prepared m₀ young old ms h)
    (hos : ∀ o ∈ os, o ∈ ms) {xs : List Nat} (hxs : ∀ o ∈ xs, o ∈ ms) {ρ : Nat → Nat} {h' : Arena}
    (hr : Redirected (unset markedFlag h os) ρ h' xs) {b : Nat × Nat} (hb : b ∈ young ∨ b ∈ old)
    {a : Nat} (h1 : b.1 ≤ a + 3) (h2 : a + 3 < b.1 + b.2)
    (hn : ¬ (b.1 ∈ ms ∧ m₀.heap.tag b.1 = some .pair ∧ (a = b.1 + 1 ∨ a = b.1 + 2))) :
    h'.word a = (unset markedFlag h os).word a := by
  have hin := hf.inv.block_inside hb
  refine hr.other a fun x hx ht => ?_
  have hxm := hxs x hx
  rw [hp.unset_tag hf hos hxm] at ht
  obtain ⟨n, hc, hfit⟩ := hf.inv.placed x (hf.valid x hxm)
  rw [Arena.payload_of_pair ht] at hfit
  rcases hf.inv.block_apart hb hc with rfl | h | h
  · have hnf : ¬ (a = x + 1 ∨ a = x + 2) := fun hx => hn ⟨hxm, ht, hx⟩
    exact not_or.mp hnf
  · simp only at h
    omega
  · simp only at h
    omega

end Unset

/-- When the marks are off the nursery and all references are redirected, only the moves remain. -/
theorem Prepared.ready (hf : Found m₀ young old S ms) (hp : Prepared m₀ young old ms h)
    {ρ : Nat → Nat} {h' : Arena}
    (hr : Redirected (unset markedFlag h ((marked ms young).map Prod.fst)) ρ h'
      ((marked ms young).map Prod.fst ++ (marked ms old).map Prod.fst)) :
      Ready m₀ young old ms ρ h' := by
  have hsub : ∀ o ∈ (marked ms young).map Prod.fst, o ∈ ms := fun o ho => mem_of_marked ho
  have hos : ∀ o ∈ (marked ms young).map Prod.fst ++ (marked ms old).map Prod.fst,
      o ∈ ms := fun o ho =>
    (List.mem_append.mp ho).elim mem_of_marked mem_of_marked
  -- a header word of any block is not redirected
  have hheader : ∀ {b : Nat × Nat}, b ∈ young ∨ b ∈ old → ∀ a, b.1 ≤ a + 3 → a < b.1 →
      h'.word a = (unset markedFlag h ((marked ms young).map Prod.fst)).word a := by
    intro b hb a h1 h2
    have hin := hf.inv.block_inside hb
    exact hp.redirected_word hf hsub hos hr hb h1 (by omega) (by omega)
  refine ⟨by rw [hr.size_eq, size_unset, hp.size_eq], ?_, ?_, ?_, ?_, ?_, ?_, ?_⟩
  · intro b hb i hlt hnf
    have hin := hf.inv.block_inside hb
    rw [hp.redirected_word hf hsub hos hr hb (by omega) (by omega) fun ⟨hm, ht, hi⟩ =>
      hnf ⟨hm, ht, by omega⟩]
    exact hp.unset_eq hf hsub hb (by omega) (by omega) (by omega) (by omega)
  · intro o ho ht i hi
    have hmem : o ∈ (marked ms young).map Prod.fst ++ (marked ms old).map Prod.fst := by
      obtain ⟨n, hb, -⟩ := hf.block ho
      exact List.mem_append.mpr
        (hb.imp (fun h => List.mem_map_of_mem h) fun h => List.mem_map_of_mem h)
    have hp3 := Arena.payload_of_pair ht
    rw [hr.field o hmem (by rw [hp.unset_tag hf hsub ho]; exact ht) i hi,
      Arena.value_congr (h := m₀.heap) (hp.unset_payload hf hsub ho (by omega))]
  · intro p hpm
    obtain ⟨hbo, hpms, -, -⟩ := mem_moves hf hpm
    have hin := hf.inv.old_inside hbo
    simp only at hin
    rw [hheader (.inr hbo) _ (by simp only; omega) (by simp only; omega),
      Prepared.unset_word hf hsub (.inr hbo)
      (by simp only; omega) (by simp only; omega) (by simp only; omega)]
    exact hp.forward p hpm
  · intro b hb
    have hin := hf.inv.block_inside hb
    rw [hheader hb _ (by omega) (by omega)]
    exact hp.unset_eq hf hsub hb (by omega) (by omega) (by omega) (by omega)
  · intro b hb
    have hin := hf.inv.young_inside hb
    rw [hheader (.inl hb) _ (by omega) (by omega), Prepared.unset_word hf hsub (.inl hb)
      (by omega) (by omega)
      (by omega), hp.other]
    · exact hf.not_header (.inl hb) (.inl rfl) (by omega) (by omega) (by omega)
    · intro c hc he
      have hsep := hf.inv.separate hb (mem_marked.mp hc).1
      omega
  · intro b hb
    have hin := hf.inv.young_inside hb
    rw [hheader (.inl hb) _ (by omega) (by omega)]
    exact hp.unset_young_flags hf hb
  · intro b hb
    have hbo := (mem_marked.mp hb).1
    have hin := hf.inv.old_inside hbo
    rw [hheader (.inr hbo) _ (by omega) (by omega), Prepared.unset_old_flags hf hbo]
    exact hp.old_flags b hb

end Redirect

/-! ## Moving -/

/-- The heap after one tenured object was moved and its mark taken off. -/
def slid (h : Arena) (p : Copy) : Arena :=
  ((h.copy (p.old - 3) (p.new - 3) p.size).put (p.new - 3) 0).put (p.new - 1)
    (h.word (p.old - 1) &&& ~~~markedFlag)

section Slide

variable {h : Arena} {p : Copy}

theorem slid_slid (h1 : 3 ≤ p.new) (h2 : p.new ≤ p.old) (h3 : 3 < p.size)
    (h4 : p.old - 3 + p.size ≤ h.size) :
    Slid header (· &&& ~~~markedFlag) h (slid h p) p := by
  have hcopy : ∀ a, (h.copy (p.old - 3) (p.new - 3) p.size).word a
      = if p.new - 3 ≤ a ∧ a < p.new - 3 + p.size then h.word (p.old - 3 + (a - (p.new - 3)))
        else h.word a :=
    fun a => Arena.word_copy h4 (by omega)
  have hother : ∀ a, a ≠ p.new - 1 → a ≠ p.new - 3 →
      (slid h p).word a = (h.copy (p.old - 3) (p.new - 3) p.size).word a :=
    fun a ha hb => by rw [slid, Arena.word_put_ne _ ha, Arena.word_put_ne _ hb]
  refine ⟨by simp [slid], fun a ha => ?_, fun i hi => ?_, ?_, ?_, ?_⟩
  · simp only [header_words] at ha
    rw [hother a (by omega) (by omega), hcopy, if_neg (by omega)]
  · simp only [header_words] at hi
    rw [hother _ (by omega) (by omega), hcopy, if_pos (by omega)]
    congr 1
    omega
  · simp only [header_size]
    rw [hother _ (by omega) (by omega), hcopy, if_pos (by omega)]
    congr 1
    omega
  · simp only [header_forward]
    rw [slid, Arena.word_put_ne _ (by omega), Arena.word_put_self _ (by simp; omega)]
  · rw [slid, Arena.word_put_self _ (by simp; omega)]

/-- Moving one object; it is remembered if it is flagged so, for which there must be room. -/
theorem slide_run {m : Machine Generational} (h1 : 3 ≤ p.new) (h2 : p.new ≤ p.old) (h3 : 3 < p.size)
    (h4 : p.old - 3 + p.size ≤ m.heap.size) (hsmall : m.heap.size < 0x1000000000000000)
    (hfwd : m.heap.word (p.old - 3) = UInt64.ofNat p.new)
    (hsz : (m.heap.word (p.old - 2)).toNat = p.size)
    (hroom : m.heap.word (p.old - 1) &&& rememberedFlag ≠ 0 → m.own.remembered.toList.length <
      m.own.remembered.capacity) :
    slide p.old m = .ok () ((m.withHeap (slid m.heap p)).withOwn
      (if m.heap.word (p.old - 1) &&& rememberedFlag ≠ 0 then remembering m.own
        (m.own.remembered.toList ++ [p.new])
        else m.own)) := by
  have hf : forwarding p.old m.heap = .ok (some p.new) := by
    rw [forwarding_run (by omega) (by omega), hfwd, toNat_ofNat_of_lt (by omega), if_neg (by omega)]
  have hs : blockSize p.old m.heap = .ok p.size := by rw [blockSize_run (by omega) (by omega), hsz]
  have hb1 : back p.old headerWords m.heap = .ok (p.old - 3) := back_run (show 3 ≤ p.old by omega)
  have hb2 : back p.new headerWords m.heap = .ok (p.new - 3) := back_run (show 3 ≤ p.new by omega)
  have hc : copyWords (p.old - 3) (p.new - 3) p.size m.heap = .ok ()
      (m.heap.copy (p.old - 3) (p.new - 3) p.size) :=
    copyWords_run h4 (by omega)
  have hz : setForwarding p.new 0 (m.heap.copy (p.old - 3) (p.new - 3) p.size)
      = .ok () ((m.heap.copy (p.old - 3) (p.new - 3) p.size).put (p.new - 3) 0) :=
    setForwarding_run (by omega) (by simp; omega)
  have hw : ((m.heap.copy (p.old - 3) (p.new - 3) p.size).put (p.new - 3) 0).word (p.new - 1)
      = m.heap.word (p.old - 1) := by
    rw [Arena.word_put_ne _ (by omega), Arena.word_copy h4 (by omega), if_pos (by omega)]
    congr 1
    omega
  have hu : setFlag markedFlag false p.new
    ((m.heap.copy (p.old - 3) (p.new - 3) p.size).put (p.new - 3) 0)
      = .ok () (slid m.heap p) := by
    rw [setFlag_run (by omega) (by simp; omega), hw]
    rfl
  have hr : hasFlag rememberedFlag p.new (slid m.heap p)
      = .ok (m.heap.word (p.old - 1) &&& rememberedFlag != 0) := by
    rw [hasFlag_run (by omega) (by simp [slid]; omega), (slid_slid h1 h2 h3 h4).flags,
      and_not_and_of_disjoint (by decide)]
  let c := m.heap.copy (p.old - 3) (p.new - 3) p.size
  have hc' : (liftM (copyWords (p.old - 3) (p.new - 3) p.size) : GcM Generational Unit) m = .ok ()
      (m.withHeap c) :=
    heap_lift hc
  have hz' : (liftM (setForwarding p.new 0) : GcM Generational Unit) (m.withHeap c)
      = .ok () (m.withHeap (c.put (p.new - 3) 0)) := heap_lift (m := m.withHeap c) hz
  have hu' : (liftM (setFlag markedFlag false p.new) : GcM Generational Unit)
    (m.withHeap (c.put (p.new - 3) 0))
      = .ok () (m.withHeap (slid m.heap p)) := heap_lift (m := m.withHeap (c.put (p.new - 3) 0)) hu
  have hr' : (liftM (hasFlag rememberedFlag p.new) : GcM Generational Bool)
    (m.withHeap (slid m.heap p))
      = .ok (m.heap.word (p.old - 1) &&& rememberedFlag != 0) (m.withHeap (slid m.heap p)) :=
    read_lift (m := m.withHeap (slid m.heap p)) hr
  rw [slide, bind_ok (read_lift hf)]
  dsimp only
  rw [bind_ok (read_lift hs), bind_ok (read_lift hb1),
    bind_ok (read_lift hb2), bind_ok hc', bind_ok hz', bind_ok hu',
    bind_ok hr']
  by_cases hfl : m.heap.word (p.old - 1) &&& rememberedFlag = 0
  · simp only [hfl]
    rfl
  · simp only [bne_iff_ne, ne_eq, hfl, not_false_eq_true, if_true]
    exact addRemembered_run (m := m.withHeap (slid m.heap p)) (hroom hfl)

end Slide

/-- The new addresses of the objects that are remembered afterwards. -/
def recalls (m₀ : Machine Generational) (ps : List Copy) : List Nat :=
  (ps.filter fun p => pointsInto? m₀.heap m₀.own.nursery.region p.old).map Copy.new

theorem recalls_append (ps qs : List Copy) :
    recalls m₀ (ps ++ qs) = recalls m₀ ps ++ recalls m₀ qs := by
  simp [recalls]

/-- A move is remembered exactly if its flag word says so. -/
theorem Ready.flag_iff (hf : Found m₀ young old S ms) {ρ : Nat → Nat} {h : Arena}
    (hr : Ready m₀ young old ms ρ h) {p : Copy} (hp : p ∈ moves m₀ old ms) :
    h.word (p.old - 1) &&& rememberedFlag ≠ 0 ↔
    pointsInto? m₀.heap m₀.own.nursery.region p.old = true := by
  obtain ⟨hb, hm, -, -⟩ := mem_moves hf hp
  rw [hr.old_flags (p.old, p.size) (mem_marked.mpr ⟨hb, hm⟩), flagAs_and]

/-- All marked tenured objects are moved, and those that refer into the nursery are remembered. -/
theorem slideAll_runs (hf : Found m₀ young old S ms) {ρ : Nat → Nat} {m : Machine Generational}
    (hr : Ready m₀ young old ms ρ m.heap) {top : Nat} (hempty : m.own.remembered.toList = [])
    (hst : Stacked 3 m₀.own.tenured.region.first ((moves m₀ old ms).map Copy.block) top)
    (hroom : (recalls m₀ (moves m₀ old ms)).length ≤ m.own.remembered.capacity)
    (E : Failure → Machine Generational → Prop) :
    Runs (((marked ms old).map Prod.fst).forM slide) m
      (fun _ m' => m' = (m.withHeap m'.heap).withOwn
        (remembering m.own (recalls m₀ (moves m₀ old ms))) ∧
        ∃ src, Shifted header (· &&& ~~~markedFlag) m.heap m'.heap (moves m₀ old ms)
          [] m₀.own.tenured.region.first top src
          top ∧ src ≤ m₀.own.tenured.top) E := by
  obtain ⟨hi, hsl, hle⟩ := slides_targets hf.inv.old_stacked
    (List.filter_sublist : (marked ms old).Sublist old)
    (Nat.le_refl _)
  obtain rfl : hi = top := hsl.stacked.end_unique hst
  have hfirst := hf.inv.old_stacked.le
  -- `os` are the objects of the moves `rest` still to come
  let J : List Nat → Machine Generational → Prop :=
    fun os m' => ∃ done rest lo src, os = rest.map Copy.old ∧
    moves m₀ old ms = done ++ rest ∧
    Shifted header (· &&& ~~~markedFlag) m.heap m'.heap done rest
      m₀.own.tenured.region.first lo src hi ∧
    src ≤ m₀.own.tenured.top ∧ m' = (m.withHeap m'.heap).withOwn
      (remembering m.own (recalls m₀ done))
  have hstart : J ((marked ms old).map Prod.fst) m := by
    refine ⟨[], moves m₀ old ms, _, _, ?_, rfl, .start hsl, hfirst, ?_⟩
    · have hold := congrArg (List.map Prod.fst)
        (targets_old 3 m₀.own.tenured.region.first (marked ms old))
      rw [List.map_map] at hold
      exact hold.symm
    · have hsame : remembering m.own (recalls m₀ []) = m.own := by
        rw [show recalls m₀ [] = m.own.remembered.toList from hempty.symm, remembering_self]
      rw [hsame]
      rfl
  refine (forM_runs (J := J) ?_ hstart).mono ?_
  · rintro o os m1 ⟨done, rest, lo, src, hos, hsplit, hs, hsrc, hm1⟩
    obtain ⟨p, rest, rfl, rfl, rfl⟩ : ∃ p rest', rest = p :: rest' ∧ o = p.old ∧
      os = rest'.map Copy.old := by
      cases rest with
      | nil => simp at hos
      | cons p rest' =>
        simp only [List.map_cons, List.cons.injEq] at hos
        exact ⟨p, rest', rfl, hos.1, hos.2⟩
    have hmem : p ∈ moves m₀ old ms := by simp [hsplit]
    obtain ⟨hbo, hpm, hpn, hpo⟩ := mem_moves hf hmem
    have hin := hf.inv.old_inside hbo
    have hbd := hf.inv.old_bounds hbo
    have hsize : m1.heap.size = m₀.heap.size := by rw [hs.size_eq, hr.size_eq]
    have hsmall := hf.inv.spaces.small
    simp only at hin
    have hflag : m1.heap.word (p.old - 1) = m.heap.word (p.old - 1) :=
      hs.next (by simp only [header_words]; omega)
    have hiff := hr.flag_iff hf hmem
    have hown : m1.own = remembering m.own (recalls m₀ done) := by
      rw [hm1]
      rfl
    have hslide := slide_run (m := m1) (p := p) (by omega) hpo (by omega) (by omega) (by omega)
      (by rw [hs.next (by simp only [header_words]; omega)]; exact hr.forward p hmem)
      (by
        rw [hs.next (by simp only [header_words]; omega), hr.size _ (.inr hbo)]
        exact hf.inv.old_sized _ hbo)
      (by
        intro hfl
        rw [hflag, hiff] at hfl
        rw [hsplit, recalls_append, List.length_append] at hroom
        have hone : 0 < (recalls m₀ (p :: rest)).length := by simp [recalls, hfl]
        rw [hown, remembering_toList, remembering_capacity]
        omega)
    refine Runs.of_eq hslide ⟨done ++ [p], rest, _, _, rfl, by simp [hsplit],
      hs.step header_distinct (slid_slid (by omega) hpo (by omega) (by omega)), ?_, ?_⟩
    · simp only [header_words]
      omega
    · rw [hflag, hown, remembering_toList]
      by_cases hfl : pointsInto? m₀.heap m₀.own.nursery.region p.old = true
      · rw [if_pos (hiff.mpr hfl), hm1, recalls_append]
        have hp : recalls m₀ [p] = [p.new] := by simp [recalls, hfl]
        rw [hp]
        rfl
      · rw [if_neg (fun h => hfl (hiff.mp h)), hm1, recalls_append]
        have hp : recalls m₀ [p] = [] := by simp [recalls, hfl]
        rw [hp, List.append_nil]
        rfl
  · rintro - m' ⟨done, rest, lo, src, hos, hsplit, hs, hsrc, hm'⟩
    obtain rfl : rest = [] := List.map_eq_nil_iff.mp hos.symm
    rw [List.append_nil] at hsplit
    subst hsplit
    have hlo : lo = hi := hs.slides
    subst hlo
    exact ⟨hm', src, hs, hsrc⟩

end Reclaim.Generational
