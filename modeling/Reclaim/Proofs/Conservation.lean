import Reclaim.Proofs.Chunks

/-!
# Conservation of words

Clients take blocks from a free list, write into them what they like, and give them back in any
order. `Use` is what comes of that: a list, an arena, and the blocks that are outstanding. The
chunks and the outstanding blocks always share out the region between them, word for word, and a
word lies between any two chunks; so the chunks are known from the blocks alone.

Results:
* `Gapped.eq_of_covered`: runs with gaps between them are known from the words that they cover.
* `Managed.take`, `Managed.give`, `Managed.write`: what a client may do keeps the region shared out.
* `Use.managed`: so it is after any use.
-/

namespace Reclaim

/-- The word at `x` is one of a run. -/
def Covered (cs : List (Nat × Nat)) (x : Nat) : Prop := ∃ c ∈ cs, c.1 ≤ x ∧ x < c.1 + c.2

/-- Runs in the order of their addresses, with a word or more between any two. -/
def Gapped (cs : List (Nat × Nat)) : Prop := cs.Pairwise fun c d => c.1 + c.2 < d.1

/-- Two runs have no word in common. -/
def Separate (c d : Nat × Nat) : Prop := c.1 + c.2 ≤ d.1 ∨ d.1 + d.2 ≤ c.1

section Runs

variable {cs ds ps rs : List (Nat × Nat)} {c d : Nat × Nat} {a n k x : Nat}

@[simp] theorem not_covered_nil : ¬ Covered [] x := by simp [Covered]

@[simp] theorem covered_cons : Covered (c :: cs) x ↔ (c.1 ≤ x ∧ x < c.1 + c.2) ∨
    Covered cs x := by simp [Covered]

@[simp] theorem covered_append : Covered (cs ++ ds) x ↔ Covered cs x ∨ Covered ds x := by
  simp only [Covered, List.mem_append, or_and_right, exists_or]

theorem Separate.symm (h : Separate c d) : Separate d c := Or.symm h

theorem separate_of_words (hc : 0 < c.2) (hd : 0 < d.2)
    (h : ∀ x, c.1 ≤ x → x < c.1 + c.2 → d.1 ≤ x → x < d.1 + d.2 → False) :
    Separate c d := by
  unfold Separate
  by_contra hno
  exact h (max c.1 d.1) (by omega) (by omega) (by omega) (by omega)

theorem Separate.not_both (h : Separate c d) (hc : c.1 ≤ x ∧ x < c.1 + c.2) :
    ¬ (d.1 ≤ x ∧ x < d.1 + d.2) := by
  unfold Separate at h
  omega

/-! ## Runs with gaps -/

namespace Gapped

/-- The words of the runs behind the first one lie above it, and not next to it. -/
theorem lt_of_covered (hg : Gapped (c :: cs)) (hx : Covered cs x) : c.1 + c.2 < x := by
  obtain ⟨d, hd, hle, -⟩ := hx
  have hlt := (List.pairwise_cons.mp hg).1 d hd
  omega

/-- No word below the first run is covered, and none right behind it. -/
theorem bounds_of_covered (hg : Gapped (c :: cs)) (hx : Covered (c :: cs) x) : c.1 ≤ x ∧
    x ≠ c.1 + c.2 := by
  rcases covered_cons.mp hx with hc | hx
  · omega
  · have hlt := hg.lt_of_covered hx
    omega

/-- Runs with gaps between them are known from the words that they cover. -/
theorem eq_of_covered (hc : Gapped cs) (hd : Gapped ds) (hcn : ∀ c ∈ cs, 0 < c.2)
    (hdn : ∀ d ∈ ds, 0 < d.2) (he : ∀ x, Covered cs x ↔ Covered ds x) : cs = ds := by
  induction cs generalizing ds with
  | nil =>
    cases ds with
    | nil => rfl
    | cons d ds =>
      have hpos := hdn d (by simp)
      exact absurd ((he d.1).mpr (covered_cons.mpr (.inl (by omega)))) not_covered_nil
  | cons c cs ih =>
    have hcpos := hcn c (by simp)
    cases ds with
    | nil => exact absurd ((he c.1).mp (covered_cons.mpr (.inl (by omega)))) not_covered_nil
    | cons d ds =>
      have hdpos := hdn d (by simp)
      -- both begin with the lowest word and end before the next one that is not covered
      have hfirst : c.1 = d.1 := by
        have h1 := (hd.bounds_of_covered ((he c.1).mp (covered_cons.mpr (.inl (by omega))))).1
        have h2 := (hc.bounds_of_covered ((he d.1).mpr (covered_cons.mpr (.inl (by omega))))).1
        omega
      have hsize : c.2 = d.2 := by
        rcases Nat.lt_trichotomy c.2 d.2 with hlt | heq | hlt
        · have hx := (he (c.1 + c.2)).mpr (covered_cons.mpr (.inl (by omega)))
          exact absurd rfl (hc.bounds_of_covered hx).2
        · exact heq
        · have hx := (he (d.1 + d.2)).mp (covered_cons.mpr (.inl (by omega)))
          exact absurd rfl (hd.bounds_of_covered hx).2
      obtain rfl : c = d := Prod.ext hfirst hsize
      congr 1
      refine ih (List.pairwise_cons.mp hc).2 (List.pairwise_cons.mp hd).2
        (fun e h => hcn e (by simp [h]))
        (fun e h => hdn e (by simp [h])) fun x => ⟨fun hx => ?_, fun hx => ?_⟩
      · have hlt := hc.lt_of_covered hx
        exact (covered_cons.mp ((he x).mp (covered_cons.mpr (.inr hx)))).resolve_left (by omega)
      · have hlt := hd.lt_of_covered hx
        exact (covered_cons.mp ((he x).mpr (covered_cons.mpr (.inr hx)))).resolve_left (by omega)

end Gapped

/-! ## Runs that fill a range -/

theorem Stacked.separate {lo hi : Nat} (hs : Stacked 0 lo rs hi) : rs.Pairwise Separate := by
  induction rs generalizing lo with
  | nil => exact .nil
  | cons r rs ih =>
    have hfirst : r.1 = lo := hs.1
    refine List.pairwise_cons.mpr ⟨fun d hd => .inl ?_, ih hs.2.2⟩
    have hb := hs.2.2.bounds (o := d.1) (n := d.2) hd
    omega

theorem Stacked.covers {lo hi : Nat} (hs : Stacked 0 lo rs hi) (h1 : lo ≤ x) (h2 : x < hi) :
    Covered rs x := by
  induction rs generalizing lo with
  | nil =>
    have hend : lo = hi := hs
    omega
  | cons r rs ih =>
    have hfirst : r.1 = lo := hs.1
    by_cases hlt : x < lo + r.2
    · exact covered_cons.mpr (.inl (by omega))
    · exact covered_cons.mpr (.inr (ih hs.2.2 (by omega)))

/-- The free tiles and the others share out what they fill. -/
theorem Tiles.share {h : Arena} {lo hi : Nat} {ts : List Tile} (ht : Tiles h lo hi ts) :
    (freeRuns ts ++ usedRuns ts).Pairwise Separate ∧ ∀ x, lo ≤ x → x < hi →
    Covered (freeRuns ts ++ usedRuns ts) x := by
  have hperm : (ts.map Tile.run).Perm (freeRuns ts ++ usedRuns ts) := by
    rw [freeRuns, usedRuns, ← List.map_append]
    exact (List.filter_append_perm Tile.free ts).symm.map _
  refine ⟨hperm.pairwise ht.stacked.separate Separate.symm, fun x h1 h2 => ?_⟩
  obtain ⟨c, hc, hx⟩ := ht.stacked.covers h1 h2
  exact ⟨c, hperm.mem_iff.mp hc, hx⟩

/-! ## Taking and giving back -/

theorem gapped_remnant (hg : Gapped (ps ++ (a, n) :: rs)) :
    Gapped (ps ++ (remnant a n k ++ rs)) := by
  obtain ⟨hp, hr, hcross⟩ := List.pairwise_append.mp hg
  obtain ⟨hfirst, hr⟩ := List.pairwise_cons.mp hr
  unfold remnant
  split
  · refine List.pairwise_append.mpr
      ⟨hp, List.pairwise_cons.mpr ⟨fun r hm => ?_, hr⟩, fun p hm r hrm => ?_⟩
    · have hlt := hfirst r hm
      simp only at hlt ⊢
      omega
    · rcases List.mem_cons.mp hrm with rfl | hrm
      · have hlt := hcross p hm (a, n) (by simp)
        simp only at hlt ⊢
        omega
      · exact hcross p hm r (List.mem_cons_of_mem _ hrm)
  · exact List.pairwise_append.mpr
      ⟨hp, hr, fun p hm r hrm => hcross p hm r (List.mem_cons_of_mem _ hrm)⟩

/-- The words of a chunk are those that are taken and those that remain. -/
theorem covered_remnant (hle : k ≤ n) :
    Covered (ps ++ (a, n) :: rs) x ↔ (a ≤ x ∧ x < a + k) ∨
    Covered (ps ++ (remnant a n k ++ rs)) x := by
  have hsplit : (a ≤ x ∧ x < a + n) ↔ (a ≤ x ∧ x < a + k) ∨ Covered (remnant a n k) x := by
    unfold remnant
    split
    · simp only [covered_cons, not_covered_nil, or_false]
      omega
    · simp only [not_covered_nil, or_false]
      omega
  simp only [covered_append, covered_cons, hsplit]
  tauto

/-- What is taken does not remain. -/
theorem not_covered_remnant (hg : Gapped (ps ++ (a, n) :: rs)) (hle : k ≤ n) (h1 : a ≤ x)
    (h2 : x < a + k) :
    ¬ Covered (ps ++ (remnant a n k ++ rs)) x := by
  obtain ⟨-, hr, hcross⟩ := List.pairwise_append.mp hg
  have hfirst := (List.pairwise_cons.mp hr).1
  simp only [covered_append, not_or]
  refine ⟨fun ⟨c, hc, h3, h4⟩ => ?_, ?_, fun ⟨c, hc, h3, h4⟩ => ?_⟩
  · have hlt := hcross c hc (a, n) (by simp)
    simp only at hlt
    omega
  · unfold remnant
    split
    · simp only [covered_cons, not_covered_nil, or_false]
      omega
    · exact not_covered_nil
  · have hlt := hfirst c hc
    simp only at hlt
    omega

theorem gapped_joinNext (hg : Gapped rs) (hr : ∀ r ∈ rs, a + n ≤ r.1) :
    Gapped ((a, (joinNext a n rs).1) :: (joinNext a n rs).2) := by
  cases rs with
  | nil => exact List.pairwise_singleton _ _
  | cons r rs =>
    obtain ⟨c, k⟩ := r
    obtain ⟨hfirst, hrest⟩ := List.pairwise_cons.mp hg
    by_cases he : a + n = c
    · rw [joinNext, if_pos he]
      refine List.pairwise_cons.mpr ⟨fun r hm => ?_, hrest⟩
      have hlt := hfirst r hm
      simp only at hlt ⊢
      omega
    · rw [joinNext, if_neg he]
      refine List.pairwise_cons.mpr ⟨fun r hm => ?_, hg⟩
      have hle := hr (c, k) (by simp)
      simp only at hle
      rcases List.mem_cons.mp hm with rfl | hm
      · simp only
        omega
      · have hlt := hfirst r hm
        simp only at hlt ⊢
        omega

theorem covered_joinNext : Covered ((a, (joinNext a n rs).1) :: (joinNext a n rs).2) x ↔
    (a ≤ x ∧ x < a + n) ∨ Covered rs x := by
  cases rs with
  | nil => simp [joinNext]
  | cons r rs =>
    obtain ⟨c, k⟩ := r
    by_cases he : a + n = c
    · rw [joinNext, if_pos he]
      simp only [covered_cons, ← or_assoc]
      exact or_congr_left (by omega)
    · rw [joinNext, if_neg he]
      simp

theorem gapped_joinLast (hp : Gapped ps) (hpa : ∀ p ∈ ps, p.1 + p.2 ≤ a)
    (hr : Gapped ((a, n) :: rs)) :
    Gapped (joinLast ps a n ++ rs) := by
  obtain ⟨hfirst, hrest⟩ := List.pairwise_cons.mp hr
  rcases joinLast_cases ps a n with ⟨qs, p, k, rfl, hend, he⟩ | ⟨hno, he⟩
  · obtain ⟨hq, -, hqp⟩ := List.pairwise_append.mp hp
    rw [he, List.append_assoc]
    refine List.pairwise_append.mpr
      ⟨hq, List.pairwise_cons.mpr ⟨fun r hm => ?_, hrest⟩, fun q hm r hrm => ?_⟩
    · have hlt := hfirst r hm
      simp only at hlt ⊢
      omega
    · have hlt := hqp q hm (p, k) (by simp)
      rcases List.mem_cons.mp hrm with rfl | hrm
      · exact hlt
      · have h1 := hfirst r hrm
        simp only at hlt h1
        omega
  · rw [he, List.append_assoc]
    -- the last chunk does not touch the block, and the others end below it
    have hgap : ∀ p ∈ ps, p.1 + p.2 < a := by
      intro p hm
      obtain ⟨qs, q, rfl⟩ := (List.eq_nil_or_concat ps).resolve_left (List.ne_nil_of_mem hm)
      rw [List.concat_eq_append] at hm hno hp hpa
      have hq := hno q.1 q.2 (by simp)
      have hqa := hpa q (by simp)
      rcases List.mem_append.mp hm with hm | hm
      · have hlt := (List.pairwise_append.mp hp).2.2 p hm q (by simp)
        omega
      · obtain rfl := List.mem_singleton.mp hm
        omega
    refine List.pairwise_append.mpr ⟨hp, hr, fun p hm r hrm => ?_⟩
    have hlt := hgap p hm
    rcases List.mem_cons.mp hrm with rfl | hrm
    · exact hlt
    · have h1 := hfirst r hrm
      simp only at h1
      omega

theorem covered_joinLast : Covered (joinLast ps a n) x ↔ Covered ps x ∨ (a ≤ x ∧ x < a + n) := by
  rcases joinLast_cases ps a n with ⟨qs, p, k, rfl, hend, he⟩ | ⟨-, he⟩
  · rw [he]
    simp only [covered_append, covered_cons, not_covered_nil, or_false, or_assoc]
    exact or_congr_right (by omega)
  · rw [he]
    simp

theorem gapped_givenBack (hg : Gapped (ps ++ rs)) (hp : ∀ p ∈ ps, p.1 + p.2 ≤ a)
    (hr : ∀ r ∈ rs, a + n ≤ r.1) :
    Gapped (givenBack ps a n rs) := by
  obtain ⟨h1, h2, -⟩ := List.pairwise_append.mp hg
  exact gapped_joinLast h1 hp (gapped_joinNext h2 hr)

/-- The words of the chunks are those of the block and those of the chunks before. -/
theorem covered_givenBack :
    Covered (givenBack ps a n rs) x ↔ (a ≤ x ∧ x < a + n) ∨ Covered (ps ++ rs) x := by
  have hnext : _ ↔ (a ≤ x ∧ x < a + n) ∨ Covered rs x := covered_joinNext
  rw [covered_cons] at hnext
  rw [givenBack, covered_append, covered_joinLast, or_assoc, hnext, covered_append]
  tauto

/-- The chunks below a block that lies in none of them, and the chunks above it. -/
theorem Spread.around {lo hi : Nat} (hs : Spread lo cs hi) (hb : ∀ c ∈ cs, Separate c (a, n)) :
    ∃ ps rs, cs = ps ++ rs ∧ (∀ p ∈ ps, p.1 + p.2 ≤ a) ∧ ∀ r ∈ rs, a + n ≤ r.1 := by
  induction cs generalizing lo with
  | nil => exact ⟨[], [], rfl, by simp, by simp⟩
  | cons c cs ih =>
    rcases hb c (by simp) with hle | hle
    · obtain ⟨ps, rs, rfl, hp, hr⟩ := ih hs.2.2 fun d hd => hb d (by simp [hd])
      exact ⟨c :: ps, rs, rfl, List.forall_mem_cons.mpr ⟨hle, hp⟩, hr⟩
    · refine ⟨[], c :: cs, rfl, by simp, List.forall_mem_cons.mpr ⟨hle, fun d hd => ?_⟩⟩
      have hlow := (hs.2.2.bounds hd).1
      simp only at hle
      omega

end Runs

/-! ## What clients do -/

/-- A free list over `region` and its arena, with the blocks that are outstanding, as any use of it
may leave them. -/
inductive Use (region : Region) : FreeList → Arena → List (Nat × Nat) → Prop where
  | start {h : Arena} (fit : Fit) (small : h.size < 0x1000000000000000)
      (inside : region.limit ≤ h.size) :
    Use region (FreeList.ofRegion region fit h).1 (FreeList.ofRegion region fit h).2 []
  | take {l l' h h' out} (size : Nat) {b : Nat × Nat} : Use region l h out →
      l.take size h = .ok (some b, l') h' →
    Use region l' h' (b :: out)
  | refuse {l l' h h' out} (size : Nat) : Use region l h out → l.take size h = .ok (none, l') h' →
      Use region l' h' out
  | give {l l' h h' out} {b : Nat × Nat} : Use region l h out → b ∈ out →
      l.give b.1 b.2 h = .ok l' h' →
    Use region l' h' (out.erase b)
  -- a client writes into a block that it holds
  | write {l h h' out} {b : Nat × Nat} {x : Nat} (w : Word) : Use region l h out → b ∈ out →
      b.1 ≤ x → x < b.1 + b.2 →
    store x w h = .ok () h' → Use region l h' out

/-- The chunks `cs` and the blocks `out` share out a region. -/
structure Shared (region : Region) (cs out : List (Nat × Nat)) : Prop where
  gapped : Gapped cs
  inside : ∀ c ∈ cs ++ out, region.first ≤ c.1 ∧ c.1 + c.2 ≤ region.limit ∧ 2 ≤ c.2
  apart : (cs ++ out).Pairwise Separate
  full : ∀ x, region.first ≤ x → x < region.limit → Covered (cs ++ out) x

namespace Shared

variable {region : Region} {cs ds out out' : List (Nat × Nat)} {b : Nat × Nat}

/-- The chunks cover what the blocks leave. -/
theorem covered_iff (hs : Shared region cs out) (x : Nat) :
    Covered cs x ↔ region.first ≤ x ∧ x < region.limit ∧ ¬ Covered out x := by
  constructor
  · rintro ⟨c, hc, h1, h2⟩
    have hb := hs.inside c (by simp [hc])
    refine ⟨by omega, by omega, fun ⟨d, hd, h3, h4⟩ => ?_⟩
    have hap := (List.pairwise_append.mp hs.apart).2.2 c hc d hd
    rcases hap with h | h <;> omega
  · intro ⟨h1, h2, h3⟩
    exact (covered_append.mp (hs.full x h1 h2)).resolve_right h3

/-- The chunks are known from the blocks, in whatever order these are listed. -/
theorem unique (hs : Shared region cs out) (hs' : Shared region ds out')
    (he : ∀ b, b ∈ out' ↔ b ∈ out) : ds = cs := by
  refine hs'.gapped.eq_of_covered hs.gapped (fun d hd => ?_) (fun c hc => ?_) fun x => ?_
  · have hb := hs'.inside d (by simp [hd])
    omega
  · have hb := hs.inside c (by simp [hc])
    omega
  · rw [hs.covered_iff, hs'.covered_iff]
    simp only [Covered, he]

/-- A region of which nothing is handed out. -/
theorem whole (h2 : 2 ≤ region.length) : Shared region [(region.first, region.length)] [] := by
  have hlen : region.first + region.length = region.limit := by
    simp only [Region.length] at h2 ⊢
    omega
  refine ⟨List.pairwise_singleton _ _, fun c hc => ?_, List.pairwise_singleton _ _,
    fun x h1 h2 => ⟨_, List.mem_singleton_self _, h1, ?_⟩⟩
  · obtain rfl := List.mem_singleton.mp hc
    exact ⟨Nat.le_refl _, Nat.le_of_eq hlen, h2⟩
  · simp only
    omega

/-- The order of the blocks does not matter. -/
theorem perm (hs : Shared region cs out) (hp : out.Perm out') : Shared region cs out' where
  gapped := hs.gapped
  inside c hc := hs.inside c ((hp.append_left cs).mem_iff.mpr hc)
  apart := (hp.append_left cs).pairwise hs.apart Separate.symm
  full x h1 h2 := by
    obtain ⟨c, hc, hx⟩ := hs.full x h1 h2
    exact ⟨c, (hp.append_left cs).mem_iff.mp hc, hx⟩

/-- Chunks with gaps that cover what the blocks leave. -/
theorem of_covered (hg : Gapped cs)
    (hin : ∀ c ∈ cs ++ out, region.first ≤ c.1 ∧ c.1 + c.2 ≤ region.limit ∧ 2 ≤ c.2)
    (hout : out.Pairwise Separate) (hc : ∀ x, Covered cs x ↔ region.first ≤ x ∧ x < region.limit ∧
      ¬ Covered out x) :
    Shared region cs out where
  gapped := hg
  inside := hin
  apart := by
    refine List.pairwise_append.mpr
      ⟨hg.imp fun hlt => .inl (Nat.le_of_lt hlt), hout, fun c hm d hd => ?_⟩
    have h1 := hin c (by simp [hm])
    have h2 := hin d (by simp [hd])
    exact separate_of_words (by omega) (by omega) fun x h3 h4 h5 h6 =>
      ((hc x).mp ⟨c, hm, h3, h4⟩).2.2 ⟨d, hd, h5, h6⟩
  full x h1 h2 := by
    by_cases hx : Covered out x
    · exact covered_append.mpr (.inr hx)
    · exact covered_append.mpr (.inl ((hc x).mpr ⟨h1, h2, hx⟩))

/-- The front of a chunk becomes a block. -/
theorem taken {ps rs : List (Nat × Nat)} {a n k : Nat} (hs : Shared region (ps ++ (a, n) :: rs) out)
    (hk : 2 ≤ k) (hle : k ≤ n) (hrest : ∀ c ∈ ps ++ (remnant a n k ++ rs), region.first ≤ c.1 ∧
      c.1 + c.2 ≤ region.limit ∧ 2 ≤ c.2) :
    Shared region (ps ++ (remnant a n k ++ rs)) ((a, k) :: out) := by
  have hchunk := hs.inside (a, n) (by simp)
  simp only at hchunk
  refine .of_covered (gapped_remnant hs.gapped) (fun c hc => ?_)
    (List.pairwise_cons.mpr ⟨fun b hb => ?_, ?_⟩) fun x => ?_
  · rcases List.mem_append.mp hc with hc | hc
    · exact hrest c hc
    · rcases List.mem_cons.mp hc with rfl | hc
      · exact ⟨hchunk.1, by simp only; omega, hk⟩
      · exact hs.inside c (by simp [hc])
  · have hap := (List.pairwise_append.mp hs.apart).2.2 (a, n) (by simp) b hb
    simp only [Separate] at hap ⊢
    omega
  · exact (List.pairwise_append.mp hs.apart).2.1
  · have hsplit : Covered (ps ++ (a, n) :: rs) x ↔ _ := covered_remnant hle
    have hcov := hs.covered_iff x
    have hnot := not_covered_remnant (x := x) hs.gapped hle
    rw [covered_cons]
    simp only
    tauto

/-- A block becomes part of a chunk. -/
theorem given {ps rs : List (Nat × Nat)} {a n : Nat} (hs : Shared region (ps ++ rs) ((a, n) :: out))
    (hp : ∀ p ∈ ps, p.1 + p.2 ≤ a) (hr : ∀ r ∈ rs, a + n ≤ r.1)
    (hall : ∀ c ∈ givenBack ps a n rs, region.first ≤ c.1 ∧ c.1 + c.2 ≤ region.limit ∧ 2 ≤ c.2) :
    Shared region (givenBack ps a n rs) out := by
  obtain ⟨hfirst, hout⟩ := List.pairwise_cons.mp (List.pairwise_append.mp hs.apart).2.1
  refine .of_covered (gapped_givenBack hs.gapped hp hr) (fun c hc => ?_) hout fun x => ?_
  · rcases List.mem_append.mp hc with hc | hc
    · exact hall c hc
    · exact hs.inside c (by simp [hc])
  · have hblock := hs.inside (a, n) (by simp)
    have hcov := hs.covered_iff x
    have hnot : a ≤ x ∧ x < a + n → ¬ Covered out x :=
      fun hx ⟨b, hb, hxb⟩ => (hfirst b hb).not_both hx hxb
    rw [covered_givenBack]
    rw [covered_cons] at hcov
    simp only at hcov hblock
    have hin : a ≤ x ∧ x < a + n → region.first ≤ x ∧ x < region.limit := by omega
    tauto

end Shared

/-! ## Runs of clients -/

/-- The list threads the chunks that the blocks leave. -/
structure Managed (region : Region) (l : FreeList) (h : Arena)
    (cs out : List (Nat × Nat)) : Prop where
  threads : Threads l h region.first region.limit cs
  shared : Shared region cs out

namespace Managed

variable {region : Region} {l : FreeList} {h h' : Arena} {cs out : List (Nat × Nat)} {b : Nat × Nat}

/-- A request is refused, or served from the front of a chunk. -/
theorem take (hm : Managed region l h cs out) (size : Nat) :
    l.take size h = .ok (none, l) h ∨
    ∃ b l' h' cs', l.take size h = .ok (some b, l') h' ∧ size ≤ b.2 ∧ Managed region l' h' cs'
    (b :: out) := by
  rcases hm.threads.take_run
    size with ⟨hrun, -⟩ | ⟨ps, a, n, rs, l', h', rfl, -, hsz, hrun, hth, -, -, -⟩
  · exact .inl hrun
  · have hk : max size 2 ≤ cut n (max size 2) ∧ cut n (max size 2) ≤ n := by
      rcases cut_cases hsz with h | h <;> omega
    exact .inr ⟨_, l', h', _, hrun, by simp only; omega, hth, hm.shared.taken (by omega) hk.2
      fun c hc => hth.spread.bounds hc⟩

/-- A block that is outstanding is taken back. -/
theorem give (hm : Managed region l h cs out) (hb : b ∈ out) :
    ∃ l' h' cs', l.give b.1 b.2 h = .ok l' h' ∧ Managed region l' h' cs' (out.erase b) := by
  have hs := hm.shared.perm (List.perm_cons_erase hb)
  have hin := hs.inside b (by simp)
  obtain ⟨ps, rs, rfl, hp, hr⟩ := hm.threads.spread.around (a := b.1) (n := b.2)
    fun c hc => (List.pairwise_append.mp hs.apart).2.2 c hc b (by simp)
  obtain ⟨l', h', hrun, hth, -⟩ := hm.threads.give_run hin.1 hin.2.1 hin.2.2 hp hr
  exact ⟨l', h', _, hrun, hth, hs.given hp hr fun c hc => hth.spread.bounds hc⟩

/-- What is written into a block that is outstanding does not matter to the list. -/
theorem write {x : Nat} {w : Word} (hm : Managed region l h cs out) (hb : b ∈ out) (h1 : b.1 ≤ x)
    (h2 : x < b.1 + b.2) (hrun : store x w h = .ok () h') : Managed region l h' cs out := by
  have hin := hm.shared.inside b (by simp [hb])
  have hsize := hm.threads.inside
  rw [store_run (by omega)] at hrun
  cases hrun
  refine ⟨hm.threads.congr (by simp) fun c hc y h3 h4 =>
    Arena.word_put_ne _ fun he => ?_, hm.shared⟩
  have hap := (List.pairwise_append.mp hm.shared.apart).2.2 c hc b hb
  exact hap.not_both ⟨h3, h4⟩ ⟨by omega, by omega⟩

end Managed

/-- After any use, the list threads the chunks that the outstanding blocks leave. -/
theorem Use.managed {region : Region} {l : FreeList} {h : Arena} {out : List (Nat × Nat)}
    (h2 : 2 ≤ region.length) (hu : Use region l h out) : ∃ cs, Managed region l h cs out := by
  induction hu with
  | start fit small inside => exact ⟨_, (threads_ofRegion fit small h2 inside).2, .whole h2⟩
  | take size _ hrun ih =>
    obtain ⟨cs, hm⟩ := ih
    rcases hm.take size with hnone | ⟨b, l', h', cs', hsome, -, hm'⟩
    · rw [hnone] at hrun
      cases hrun
    · rw [hsome] at hrun
      cases hrun
      exact ⟨cs', hm'⟩
  | refuse size _ hrun ih =>
    obtain ⟨cs, hm⟩ := ih
    rcases hm.take size with hnone | ⟨b, l', h', cs', hsome, -, hm'⟩
    · rw [hnone] at hrun
      cases hrun
      exact ⟨cs, hm⟩
    · rw [hsome] at hrun
      cases hrun
  | give _ hb hrun ih =>
    obtain ⟨cs, hm⟩ := ih
    obtain ⟨l', h', cs', hok, hm'⟩ := hm.give hb
    rw [hok] at hrun
    cases hrun
    exact ⟨cs', hm'⟩
  | write w _ hb h1 h2 hrun ih =>
    obtain ⟨cs, hm⟩ := ih
    exact ⟨cs, hm.write hb h1 h2 hrun⟩

/-- After any use, walking the list ends and yields chunks that share out the region with the
outstanding blocks; the list counts their words and knows the last of them. They are the same after
any other use of the region that left the same blocks outstanding, and the whole region once every
block is given back. Requests are answered and blocks taken back in each such state. -/
theorem use_conserves_words {region : Region} {l : FreeList} {h : Arena} {out : List (Nat × Nat)}
    (h2 : 2 ≤ region.length) (hu : Use region l h out) :
    ∃ cs, l.chunks h = .ok cs ∧ Shared region cs out ∧ l.freeWords = (cs.map Prod.snd).sum ∧
    l.tail = cs.getLast?.map Prod.fst ∧
      (∀ l' h' out', Use region l' h' out' → (∀ b, b ∈ out' ↔ b ∈ out) → l'.chunks h' = .ok cs) ∧
      (out = [] → cs = [(region.first, region.length)]) ∧
      (∀ size, ∃ r h', l.take size h = .ok r h') ∧ ∀ b ∈ out, ∃ l' h', l.give b.1 b.2 h =
      .ok l' h' := by
  obtain ⟨cs, hm⟩ := hu.managed h2
  refine ⟨cs, hm.threads.chunks_run, hm.shared, hm.threads.freeWords, hm.threads.tail,
    fun l' h' out' hu' he => ?_, ?_, fun size => ?_,
    fun b hb => ?_⟩
  · obtain ⟨ds, hd⟩ := hu'.managed h2
    rw [← hm.shared.unique hd.shared he]
    exact hd.threads.chunks_run
  · intro hnil
    subst hnil
    exact (Shared.whole h2).unique hm.shared fun _ => Iff.rfl
  · rcases hm.take size with hnone | ⟨b, l', h', cs', hsome, -⟩
    · exact ⟨_, _, hnone⟩
    · exact ⟨_, _, hsome⟩
  · obtain ⟨l', h', -, hok, -⟩ := hm.give hb
    exact ⟨l', h', hok⟩

/-- Of a region of nine words, three blocks are taken, one of them is written over, and the first
and the last are given back: the chunks are on both sides of the block that is left. -/
theorem middle_block_conserved : 2 ≤ (⟨1, 10⟩ : Region).length ∧ ∃ l h, Use ⟨1, 10⟩ l h [(4, 2)] ∧
    l.chunks h = .ok [(1, 3), (6, 4)] ∧ Shared ⟨1, 10⟩ [(1, 3), (6, 4)] [(4, 2)] := by
  have hstart : Use ⟨1, 10⟩ _ _ [] := .start (h := .zeroed 10) .first (by decide) (by decide)
  have h1 : Use ⟨1, 10⟩ _ _ [(1, 3)] := .take 3 hstart rfl
  have h2 : Use ⟨1, 10⟩ _ _ [(4, 2), (1, 3)] := .take 2 h1 rfl
  have h3 : Use ⟨1, 10⟩ _ _ [(6, 4), (4, 2), (1, 3)] := .take 3 h2 rfl
  have h4 := h3.write (x := 5) 77 (b := (4, 2)) (by decide) (by decide) (by decide) rfl
  have h5 := h4.give (b := (1, 3)) (by decide) rfl
  have h6 := h5.give (b := (6, 4)) (by decide) rfl
  obtain ⟨cs, hrun, hs, -⟩ := use_conserves_words (by decide) h6
  obtain rfl : cs = [(1, 3), (6, 4)] := Except.ok.inj hrun.symm
  exact ⟨by decide, _, _, h6, hrun, hs⟩

end Reclaim
