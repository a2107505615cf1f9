import Reclaim.Proofs.FreeList

/-!
# Taking from a free list and giving back

What the operations of a free list do to its chunks, whatever lies between them. `Threads l h lo hi
cs` says that `l` threads the chunks `cs`, which lie between `lo` and `hi` in the order of their
addresses.

Results:
* `Threads.chunks_run`: the walk over the list ends and yields its chunks.
* `search_run`: the search finds the chunk that the policy asks for (`Chosen`), if one is large
  enough.
* `Threads.take_run`: the front of that chunk is taken, and what remains stays a chunk if it is long
  enough.
* `Threads.give_run`: a block is given back and joins the chunks that it touches.
* `threads_ofRegion`: a new region is one chunk.
-/

namespace Reclaim

/-- Runs of at least two words in the order of their addresses, between `lo` and `hi`. -/
def Spread : Nat → List (Nat × Nat) → Nat → Prop
  | lo, [], hi => lo ≤ hi
  | lo, (a, n) :: cs, hi => lo ≤ a ∧ 2 ≤ n ∧ Spread (a + n) cs hi

/-- The word at `x` is one of no run. -/
def Clear (cs : List (Nat × Nat)) (x : Nat) : Prop := ∀ c ∈ cs, x < c.1 ∨ c.1 + c.2 ≤ x

namespace Spread

variable {lo lo' mid hi hi' : Nat} {cs ps rs : List (Nat × Nat)} {c d : Nat × Nat}

theorem le (hs : Spread lo cs hi) : lo ≤ hi := by
  induction cs generalizing lo with
  | nil => exact hs
  | cons c cs ih =>
    have hrest := ih hs.2.2
    have hlo := hs.1
    omega

theorem append (hp : Spread lo ps mid) (hr : Spread mid rs hi) : Spread lo (ps ++ rs) hi := by
  induction ps generalizing lo with
  | nil =>
    cases rs with
    | nil => exact Nat.le_trans hp hr
    | cons r rs => exact ⟨Nat.le_trans hp hr.1, hr.2⟩
  | cons c ps ih => exact ⟨hp.1, hp.2.1, ih hp.2.2⟩

theorem bounds (hs : Spread lo cs hi) (hc : c ∈ cs) : lo ≤ c.1 ∧ c.1 + c.2 ≤ hi ∧ 2 ≤ c.2 := by
  induction cs generalizing lo with
  | nil => cases hc
  | cons d cs ih =>
    obtain ⟨h1, h2, h3⟩ := hs
    rcases List.mem_cons.mp hc with rfl | hc
    · exact ⟨h1, h3.le, h2⟩
    · have hb := ih h3 hc
      omega

/-- Runs may be given more space around them. -/
theorem mono (hs : Spread lo cs hi) (hlo : lo' ≤ lo) (hhi : hi ≤ hi') : Spread lo' cs hi' := by
  induction cs generalizing lo lo' with
  | nil => exact Nat.le_trans hlo (Nat.le_trans hs hhi)
  | cons c cs ih => exact ⟨Nat.le_trans hlo hs.1, hs.2.1, ih hs.2.2 (Nat.le_refl _)⟩

/-- The runs below an address, if the others begin there or later. -/
theorem below (hs : Spread lo (ps ++ rs) hi) (hlo : lo ≤ mid) (hp : ∀ c ∈ ps, c.1 + c.2 ≤ mid) :
    Spread lo ps mid := by
  induction ps generalizing lo with
  | nil => exact hlo
  | cons c ps ih => exact ⟨hs.1, hs.2.1, ih hs.2.2 (hp c (by simp)) fun d hd => hp d (by simp [hd])⟩

/-- The runs above an address, if they all begin there or later. -/
theorem above (hs : Spread lo (ps ++ rs) hi) (hhi : mid ≤ hi) (hr : ∀ c ∈ rs, mid ≤ c.1) :
    Spread mid rs hi := by
  induction ps generalizing lo with
  | nil =>
    cases rs with
    | nil => exact hhi
    | cons r rs => exact ⟨hr r (by simp), hs.2⟩
  | cons c ps ih => exact ih hs.2.2

theorem split (hs : Spread lo (ps ++ c :: rs) hi) : Spread lo ps c.1 ∧ 2 ≤ c.2 ∧
    Spread (c.1 + c.2) rs hi := by
  induction ps generalizing lo with
  | nil => exact hs
  | cons d ps ih =>
    obtain ⟨h1, h2, h3⟩ := ih hs.2.2
    exact ⟨⟨hs.1, hs.2.1, h1⟩, h2, h3⟩

/-- Two runs are the same one or do not overlap. -/
theorem apart (hs : Spread lo cs hi) (hc : c ∈ cs) (hd : d ∈ cs) : c = d ∨ c.1 + c.2 ≤ d.1 ∨
    d.1 + d.2 ≤ c.1 := by
  induction cs generalizing lo with
  | nil => cases hc
  | cons e cs ih =>
    rcases List.mem_cons.mp hc with hce | hcm <;> rcases List.mem_cons.mp hd with hde | hdm
    · exact .inl (hce.trans hde.symm)
    · subst hce
      exact .inr (.inl (hs.2.2.bounds hdm).1)
    · subst hde
      exact .inr (.inr (hs.2.2.bounds hcm).1)
    · exact ih hs.2.2 hcm hdm

theorem nodup (hs : Spread lo cs hi) : (cs.map Prod.fst).Nodup := by
  induction cs generalizing lo with
  | nil => exact .nil
  | cons c cs ih =>
    refine List.nodup_cons.mpr ⟨fun hm => ?_, ih hs.2.2⟩
    obtain ⟨d, hd, he⟩ := List.mem_map.mp hm
    have hb := hs.2.2.bounds hd
    have h2 := hs.2.1
    omega

end Spread

/-- The list `l` threads the chunks `cs`, which lie between `lo` and `hi`. -/
structure Threads (l : FreeList) (h : Arena) (lo hi : Nat) (cs : List (Nat × Nat)) : Prop where
  small : h.size < 0x1000000000000000
  inside : hi ≤ h.size
  spread : Spread lo cs hi
  sized : ∀ c ∈ cs, (h.word c.1).toNat = c.2
  chain : Chained h l.head (cs.map Prod.fst) none
  tail : l.tail = cs.getLast?.map Prod.fst
  freeWords : l.freeWords = (cs.map Prod.snd).sum

variable {l : FreeList} {h h' : Arena} {lo hi : Nat} {cs ps rs : List (Nat × Nat)} {ts : List Tile}

/-- The free tiles of a region are its chunks. -/
theorem Tiles.spread (ht : Tiles h lo hi ts) : Spread lo (freeRuns ts) hi := by
  induction ts generalizing lo with
  | nil => exact Nat.le_of_eq ht.stacked
  | cons t ts ih =>
    obtain ⟨mid, h1, h2⟩ := ht.uncons
    obtain rfl : t.start = lo := h1.stacked.1
    obtain rfl : t.start + t.size = mid := h1.stacked.2.2
    cases hf : t.free with
    | false =>
      rw [freeRuns_cons_used hf]
      exact (ih h2).mono (by omega) (Nat.le_refl _)
    | true =>
      rw [freeRuns_cons_free hf]
      exact ⟨Nat.le_refl _, ht.large t (by simp), ih h2⟩

theorem Tiled.threads (ht : Tiled l h lo hi ts) : Threads l h lo hi (freeRuns ts) where
  small := ht.small
  inside := ht.inside
  spread := ht.spread
  sized _ hc := ht.sized _ (mem_freeRuns.mp hc)
  chain := ht.chain
  tail := ht.tail
  freeWords := ht.freeWords

theorem Threads.tiled (ht : Threads l h lo hi (freeRuns ts)) (htiles : Tiles h lo hi ts) :
    Tiled l h lo hi ts :=
  ⟨htiles, ht.chain, ht.tail, ht.freeWords⟩

/-- The chunks are as they were while their sizes and links are. -/
theorem Threads.congr (ht : Threads l h lo hi cs) (hsize : h'.size = h.size)
    (hw : ∀ c ∈ cs, ∀ x, c.1 ≤ x → x < c.1 + c.2 → h'.word x = h.word x) :
    Threads l h' lo hi cs := by
  refine ⟨by rw [hsize]; exact ht.small, by rw [hsize]; exact ht.inside, ht.spread, fun c hc => ?_,
    ht.chain.congr fun a ha => ?_,
    ht.tail, ht.freeWords⟩
  · have hb := ht.spread.bounds hc
    rw [hw c hc c.1 (Nat.le_refl _) (by omega)]
    exact ht.sized c hc
  · obtain ⟨c, hc, rfl⟩ := List.mem_map.mp ha
    have hb := ht.spread.bounds hc
    exact hw c hc (c.1 + 1) (by omega) (by omega)

/-- The chunks of a region, cut at one of them. -/
theorem freeRuns_split {c : Nat × Nat} (hs : freeRuns ts = ps ++ c :: rs) :
    ∃ us vs, ts = us ++ ⟨c.1, c.2, true⟩ :: vs ∧ freeRuns us = ps ∧ freeRuns vs = rs := by
  induction ts generalizing ps with
  | nil => simp at hs
  | cons t ts ih =>
    cases hf : t.free with
    | false =>
      rw [freeRuns_cons_used hf] at hs
      obtain ⟨us, vs, rfl, rfl, rfl⟩ := ih hs
      exact ⟨t :: us, vs, rfl, freeRuns_cons_used hf, rfl⟩
    | true =>
      rw [freeRuns_cons_free hf] at hs
      cases ps with
      | nil =>
        obtain ⟨rfl, rfl⟩ := List.cons.inj hs
        exact ⟨[], ts, by simp [Tile.run, ← hf], rfl, rfl⟩
      | cons p ps =>
        obtain ⟨rfl, hrest : freeRuns ts = ps ++ c :: rs⟩ := List.cons.inj hs
        obtain ⟨us, vs, rfl, rfl, rfl⟩ := ih hrest
        exact ⟨t :: us, vs, rfl, freeRuns_cons_free hf, rfl⟩

/-! ## Listing -/

/-- The walk over the chunks ends and yields them. -/
theorem chunksFrom_run {n : Nat} {cur : Option Nat} (hs : Spread lo cs hi) (hin : hi ≤ h.size)
    (hz : ∀ c ∈ cs, (h.word c.1).toNat = c.2) (hc : Chained h cur (cs.map Prod.fst) none)
    (hn : cs.length < n) :
    FreeList.chunksFrom n cur h = .ok cs := by
  induction cs generalizing lo n cur with
  | nil =>
    obtain ⟨n, rfl⟩ : ∃ k, n = k + 1 := ⟨n - 1, by omega⟩
    cases hc
    rfl
  | cons c cs ih =>
    simp only [List.length_cons] at hn
    obtain ⟨n, rfl⟩ : ∃ k, n = k + 1 := ⟨n - 1, by omega⟩
    obtain ⟨rfl, hrest : Chained h (h.link c.1) (cs.map Prod.fst) none⟩ := hc
    have hb := hs.bounds (c := c) (by simp)
    have hzc := hz c (by simp)
    have htail := ih (n := n) hs.2.2 (fun d hd => hz d (by simp [hd])) hrest (by omega)
    simp only [FreeList.chunksFrom]
    rw [read_bind (chunkNext_run (by omega)), read_bind (chunkSize_run (by omega)), hzc,
      read_bind htail]
    rfl

theorem Spread.length_le (hs : Spread lo cs hi) : lo + cs.length ≤ hi := by
  induction cs generalizing lo with
  | nil => exact hs
  | cons c cs ih =>
    have hrest := ih hs.2.2
    have h1 := hs.1
    have h2 := hs.2.1
    simp only [List.length_cons]
    omega

theorem Threads.chunks_run (ht : Threads l h lo hi cs) : l.chunks h = .ok cs := by
  have hlen := ht.spread.length_le
  have hin := ht.inside
  exact chunksFrom_run ht.spread hin ht.sized ht.chain (by omega)

/-- The list yields the free tiles. -/
theorem Tiled.chunks_run (ht : Tiled l h lo hi ts) : l.chunks h = .ok (freeRuns ts) :=
  ht.threads.chunks_run

/-! ## Searching -/

/-- The candidate is the chunk of `cs` that a request of `size` words is served from. -/
def Chosen (fit : Fit) (size : Nat) (cs : List (Nat × Nat)) (c : FreeList.Candidate) : Prop :=
  ∃ ps rs, cs = ps ++ (c.chunk, c.size) :: rs ∧ c.prev = (ps.map Prod.fst).getLast? ∧
    size ≤ c.size ∧
    match fit with
    | .first => ∀ p ∈ ps, p.2 < size
    | .best => (∀ p ∈ ps, size ≤ p.2 → c.size < p.2) ∧ ∀ r ∈ rs, size ≤ r.2 → c.size ≤ r.2

/-- What the search has found among the chunks `ps` that it has passed. A first fit or an exact one
ends the search. -/
def Passed (fit : Fit) (size : Nat) (ps : List (Nat × Nat)) : Option FreeList.Candidate → Prop
  | none => ∀ p ∈ ps, p.2 < size
  | some c => fit = .best ∧ size < c.size ∧ Chosen .best size ps c

section Search

variable {fit : Fit} {size a n : Nat} {found : Option FreeList.Candidate} {c : FreeList.Candidate}

/-- No chunk that was passed is smaller than the candidate. -/
theorem Chosen.le (hc : Chosen .best size cs c) {p : Nat × Nat} (hp : p ∈ cs) (hs : size ≤ p.2) :
    c.size ≤ p.2 := by
  obtain ⟨ps, rs, rfl, -, -, h1, h2⟩ := hc
  simp only [List.mem_append, List.mem_cons] at hp
  rcases hp with hp | rfl | hp
  · exact Nat.le_of_lt (h1 p hp hs)
  · exact Nat.le_refl _
  · exact h2 p hp hs

/-- A chunk that is too small, or no better than the candidate, is passed. -/
theorem Passed.skip (hf : Passed fit size ps found)
    (hn : ¬ (size ≤ n ∧ FreeList.improves n found = true)) :
    Passed fit size (ps ++ [(a, n)]) found := by
  cases found with
  | none =>
    have hlt : n < size := by
      simp only [FreeList.improves, and_true] at hn
      omega
    intro p hp
    rcases List.mem_append.mp hp with hp | hp
    · exact hf p hp
    · obtain rfl := List.mem_singleton.mp hp
      exact hlt
  | some c =>
    obtain ⟨hfit, hlt, qs, rs, rfl, hprev, hsz, h1, h2⟩ := hf
    refine ⟨hfit, hlt, qs, rs ++ [(a, n)], by simp, hprev, hsz, h1, fun r hr hs => ?_⟩
    rcases List.mem_append.mp hr with hr | hr
    · exact h2 r hr hs
    · obtain rfl := List.mem_singleton.mp hr
      simp only [FreeList.improves, decide_eq_true_eq] at hn
      simp only at hs ⊢
      omega

/-- A chunk that is better than what was found so far. -/
theorem Passed.improve (hf : Passed fit size ps found) (hn : FreeList.improves n found = true) :
    ∀ p ∈ ps, size ≤ p.2 → n < p.2 := by
  intro p hp hs
  cases found with
  | none =>
    have hlt := hf p hp
    omega
  | some c =>
    obtain ⟨-, -, hc⟩ := hf
    have hle := hc.le hp hs
    simp only [FreeList.improves, decide_eq_true_eq] at hn
    omega

/-- The search finds the chunk that the policy asks for, if one is large enough. -/
theorem search_run {k : Nat} {prev cur : Option Nat} (hs : Spread lo (ps ++ rs) hi)
    (hin : hi ≤ h.size) (hz : ∀ c ∈ rs, (h.word c.1).toNat = c.2)
    (hc : Chained h cur (rs.map Prod.fst) none) (hprev : prev = (ps.map Prod.fst).getLast?)
    (hf : Passed fit size ps found) (hk : rs.length < k) :
    ∃ r, FreeList.search fit size k prev cur found h = .ok r ∧
      ((r = none ∧ ∀ c ∈ ps ++ rs, c.2 < size) ∨ ∃ c, r = some c ∧
        Chosen fit size (ps ++ rs) c) := by
  induction rs generalizing ps k prev cur found with
  | nil =>
    obtain ⟨k, rfl⟩ : ∃ j, k = j + 1 := ⟨k - 1, by omega⟩
    obtain rfl : cur = none := hc
    refine ⟨found, rfl, ?_⟩
    rw [List.append_nil]
    cases found with
    | none => exact .inl ⟨rfl, hf⟩
    | some c =>
      obtain ⟨rfl, -, hch⟩ := hf
      exact .inr ⟨c, rfl, hch⟩
  | cons c rs ih =>
    obtain ⟨a, n⟩ := c
    simp only [List.length_cons] at hk
    obtain ⟨k, rfl⟩ : ∃ j, k = j + 1 := ⟨k - 1, by omega⟩
    obtain ⟨rfl, hrest : Chained h (h.link a) (rs.map Prod.fst) none⟩ := hc
    have hb := hs.bounds (c := (a, n)) (by simp)
    have hzn : (h.word a).toNat = n := hz (a, n) (by simp)
    simp only at hb
    have hassoc : ps ++ (a, n) :: rs = (ps ++ [(a, n)]) ++ rs := by simp
    -- the candidate that stops the search, or the next step of it
    simp only [FreeList.search]
    rw [read_bind (chunkSize_run (by omega)), hzn]
    by_cases hstop : (decide (size ≤ n) && (fit == .first || n == size)) = true
    · rw [if_pos hstop]
      obtain ⟨hle, hexact⟩ : size ≤ n ∧ (fit = .first ∨ n = size) := by simpa using hstop
      have himp : FreeList.improves n found = true := by
        cases found with
        | none => rfl
        | some d =>
          obtain ⟨hbest, hlt, -⟩ := hf
          rcases hexact with rfl | rfl
          · cases hbest
          · exact decide_eq_true hlt
      rw [if_pos (by simp [hle, himp])]
      refine ⟨_, rfl, .inr ⟨_, rfl, ps, rs, rfl, hprev, hle, ?_⟩⟩
      cases fit with
      | first =>
        cases found with
        | none => exact hf
        | some d =>
          obtain ⟨hbest, -⟩ := hf
          cases hbest
      | best =>
        obtain rfl : n = size := hexact.resolve_left (by decide)
        exact ⟨hf.improve himp, fun r _ hr => hr⟩
    · rw [if_neg hstop, read_bind (chunkNext_run (by omega))]
      have hmore : ¬ (size ≤ n ∧ (fit = .first ∨ n = size)) := by simpa using hstop
      rw [hassoc] at hs ⊢
      by_cases himp : size ≤ n ∧ FreeList.improves n found = true
      · rw [if_pos (by simpa using himp)]
        refine ih hs (fun c hc => hz c (by simp [hc])) hrest (by simp) ?_ (by omega)
        have hbest : fit = .best := by
          cases fit with
          | first => exact absurd ⟨himp.1, .inl rfl⟩ hmore
          | best => rfl
        refine ⟨hbest, ?_, ps, [], rfl, hprev, himp.1, hf.improve himp.2, by simp⟩
        have hne : n ≠ size := fun he => hmore ⟨himp.1, .inr he⟩
        simp only
        omega
      · rw [if_neg (by simpa using himp)]
        exact ih hs (fun c hc => hz c (by simp [hc])) hrest (by simp) (hf.skip himp) (by omega)

end Search

/-! ## Relinking -/

/-- A list of links begins with its first chunk. -/
theorem Chained.cur_eq {cur : Option Nat} {as : List Nat} (hc : Chained h cur as none) :
    cur = as.head? := by
  cases as with
  | nil => exact hc
  | cons a as => exact hc.1

theorem Spread.linkable (hs : Spread lo cs hi) (hlo : 0 < lo) (hhi : hi < 0x10000000000000000) :
    Linkable (cs.map Prod.fst).head? := by
  intro a ha
  cases cs with
  | nil => cases ha
  | cons c cs =>
    obtain rfl : c.1 = a := Option.some.inj ha
    have hb := hs.bounds (c := c) (by simp)
    omega

/-- The chunks `ps` and behind them the chunks `rs`, to which the last of `ps` is made to link. -/
theorem Threads.joined {mid : Nat} {stop cur : Option Nat} {tail : Option Nat} {words : Nat}
    (hsmall : h.size < 0x1000000000000000) (hin : hi ≤ h.size) (hp : Spread lo ps mid)
    (hr : Spread mid rs hi) (hz : ∀ c ∈ ps ++ rs, (h.word c.1).toNat = c.2)
    (hcp : Chained h l.head (ps.map Prod.fst) stop) (hcr : Chained h cur (rs.map Prod.fst) none)
    (htail : tail = (ps ++ rs).getLast?.map Prod.fst)
    (hwords : words = ((ps ++ rs).map Prod.snd).sum) :
    Threads { l.relinked (ps.map Prod.fst).getLast? cur with tail := tail, freeWords := words }
      (h.relink (ps.map Prod.fst).getLast? cur) lo hi (ps ++ rs) := by
  have hle := hr.le
  -- the link of the last chunk is the only word that changes
  have hword : ∀ x, (∀ c ∈ ps, x ≠ c.1 + 1) →
      (h.relink (ps.map Prod.fst).getLast? cur).word x = h.word x := by
    intro x hx
    refine Arena.word_relink_ne fun p hlast => ?_
    obtain ⟨c, hc, rfl⟩ := List.mem_map.mp (List.mem_of_getLast? hlast)
    exact hx c hc
  have hpb : ∀ c ∈ ps, lo ≤ c.1 ∧ c.1 + c.2 ≤ mid ∧ 2 ≤ c.2 := fun c hc => hp.bounds hc
  refine ⟨by simpa using hsmall, by
    simpa using hin, hp.append hr, fun c hc => ?_, ?_, htail, hwords⟩
  · rw [hword c.1 fun d hd => ?_]
    · exact hz c hc
    · have hdb := hpb d hd
      rcases List.mem_append.mp hc with hc | hc
      · rcases hp.apart hc hd with rfl | hap | hap <;> omega
      · have hcb := hr.bounds hc
        omega
  · rw [List.map_append]
    refine Chained.append (hcp.relink hp.nodup (fun a ha => ?_) fun hne => ?_)
      (hcr.congr fun a ha => hword _ fun d hd => ?_)
    · obtain ⟨c, hc, rfl⟩ := List.mem_map.mp ha
      have hcb := hpb c hc
      omega
    · obtain ⟨a, ha⟩ := List.exists_mem_of_ne_nil _ hne
      obtain ⟨c, hc, rfl⟩ := List.mem_map.mp ha
      have hcb := hpb c hc
      rw [hcr.cur_eq]
      exact hr.linkable (by omega) (by omega)
    · obtain ⟨c, hc, rfl⟩ := List.mem_map.mp ha
      have hcb := hr.bounds hc
      have hdb := hpb d hd
      omega

/-- A chunk is written between the chunks `ps` and `rs`, to which it links, and the last of `ps` is
made to link to it. -/
theorem Threads.placed {a n : Nat} {stop cur : Option Nat} {tail : Option Nat} {words : Nat}
    (hsmall : h.size < 0x1000000000000000) (hin : hi ≤ h.size) (hp : Spread lo ps a) (hn : 2 ≤ n)
    (hr : Spread (a + n) rs hi) (hz : ∀ c ∈ ps ++ rs, (h.word c.1).toNat = c.2)
    (hcp : Chained h l.head (ps.map Prod.fst) stop) (hcr : Chained h cur (rs.map Prod.fst) none)
    (htail : tail = (ps ++ (a, n) :: rs).getLast?.map Prod.fst)
    (hwords : words = ((ps ++ (a, n) :: rs).map Prod.snd).sum) :
    Threads { l.relinked (ps.map Prod.fst).getLast? (some a) with tail := tail, freeWords := words }
      (((h.put a (UInt64.ofNat n)).put (a + 1) (FreeList.linkWord cur)).relink
        (ps.map Prod.fst).getLast? (some a)) lo hi
      (ps ++ (a, n) :: rs) := by
  have hle := hr.le
  -- words outside the chunk stay
  have hword : ∀ x, x < a ∨ a + n ≤ x →
      ((h.put a (UInt64.ofNat n)).put (a + 1) (FreeList.linkWord cur)).word x = h.word x := by
    intro x hx
    rw [Arena.word_put_ne _ (by omega), Arena.word_put_ne _ (by omega)]
  refine .joined (by simpa using hsmall) (by simpa using hin) hp ⟨Nat.le_refl _, hn, hr⟩
    (fun c hc => ?_)
    (hcp.congr fun b hb => hword _ ?_) ⟨rfl, ?_⟩ htail hwords
  · simp only [List.mem_append, List.mem_cons] at hc
    rcases hc with hc | rfl | hc
    · have hb := hp.bounds hc
      rw [hword _ (by omega)]
      exact hz c (by simp [hc])
    · rw [Arena.word_put_ne _ (by omega), Arena.word_put_self _ (by omega),
        toNat_ofNat_of_lt (by omega)]
    · have hb := hr.bounds hc
      rw [hword _ (by omega)]
      exact hz c (by simp [hc])
  · obtain ⟨c, hc, rfl⟩ := List.mem_map.mp hb
    have hcb := hp.bounds hc
    omega
  · have hlink : Linkable cur := by
      rw [hcr.cur_eq]
      exact hr.linkable (by omega) (by omega)
    rw [Arena.link_put (by simp; omega) hlink]
    refine hcr.congr fun b hb => hword _ ?_
    obtain ⟨c, hc, rfl⟩ := List.mem_map.mp hb
    have hcb := hr.bounds hc
    omega

/-! ## Taking -/

/-- The words handed out of a chunk of `n` words when `size` of them are asked for: all if what
remains is too short. -/
def cut (n size : Nat) : Nat := if 2 ≤ n - size then size else n

/-- What remains of a chunk when `k` words are taken. -/
def remnant (a n k : Nat) : List (Nat × Nat) := if k < n then [(a + k, n - k)] else []

theorem cut_cases {n size : Nat} (hle : size ≤ n) : (cut n size = size ∧ 2 ≤ n - size ∧ size < n) ∨
    (cut n size = n ∧ n ≤ size + 1) := by
  unfold cut
  split
  · exact .inl ⟨rfl, by omega, by omega⟩
  · exact .inr ⟨rfl, by omega⟩

/-- Chunks in two parts around one of them. -/
theorem Threads.split {a n : Nat} (ht : Threads l h lo hi (ps ++ (a, n) :: rs)) :
    Chained h l.head (ps.map Prod.fst) (some a) ∧ Chained h (h.link a) (rs.map Prod.fst) none := by
  have hc := ht.chain
  rw [List.map_append, List.map_cons] at hc
  obtain ⟨mid, h1, h2⟩ := hc.split
  obtain rfl : mid = some a := h2.1
  exact ⟨h1, h2.2⟩

theorem Threads.search_run (ht : Threads l h lo hi cs) (size : Nat) :
    ∃ r, FreeList.search l.fit size (h.size + 1) none l.head none h = .ok r ∧
      ((r = none ∧ ∀ c ∈ cs, c.2 < size) ∨ ∃ c, r = some c ∧ Chosen l.fit size cs c) := by
  have hlen := ht.spread.length_le
  have hin := ht.inside
  have hnone : Passed l.fit size [] none := fun p hp => absurd hp List.not_mem_nil
  have hs : Spread lo ([] ++ cs) hi := ht.spread
  exact Reclaim.search_run hs hin ht.sized ht.chain rfl hnone (by omega)

theorem getLast?_append_cons {α : Type} {xs ys : List α} {a : α} (hne : ys ≠ []) :
    (xs ++ a :: ys).getLast? = ys.getLast? := by
  obtain ⟨b, hb⟩ := Option.ne_none_iff_exists'.mp (mt List.getLast?_eq_none_iff.mp hne)
  simp [List.getLast?_append, List.getLast?_cons, hb]

/-- A chunk is the last one, or one behind it is. -/
theorem Threads.tail_cases {a n : Nat} (ht : Threads l h lo hi (ps ++ (a, n) :: rs)) :
    (rs = [] ∧ l.tail = some a) ∨
    (rs ≠ [] ∧ l.tail = rs.getLast?.map Prod.fst ∧ l.tail ≠ some a) := by
  have htail := ht.tail
  by_cases hne : rs = []
  · subst hne
    exact .inl ⟨rfl, by simpa using htail⟩
  · rw [getLast?_append_cons hne] at htail
    refine .inr ⟨hne, htail, fun he => ?_⟩
    rw [htail] at he
    obtain ⟨c, hc, hca⟩ := Option.map_eq_some_iff.mp he
    obtain ⟨-, hn, hr⟩ := ht.spread.split
    have hb := hr.bounds (List.mem_of_getLast? hc)
    simp only at hb hn
    omega

section Take

variable {a n size : Nat}

/-- The chunk is split. -/
theorem Threads.take_split (ht : Threads l h lo hi (ps ++ (a, n) :: rs)) (hle : 2 ≤ n - size)
    (h2 : 2 ≤ size) :
    Threads { l.relinked (ps.map Prod.fst).getLast? (some (a + size)) with
        tail := if l.tail = some a then some (a + size) else l.tail
        freeWords := l.freeWords - size }
      (((h.put (a + size) (UInt64.ofNat (n - size))).put (a + size + 1)
        (FreeList.linkWord (h.link a))).relink
        (ps.map Prod.fst).getLast? (some (a + size))) lo hi (ps ++ (a + size, n - size) :: rs) := by
  obtain ⟨hp, hn, hr⟩ := ht.spread.split
  obtain ⟨hc1, hc2⟩ := ht.split
  simp only at hp hn hr
  refine .placed ht.small ht.inside (hp.mono (Nat.le_refl _) (by omega)) hle
    (hr.mono (by omega) (Nat.le_refl _)) (fun c hc => ht.sized c ?_)
    hc1 hc2 ?_ ?_
  · rcases List.mem_append.mp hc with hc | hc <;> simp [hc]
  · rcases ht.tail_cases with ⟨rfl, hlast⟩ | ⟨hne, hlast, hnot⟩
    · rw [if_pos hlast]
      simp
    · rw [if_neg hnot, hlast, getLast?_append_cons hne]
  · rw [ht.freeWords]
    simp only [List.map_append, List.map_cons, List.sum_append, List.sum_cons]
    omega

/-- The chunk is taken as a whole. -/
theorem Threads.take_whole (ht : Threads l h lo hi (ps ++ (a, n) :: rs)) :
    Threads { l.relinked (ps.map Prod.fst).getLast? (h.link a) with
        tail := if l.tail = some a then (ps.map Prod.fst).getLast? else l.tail
        freeWords := l.freeWords - n }
      (h.relink (ps.map Prod.fst).getLast? (h.link a)) lo hi (ps ++ rs) := by
  obtain ⟨hp, -, hr⟩ := ht.spread.split
  obtain ⟨hc1, hc2⟩ := ht.split
  refine .joined ht.small ht.inside hp (hr.mono (by simp) (Nat.le_refl _))
    (fun c hc => ht.sized c ?_) hc1 hc2 ?_ ?_
  · rcases List.mem_append.mp hc with hc | hc <;> simp [hc]
  · rcases ht.tail_cases with ⟨rfl, hlast⟩ | ⟨hne, hlast, hnot⟩
    · rw [if_pos hlast, List.append_nil, List.getLast?_map]
    · obtain ⟨r, rs, rfl⟩ := List.exists_cons_of_ne_nil hne
      rw [if_neg hnot, hlast, List.getLast?_append, List.getLast?_cons]
      rfl
  · rw [ht.freeWords]
    simp only [List.map_append, List.map_cons, List.sum_append, List.sum_cons]
    omega

/-- The front of the chosen chunk is taken. -/
theorem Threads.take_run (ht : Threads l h lo hi cs) (size : Nat) :
    (l.take size h = .ok (none, l) h ∧ ∀ c ∈ cs, c.2 < max size 2) ∨
    ∃ ps a n rs l' h', cs = ps ++ (a, n) :: rs ∧ Chosen l.fit (max size 2) cs
    ⟨(ps.map Prod.fst).getLast?, a, n⟩ ∧ max size 2 ≤ n ∧
      l.take size h = .ok (some (a, cut n (max size 2)), l') h' ∧
      Threads l' h' lo hi (ps ++ (remnant a n (cut n (max size 2)) ++ rs)) ∧ l'.fit = l.fit ∧
      h'.size = h.size ∧
      ∀ x, Clear cs x → h'.word x = h.word x := by
  have hbound : FreeList.walkBound h = .ok (h.size + 1) := rfl
  obtain ⟨r, hsearch, hcase⟩ := ht.search_run (max size 2)
  have hrun : l.take size h = (match r with
      | none => pure (none, l)
      | some c => do
        let next ← FreeList.chunkNext c.chunk
        if 2 ≤ c.size - max size 2 then
          FreeList.writeChunk (c.chunk + max size 2) (c.size - max size 2) next
          let l ← l.link c.prev (some (c.chunk + max size 2))
          let tail := if l.tail = some c.chunk then some (c.chunk + max size 2) else l.tail
          return (some (c.chunk, max size 2), { l with
            tail, freeWords := l.freeWords - max size 2 })
        else
          let l ← l.link c.prev next
          let tail := if l.tail = some c.chunk then c.prev else l.tail
          return (some (c.chunk, c.size), { l with
            tail, freeWords := l.freeWords - c.size }) : HeapM _) h := by
    have hsearch' : FreeList.search l.fit (max size FreeList.minChunk)
      (h.size + 1) none l.head none h = .ok r := hsearch
    rw [FreeList.take, bind_ok (read_heap hbound), bind_ok (read_heap hsearch')]
    rfl
  rcases hcase with ⟨rfl, hnone⟩ | ⟨c, rfl, hch⟩
  · exact .inl ⟨hrun, hnone⟩
  · obtain ⟨prev, a, n⟩ := c
    obtain ⟨ps, rs, hcs, hprev, hsz, -⟩ := id hch
    simp only at hcs hprev hsz hrun
    subst hcs hprev
    have hb := ht.spread.bounds (c := (a, n)) (by simp)
    have hin := ht.inside
    simp only at hb
    -- the words that are written lie in chunks
    have hchunk : ∀ x, Clear (ps ++ (a, n) :: rs) x →
        (x < a ∨ a + n ≤ x) ∧ ∀ p, (ps.map Prod.fst).getLast? = some p → x ≠ p + 1 := by
      intro x hx
      refine ⟨hx (a, n) (by simp), fun p hp he => ?_⟩
      obtain ⟨c, hc, rfl⟩ := List.mem_map.mp (List.mem_of_getLast? hp)
      have hcb := ht.spread.bounds (c := c) (by simp [hc])
      have hor := hx c (by simp [hc])
      omega
    have hlast : ∀ p, (ps.map Prod.fst).getLast? = some p → p + 1 < h.size := by
      intro p hp
      obtain ⟨c, hc, rfl⟩ := List.mem_map.mp (List.mem_of_getLast? hp)
      have hcb := ht.spread.bounds (c := c) (by simp [hc])
      omega
    rw [bind_ok (read_heap (chunkNext_run (by omega)))] at hrun
    right
    rcases cut_cases hsz with ⟨hcut, h1, h2⟩ | ⟨hcut, h1⟩
    · refine ⟨ps, a, n, rs, ?_⟩
      rw [hcut, remnant, if_pos h2]
      refine ⟨_, _, rfl, hch, hsz, ?_, ht.take_split h1 (by omega), by
        cases (ps.map Prod.fst).getLast? <;> rfl, by simp,
        fun x hx => ?_⟩
      · rw [hrun, if_pos h1, bind_ok (writeChunk_run (by omega)),
          bind_ok (FreeList.link_run fun p hp => by simpa using hlast p hp)]
        cases (ps.map Prod.fst).getLast? <;> rfl
      · obtain ⟨hxa, hxp⟩ := hchunk x hx
        rw [Arena.word_relink_ne hxp, Arena.word_put_ne _ (by omega),
          Arena.word_put_ne _ (by omega)]
    · refine ⟨ps, a, n, rs, ?_⟩
      rw [hcut, remnant, if_neg (Nat.lt_irrefl n)]
      refine ⟨_, _, rfl, hch, hsz, ?_, ht.take_whole, by
        cases (ps.map Prod.fst).getLast? <;> rfl, by simp, fun x hx => ?_⟩
      · rw [hrun, if_neg (by omega), bind_ok (FreeList.link_run hlast)]
        cases (ps.map Prod.fst).getLast? <;> rfl
      · exact Arena.word_relink_ne (hchunk x hx).2

end Take

/-! ## Giving back -/

/-- The length of `n` words at `a` and the chunks behind them, after the first of the chunks `rs`
was joined if it touches. -/
def joinNext (a n : Nat) : List (Nat × Nat) → Nat × List (Nat × Nat)
  | [] => (n, [])
  | (c, k) :: rs => if a + n = c then (n + k, rs) else (n, (c, k) :: rs)

/-- The chunks `ps` and behind them `n` words at `a`, joined with the last chunk if they touch. -/
def joinLast (ps : List (Nat × Nat)) (a n : Nat) : List (Nat × Nat) :=
  match ps.getLast? with
  | some (p, k) => if p + k = a then ps.dropLast ++ [(p, k + n)] else ps ++ [(a, n)]
  | none => ps ++ [(a, n)]

/-- The chunks after a block of `n` words at `a` was given back, which lies between the chunks `ps`
and `rs`. -/
def givenBack (ps : List (Nat × Nat)) (a n : Nat) (rs : List (Nat × Nat)) : List (Nat × Nat) :=
  joinLast ps a (joinNext a n rs).1 ++ (joinNext a n rs).2

theorem joinLast_cases (ps : List (Nat × Nat)) (a n : Nat) :
    (∃ qs p k, ps = qs ++ [(p, k)] ∧ p + k = a ∧ joinLast ps a n = qs ++ [(p, k + n)]) ∨
    ((∀ p k, ps.getLast? = some (p, k) → p + k ≠ a) ∧ joinLast ps a n = ps ++ [(a, n)]) := by
  rcases List.eq_nil_or_concat ps with rfl | ⟨qs, ⟨p, k⟩, rfl⟩
  · exact .inr ⟨by simp, rfl⟩
  · by_cases he : p + k = a
    · exact .inl ⟨qs, p, k, by simp, he, by simp [joinLast, he]⟩
    · exact .inr ⟨by simpa using he, by simp [joinLast, he]⟩

section Give

variable {a n : Nat}

/-- The chunks around a block. -/
theorem around_run {k : Nat} {prev cur : Option Nat}
    (hc : Chained h cur ((ps ++ rs).map Prod.fst) none) (hp : ∀ c ∈ ps, c.1 ≤ a ∧ c.1 + 1 < h.size)
    (hr : ∀ c ∈ rs, a < c.1) (hk : ps.length < k) :
    FreeList.around a k prev cur h =
    .ok ((ps.map Prod.fst).getLast?.or prev, (rs.map Prod.fst).head?) := by
  induction ps generalizing k prev cur with
  | nil =>
    obtain ⟨k, rfl⟩ : ∃ j, k = j + 1 := ⟨k - 1, by omega⟩
    have hcur : cur = (rs.map Prod.fst).head? := Chained.cur_eq hc
    cases rs with
    | nil =>
      subst hcur
      rfl
    | cons c rs =>
      subst hcur
      have hlt := hr c (by simp)
      simp only [List.map_cons, List.head?_cons, FreeList.around, if_pos hlt]
      rfl
  | cons c ps ih =>
    simp only [List.length_cons] at hk
    obtain ⟨k, rfl⟩ : ∃ j, k = j + 1 := ⟨k - 1, by omega⟩
    obtain ⟨rfl, hrest : Chained h (h.link c.1) ((ps ++ rs).map Prod.fst) none⟩ := hc
    obtain ⟨hle, hin⟩ := hp c (by simp)
    simp only [FreeList.around, if_neg (Nat.not_lt.mpr hle)]
    rw [read_bind (chunkNext_run hin), ih hrest (fun d hd => hp d (by simp [hd])) (by omega)]
    cases hps : (ps.map Prod.fst).getLast? <;> simp [List.getLast?_cons, hps]

/-- What is known after the chunk behind a block was joined. -/
structure Joined (h : Arena) (hi a n : Nat) (rs : List (Nat × Nat)) (len : Nat)
    (rest : List (Nat × Nat)) : Prop where
  le : n ≤ len
  spread : Spread (a + len) rest hi
  sub : ∀ c ∈ rest, c ∈ rs
  chain : Chained h (rest.map Prod.fst).head? (rest.map Prod.fst) none
  words : len + (rest.map Prod.snd).sum = n + (rs.map Prod.snd).sum
  clear : ∀ x, Clear rs x → a + n ≤ x → a + len ≤ x
  last : rest ≠ [] → rest.getLast? = rs.getLast?

theorem joined_next (hr : Spread (a + n) rs hi)
    (hc : Chained h (rs.map Prod.fst).head? (rs.map Prod.fst) none) :
    Joined h hi a n rs (joinNext a n rs).1 (joinNext a n rs).2 := by
  cases rs with
  | nil => exact ⟨Nat.le_refl _, hr, by simp [joinNext], rfl, rfl, fun _ _ hx => hx, fun _ => rfl⟩
  | cons c rs =>
    obtain ⟨c, k⟩ := c
    by_cases he : a + n = c
    · have hrest : Chained h (h.link c) (rs.map Prod.fst) none := hc.2
      rw [joinNext, if_pos he]
      refine ⟨by simp, ?_, by simp +contextual, ?_, ?_, fun x hx hle => ?_, fun hne => ?_⟩
      · have hs := hr.2.2
        rw [← he] at hs
        simpa [Nat.add_assoc] using hs
      · rw [← hrest.cur_eq]
        exact hrest
      · simp only [List.map_cons, List.sum_cons]
        omega
      · have hor := hx (c, k) (by simp)
        simp only at hor ⊢
        omega
      · have he : ([] ++ (c, k) :: rs).getLast? = rs.getLast? := getLast?_append_cons hne
        exact he.symm
    · rw [joinNext, if_neg he]
      exact ⟨Nat.le_refl _, hr, fun _ h => h, hc, rfl, fun _ _ hx => hx, fun _ => rfl⟩

/-- Linking a chunk to the one that it links to already changes nothing. -/
theorem Chained.relink_self {as : List Nat} {p : Nat} (hc : Chained h l.head as (some p)) :
    h.relink as.getLast? (some p) = h ∧ l.relinked as.getLast? (some p) = l := by
  rcases List.eq_nil_or_concat as with rfl | ⟨bs, q, rfl⟩
  · have hhead : l.head = some p := hc
    refine ⟨rfl, ?_⟩
    cases l
    simp only at hhead
    subst hhead
    rfl
  · rw [List.concat_eq_append] at hc ⊢
    rw [List.getLast?_concat]
    obtain ⟨mid, -, -, hlink : h.link q = some p⟩ := hc.split
    refine ⟨?_, rfl⟩
    rw [Arena.link] at hlink
    split at hlink
    · cases hlink
    · have hw : FreeList.linkWord (some p) = h.word (q + 1) := by
        cases hlink
        simp [FreeList.linkWord]
      rw [Arena.relink, hw]
      exact Arena.put_word h (q + 1)

theorem nextOf_run (hin : hi ≤ h.size) (hr : Spread (a + n) rs hi)
    (hz : ∀ c ∈ rs, (h.word c.1).toNat = c.2)
    (hc : Chained h (rs.map Prod.fst).head? (rs.map Prod.fst) none) :
    FreeList.nextOf a n (rs.map Prod.fst).head? h =
    .ok ((joinNext a n rs).1, ((joinNext a n rs).2.map Prod.fst).head?) h := by
  cases rs with
  | nil => rfl
  | cons c rs =>
    obtain ⟨c, k⟩ := c
    have hb := hr.bounds (c := (c, k)) (by simp)
    have hzc : (h.word c).toNat = k := hz (c, k) (by simp)
    have hrest : Chained h (h.link c) (rs.map Prod.fst) none := hc.2
    simp only at hb
    simp only [List.map_cons, List.head?_cons, FreeList.nextOf]
    by_cases he : a + n = c
    · rw [joinNext, if_pos he, if_pos he, bind_ok (read_heap (chunkSize_run (by omega))), hzc,
        bind_ok (read_heap (chunkNext_run (by omega))), hrest.cur_eq]
      rfl
    · rw [joinNext, if_neg he, if_neg he]
      rfl

theorem touching_run {p k : Nat} (hs : p < h.size) (hz : (h.word p).toNat = k) :
    FreeList.touching a (some p) h = .ok (if p + k = a then some (p, k) else none) h := by
  rw [FreeList.touching, bind_ok (read_heap (chunkSize_run hs)), hz]
  rfl

/-- A free list with its chain cut at a gap: the chunks `ps` lie before the block of `n` words at
`a`, the chunks `rs` behind it, and the block is counted already. -/
structure Gap (l : FreeList) (h : Arena) (lo hi : Nat) (ps : List (Nat × Nat)) (a n : Nat)
    (rs : List (Nat × Nat)) (stop : Option Nat) : Prop where
  small : h.size < 0x1000000000000000
  inside : hi ≤ h.size
  before : Spread lo ps a
  two_le : 2 ≤ n
  behind : Spread (a + n) rs hi
  sized : ∀ c ∈ ps ++ rs, (h.word c.1).toNat = c.2
  chain : Chained h l.head (ps.map Prod.fst) stop
  rest : Chained h (rs.map Prod.fst).head? (rs.map Prod.fst) none
  tail : rs ≠ [] → l.tail = rs.getLast?.map Prod.fst
  freeWords : l.freeWords = (ps.map Prod.snd).sum + n + (rs.map Prod.snd).sum

namespace Gap

variable {stop : Option Nat}

/-- The last chunk, whatever the block becomes a chunk of. -/
theorem last (hg : Gap l h lo hi ps a n rs stop) (qs : List (Nat × Nat)) (p k : Nat) :
    (if (rs.map Prod.fst).head?.isNone then some p else l.tail) =
    (qs ++ (p, k) :: rs).getLast?.map Prod.fst := by
  by_cases hne : rs = []
  · subst hne
    simp
  · rw [if_neg (by simpa using hne), hg.tail hne, getLast?_append_cons hne]

/-- The block grows the chunk before it, which it touches. -/
theorem settle_joins {qs : List (Nat × Nat)} {p k : Nat}
    (hg : Gap l h lo hi (qs ++ [(p, k)]) a n rs stop) (hpa : p + k = a) :
    ∃ l' h', l.settle (some p) a n (rs.map Prod.fst).head? h = .ok l' h' ∧ Threads l' h' lo hi
    (qs ++ (p, k + n) :: rs) ∧
      l'.fit = l.fit ∧ h'.size = h.size ∧ ∀ x, Clear (qs ++ [(p, k)]) x → h'.word x = h.word x := by
  have hle := hg.behind.le
  have hin := hg.inside
  have hn := hg.two_le
  have hb := hg.before.bounds (c := (p, k)) (by simp)
  have hzp : (h.word p).toNat = k := hg.sized (p, k) (by simp)
  have hpl := hg.before.split
  have hcp := hg.chain
  rw [List.map_append] at hcp
  obtain ⟨mid, hcq, rfl, -⟩ := hcp.split
  simp only at hb hpl
  have hw : l.freeWords = ((qs ++ (p, k + n) :: rs).map Prod.snd).sum := by
    rw [hg.freeWords]
    simp only [List.map_append, List.map_cons,
      List.sum_append, List.sum_cons, List.map_nil, List.sum_nil]
    omega
  have hth := Threads.placed (l := l) (a := p) (n := k + n) hg.small hin hpl.1 (by omega)
    (by rw [← Nat.add_assoc, hpa]; exact hg.behind)
    (fun c hc => hg.sized c (by rcases List.mem_append.mp hc with hc | hc <;> simp [hc])) hcq
      hg.rest (hg.last qs p (k + n)) hw
  -- the chunk before the gap is in the chain already
  have hself : Chained ((h.put p (UInt64.ofNat (k + n))).put (p + 1)
    (FreeList.linkWord (rs.map Prod.fst).head?)) l.head
      (qs.map Prod.fst) (some p) := by
    refine hcq.congr fun b hbm => ?_
    obtain ⟨c, hc, rfl⟩ := List.mem_map.mp hbm
    have hcb := hpl.1.bounds hc
    rw [Arena.word_put_ne _ (by omega), Arena.word_put_ne _ (by omega)]
  rw [(hself.relink_self).1, (hself.relink_self).2] at hth
  refine ⟨_, _, ?_, hth, rfl, by simp, fun x hx => ?_⟩
  · rw [FreeList.settle, bind_ok (touching_run (by omega) hzp), if_pos hpa]
    simp only
    rw [bind_ok (writeChunk_run (by omega))]
    split <;> rfl
  · have hor := hx (p, k) (by simp)
    simp only at hor
    rw [Arena.word_put_ne _ (by omega), Arena.word_put_ne _ (by omega)]

/-- The block becomes a chunk, as it touches none before it. -/
theorem settle_alone (hg : Gap l h lo hi ps a n rs stop)
    (hno : ∀ p k, ps.getLast? = some (p, k) → p + k ≠ a) :
    ∃ l' h', l.settle (ps.map Prod.fst).getLast? a n (rs.map Prod.fst).head? h = .ok l' h' ∧
      Threads l' h' lo hi (ps ++ (a, n) :: rs) ∧ l'.fit = l.fit ∧ h'.size = h.size ∧
      ∀ x, Clear ps x → x < a ∨ a + n ≤ x → h'.word x = h.word x := by
  have hle := hg.behind.le
  have hin := hg.inside
  have hn := hg.two_le
  have hprev : ∀ p, (ps.map Prod.fst).getLast? = some p → p + 2 ≤ a ∧ ∀ x, Clear ps x →
      x ≠ p + 1 := by
    intro p hlast
    obtain ⟨c, hc, rfl⟩ := List.mem_map.mp (List.mem_of_getLast? hlast)
    have hb := hg.before.bounds hc
    refine ⟨by omega, fun x hx he => ?_⟩
    have hor := hx c hc
    omega
  have hbefore : FreeList.touching a (ps.map Prod.fst).getLast? h = .ok none h := by
    cases hl : ps.getLast? with
    | none =>
      rw [List.getLast?_map, hl]
      rfl
    | some c =>
      obtain ⟨p, k⟩ := c
      have hb := hg.before.bounds (List.mem_of_getLast? hl)
      have hzp : (h.word p).toNat = k := hg.sized (p, k) (by simp [List.mem_of_getLast? hl])
      simp only at hb
      rw [List.getLast?_map, hl]
      exact (touching_run (by omega) hzp).trans (by rw [if_neg (hno p k hl)])
  have hw : l.freeWords = ((ps ++ (a, n) :: rs).map Prod.snd).sum := by
    rw [hg.freeWords]
    simp only [List.map_append, List.map_cons, List.sum_append, List.sum_cons]
    omega
  have hth := Threads.placed (l := l) hg.small hin hg.before hn hg.behind hg.sized hg.chain hg.rest
    (hg.last ps a n) hw
  refine ⟨_, _, ?_, hth, by cases (ps.map Prod.fst).getLast? <;> rfl, by simp, fun x hx hout => ?_⟩
  · rw [FreeList.settle, bind_ok hbefore]
    simp only
    rw [bind_ok (writeChunk_run (by omega)), bind_ok (FreeList.link_run fun p hlast => by
      have hpb := (hprev p hlast).1
      simp only [Arena.size_put]
      omega)]
    cases (ps.map Prod.fst).getLast? <;> split <;> rfl
  · rw [Arena.word_relink_ne fun p hlast => (hprev p hlast).2 x hx, Arena.word_put_ne _ (by omega),
      Arena.word_put_ne _ (by omega)]

/-- The block is written behind the chunks `ps` and before the chunks `rs`. -/
theorem settle_run (hg : Gap l h lo hi ps a n rs stop) :
    ∃ l' h', l.settle (ps.map Prod.fst).getLast? a n (rs.map Prod.fst).head? h = .ok l' h' ∧
    Threads l' h' lo hi (joinLast ps a n ++ rs) ∧
      l'.fit = l.fit ∧ h'.size = h.size ∧ ∀ x, Clear ps x → x < a ∨ a + n ≤ x →
      h'.word x = h.word x := by
  rcases joinLast_cases ps a n with ⟨qs, p, k, rfl, hpa, hjl⟩ | ⟨hno, hjl⟩
  · obtain ⟨l', h', hrun, hth, hfit, hsize, hword⟩ := hg.settle_joins hpa
    rw [hjl, List.append_assoc, show ((qs ++ [(p, k)]).map Prod.fst).getLast? = some p by simp]
    exact ⟨l', h', hrun, hth, hfit, hsize, fun x hx _ => hword x hx⟩
  · rw [hjl, List.append_assoc]
    exact hg.settle_alone hno

end Gap

/-- A block is given back and joins the chunks that it touches. -/
theorem Threads.give_run (ht : Threads l h lo hi (ps ++ rs)) (hlo : lo ≤ a) (hhi : a + n ≤ hi)
    (hn : 2 ≤ n) (hps : ∀ c ∈ ps, c.1 + c.2 ≤ a) (hrs : ∀ c ∈ rs, a + n ≤ c.1) :
    ∃ l' h', l.give a n h = .ok l' h' ∧ Threads l' h' lo hi (givenBack ps a n rs) ∧ l'.fit = l.fit ∧
    h'.size = h.size ∧
      ∀ x, Clear (ps ++ rs) x → x < a ∨ a + n ≤ x → h'.word x = h.word x := by
  have hsp : Spread lo ps a := ht.spread.below hlo hps
  have hsr : Spread (a + n) rs hi := ht.spread.above hhi hrs
  have hin := ht.inside
  have hchain := ht.chain
  rw [List.map_append] at hchain
  obtain ⟨stop, hcp, hcr⟩ := hchain.split
  obtain rfl := hcr.cur_eq
  have hj := joined_next (h := h) (a := a) (n := n) hsr hcr
  have hle := hj.le
  have hbound : FreeList.walkBound h = .ok (h.size + 1) := rfl
  have haround : FreeList.around a (h.size + 1) none l.head h = .ok ((ps.map Prod.fst).getLast?,
      (rs.map Prod.fst).head?) := by
    have hlen := hsp.length_le
    rw [around_run ht.chain (fun c hc => ?_) (fun c hc => ?_) (by omega), Option.or_none]
    · have hb := hsp.bounds hc
      omega
    · have hb := hsr.bounds hc
      omega
  have hlast : (joinNext a n rs).2 ≠ [] → l.tail = (joinNext a n rs).2.getLast?.map Prod.fst := by
    intro hne
    have hrne : rs ≠ [] := by
      rintro rfl
      exact hne rfl
    rw [ht.tail, hj.last hne, List.getLast?_append_of_ne_nil _ hrne]
  have hgap : Gap { l with
    freeWords := l.freeWords + n } h lo hi ps a (joinNext a n rs).1 (joinNext a n rs).2
      (rs.map Prod.fst).head? := {
    small := ht.small
    inside := hin
    before := hsp
    two_le := by omega
    behind := hj.spread
    sized := fun c hc => ht.sized c
      (List.mem_append.mpr ((List.mem_append.mp hc).imp id (hj.sub c)))
    chain := hcp
    rest := hj.chain
    tail := hlast
    freeWords := by
      have hw := hj.words
      simp only [ht.freeWords, List.map_append, List.sum_append]
      omega }
  obtain ⟨l', h', hrun, hth, hfit, hsize, hword⟩ := hgap.settle_run
  refine ⟨l', h', ?_, hth, hfit, hsize,
    fun x hx hout => hword x (fun c hc => hx c (by simp [hc])) ?_⟩
  · rw [FreeList.give, bind_ok (read_heap hbound), bind_ok (read_heap haround)]
    simp only
    rw [bind_ok (nextOf_run hin hsr (fun c hc => ht.sized c (by simp [hc])) hcr)]
    exact hrun
  · rcases hout with hout | hout
    · exact .inl hout
    · exact .inr (hj.clear x (fun c hc => hx c (by simp [hc])) hout)

end Give

/-! ## A new region -/

/-- A region of at least two words is one chunk at first. -/
theorem threads_ofRegion {region : Region} (fit : Fit) (hsmall : h.size < 0x1000000000000000)
    (h2 : 2 ≤ region.length) (hin : region.limit ≤ h.size) :
    (FreeList.ofRegion region fit h).2.size = h.size ∧
    Threads (FreeList.ofRegion region fit h).1
    (FreeList.ofRegion region fit h).2 region.first region.limit
      [(region.first, region.length)] := by
  have hlen : region.first + region.length = region.limit := by
    simp only [Region.length] at h2 ⊢
    omega
  have hw : ∀ i, (h.blit region.first [UInt64.ofNat region.length, FreeList.linkWord none]).word i
      = if region.first ≤ i ∧ i < region.first + 2 then
        [UInt64.ofNat region.length, FreeList.linkWord none][i - region.first]?.getD 0
        else h.word i := by
    intro i
    rw [Arena.word_eq_getElem?, Arena.getElem?_blit _ _ _ (by simp; omega)]
    simp only [List.length_cons, List.length_nil, Nat.zero_add, Nat.reduceAdd]
    split
    · rfl
    · rw [Arena.word_eq_getElem?]
  have hsize : (h.blit region.first [UInt64.ofNat region.length, FreeList.linkWord none]).size =
    h.size := Arena.size_blit _ _ _
  rw [FreeList.ofRegion, if_pos (show FreeList.minChunk ≤ region.length from h2)]
  refine ⟨hsize, by rw [hsize]; exact hsmall, by rw [hsize]; exact hin,
    ⟨Nat.le_refl _, h2, Nat.le_of_eq hlen⟩, fun c hc => ?_,
    ⟨rfl, if_pos ?_⟩, rfl, by simp⟩
  · obtain rfl := List.mem_singleton.mp hc
    rw [hw, if_pos (by simp), Nat.sub_self]
    exact toNat_ofNat_of_lt (by omega)
  · rw [hw, if_pos (by omega), Nat.add_sub_cancel_left]
    rfl

end Reclaim
