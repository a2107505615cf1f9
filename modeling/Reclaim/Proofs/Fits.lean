import Reclaim.Proofs.Chunks

/-!
# Which chunk serves a request

The search carries one candidate through the list and the chunk before it. What it finds is
described here without the order of the walk: under the first fit the lowest chunk that is large
enough, under the best fit the smallest one, and of several smallest ones the lowest (`Fit.Picks`).
A request is for two words at least.

Results:
* `Chosen.picks`: the candidate of the search is the chunk that the policy picks.
* `Threads.take_serves`: a request is refused exactly if no chunk is large enough, and otherwise
  served from the front of the chunk that the policy picks (`Served`).
-/

namespace Reclaim

/-- A request that both chunks are large enough for is served from `c` and not from `d`, if they
differ. -/
def Fit.Prefers : Fit → Nat × Nat → Nat × Nat → Prop
  | .first, c, d => c.1 ≤ d.1
  | .best, c, d => c.2 < d.2 ∨ c.2 = d.2 ∧ c.1 ≤ d.1

/-- Of the chunks `cs`, the policy picks `c` for a request of `size` words. -/
structure Fit.Picks (fit : Fit) (size : Nat) (cs : List (Nat × Nat)) (c : Nat × Nat) : Prop where
  mem : c ∈ cs
  large : size ≤ c.2
  preferred : ∀ d ∈ cs, size ≤ d.2 → fit.Prefers c d

variable {l l' : FreeList} {h h' : Arena} {lo hi size : Nat} {cs : List (Nat × Nat)}

/-- What the search finds is what the policy picks: the chunks stand in the order of their
addresses. -/
theorem Chosen.picks {fit : Fit} {c : FreeList.Candidate} (hs : Spread lo cs hi)
    (hc : Chosen fit size cs c) :
    fit.Picks size cs (c.chunk, c.size) := by
  obtain ⟨ps, rs, rfl, -, hle, hfit⟩ := hc
  obtain ⟨-, h2, hr⟩ := hs.split
  have hbehind : ∀ d ∈ rs, c.chunk ≤ d.1 :=
    fun d hd => Nat.le_trans (Nat.le_add_right _ _) (hr.bounds hd).1
  refine ⟨by simp, hle, fun d hd hsd => ?_⟩
  simp only [List.mem_append, List.mem_cons] at hd
  cases fit with
  | first =>
    rcases hd with hd | rfl | hd
    · exact absurd hsd (Nat.not_le.mpr (hfit d hd))
    · exact Nat.le_refl _
    · exact hbehind d hd
  | best =>
    rcases hd with hd | rfl | hd
    · exact .inl (hfit.1 d hd hsd)
    · exact .inr ⟨rfl, Nat.le_refl _⟩
    · exact (Nat.lt_or_eq_of_le (hfit.2 d hd hsd)).imp id fun he => ⟨he, hbehind d hd⟩

/-- The policy picks one chunk only. -/
theorem Fit.Picks.unique {fit : Fit} {c d : Nat × Nat} (hs : Spread lo cs hi)
    (hc : fit.Picks size cs c) (hd : fit.Picks size cs d) :
    c = d := by
  have hcd := hc.preferred d hd.mem hd.large
  have hdc := hd.preferred c hc.mem hc.large
  have hstart : c.1 = d.1 := by
    cases fit <;> simp only [Fit.Prefers] at hcd hdc <;> omega
  have hc2 := (hs.bounds hc.mem).2.2
  have hd2 := (hs.bounds hd.mem).2.2
  rcases hs.apart hc.mem hd.mem with he | hap | hap
  · exact he
  · omega
  · omega

/-- A request of `size` words, two at least, is served from the front of the chunk `c` with `given`
words. What remains of the chunk, two words at least, takes its place among the others, which stay
what they are. -/
structure Served (l : FreeList) (h : Arena) (lo hi : Nat) (cs : List (Nat × Nat)) (size : Nat)
    (c : Nat × Nat) (given : Nat) (l' : FreeList) (h' : Arena) : Prop where
  picks : l.fit.Picks size cs c
  given_eq : given = if c.2 = size + 1 then size + 1 else size
  rest : c.2 = given ∨ given + 2 ≤ c.2
  replaced : ∃ ps rs, cs = ps ++ c :: rs ∧
    Threads l' h' lo hi (ps ++ (remnant c.1 c.2 given ++ rs)) ∧
    l'.chunks h' = .ok (ps ++ (remnant c.1 c.2 given ++ rs))
  freeWords : l'.freeWords + given = l.freeWords
  fit : l'.fit = l.fit
  size_eq : h'.size = h.size
  word : ∀ x, Clear cs x → h'.word x = h.word x

/-- A list answers a request for `n` words with nothing exactly if none of its chunks has as many
words, or two if `n` is less, and nothing changes then. Any other request is served as the policy
asks. -/
theorem Threads.take_serves (ht : Threads l h lo hi cs) (n : Nat) :
    l.chunks h = .ok cs ∧
    ((∃ l' h', l.take n h = .ok (none, l') h') ↔ ∀ c ∈ cs, c.2 < max n 2) ∧
    ((∀ c ∈ cs, c.2 < max n 2) → l.take n h = .ok (none, l) h) ∧
    ((∃ c ∈ cs, max n 2 ≤ c.2) → ∃ c given l' h', l.take n h = .ok (some (c.1, given), l') h' ∧
      Served l h lo hi cs (max n 2) c given l' h') := by
  refine ⟨ht.chunks_run, ?_⟩
  rcases ht.take_run n with ⟨hrun, hnone⟩
    | ⟨ps, a, k, rs, l', h', hcs, hch, hle, hrun, hth, hfit, hsize, hword⟩
  · refine ⟨⟨fun _ => hnone, fun _ => ⟨l, h, hrun⟩⟩, fun _ => hrun, ?_⟩
    rintro ⟨c, hc, hlarge⟩
    exact absurd hlarge (Nat.not_le.mpr (hnone c hc))
  · have hlarge : ¬ ∀ c ∈ cs, c.2 < max n 2 :=
      fun hnone => absurd hle (Nat.not_le.mpr (hnone (a, k) (by simp [hcs])))
    refine ⟨⟨?_, fun hnone => absurd hnone hlarge⟩, fun hnone => absurd hnone hlarge,
      fun _ => ⟨(a, k), _, l', h', hrun, ?_⟩⟩
    · rintro ⟨m, g, hrun'⟩
      rw [hrun] at hrun'
      cases hrun'
    · have hcut := cut_cases hle
      refine ⟨hch.picks ht.spread, ?_, ?_,
        ⟨ps, rs, hcs, hth, hth.chunks_run⟩, ?_, hfit, hsize, hword⟩
      · split <;> omega
      · simp only
        omega
      · rw [hth.freeWords, ht.freeWords, hcs, remnant]
        simp only [List.map_append, List.map_cons, List.sum_append, List.sum_cons]
        split <;> simp <;> omega

/-- Four chunks. Two of them are the smallest with room for three words, and have one word more. -/
def fourChunksArena : Arena := ⟨#[8, 9, 0, 0, 0, 0, 0, 0, 77, 4, 14, 0, 0, 78, 4, 18, 0, 0, 2, 0]⟩

/-- The list of these chunks. -/
def fourChunks (fit : Fit) : FreeList := ⟨fit, some 0, some 18, 18⟩

theorem fourChunks_threads (fit : Fit) :
    Threads (fourChunks fit) fourChunksArena 0 20 [(0, 8), (9, 4), (14, 4), (18, 2)] where
  small := by decide
  inside := by decide
  spread := by simp [Spread]
  sized := by decide
  chain := ⟨rfl, rfl, rfl, rfl, rfl⟩
  tail := rfl
  freeWords := rfl

/-- Three words come from the first chunk under the first fit, and under the best fit the whole
second chunk is handed out, the lower one of two. -/
theorem fourChunks_serve :
    (∃ l' h', (fourChunks .first).take 3 fourChunksArena = .ok (some (0, 3), l') h' ∧
      Served (fourChunks .first) fourChunksArena 0 20
        [(0, 8), (9, 4), (14, 4), (18, 2)] 3 (0, 8) 3 l' h') ∧
    ∃ l' h', (fourChunks .best).take 3 fourChunksArena = .ok (some (9, 4), l') h' ∧
      Served (fourChunks .best) fourChunksArena 0 20 [(0, 8), (9, 4), (14, 4), (18, 2)] 3
      (9, 4) 4 l' h' := by
  have hfirst : Fit.first.Picks 3 [(0, 8), (9, 4), (14, 4), (18, 2)] (0, 8) :=
    ⟨by decide, by decide, by simp [Fit.Prefers]⟩
  have hbest : Fit.best.Picks 3 [(0, 8), (9, 4), (14, 4), (18, 2)] (9, 4) :=
    ⟨by decide, by decide, by simp [Fit.Prefers]⟩
  obtain ⟨-, -, -, h1⟩ := (fourChunks_threads .first).take_serves 3
  obtain ⟨-, -, -, h2⟩ := (fourChunks_threads .best).take_serves 3
  constructor
  · obtain ⟨c, given, l', h', hrun, hs⟩ := h1 ⟨(0, 8), by decide, by decide⟩
    obtain rfl := hs.picks.unique (fourChunks_threads .first).spread hfirst
    obtain rfl : given = 3 := hs.given_eq
    exact ⟨l', h', hrun, hs⟩
  · obtain ⟨c, given, l', h', hrun, hs⟩ := h2 ⟨(9, 4), by decide, by decide⟩
    obtain rfl := hs.picks.unique (fourChunks_threads .best).spread hbest
    obtain rfl : given = 4 := hs.given_eq
    exact ⟨l', h', hrun, hs⟩

end Reclaim
