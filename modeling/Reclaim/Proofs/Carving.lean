import Reclaim.Proofs.Chunks

/-!
# Blocks carved out of a tiled region

A tile is handed out when its block is taken from the free list and its new owner has written the
size and cleared the rest (`Arena.handOut`); it becomes free again when the block is given back. In
between nothing happens to the words of the other tiles that are handed out.

Results:
* `Tiled.take_run`: the front of a free tile is handed out, with a word too many at most.
* `Tiled.give_run`: a tile becomes free and joins its free neighbours.
-/

namespace Reclaim

/-- The arena after the owner of a block of `k` words at `a` has written the size and cleared the
rest. -/
def Arena.handOut (h : Arena) (a k : Nat) : Arena := (h.put a (UInt64.ofNat k)).zero (a + 1) (k - 1)

variable {l : FreeList} {h h' : Arena} {lo hi a k n : Nat} {ts us vs : List Tile} {t : Tile}

@[simp] theorem Arena.size_handOut : (h.handOut a k).size = h.size := by simp [handOut]

theorem Arena.word_handOut_self (hk : 1 ≤ k) (hs : a + k ≤ h.size) :
    (h.handOut a k).word a = UInt64.ofNat k := by
  rw [handOut, word_zero (by simp; omega), if_neg (by omega), word_put_self _ (by omega)]

theorem Arena.word_handOut_zero {x : Nat} (hs : a + k ≤ h.size) (h1 : a < x) (h2 : x < a + k) :
    (h.handOut a k).word x = 0 := by
  rw [handOut, word_zero (by simp; omega), if_pos (by omega)]

theorem Arena.word_handOut_ne {x : Nat} (hk : 1 ≤ k) (hs : a + k ≤ h.size)
    (hx : x < a ∨ a + k ≤ x) : (h.handOut a k).word x = h.word x := by
  rw [handOut, word_zero (by simp; omega), if_neg (by omega), word_put_ne _ (by omega)]

/-- The free tiles are sized by the list that threads them, the others by their owners. -/
theorem Threads.tiles (ht : Threads l h lo hi (freeRuns ts))
    (hs : Stacked 0 lo (ts.map Tile.run) hi)
    (hu : ∀ t ∈ ts, t.free = false → 2 ≤ t.size ∧ (h.word t.start).toNat = t.size) :
    Tiled l h lo hi ts := by
  have hall : ∀ t ∈ ts, 2 ≤ t.size ∧ (h.word t.start).toNat = t.size := by
    intro t hm
    cases hf : t.free with
    | false => exact hu t hm hf
    | true =>
      have hc : t.run ∈ freeRuns ts := List.mem_map_of_mem (List.mem_filter.mpr ⟨hm, hf⟩)
      exact ⟨(ht.spread.bounds hc).2.2, ht.sized t.run hc⟩
  exact ht.tiled ⟨ht.small, ht.inside, hs, fun t hm => (hall t hm).1, fun t hm => (hall t hm).2⟩

/-- Tiles do not depend on the words of those that are handed out, but for their sizes. -/
theorem Tiled.congr (ht : Tiled l h lo hi ts) (hsize : h'.size = h.size)
    (hfree : ∀ t ∈ ts, t.free = true → ∀ x, t.Covers x → h'.word x = h.word x)
    (hused : ∀ t ∈ ts, t.free = false → h'.word t.start = h.word t.start) :
    Tiled l h' lo hi ts := by
  refine (ht.threads.congr hsize fun c hc x h1 h2 => ?_).tiles ht.stacked fun t hm hf => ?_
  · exact hfree _ (mem_freeRuns.mp hc) rfl x ⟨h1, h2⟩
  · rw [hused t hm hf]
    exact ⟨ht.large t hm, ht.sized t hm⟩

/-- A word of a tile that is handed out lies in no chunk. -/
theorem Tiles.clear (ht : Tiles h lo hi ts) (hm : t ∈ ts) (hf : t.free = false) {x : Nat}
    (hx : t.Covers x) : Clear (freeRuns ts) x := by
  rintro ⟨c, n⟩ hc
  have hcm := mem_freeRuns.mp hc
  obtain ⟨h1, h2⟩ := hx
  rcases ht.apart hm hcm with rfl | hap | hap
  · cases hf
  · simp only at hap ⊢
    omega
  · simp only at hap ⊢
    omega

/-! ## Taking -/

/-- What remains of a free tile when `k` of its `n` words are taken. -/
def remnantTiles (a n k : Nat) : List Tile := if k < n then [⟨a + k, n - k, true⟩] else []

theorem freeRuns_remnantTiles : freeRuns (remnantTiles a n k) = remnant a n k := by
  unfold remnantTiles remnant
  split <;> rfl

theorem usedRuns_remnantTiles : usedRuns (remnantTiles a n k) = [] := by
  unfold remnantTiles
  split <;> rfl

/-- The front of a free tile is handed out. -/
def carve (us : List Tile) (a n k : Nat) (vs : List Tile) : List Tile :=
  us ++ ⟨a, k, false⟩ :: (remnantTiles a n k ++ vs)

theorem freeRuns_carve : freeRuns (carve us a n k vs) = freeRuns us ++
    (remnant a n k ++ freeRuns vs) := by
  rw [carve, freeRuns_append, freeRuns_cons_used rfl, freeRuns_append, freeRuns_remnantTiles]

theorem usedRuns_carve : usedRuns (carve us a n k vs) = usedRuns us ++ (a, k) :: usedRuns vs := by
  rw [carve, usedRuns_append, usedRuns_cons_used rfl, usedRuns_append, usedRuns_remnantTiles]
  rfl

theorem mem_carve (hm : t ∈ carve us a n k vs) : t = ⟨a, k, false⟩ ∨
    (k < n ∧ t = ⟨a + k, n - k, true⟩) ∨ t ∈ us ∨ t ∈ vs := by
  simp only [carve, remnantTiles, List.mem_append, List.mem_cons] at hm
  rcases hm with hm | hm | hm | hm
  · exact .inr (.inr (.inl hm))
  · exact .inl hm
  · split at hm
    · exact .inr (.inl ⟨‹_›, List.mem_singleton.mp hm⟩)
    · cases hm
  · exact .inr (.inr (.inr hm))

theorem stacked_carve (hs : Stacked 0 lo ((us ++ ⟨a, n, true⟩ :: vs).map Tile.run) hi) (hk : 0 < k)
    (hle : k ≤ n) :
    Stacked 0 lo ((carve us a n k vs).map Tile.run) hi := by
  rw [List.map_append, List.map_cons] at hs
  obtain ⟨mid, h1, h2, h3, h4⟩ := hs.split
  obtain rfl : a = mid := h2
  simp only [carve, List.map_append, List.map_cons]
  refine h1.append ⟨rfl, hk, ?_⟩
  unfold remnantTiles
  split
  · refine ⟨rfl, by simp only; omega, ?_⟩
    simpa [show a + k + (n - k) = a + n by omega] using h4
  · obtain rfl : k = n := by omega
    exact h4

/-- The front of a free tile is handed out, unless all free tiles are too small. One word more than
the shortest block that would do is handed out if it could not stay a tile by itself. -/
theorem Tiled.take_run (ht : Tiled l h lo hi ts) (size : Nat) :
    l.take size h = .ok (none, l) h ∨
    ∃ us a n vs k l' h', ts = us ++ ⟨a, n, true⟩ :: vs ∧ size ≤ k ∧ 2 ≤ k ∧
    k ≤ max size 2 + 1 ∧ k ≤ n ∧
      l.take size h = .ok (some (a, k), l') h' ∧
      Tiled l' (h'.handOut a k) lo hi (carve us a n k vs) ∧ h'.size = h.size ∧
      ∀ t ∈ ts, t.free = false → ∀ x, t.Covers x → (h'.handOut a k).word x = h.word x := by
  rcases ht.threads.take_run
    size with ⟨hrun, -⟩ | ⟨ps, a, n, rs, l', h', hcs, -, hsz, hrun, hth, -, hsize, hword⟩
  · exact .inl hrun
  · right
    obtain ⟨us, vs, rfl, rfl, rfl⟩ := freeRuns_split hcs
    simp only at ht
    obtain ⟨hk1, hk2, hk3⟩ : max size 2 ≤ cut n (max size 2) ∧ cut n (max size 2) ≤ n ∧
      cut n (max size 2) ≤ max size 2 + 1 := by
      rcases cut_cases hsz with h | h <;> omega
    generalize cut n (max size 2) = k at hrun hth hk1 hk2 hk3
    have htm : (⟨a, n, true⟩ : Tile) ∈ us ++ ⟨a, n, true⟩ :: vs := by simp
    have hb := ht.bounds htm
    have hin := ht.inside
    simp only at hb
    have hframe : ∀ t ∈ us ++ ⟨a, n, true⟩ :: vs, t.free = false → ∀ x, t.Covers x →
        (h'.handOut a k).word x = h.word x := by
      intro t hm hf x hx
      have hclear := ht.clear hm hf hx
      have hout := hclear (a, n) (mem_freeRuns.mpr htm)
      simp only at hout
      rw [Arena.word_handOut_ne (by omega) (by omega) (by omega), hword x hclear]
    refine ⟨us, a, n, vs, k, l', h', rfl, by omega, by omega, hk3, hk2, hrun, ?_, hsize, hframe⟩
    rw [← freeRuns_carve] at hth
    have hst := stacked_carve ht.stacked (show 0 < k by omega) hk2
    have hblock : (⟨a, k, false⟩ : Tile) ∈ carve us a n k vs := by simp [carve]
    refine Threads.tiles (hth.congr (by simp) fun c hc x h1 h2 =>
      Arena.word_handOut_ne (by omega) (by omega) ?_) hst fun t hm hf => ?_
    · rcases hst.tile_apart hblock (mem_freeRuns.mp hc) with he | hap | hap
      · cases he
      · simp only at hap
        omega
      · simp only at hap
        omega
    · have hsmall := ht.small
      have hold : t ∈ us ++ ⟨a, n, true⟩ :: vs → 2 ≤ t.size ∧
          ((h'.handOut a k).word t.start).toNat = t.size := by
        intro hm
        have hl := ht.large t hm
        rw [hframe t hm hf t.start ⟨Nat.le_refl _, by omega⟩]
        exact ⟨hl, ht.sized t hm⟩
      rcases mem_carve hm with rfl | ⟨-, rfl⟩ | hm | hm
      · exact ⟨by simp only; omega, by
          rw [Arena.word_handOut_self (by omega) (by omega), toNat_ofNat_of_lt (by omega)]⟩
      · cases hf
      · exact hold (by simp [hm])
      · exact hold (by simp [hm])

/-! ## Giving back -/

/-- The words that a tile of `n` words has when it takes in a free neighbour behind it, and the
tiles that are left. -/
def takeNext (n : Nat) : List Tile → Nat × List Tile
  | [] => (n, [])
  | v :: vs => if v.free then (n + v.size, vs) else (n, v :: vs)

/-- A tile of `n` words at `a`, between the tiles `us` and `vs`, becomes free. -/
def release (us : List Tile) (a n : Nat) (vs : List Tile) : List Tile :=
  addFree us a (takeNext n vs).1 ++ (takeNext n vs).2

theorem takeNext_cases (n : Nat) (vs : List Tile) :
    (∃ v ws, vs = v :: ws ∧ v.free = true ∧ takeNext n vs = (n + v.size, ws)) ∨
    ((∀ v ∈ vs.head?, v.free = false) ∧ takeNext n vs = (n, vs)) := by
  cases vs with
  | nil => exact .inr ⟨by simp, rfl⟩
  | cons v vs =>
    cases hf : v.free with
    | true => exact .inl ⟨v, vs, rfl, hf, if_pos hf⟩
    | false => exact .inr ⟨by simpa using hf, if_neg (by rw [hf]; decide)⟩

theorem usedRuns_release : usedRuns (release us a n vs) = usedRuns us ++ usedRuns vs := by
  have hus : usedRuns (addFree us a (takeNext n vs).1) = usedRuns us := by
    rw [usedRuns, filter_used_addFree, usedRuns]
  rw [release, usedRuns_append, hus]
  rcases takeNext_cases n vs with ⟨v, ws, rfl, hf, he⟩ | ⟨-, he⟩
  · rw [he, usedRuns_cons_free hf]
  · rw [he]

/-- A tile is joined with the next one if that one is free, and so is a chunk with the next one if
they touch. -/
theorem joinNext_freeRuns (hs : Stacked 0 (a + n) (vs.map Tile.run) hi) :
    joinNext a n (freeRuns vs) = ((takeNext n vs).1, freeRuns (takeNext n vs).2) := by
  rcases takeNext_cases n vs with ⟨v, ws, rfl, hf, he⟩ | ⟨hf, he⟩
  · have hv : v.start = a + n := hs.1
    rw [he, freeRuns_cons_free hf, Tile.run, joinNext, if_pos hv.symm]
  · rw [he]
    cases hr : freeRuns vs with
    | nil => rfl
    | cons c cs =>
      obtain ⟨c, k⟩ := c
      refine if_neg fun hc => ?_
      -- the first chunk would be the first tile, which is not free
      cases vs with
      | nil => cases hr
      | cons v vs =>
        have hvs : v.start = a + n := hs.1
        have hcm : (⟨c, k, true⟩ : Tile) ∈ v :: vs := mem_freeRuns.mp (by simp [hr])
        have hvf := hf v (by simp)
        rcases List.mem_cons.mp hcm with rfl | hcm
        · cases hvf
        · have hpos := hs.2.1
          have hb := hs.2.2.bounds (o := c) (n := k) (List.mem_map_of_mem (f := Tile.run) hcm)
          omega

theorem joinLast_freeRuns (ht : Tiles h lo a us) :
    joinLast (freeRuns us) a n = freeRuns (addFree us a n) := by
  rcases addFree_cases us a n with ⟨ws, t, rfl, hf, he⟩ | ⟨hf, he⟩
  · have hrun : freeRuns [t] = [t.run] := freeRuns_cons_free hf
    have hend := ht.last_end
    rw [he, freeRuns_append, freeRuns_append, hrun, freeRuns_cons_free (t := { t with
      size := t.size + n }) hf]
    simp [joinLast, Tile.run, hend]
  · have hrun : freeRuns [⟨a, n, true⟩] = [(a, n)] := rfl
    rw [he, freeRuns_append, hrun]
    rcases joinLast_cases (freeRuns us) a n with ⟨qs, p, k, hq, hpa, -⟩ | ⟨-, hjl⟩
    · have hpm : (⟨p, k, true⟩ : Tile) ∈ us := mem_freeRuns.mp (by simp [hq])
      have hused := hf _ (ht.getLast?_eq hpm hpa)
      cases hused
    · exact hjl

theorem stacked_addFree (hs : Stacked 0 lo (us.map Tile.run) a) (hn : 0 < n) :
    Stacked 0 lo ((addFree us a n).map Tile.run) (a + n) := by
  rcases addFree_cases us a n with ⟨ws, t, rfl, -, he⟩ | ⟨-, he⟩
  · rw [List.map_append] at hs
    obtain ⟨mid, h1, hts, hpos, hte⟩ := hs.split
    obtain rfl : t.start + t.size = a := by
      rw [show t.start = mid from hts]
      exact hte
    obtain rfl : t.start = mid := hts
    rw [he, List.map_append]
    exact h1.append ⟨rfl, Nat.lt_of_lt_of_le hpos (Nat.le_add_right _ _),
      (Nat.add_assoc _ _ _).symm⟩
  · rw [he, List.map_append]
    exact hs.append ⟨rfl, hn, rfl⟩

/-- A tile that is handed out becomes free and joins its free neighbours. -/
theorem Tiled.give_run (ht : Tiled l h lo hi (us ++ ⟨a, n, false⟩ :: vs)) :
    ∃ l' h', l.give a n h = .ok l' h' ∧ Tiled l' h' lo hi (release us a n vs) ∧ h'.size = h.size ∧
      ∀ t ∈ us ++ vs, t.free = false → ∀ x, t.Covers x → h'.word x = h.word x := by
  obtain ⟨mid, hus, htail⟩ := ht.toTiles.split
  obtain rfl : a = mid := htail.stacked.1
  obtain ⟨mid, hblock, hvs⟩ := htail.uncons
  obtain rfl : a + n = mid := hblock.stacked.2.2
  have hn : 2 ≤ n := htail.large ⟨a, n, false⟩ (by simp)
  have hth : Threads l h lo hi (freeRuns us ++ freeRuns vs) := by
    have h1 := ht.threads
    rwa [freeRuns_append, freeRuns_cons_used rfl] at h1
  obtain ⟨l', h', hrun, hth', -, hsize, hword⟩ := hth.give_run hus.stacked.le hvs.stacked.le hn
    (fun c hc => (hus.bounds (mem_freeRuns.mp hc)).2.1) fun c hc =>
      (hvs.bounds (mem_freeRuns.mp hc)).1
  have hruns : givenBack (freeRuns us) a n (freeRuns vs) = freeRuns (release us a n vs) := by
    rw [givenBack, joinNext_freeRuns hvs.stacked, joinLast_freeRuns hus, release, freeRuns_append]
  have hframe : ∀ t ∈ us ++ vs, t.free = false → ∀ x, t.Covers x → h'.word x = h.word x := by
    intro t hm hf x hx
    have hm' : t ∈ us ++ ⟨a, n, false⟩ :: vs := by
      rcases List.mem_append.mp hm with hm | hm <;> simp [hm]
    have hclear := ht.clear hm' hf hx
    rw [freeRuns_append, freeRuns_cons_used rfl] at hclear
    refine hword x hclear ?_
    obtain ⟨h1, h2⟩ := hx
    rcases List.mem_append.mp hm with hm | hm
    · have hb := hus.bounds hm
      omega
    · have hb := hvs.bounds hm
      omega
  rw [hruns] at hth'
  refine ⟨l', h', hrun, hth'.tiles ?_ fun t hm hf => ?_, hsize, hframe⟩
  · have hst : Stacked 0 (a + (takeNext n vs).1) ((takeNext n vs).2.map Tile.run) hi ∧
        0 < (takeNext n vs).1 := by
      rcases takeNext_cases n vs with ⟨v, ws, rfl, -, he⟩ | ⟨-, he⟩
      · rw [he, ← Nat.add_assoc]
        exact ⟨hvs.stacked.2.2, by omega⟩
      · rw [he]
        exact ⟨hvs.stacked, by omega⟩
    rw [release, List.map_append]
    exact (stacked_addFree hus.stacked hst.2).append hst.1
  · have hm' : t ∈ us ++ vs := by
      have hr : t.run ∈ usedRuns (release us a n vs) :=
        List.mem_map_of_mem (List.mem_filter.mpr ⟨hm, by simp [hf]⟩)
      rw [usedRuns_release, ← usedRuns_append] at hr
      have hmem := mem_usedRuns.mp hr
      rwa [← hf] at hmem
    have hm'' : t ∈ us ++ ⟨a, n, false⟩ :: vs := by
      rcases List.mem_append.mp hm' with hm | hm <;> simp [hm]
    have hl := ht.large t hm''
    rw [hframe t hm' hf t.start ⟨Nat.le_refl _, by omega⟩]
    exact ⟨hl, ht.sized t hm''⟩

/-! ## A new region -/

/-- An arena of at least two words is one free tile at first. -/
theorem tiled_ofRegion (fit : Fit) (hsmall : h.size < 0x1000000000000000) (h2 : 2 ≤ h.size) :
    (FreeList.ofRegion h.region fit h).2.size = h.size ∧
    Tiled (FreeList.ofRegion h.region fit h).1 (FreeList.ofRegion h.region fit h).2 0 h.size
    [⟨0, h.size, true⟩] := by
  have hlen : h.region.length = h.size := Region.length_ofLength _ _
  have hlimit : h.region.limit = h.size := Nat.zero_add _
  have h2' : 2 ≤ h.region.length := by omega
  obtain ⟨hsize, hth⟩ := threads_ofRegion fit hsmall h2' (by omega)
  rw [hlen, hlimit] at hth
  refine ⟨hsize, Threads.tiles hth ⟨rfl, Nat.lt_of_lt_of_le Nat.zero_lt_two h2, Nat.zero_add _⟩
    fun t ht hf => ?_⟩
  obtain rfl := List.mem_singleton.mp ht
  cases hf

end Reclaim
