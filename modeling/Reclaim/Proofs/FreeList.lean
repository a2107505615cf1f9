import Mathlib.Data.List.Chain
import Reclaim.FreeList
import Reclaim.Proofs.Blocks

/-!
# Tiled regions

A region that is managed by a free list consists of tiles side by side, each either free or handed
out. A tile keeps its size in its first word; the free ones are threaded through their second words
in the order of their addresses. `Tiled l h lo hi ts` says that the words from `lo` up to `hi`
consist of the tiles `ts` and that `l` threads the free ones.

Results:
* `Tiled.allocated_run`: walking the region yields the tiles that are handed out.
* `Tiles.maximal`: if no two neighbours are free, the chunks are the maximal runs of words that are
  not handed out.
* `Tiled.pushBack_run`: a block behind the last tile is appended, or merged with it.
-/

namespace Reclaim

/-- A run of words that is free or handed out as a whole. -/
structure Tile where
  start : Nat
  size : Nat
  free : Bool
  deriving DecidableEq

namespace Tile

def run (t : Tile) : Nat × Nat := (t.start, t.size)

/-- The word at `a` is one of the tile. -/
def Covers (t : Tile) (a : Nat) : Prop := t.start ≤ a ∧ a < t.start + t.size

end Tile

/-- The free tiles with their lengths. -/
def freeRuns (ts : List Tile) : List (Nat × Nat) := (ts.filter Tile.free).map Tile.run

/-- The tiles that are handed out, with their lengths. -/
def usedRuns (ts : List Tile) : List (Nat × Nat) := (ts.filter fun t => !t.free).map Tile.run

section Runs

variable (t : Tile) (ts us : List Tile)

@[simp] theorem freeRuns_nil : freeRuns [] = [] := rfl
@[simp] theorem usedRuns_nil : usedRuns [] = [] := rfl
@[simp] theorem freeRuns_append : freeRuns (ts ++ us) = freeRuns ts ++ freeRuns us := by
  simp [freeRuns]
@[simp] theorem usedRuns_append : usedRuns (ts ++ us) = usedRuns ts ++ usedRuns us := by
  simp [usedRuns]

variable {t ts}

theorem freeRuns_cons_free (ht : t.free = true) : freeRuns (t :: ts) = t.run :: freeRuns ts := by
  simp [freeRuns, ht]
theorem freeRuns_cons_used (ht : t.free = false) : freeRuns (t :: ts) = freeRuns ts := by
  simp [freeRuns, ht]
theorem usedRuns_cons_free (ht : t.free = true) : usedRuns (t :: ts) = usedRuns ts := by
  simp [usedRuns, ht]
theorem usedRuns_cons_used (ht : t.free = false) : usedRuns (t :: ts) = t.run :: usedRuns ts := by
  simp [usedRuns, ht]

theorem mem_freeRuns {a n : Nat} : (a, n) ∈ freeRuns ts ↔ ⟨a, n, true⟩ ∈ ts := by
  simp only [freeRuns, List.mem_map, List.mem_filter, Tile.run, Prod.mk.injEq]
  constructor
  · rintro ⟨t, ⟨ht, hf⟩, rfl, rfl⟩
    rw [← hf]
    exact ht
  · intro ht
    exact ⟨_, ⟨ht, rfl⟩, rfl, rfl⟩

theorem mem_usedRuns {a n : Nat} : (a, n) ∈ usedRuns ts ↔ ⟨a, n, false⟩ ∈ ts := by
  simp only [usedRuns, List.mem_map, List.mem_filter, Tile.run, Prod.mk.injEq, Bool.not_eq_true']
  constructor
  · rintro ⟨t, ⟨ht, hf⟩, rfl, rfl⟩
    rw [← hf]
    exact ht
  · intro ht
    exact ⟨_, ⟨ht, rfl⟩, rfl, rfl⟩

/-- Every word is free or handed out. -/
theorem sum_runs : ((ts.map Tile.run).map Prod.snd).sum
    = ((freeRuns ts).map Prod.snd).sum + ((usedRuns ts).map Prod.snd).sum := by
  induction ts with
  | nil => rfl
  | cons t ts ih =>
    cases ht : t.free with
    | true =>
      rw [freeRuns_cons_free ht, usedRuns_cons_free ht]
      simp only [List.map_cons, List.sum_cons]
      omega
    | false =>
      rw [freeRuns_cons_used ht, usedRuns_cons_used ht]
      simp only [List.map_cons, List.sum_cons]
      omega

end Runs

/-! ## Links -/

/-- The chunk that the one at `a` links to. -/
def Arena.link (h : Arena) (a : Nat) : Option Nat :=
  if (h.word (a + 1)).toNat = 0 then none else some (h.word (a + 1)).toNat

theorem Arena.link_congr {h h' : Arena} {a : Nat} (hw : h'.word (a + 1) = h.word (a + 1)) :
    h'.link a = h.link a := by
  rw [link, link, hw]

/-- The links lead from `cur` through the chunks at `as` to `stop`. -/
def Chained (h : Arena) : Option Nat → List Nat → Option Nat → Prop
  | cur, [], stop => cur = stop
  | cur, a :: as, stop => cur = some a ∧ Chained h (h.link a) as stop

namespace Chained

variable {h h' : Arena} {cur mid stop : Option Nat} {as bs : List Nat}

theorem append (ha : Chained h cur as mid) (hb : Chained h mid bs stop) :
    Chained h cur (as ++ bs) stop := by
  induction as generalizing cur with
  | nil => cases ha; exact hb
  | cons a as ih => exact ⟨ha.1, ih ha.2⟩

theorem split (hc : Chained h cur (as ++ bs) stop) : ∃ mid, Chained h cur as mid ∧
    Chained h mid bs stop := by
  induction as generalizing cur with
  | nil => exact ⟨cur, rfl, hc⟩
  | cons a as ih =>
    obtain ⟨mid, h1, h2⟩ := ih hc.2
    exact ⟨mid, ⟨hc.1, h1⟩, h2⟩

theorem congr (hc : Chained h cur as stop) (hw : ∀ a ∈ as, h'.word (a + 1) = h.word (a + 1)) :
    Chained h' cur as stop := by
  induction as generalizing cur with
  | nil => exact hc
  | cons a as ih =>
    refine ⟨hc.1, ?_⟩
    rw [Arena.link_congr (hw a (by simp))]
    exact ih hc.2 fun b hb => hw b (by simp [hb])

end Chained

/-- The arena after `target` was made to follow the chunk `prev`. -/
def Arena.relink (h : Arena) (prev target : Option Nat) : Arena :=
  match prev with
  | some p => h.put (p + 1) (FreeList.linkWord target)
  | none => h

/-- The list after `target` was made to follow the chunk `prev`, or to head the list. -/
def FreeList.relinked (l : FreeList) (prev target : Option Nat) : FreeList :=
  match prev with
  | some _ => l
  | none => { l with head := target }

section Relink

variable {h : Arena} {l : FreeList} {prev target mid : Option Nat} {as : List Nat}

theorem FreeList.link_run (hp : ∀ p, prev = some p → p + 1 < h.size) :
    l.link prev target h = .ok (l.relinked prev target) (h.relink prev target) := by
  cases prev with
  | none => rfl
  | some p =>
    rw [FreeList.link]
    exact bind_ok (store_run (hp p rfl))

@[simp] theorem Arena.size_relink : (h.relink prev target).size = h.size := by
  cases prev <;> simp [relink]

theorem Arena.word_relink_ne {a : Nat} (hne : ∀ p, prev = some p → a ≠ p + 1) :
    (h.relink prev target).word a = h.word a := by
  cases prev with
  | none => rfl
  | some p => exact Arena.word_put_ne _ (hne p rfl)

/-- A chunk that a link can lead to. -/
def Linkable (target : Option Nat) : Prop := ∀ a, target = some a → a ≠ 0 ∧ a < 0x10000000000000000

theorem Arena.link_put {p : Nat} (hp : p + 1 < h.size) (hl : Linkable target) :
    (h.put (p + 1) (FreeList.linkWord target)).link p = target := by
  rw [link, word_put_self _ hp, FreeList.linkWord]
  cases target with
  | none => rfl
  | some a =>
    obtain ⟨h0, hlt⟩ := hl a rfl
    rw [Option.getD_some, toNat_ofNat_of_lt hlt, if_neg h0]

/-- The chunks `as` with another one behind them. -/
theorem Chained.relink (hc : Chained h l.head as mid) (hd : as.Nodup)
    (hin : ∀ a ∈ as, a + 1 < h.size) (hl : as ≠ [] → Linkable target) :
    Chained (h.relink as.getLast? target) (l.relinked as.getLast? target).head as target := by
  rcases List.eq_nil_or_concat as with rfl | ⟨bs, p, rfl⟩
  · exact rfl
  · rw [List.concat_eq_append] at hc hd hin ⊢
    rw [List.getLast?_concat]
    obtain ⟨mid', h1, h2⟩ := hc.split
    obtain rfl : mid' = some p := h2.1
    refine .append (h1.congr fun a ha => Arena.word_put_ne _ fun he => ?_) ⟨rfl, ?_⟩
    · obtain rfl : a = p := by omega
      exact (List.nodup_append.mp hd).2.2 a ha a (by simp) rfl
    · exact Arena.link_put (hin p (by simp)) (hl (by simp))

end Relink

/-! ## Tiles side by side -/

/-- The tiles `ts` fill the words from `lo` up to `hi`. -/
structure Tiles (h : Arena) (lo hi : Nat) (ts : List Tile) : Prop where
  small : h.size < 0x1000000000000000
  inside : hi ≤ h.size
  stacked : Stacked 0 lo (ts.map Tile.run) hi
  large : ∀ t ∈ ts, 2 ≤ t.size
  sized : ∀ t ∈ ts, (h.word t.start).toNat = t.size

/-- The tiles `ts` fill the words from `lo` up to `hi`, and `l` threads the free ones. -/
structure Tiled (l : FreeList) (h : Arena) (lo hi : Nat) (ts : List Tile) :
    Prop extends Tiles h lo hi ts where
  chain : Chained h l.head ((freeRuns ts).map Prod.fst) none
  tail : l.tail = (freeRuns ts).getLast?.map Prod.fst
  freeWords : l.freeWords = ((freeRuns ts).map Prod.snd).sum

variable {l : FreeList} {h h' : Arena} {lo hi : Nat} {ts us : List Tile} {t u : Tile}

/-- Two tiles are the same one or do not overlap. -/
theorem Stacked.tile_apart (hs : Stacked 0 lo (ts.map Tile.run) hi) (hm : t ∈ ts) (hu : u ∈ ts) :
    t = u ∨ t.start + t.size ≤ u.start ∨ u.start + u.size ≤ t.start := by
  induction ts generalizing lo with
  | nil => cases hm
  | cons v ts ih =>
    have hv : v.start = lo := hs.1
    have hrest : Stacked 0 (lo + v.size) (ts.map Tile.run) hi := hs.2.2
    rcases List.mem_cons.mp hm with rfl | htm <;> rcases List.mem_cons.mp hu with rfl | hum
    · exact .inl rfl
    · have hb := hrest.bounds (o := u.start) (n := u.size) (List.mem_map_of_mem hum)
      omega
    · have hb := hrest.bounds (o := t.start) (n := t.size) (List.mem_map_of_mem htm)
      omega
    · exact ih hrest htm hum

namespace Tiles

theorem bounds (ht : Tiles h lo hi ts) (hm : t ∈ ts) : lo ≤ t.start ∧ t.start + t.size ≤ hi ∧
    2 ≤ t.size := by
  have hb := ht.stacked.bounds (o := t.start) (n := t.size) (List.mem_map_of_mem hm)
  have hl := ht.large t hm
  omega

theorem apart (ht : Tiles h lo hi ts) (hm : t ∈ ts) (hu : u ∈ ts) :
    t = u ∨ t.start + t.size ≤ u.start ∨ u.start + u.size ≤ t.start :=
  ht.stacked.tile_apart hm hu

/-- A tile is known by its address. -/
theorem eq_of_start (ht : Tiles h lo hi ts) (hm : t ∈ ts) (hu : u ∈ ts)
    (he : t.start = u.start) : t = u := by
  have h1 := ht.large t hm
  have h2 := ht.large u hu
  rcases ht.apart hm hu with hap | hap | hap
  · exact hap
  · omega
  · omega

/-- The tiles are as they were while their sizes are. -/
theorem congr (ht : Tiles h lo hi ts) (hsize : h'.size = h.size)
    (hw : ∀ t ∈ ts, h'.word t.start = h.word t.start) :
    Tiles h' lo hi ts where
  small := by rw [hsize]; exact ht.small
  inside := by rw [hsize]; exact ht.inside
  stacked := ht.stacked
  large := ht.large
  sized t hm := by rw [hw t hm]; exact ht.sized t hm

theorem split (ht : Tiles h lo hi (ts ++ us)) : ∃ mid, Tiles h lo mid ts ∧ Tiles h mid hi us := by
  have hs := ht.stacked
  rw [List.map_append] at hs
  obtain ⟨mid, h1, h2⟩ := hs.split
  have hle := h2.le
  have hin := ht.inside
  exact ⟨mid, ⟨ht.small, by omega, h1, fun t hm => ht.large t (by simp [hm]),
    fun t hm => ht.sized t (by simp [hm])⟩,
    ⟨ht.small, hin, h2, fun t hm => ht.large t (by simp [hm]),
      fun t hm => ht.sized t (by simp [hm])⟩⟩

/-- The first tile and the others. -/
theorem uncons (ht : Tiles h lo hi (t :: ts)) : ∃ mid, Tiles h lo mid [t] ∧ Tiles h mid hi ts := by
  have hs : Tiles h lo hi ([t] ++ ts) := ht
  exact hs.split

theorem last_end (ht : Tiles h lo hi (ts ++ [t])) : t.start + t.size = hi := by
  obtain ⟨mid, -, h2⟩ := ht.split
  obtain rfl : t.start = mid := h2.stacked.1
  exact h2.stacked.2.2

/-- The tile that ends where the region ends is the last one. -/
theorem getLast?_eq (ht : Tiles h lo hi ts) (hm : t ∈ ts) (he : t.start + t.size = hi) :
    ts.getLast? = some t := by
  rcases List.eq_nil_or_concat ts with rfl | ⟨us, v, rfl⟩
  · cases hm
  · rw [List.concat_eq_append] at ht hm ⊢
    have hv := ht.last_end
    have h1 := ht.large t hm
    have h2 := ht.large v (by simp)
    rcases ht.apart hm (u := v) (by simp) with rfl | hap | hap
    · exact List.getLast?_concat
    · omega
    · omega

theorem append {mid : Nat} (ht : Tiles h lo mid ts) (hu : Tiles h mid hi us) :
    Tiles h lo hi (ts ++ us) where
  small := ht.small
  inside := hu.inside
  stacked := by
    rw [List.map_append]
    exact ht.stacked.append hu.stacked
  large t hm := (List.mem_append.mp hm).elim (ht.large t) (hu.large t)
  sized t hm := (List.mem_append.mp hm).elim (ht.sized t) (hu.sized t)

theorem singleton {a n : Nat} {free : Bool} (hsmall : h.size < 0x1000000000000000) (hn : 2 ≤ n)
    (hs : a + n ≤ h.size) (hw : (h.word a).toNat = n) : Tiles h a (a + n) [⟨a, n, free⟩] where
  small := hsmall
  inside := hs
  stacked := ⟨rfl, Nat.lt_of_lt_of_le Nat.zero_lt_two hn, rfl⟩
  large t hm := by
    obtain rfl := List.mem_singleton.mp hm
    exact hn
  sized t hm := by
    obtain rfl := List.mem_singleton.mp hm
    exact hw

end Tiles

/-! ## Maximal runs -/

/-- The runs `cs` are the maximal runs of words in `F`, in the order of their addresses. -/
structure MaximalRuns (F : Nat → Prop) (cs : List (Nat × Nat)) : Prop where
  sorted : cs.Pairwise fun c d => c.1 < d.1
  run : ∀ c ∈ cs, 0 < c.2 ∧ ∀ a, c.1 ≤ a → a < c.1 + c.2 → F a
  maximal : ∀ c ∈ cs, ¬ F (c.1 + c.2) ∧ ∀ a, a + 1 = c.1 → ¬ F a
  cover : ∀ a, F a → ∃ c ∈ cs, c.1 ≤ a ∧ a < c.1 + c.2

/-- No two neighbours are free. -/
def Merged (ts : List Tile) : Prop := ts.IsChain fun t u => t.free = false ∨ u.free = false

/-- The word at `a` lies between `lo` and `hi` and is not handed out. -/
def IsFree (lo hi : Nat) (ts : List Tile) (a : Nat) : Prop :=
  lo ≤ a ∧ a < hi ∧ ∀ t ∈ ts, t.free = false → ¬ t.Covers a

namespace Tiles

/-- Every word of the region is one of a tile. -/
theorem exists_covers (ht : Tiles h lo hi ts) {a : Nat} (h1 : lo ≤ a) (h2 : a < hi) : ∃ t ∈ ts,
    t.Covers a := by
  induction ts generalizing lo with
  | nil =>
    have he : lo = hi := ht.stacked
    omega
  | cons t ts ih =>
    obtain ⟨mid, h3, hrest⟩ := ht.uncons
    have hs : t.start = lo := h3.stacked.1
    have he : lo + t.size = mid := h3.stacked.2.2
    by_cases ha : a < mid
    · exact ⟨t, by simp, by omega, by omega⟩
    · obtain ⟨u, hu, hc⟩ := ih hrest (by omega)
      exact ⟨u, by simp [hu], hc⟩

/-- A word is one of a single tile. -/
theorem eq_of_covers (ht : Tiles h lo hi ts) {a : Nat} (hm : t ∈ ts) (hu : u ∈ ts)
    (hta : t.Covers a) (hua : u.Covers a) :
    t = u := by
  obtain ⟨h1, h2⟩ := hta
  obtain ⟨h3, h4⟩ := hua
  rcases ht.apart hm hu with hap | hap | hap
  · exact hap
  · omega
  · omega

/-- Of two tiles that touch, one is handed out. -/
theorem touching (ht : Tiles h lo hi ts) (hmg : Merged ts) (hm : t ∈ ts) (hu : u ∈ ts)
    (he : t.start + t.size = u.start) :
    t.free = false ∨ u.free = false := by
  induction ts generalizing lo with
  | nil => cases hm
  | cons v ts ih =>
    obtain ⟨mid, hv, hrest⟩ := ht.uncons
    have hvs : v.start = lo := hv.stacked.1
    have hve : lo + v.size = mid := hv.stacked.2.2
    have hun := ht.large u hu
    rcases List.mem_cons.mp hm with rfl | htm <;> rcases List.mem_cons.mp hu with rfl | hum
    · omega
    · cases ts with
      | nil => cases hum
      | cons w ts =>
        have hws : w.start = mid := hrest.stacked.1
        obtain rfl : u = w := hrest.eq_of_start hum (by simp) (by omega)
        exact (List.isChain_cons_cons.mp hmg).1
    · have hb := hrest.bounds htm
      omega
    · exact ih hrest hmg.tail htm hum

/-- If no two neighbours are free, the chunks are the maximal runs of words that are not handed
out. -/
theorem maximal (ht : Tiles h lo hi ts) (hmg : Merged ts) :
    MaximalRuns (IsFree lo hi ts) (freeRuns ts) where
  sorted := by
    have hsub : (freeRuns ts).Sublist (ts.map Tile.run) := List.filter_sublist.map Tile.run
    exact ht.stacked.sorted.sublist hsub
  run := by
    rintro ⟨s, n⟩ hc
    have hm := mem_freeRuns.mp hc
    have hb := ht.bounds hm
    simp only at hb ⊢
    refine ⟨by omega, fun a h1 h2 => ⟨by omega, by omega, fun u hu hf hua => ?_⟩⟩
    have he := ht.eq_of_covers hm hu ⟨h1, h2⟩ hua
    rw [← he] at hf
    cases hf
  maximal := by
    rintro ⟨s, n⟩ hc
    have hm := mem_freeRuns.mp hc
    have hb := ht.bounds hm
    simp only at hb ⊢
    -- a free word next to the chunk belongs to a free tile that touches it
    refine ⟨fun hF => ?_, fun a ha hF => ?_⟩
    · obtain ⟨u, hu, hua⟩ := ht.exists_covers hF.1 hF.2.1
      have hns := hF.2.2 u hu
      obtain ⟨h1, h2⟩ := id hua
      have he : s + n = u.start := by
        rcases ht.apart hm hu with rfl | hap | hap
        · simp only at h2
          omega
        · simp only at hap
          omega
        · simp only at hap
          omega
      rcases ht.touching hmg hm hu he with hf | hf
      · cases hf
      · exact hns hf hua
    · obtain ⟨u, hu, hua⟩ := ht.exists_covers hF.1 hF.2.1
      have hns := hF.2.2 u hu
      obtain ⟨h1, h2⟩ := id hua
      have he : u.start + u.size = s := by
        rcases ht.apart hm hu with rfl | hap | hap
        · simp only at h1
          omega
        · simp only at hap
          omega
        · simp only at hap
          omega
      rcases ht.touching hmg hu hm he with hf | hf
      · exact hns hf hua
      · cases hf
  cover := by
    intro a hF
    obtain ⟨u, hu, hua⟩ := ht.exists_covers hF.1 hF.2.1
    refine ⟨u.run, List.mem_map_of_mem (List.mem_filter.mpr ⟨hu, ?_⟩), hua⟩
    cases hf : u.free with
    | true => rfl
    | false => exact absurd hua (hF.2.2 u hu hf)

end Tiles

/-! ## Readers -/

theorem chunkSize_run {a : Nat} (ha : a < h.size) :
    FreeList.chunkSize a h = .ok (h.word a).toNat := loadNat_run ha

theorem chunkNext_run {a : Nat} (ha : a + 1 < h.size) : FreeList.chunkNext a h = .ok (h.link a) :=
  read_bind (loadNat_run ha)

theorem writeChunk_run {a n : Nat} {next : Option Nat} (ha : a + 1 < h.size) :
    FreeList.writeChunk a n next h
    = .ok () ((h.put a (UInt64.ofNat n)).put (a + 1) (FreeList.linkWord next)) := by
  rw [FreeList.writeChunk, bind_ok (store_run (by omega))]
  exact store_run (by simpa using ha)

theorem allocatedFrom_run {n : Nat} {cur : Option Nat} (ht : Tiles h lo hi ts)
    (hc : Chained h cur ((freeRuns ts).map Prod.fst) none) (hn : ts.length < n) :
    FreeList.allocatedFrom hi n lo cur h = .ok (usedRuns ts) := by
  induction ts generalizing lo n cur with
  | nil =>
    obtain ⟨n, rfl⟩ : ∃ k, n = k + 1 := ⟨n - 1, by omega⟩
    obtain rfl : lo = hi := ht.stacked
    simp only [FreeList.allocatedFrom, Nat.lt_irrefl, if_false]
    rfl
  | cons t ts ih =>
    obtain ⟨n, rfl⟩ : ∃ k, n = k + 1 := ⟨n - 1, by simp only [List.length_cons] at hn; omega⟩
    simp only [List.length_cons] at hn
    obtain rfl : t.start = lo := ht.stacked.1
    obtain ⟨mid, h1, hrest⟩ := ht.uncons
    obtain rfl : t.start + t.size = mid := h1.stacked.2.2
    have hb := ht.bounds (t := t) (by simp)
    have hin := ht.inside
    have hz := ht.sized t (by simp)
    simp only [FreeList.allocatedFrom]
    rw [if_pos (by omega), read_bind (loadNat_run (by omega)), hz, if_neg (by omega)]
    cases hf : t.free with
    | true =>
      rw [freeRuns_cons_free hf] at hc
      obtain ⟨rfl, hc : Chained h (h.link t.start) _ none⟩ := hc
      rw [usedRuns_cons_free hf]
      simp only [Tile.run]
      rw [read_bind (chunkNext_run (by omega)),
        read_bind (chunkSize_run (by omega)), pure_bind, if_pos trivial]
      exact ih hrest hc (by omega)
    | false =>
      rw [freeRuns_cons_used hf] at hc
      -- the next chunk, if there is one, lies above
      have hcur : ∀ a, cur = some a → t.start < a ∧ a + 1 < h.size := by
        intro a ha
        cases hr : freeRuns ts with
        | nil =>
          rw [hr] at hc
          cases hc
          cases ha
        | cons c cs =>
          rw [hr] at hc
          obtain ⟨hca, -⟩ := hc
          rw [ha] at hca
          cases hca
          have hm : (c.1, c.2) ∈ freeRuns ts := by simp [hr]
          have hcb := hrest.bounds (mem_freeRuns.mp hm)
          simp only at hcb
          omega
      rw [usedRuns_cons_used hf]
      cases hcase : cur with
      | none =>
        dsimp only
        rw [pure_bind, if_neg (by simp), read_bind (ih hrest (hcase ▸ hc) (by omega))]
        rfl
      | some a =>
        have ha := hcur a hcase
        have hne : some a ≠ some t.start := by
          intro he
          cases he
          omega
        dsimp only
        rw [read_bind (chunkNext_run ha.2),
          read_bind (chunkSize_run (by omega)), pure_bind, if_neg hne,
          read_bind (ih hrest (hcase ▸ hc) (by omega))]
        rfl

/-! ## Appending -/

/-- The tiles `ts` and behind them `n` free words, which begin at `a`. -/
def addFree (ts : List Tile) (a n : Nat) : List Tile :=
  match ts.getLast? with
  | some t =>
    if t.free then ts.dropLast ++ [{ t with size := t.size + n }] else ts ++ [⟨a, n, true⟩]
  | none => [⟨a, n, true⟩]

section AddFree

variable {a n : Nat}

/-- The free words join a free tile, or else become one. -/
theorem addFree_cases (ts : List Tile) (a n : Nat) :
    (∃ us t, ts = us ++ [t] ∧ t.free = true ∧ addFree ts a n = us ++ [{ t with
      size := t.size + n }]) ∨
    ((∀ t ∈ ts.getLast?, t.free = false) ∧ addFree ts a n = ts ++ [⟨a, n, true⟩]) := by
  rcases List.eq_nil_or_concat ts with rfl | ⟨us, t, rfl⟩
  · exact .inr ⟨by simp, rfl⟩
  · cases hf : t.free with
    | true => exact .inl ⟨us, t, by simp, hf, by simp [addFree, hf]⟩
    | false => exact .inr ⟨by simp [hf], by simp [addFree, hf]⟩

theorem filter_used_addFree : (addFree ts a n).filter (fun t => !t.free) = ts.filter
    fun t => !t.free := by
  rcases addFree_cases ts a n with ⟨us, t, rfl, hf, he⟩ | ⟨-, he⟩
  · rw [he]
    simp [hf]
  · rw [he]
    simp

theorem Merged.addFree (hm : Merged ts) (a n : Nat) : Merged (addFree ts a n) := by
  rcases addFree_cases ts a n with ⟨us, t, rfl, hf, he⟩ | ⟨hf, he⟩
  · rw [he]
    obtain ⟨h1, -, h3⟩ := List.isChain_append.mp hm
    exact List.isChain_append.mpr ⟨h1, by simp, by simpa using h3⟩
  · rw [he]
    exact List.isChain_append.mpr ⟨hm, by simp, fun t ht _ _ => .inl (hf t ht)⟩

theorem Merged.snoc_used (hm : Merged ts) (hu : u.free = false) : Merged (ts ++ [u]) := by
  refine List.isChain_append.mpr ⟨hm, by simp, fun t _ v hv => ?_⟩
  obtain rfl : u = v := by simpa using hv
  exact .inr hu

end AddFree

namespace Tiled

/-- Walking the region yields the tiles that are handed out. -/
theorem allocated_run (ht : Tiled l h lo hi ts) : l.allocated ⟨lo, hi⟩ h = .ok (usedRuns ts) := by
  have hlen := ht.stacked.length_le
  rw [List.length_map] at hlen
  exact allocatedFrom_run ht.toTiles ht.chain (by simp only [Region.length]; omega)

/-- A tile that is handed out behind the last one. -/
theorem snoc_used {mid : Nat} (ht : Tiled l h lo mid ts) (hu : Tiles h mid hi [u])
    (hf : u.free = false) :
    Tiled l h lo hi (ts ++ [u]) := by
  have hruns : freeRuns (ts ++ [u]) = freeRuns ts := by simp [freeRuns, hf]
  exact ⟨ht.append hu, by rw [hruns]; exact ht.chain, by rw [hruns]; exact ht.tail, by
    rw [hruns]; exact ht.freeWords⟩

theorem chunk_bounds (ht : Tiled l h lo hi ts) {c : Nat × Nat} (hc : c ∈ freeRuns ts) :
    lo ≤ c.1 ∧ c.1 + c.2 ≤ hi ∧ 2 ≤ c.2 := ht.bounds (mem_freeRuns.mp hc)

/-- The last chunk is a free tile. -/
theorem tail_mem (ht : Tiled l h lo hi ts) {p : Nat} (hp : l.tail = some p) : ∃ k,
    ⟨p, k, true⟩ ∈ ts := by
  rw [ht.tail] at hp
  obtain ⟨⟨p, k⟩, hc, rfl⟩ := Option.map_eq_some_iff.mp hp
  exact ⟨k, mem_freeRuns.mp (List.mem_of_getLast? hc)⟩

/-- Lengthening the last tile, which is free. -/
theorem lengthen (ht : Tiled l h lo hi (us ++ [t])) (hf : t.free = true) {n : Nat}
    (hs : hi + n ≤ h.size) :
    Tiled { l with
      freeWords := l.freeWords + n } (h.put t.start (UInt64.ofNat (t.size + n))) lo (hi + n)
      (us ++ [{ t with size := t.size + n }]) := by
  obtain ⟨mid, h1, h2⟩ := ht.toTiles.split
  obtain rfl : t.start = mid := h2.stacked.1
  have he : t.start + t.size = hi := h2.stacked.2.2
  have hn := h2.large t (by simp)
  have hsmall := ht.small
  have hruns : freeRuns (us ++ [t]) = freeRuns us ++ [t.run] := by simp [freeRuns, hf]
  have hruns' : freeRuns (us ++ [{ t with
      size := t.size + n }]) = freeRuns us ++ [(t.start, t.size + n)] := by
    simp [freeRuns, hf, Tile.run]
  have hchain := ht.chain
  have htail := ht.tail
  have hwords := ht.freeWords
  rw [hruns] at hchain htail hwords
  have hold : Tiles (h.put t.start (UInt64.ofNat (t.size + n))) lo t.start us := by
    refine h1.congr (by simp) fun u hu => Arena.word_put_ne _ ?_
    have hb := h1.bounds hu
    omega
  have hnew : Tiles (h.put t.start (UInt64.ofNat (t.size + n))) t.start (t.start + (t.size + n))
      [⟨t.start, t.size + n, t.free⟩] := by
    refine .singleton (by simpa using hsmall) (by omega) (by simp; omega) ?_
    rw [Arena.word_put_self _ (by omega), toNat_ofNat_of_lt (by omega)]
  rw [show hi + n = t.start + (t.size + n) by omega]
  refine ⟨hold.append hnew, ?_, ?_, ?_⟩
  · rw [hruns']
    simp only [List.map_append, List.map_cons, List.map_nil] at hchain ⊢
    refine Chained.congr hchain fun a ha => Arena.word_put_ne _ ?_
    rcases List.mem_append.mp ha with ha | ha
    · obtain ⟨c, hc, rfl⟩ := List.mem_map.mp ha
      have hb := h1.bounds (mem_freeRuns.mp hc)
      simp only at hb
      omega
    · obtain rfl : a = t.start := by simpa [Tile.run] using ha
      omega
  · rw [hruns']
    simpa [Tile.run] using htail
  · rw [hruns']
    simp only [hwords, List.map_append,
      List.sum_append, List.map_cons, List.map_nil, List.sum_cons, List.sum_nil, Tile.run]
    omega

theorem starts_nodup (ht : Tiles h lo hi ts) : ((freeRuns ts).map Prod.fst).Nodup := by
  have hsub : (freeRuns ts).Sublist (ts.map Tile.run) := List.filter_sublist.map Tile.run
  exact ht.stacked.nodup.sublist (hsub.map Prod.fst)

/-- A free tile behind the last one. -/
theorem attach (ht : Tiled l h lo hi ts) {n : Nat} (hn : 2 ≤ n) (hs : hi + n ≤ h.size) :
    Tiled { l.relinked l.tail (some hi) with tail := some hi, freeWords := l.freeWords + n }
      (((h.put hi (UInt64.ofNat n)).put (hi + 1) (FreeList.linkWord none)).relink
        l.tail (some hi)) lo (hi + n)
      (ts ++ [⟨hi, n, true⟩]) := by
  have hsmall := ht.small
  have hruns : freeRuns (ts ++ [⟨hi, n, true⟩]) = freeRuns ts ++ [(hi, n)] := by
    simp [freeRuns, Tile.run]
  have htail : l.tail = ((freeRuns ts).map Prod.fst).getLast? := by
    rw [List.getLast?_map]; exact ht.tail
  have hstart : ∀ a ∈ (freeRuns ts).map Prod.fst, a + 1 < hi := by
    intro a ha
    obtain ⟨c, hc, rfl⟩ := List.mem_map.mp ha
    have hb := ht.chunk_bounds hc
    omega
  have hlast : ∀ p, l.tail = some p → p + 1 < hi :=
    fun p hp => hstart p (List.mem_of_getLast? (htail ▸ hp))
  -- the sizes of the tiles before it stay
  have hword : ∀ a, a < hi → (∀ p, l.tail = some p → a ≠ p + 1) →
      (((h.put hi (UInt64.ofNat n)).put (hi + 1) (FreeList.linkWord none)).relink
        l.tail (some hi)).word a = h.word a := by
    intro a ha hne
    rw [Arena.word_relink_ne hne, Arena.word_put_ne _ (by omega), Arena.word_put_ne _ (by omega)]
  have hold : Tiles (((h.put hi (UInt64.ofNat n)).put (hi + 1) (FreeList.linkWord none)).relink
      l.tail (some hi)) lo hi ts := by
    refine ht.congr (by simp) fun u hu => hword _ ?_ fun p hp he => ?_
    · have hb := ht.bounds hu
      omega
    · obtain ⟨c, hc, rfl⟩ := List.mem_map.mp (List.mem_of_getLast? (htail ▸ hp))
      have hcm := mem_freeRuns.mp hc
      have hcb := ht.chunk_bounds hc
      rcases ht.apart hu hcm with rfl | hap | hap
      · simp only at he
        omega
      · simp only at hap
        omega
      · simp only at hap
        omega
  have hnew : Tiles (((h.put hi (UInt64.ofNat n)).put (hi + 1) (FreeList.linkWord none)).relink
    l.tail (some hi)) hi (hi + n)
      [⟨hi, n, true⟩] := by
    refine .singleton (by simpa using hsmall) hn (by simpa using hs) ?_
    rw [Arena.word_relink_ne fun p hp => by have := hlast p hp; omega,
      Arena.word_put_ne _ (by omega),
      Arena.word_put_self _ (by omega), toNat_ofNat_of_lt (by omega)]
  refine ⟨hold.append hnew, ?_, by rw [hruns, List.getLast?_concat]; rfl, ?_⟩
  · rw [hruns, List.map_append, htail]
    have hchain : Chained ((h.put hi (UInt64.ofNat n)).put (hi + 1) (FreeList.linkWord none)) l.head
      ((freeRuns ts).map Prod.fst)
        none := by
      refine ht.chain.congr fun a ha => ?_
      have hb := hstart a ha
      rw [Arena.word_put_ne _ (by omega), Arena.word_put_ne _ (by omega)]
    refine Chained.append (hchain.relink (starts_nodup ht.toTiles) (fun a ha => ?_)
      fun hne a ha => ?_) ⟨rfl, ?_⟩
    · have hb := hstart a ha
      simp only [Arena.size_put]
      omega
    · cases ha
      obtain ⟨b, hb⟩ := List.exists_mem_of_ne_nil _ hne
      have hlt := hstart b hb
      omega
    · have hlink : (h.put hi (UInt64.ofNat n)).size = h.size := by simp
      rw [Arena.link_congr (Arena.word_relink_ne fun p hp => by
        have := hlast p (htail.trans hp)
        omega)]
      exact Arena.link_put (by omega) fun a ha => by cases ha
  · rw [hruns, ht.freeWords, List.map_append, List.sum_append]
    simp

/-- A block behind the last tile is appended, or merged with it. -/
theorem pushBack_run (ht : Tiled l h lo hi ts) {n : Nat} (hn : 2 ≤ n) (hs : hi + n ≤ h.size) :
    ∃ l' h', l.pushBack hi n h = .ok l' h' ∧ Tiled l' h' lo (hi + n) (addFree ts hi n) ∧
    l'.fit = l.fit ∧ h'.size = h.size ∧
      ∀ a, (∀ t ∈ ts, t.free = true → ¬ t.Covers a) → a < hi ∨ hi + n ≤ a →
      h'.word a = h.word a := by
  rcases addFree_cases ts hi n with ⟨us, t, rfl, hf, he⟩ | ⟨hf, he⟩
  · rw [he]
    refine ⟨_, _, ?_, ht.lengthen hf hs, rfl, by simp,
      fun a ha _ => Arena.word_put_ne _ fun hat => ?_⟩
    · have htail : l.tail = some t.start := by
        rw [ht.tail, show freeRuns (us ++ [t]) = freeRuns us ++ [t.run] by simp [freeRuns, hf],
          List.getLast?_concat]
        rfl
      have hb := ht.bounds (t := t) (by simp)
      have hend := ht.toTiles.last_end
      have hz := ht.sized t (by simp)
      unfold FreeList.pushBack
      simp only [htail]
      rw [bind_ok (read_heap (chunkSize_run (by omega))), hz]
      simp only [hend, if_true, pure_bind]
      exact bind_ok (store_run (by omega))
    · have hl := ht.large t (by simp)
      exact ha t (by simp) hf ⟨by omega, by omega⟩
  · rw [he]
    have hrun : l.pushBack hi n h = (do
        FreeList.writeChunk hi n none
        let l ← { l with freeWords := l.freeWords + n }.link l.tail (some hi)
        return { l with tail := some hi } : HeapM FreeList) h := by
      unfold FreeList.pushBack
      cases htail : l.tail with
      | none => rfl
      | some p =>
        obtain ⟨k, hk⟩ := ht.tail_mem htail
        have hb := ht.bounds hk
        have hin := ht.inside
        have hz := ht.sized _ hk
        simp only at hb hz
        have hne : p + k ≠ hi := by
          intro hend
          have hused := hf _ (ht.toTiles.getLast?_eq hk hend)
          cases hused
        simp only
        rw [bind_ok (read_heap (chunkSize_run (by omega))), hz]
        simp only [hne, if_false, pure_bind]
    refine ⟨_, _, ?_, ht.attach hn hs, by cases l.tail <;> rfl, by simp, fun a ha hout => ?_⟩
    · have hlast : ∀ p, l.tail = some p →
          p + 1 < ((h.put hi (UInt64.ofNat n)).put (hi + 1) (FreeList.linkWord none)).size := by
        intro p hp
        obtain ⟨k, hk⟩ := ht.tail_mem hp
        have hb := ht.bounds hk
        have hin := ht.inside
        simp only [Arena.size_put] at hb ⊢
        omega
      rw [hrun, bind_ok (writeChunk_run (by omega)), bind_ok (FreeList.link_run hlast)]
      cases l.tail <;> rfl
    · rw [Arena.word_relink_ne fun p hp he => ?_, Arena.word_put_ne _ (by omega),
        Arena.word_put_ne _ (by omega)]
      obtain ⟨k, hk⟩ := ht.tail_mem hp
      have hl := ht.large _ hk
      simp only at hl
      exact ha _ hk rfl ⟨by simp only; omega, by simp only; omega⟩

end Tiled

end Reclaim
