import Reclaim.Sliding
import Reclaim.Proofs.Compaction
import Reclaim.Proofs.Marking

/-!
# Sliding collection

What a whole collection does to a space that is filled with blocks: what the roots reach is moved
together at the bottom of the space, in its old order, and every reference to it is redirected; the
rest is gone. Four passes share the header words, and the proof follows them: marks (`Inv.claims`),
new addresses (`prepare`), references (`Prepared.ready`) and moves (`slideAll_runs`).

Results:
* `collect_records`: a collection that fails has only left marks.
* `collect_runs`: a collection that ends leaves what `Compacted` says; it fails if the mark stack
  overflows or if the roots reach something that is no object.
* `collect_packs_reachable`: the addresses, the words and the top afterwards.
-/

namespace Reclaim.Sliding

/-- The layout of a header: the size first, then the new address, then the mark. -/
def header : Header := ⟨3, 3, 2⟩

theorem header_distinct : header.Distinct := ⟨by decide, by decide, by decide, by decide, by decide⟩

@[simp] theorem header_words : header.words = 3 := rfl
@[simp] theorem header_size : header.size = 3 := rfl
@[simp] theorem header_forward : header.forward = 2 := rfl

/-- The state between collections: unmarked blocks fill the space up to its top, and the roots refer
to objects of `S` alone, which lie in these blocks and refer to each other. -/
structure Inv (m : Machine Sliding) (blocks : List (Nat × Nat)) (S : Nat → Prop) : Prop where
  small : m.heap.size < 0x1000000000000000
  top_le : m.own.space.top ≤ m.own.space.region.limit
  inside : m.own.space.region.limit ≤ m.heap.size
  stacked : Stacked 3 m.own.space.region.first blocks m.own.space.top
  sized : Sized 3 m.heap blocks
  unforwarded : ∀ b ∈ blocks, m.heap.word (b.1 - 2) = 0
  unmarked : ∀ b ∈ blocks, m.heap.word (b.1 - 1) = 0
  placed : ∀ o, S o → ∃ n, (o, n) ∈ blocks ∧ 3 + m.heap.payload o ≤ n
  linked : Linked m.heap S
  roots : m.roots.Within S

/-- What a collection relies on, whatever the words for the new addresses hold: unmarked blocks fill
the space, and the roots refer to objects of `S` alone, which lie in these blocks and refer to each
other. -/
structure Filled (m : Machine Sliding) (blocks : List (Nat × Nat)) (S : Nat → Prop) : Prop where
  small : m.heap.size < 0x1000000000000000
  top_le : m.own.space.top ≤ m.own.space.region.limit
  inside : m.own.space.region.limit ≤ m.heap.size
  stacked : Stacked 3 m.own.space.region.first blocks m.own.space.top
  sized : Sized 3 m.heap blocks
  unmarked : ∀ b ∈ blocks, m.heap.word (b.1 - 1) = 0
  placed : ∀ o, S o → ∃ n, (o, n) ∈ blocks ∧ 3 + m.heap.payload o ≤ n
  linked : Linked m.heap S
  roots : m.roots.Within S

variable {m₀ m : Machine Sliding} {blocks : List (Nat × Nat)} {S : Nat → Prop} {ms : List Nat}

theorem Inv.filled (hi : Inv m₀ blocks S) : Filled m₀ blocks S :=
  ⟨hi.small, hi.top_le, hi.inside, hi.stacked, hi.sized, hi.unmarked, hi.placed,
    hi.linked, hi.roots⟩

namespace Filled

theorem block_inside (hi : Filled m₀ blocks S) {b : Nat × Nat} (hb : b ∈ blocks) :
    3 ≤ b.1 ∧ b.1 + b.2 ≤ m₀.heap.size + 3 ∧ 3 < b.2 := by
  have h1 := hi.stacked.bounds hb
  have h2 := hi.top_le
  have h3 := hi.inside
  omega

theorem block_apart (hi : Filled m₀ blocks S) {b c : Nat × Nat} (hb : b ∈ blocks)
    (hc : c ∈ blocks) :
    b = c ∨ b.1 + b.2 ≤ c.1 ∨ c.1 + c.2 ≤ b.1 :=
  (hi.stacked.apart hb hc).imp (fun h => Prod.ext h.1 h.2) id

/-- The blocks are what is listed. -/
theorem objects (hi : Filled m₀ blocks S) : Sliding.objects m₀.own m₀.heap = .ok blocks :=
  blocksOf_run hi.stacked hi.sized (by decide) (by decide) (Nat.le_trans hi.top_le hi.inside)

end Filled

/-! ## Marks -/

theorem blockSize_run {h : Arena} {o : Nat} (h3 : 3 ≤ o) (hs : o - 3 < h.size) :
    blockSize o h = .ok (h.word (o - 3)).toNat :=
  read_bind (loadHeader_run h3 hs)

theorem forwarding_run {h : Arena} {o : Nat} (h2 : 2 ≤ o) (hs : o - 2 < h.size) :
    forwardingAt forwardOffset o h
    = .ok (if (h.word (o - 2)).toNat = 0 then none else some (h.word (o - 2)).toNat) :=
  forwardingAt_run h2 hs

theorem isMarked_run {h : Arena} {o : Nat} (h1 : 1 ≤ o) (hs : o - 1 < h.size) :
    isMarked o h = .ok (h.word (o - 1) != 0) :=
  read_bind (loadHeader_run h1 hs)

theorem claim_flags : Marking.Flags (σ := Sliding) claim (· != 0) (fun _ => 1) where
  test_mark _ := rfl
  seen m o h1 hs ht := by
    rw [claim, bind_ok (read_lift (isMarked_run h1 hs)), ht]
    rfl
  fresh m o h1 hs ht := by
    have hset : storeHeader o markOffset 1 m.heap = .ok () (m.heap.put (o - 1) 1) :=
      storeHeader_run h1 hs
    rw [claim, bind_ok (read_lift (isMarked_run h1 hs)), ht]
    simp only [Bool.false_eq_true, if_false]
    rw [bind_ok (heap_lift hset)]
    rfl

/-- Exactly the objects `ms` are marked, and nothing else has changed since `m₀`. -/
def Marked (m₀ : Machine Sliding) (S : Nat → Prop) (m : Machine Sliding) (ms : List Nat) : Prop :=
  Marking.InHeaders (fun _ => 1) m₀ S m ms

theorem Filled.spaced (hi : Filled m₀ blocks S) : Marking.Spaced m₀.heap S (· ∈ blocks) :=
  ⟨hi.block_inside, hi.block_apart, hi.placed⟩

theorem Filled.claims (hi : Filled m₀ blocks S) : Marking.Claims claim m₀.heap S (Marked m₀ S) := by
  refine claim_flags.claims hi.spaced hi.linked fun b hb => ?_
  rw [hi.unmarked b hb]
  rfl

/-! ## What is found -/

/-- The objects that a collection finds. -/
structure Found (m₀ : Machine Sliding) (blocks : List (Nat × Nat)) (S : Nat → Prop)
    (ms : List Nat) : Prop where
  inv : Filled m₀ blocks S
  reach : ∀ o, o ∈ ms ↔ Reach m₀.heap m₀.roots.Refers o
  known : ∀ o ∈ ms, m₀.heap.tag o ≠ none

/-- The marked objects with their new places. -/
def moves (m₀ : Machine Sliding) (blocks : List (Nat × Nat)) (ms : List Nat) : List Copy :=
  targets 3 m₀.own.space.region.first (marked ms blocks)

namespace Found

theorem valid (hf : Found m₀ blocks S ms) {o : Nat} (ho : o ∈ ms) : S o :=
  ((hf.reach o).mp ho).mem_of_linked hf.inv.linked fun _ h => hf.inv.roots.refers h

theorem closed (hf : Found m₀ blocks S ms) : Closed m₀.heap (· ∈ ms) := by
  have hl := hf.inv.linked.reach fun _ h => hf.inv.roots.refers h
  exact ⟨hf.known, fun o a ho ht ha => (hl o a ((hf.reach o).mp ho) ht ha).mono
    fun c hc => (hf.reach c).mpr hc⟩

theorem roots (hf : Found m₀ blocks S ms) : m₀.roots.Within (· ∈ ms) := by
  intro slot v hv c hc
  exact ⟨(hf.inv.roots slot v hv c hc).1, (hf.reach c).mpr (.root ⟨slot, v, hv, hc⟩)⟩

/-- A marked object lies in a marked block. -/
theorem block (hf : Found m₀ blocks S ms) {o : Nat} (ho : o ∈ ms) :
    ∃ n, (o, n) ∈ marked ms blocks ∧ 3 + m₀.heap.payload o ≤ n := by
  obtain ⟨n, hb, hfit⟩ := hf.inv.placed o (hf.valid ho)
  exact ⟨n, mem_marked.mpr ⟨hb, ho⟩, hfit⟩

theorem apart (hf : Found m₀ blocks S ms) : Apart 3 m₀.heap (· ∈ ms) := by
  refine ⟨hf.closed, fun o ho => ?_, fun o o' ho ho' => ?_⟩
  · obtain ⟨n, hb, hfit⟩ := hf.block ho
    have hin := hf.inv.block_inside (mem_marked.mp hb).1
    simp only at hin
    omega
  · obtain ⟨n, hb, hfit⟩ := hf.block ho
    obtain ⟨n', hb', hfit'⟩ := hf.block ho'
    rcases hf.inv.block_apart (mem_marked.mp hb).1 (mem_marked.mp hb').1 with h | h | h
    · exact .inl (congrArg Prod.fst h)
    · exact .inr (.inl (by simp only at h; omega))
    · exact .inr (.inr (by simp only at h; omega))

/-- A word of a block is `k` words before a marked object only if it belongs to the header of that
object. -/
theorem not_header (hf : Found m₀ blocks S ms) {b : Nat × Nat} (hb : b ∈ blocks) {a k : Nat}
    (hk : k = 1 ∨ k = 2) (h1 : b.1 ≤ a + 3) (h2 : a + 3 < b.1 + b.2) (hne : a + k ≠ b.1) :
    a + k ∉ ms := by
  intro hmem
  obtain ⟨n, hc, -⟩ := hf.inv.placed _ (hf.valid hmem)
  have hcin := hf.inv.block_inside hc
  simp only at hcin
  rcases hf.inv.block_apart hb hc with rfl | h | h
  · exact hne rfl
  · simp only at h; omega
  · simp only at h; omega

theorem sorted (hf : Found m₀ blocks S ms) : (marked ms blocks).Pairwise fun b c => b.1 < c.1 :=
  hf.inv.stacked.sorted.sublist List.filter_sublist

theorem nodup (hf : Found m₀ blocks S ms) : ((marked ms blocks).map Prod.fst).Nodup :=
  hf.inv.stacked.nodup.sublist (List.Sublist.map _ List.filter_sublist)

theorem slides (hf : Found m₀ blocks S ms) :
    ∃ top, Slides 3 m₀.own.space.region.first m₀.own.space.region.first (moves m₀ blocks ms) top ∧
    top ≤ m₀.own.space.top :=
  slides_targets hf.inv.stacked (List.filter_sublist : (marked ms blocks).Sublist blocks)
    (Nat.le_refl _)

/-- A move is one of a marked object, downwards. -/
theorem mem_moves (hf : Found m₀ blocks S ms) {p : Copy} (hp : p ∈ moves m₀ blocks ms) :
    (p.old, p.size) ∈ blocks ∧ p.old ∈ ms ∧ 3 ≤ p.new ∧ p.new ≤ p.old := by
  obtain ⟨hb, hm⟩ := mem_marked.mp (mem_targets hp)
  obtain ⟨top, hsl, -⟩ := hf.slides
  have hmem := hsl.mem hp
  exact ⟨hb, hm, by omega, hmem.2.2.1⟩

theorem relocate_old (hf : Found m₀ blocks S ms) {p : Copy} (hp : p ∈ moves m₀ blocks ms) :
    relocate (moves m₀ blocks ms) p.old = p.new :=
  relocate_of_mem hp fun _ hq he => target_unique hf.nodup hp hq he

/-- A marked object is moved. -/
theorem move (hf : Found m₀ blocks S ms) {o : Nat} (ho : o ∈ ms) :
    ∃ p ∈ moves m₀ blocks ms, p.old = o ∧ relocate (moves m₀ blocks ms) o = p.new ∧
    3 + m₀.heap.payload o ≤ p.size := by
  obtain ⟨n, hb, hfit⟩ := hf.block ho
  obtain ⟨p, hp, rfl, rfl⟩ : ∃ p ∈ moves m₀ blocks ms, p.old = o ∧ p.size = n := exists_target hb
  exact ⟨p, hp, rfl, hf.relocate_old hp, hfit⟩

end Found

/-! ## New addresses -/

/-- The heap when the objects `ms` are marked and their new addresses are noted. -/
structure Prepared (m₀ : Machine Sliding) (blocks : List (Nat × Nat)) (ms : List Nat)
    (h : Arena) : Prop where
  size_eq : h.size = m₀.heap.size
  forward : ∀ p ∈ moves m₀ blocks ms, h.word (p.old - 2) = UInt64.ofNat p.new
  other : ∀ b ∈ blocks, ∀ a, b.1 ≤ a + 3 → a + 3 < b.1 + b.2 → a + 1 ≠ b.1 → a + 2 ≠ b.1 →
    h.word a = m₀.heap.word a

theorem Marked.word (hf : Found m₀ blocks S ms) (hm : Marked m₀ S m ms) {b : Nat × Nat}
    (hb : b ∈ blocks) {a : Nat} (h1 : b.1 ≤ a + 3) (h2 : a + 3 < b.1 + b.2) (h3 : a + 1 ≠ b.1) :
    m.heap.word a = m₀.heap.word a :=
  hm.other a (hf.not_header hb (.inl rfl) h1 h2 h3)

theorem Marked.sized (hf : Found m₀ blocks S ms) (hm : Marked m₀ S m ms) :
    Sized 3 m.heap blocks := by
  intro b hb
  have hin := hf.inv.block_inside hb
  rw [hm.word hf hb (by omega) (by omega) (by omega)]
  exact hf.inv.sized b hb

/-- The marked objects are found by walking. -/
theorem live_run (hf : Found m₀ blocks S ms) (hm : Marked m₀ S m ms) :
    Sliding.objects m₀.own m.heap = .ok blocks ∧
      (blocks.map Prod.fst).filterM (fun obj => (liftM (isMarked obj) : GcM Sliding Bool)) m
        = .ok ((marked ms blocks).map Prod.fst) m := by
  have hsize := hm.size_eq
  have htop := Nat.le_trans hf.inv.top_le hf.inv.inside
  refine ⟨blocksOf_run hf.inv.stacked (hm.sized hf) (by decide) (by decide) (by omega), ?_⟩
  have hmark : ∀ o ∈ blocks.map Prod.fst, (liftM (isMarked o) : GcM Sliding Bool) m =
      .ok (decide (o ∈ ms)) m := by
    intro o ho
    obtain ⟨b, hb, rfl⟩ := List.mem_map.mp ho
    have hin := hf.inv.block_inside hb
    have hclean : (m₀.heap.word (b.1 - 1) != 0) = false := by
      rw [hf.inv.unmarked b hb]
      rfl
    have htest : (m.heap.word (b.1 - 1) != 0) = decide (b.1 ∈ ms) :=
      hm.test_eq claim_flags (by omega) hclean
    refine read_lift ?_
    rw [isMarked_run (by omega) (by omega), htest]
  rw [filterM_ok hmark, marked, List.filter_map]
  rfl

theorem prepare (hf : Found m₀ blocks S ms) (hm : Marked m₀ S m ms) :
    ∃ top, assign m₀.own.space.region.first ((marked ms blocks).map Prod.fst) m.heap
        = .ok top (noted 2 m.heap (moves m₀ blocks ms)) ∧
      Stacked 3 m₀.own.space.region.first ((moves m₀ blocks ms).map Copy.block) top ∧
      Prepared m₀ blocks ms (noted 2 m.heap (moves m₀ blocks ms)) := by
  have hsize := hm.size_eq
  have hin : ∀ b ∈ marked ms blocks, 3 ≤ b.1 ∧ b.1 + b.2 ≤ m₀.heap.size + 3 ∧ 3 < b.2 := fun b hb =>
    hf.inv.block_inside (mem_marked.mp hb).1
  obtain ⟨top, hrun, hst⟩ := assign_noted (L := header) (h := m.heap)
    (show ∀ top h, assign top [] h = .ok top h from fun _ _ => rfl)
    (fun top o os h h1 h2 => by
      simp only [header_words, header_size, header_forward] at h1 ⊢
      have hfwd : storeHeader o forwardOffset (UInt64.ofNat (top + headerWords)) h
          = .ok () (h.put (o - 2) (UInt64.ofNat (top + 3))) :=
            storeHeader_run (Nat.le_of_succ_le h1) (by
            show o - 2 < h.size
            omega)
      have hsz : blockSize o (h.put (o - 2) (UInt64.ofNat (top + 3)))
          = .ok ((h.put (o - 2) (UInt64.ofNat (top + 3))).word (o - 3)).toNat :=
        blockSize_run h1 (by simp; omega)
      rw [assign, bind_ok hfwd, bind_ok (read_heap hsz)])
    m₀.own.space.region.first (fun b hb => hm.sized hf b (mem_marked.mp hb).1)
    (fun b hb => by
      have := hin b hb
      simp only [header_words]
      omega)
    (fun b hb c hc => by
      have h1 := hin b hb
      have h2 := hin c hc
      simp only [header_size, header_forward]
      rcases hf.inv.block_apart (mem_marked.mp hb).1
        (mem_marked.mp hc).1 with rfl | h | h <;> omega)
  refine ⟨top, hrun, hst, by rw [size_noted, hsize], fun p hp => ?_, fun b hb a h1 h2 h3 h4 => ?_⟩
  · have hpin := hin _ (mem_targets hp)
    simp only at hpin
    refine word_noted hp (by omega) fun q hq he => ?_
    have hqin := hin _ (mem_targets hq)
    simp only at hqin
    exact target_unique hf.nodup hp hq (by omega)
  · rw [word_noted_of_ne, hm.word hf hb h1 h2 h3]
    intro p hp he
    obtain ⟨hbo, hpm, -, -⟩ := hf.mem_moves hp
    have hpin := hf.inv.block_inside hbo
    simp only at hpin
    have ha : a + 2 = p.old := by omega
    exact hf.not_header hb (.inr rfl) h1 h2 h4 (ha ▸ hpm)

/-! ## References -/

section Redirect

variable {h h' : Arena}

theorem Prepared.payload (hf : Found m₀ blocks S ms) (hp : Prepared m₀ blocks ms h) {o i : Nat}
    (ho : o ∈ ms) (hlt : i < m₀.heap.payload o) : h.word (o + i) = m₀.heap.word (o + i) := by
  obtain ⟨n, hb, hfit⟩ := hf.block ho
  exact hp.other _ (mem_marked.mp hb).1 _ (by simp only; omega) (by simp only; omega)
    (by simp only; omega) (by simp only; omega)

theorem Prepared.apart (hf : Found m₀ blocks S ms) (hp : Prepared m₀ blocks ms h) :
    Apart 3 h (· ∈ ms) :=
  hf.apart.congr hp.size_eq fun _ _ ho hlt => hp.payload hf ho hlt

/-- The headers tell where each marked object goes. -/
theorem Prepared.redirection (hf : Found m₀ blocks S ms) (hp : Prepared m₀ blocks ms h) {o : Nat}
    (ho : o ∈ ms) :
    redirection 2 h o = relocate (moves m₀ blocks ms) o := by
  obtain ⟨p, hpm, rfl, hnew, -⟩ := hf.move ho
  obtain ⟨hbo, -, h1, h2⟩ := hf.mem_moves hpm
  have hin := hf.inv.block_inside hbo
  have hsmall := hf.inv.small
  simp only at hin
  have hnat : (h.word (p.old - 2)).toNat = p.new := by
    rw [hp.forward p hpm, toNat_ofNat_of_lt (by omega)]
  rw [Reclaim.redirection, hnat, if_neg (by omega), hnew]

/-- The heap when all references are redirected and the objects are still to be moved. -/
structure Ready (m₀ : Machine Sliding) (blocks : List (Nat × Nat)) (ms : List Nat)
    (h : Arena) : Prop where
  size_eq : h.size = m₀.heap.size
  forward : ∀ p ∈ moves m₀ blocks ms, h.word (p.old - 2) = UInt64.ofNat p.new
  size : ∀ b ∈ blocks, h.word (b.1 - 3) = m₀.heap.word (b.1 - 3)
  visited : ∀ b ∈ marked ms blocks, ∀ i, i + 3 < b.2 → h.word (b.1 + i)
    = if m₀.heap.tag b.1 = some .pair ∧ (i = 1 ∨ i = 2) then
        ((m₀.heap.value (b.1 + i)).rename (relocate (moves m₀ blocks ms))).bits
      else m₀.heap.word (b.1 + i)

theorem Prepared.ready (hf : Found m₀ blocks S ms) (hp : Prepared m₀ blocks ms h)
    (hr : Redirected h (relocate (moves m₀ blocks ms)) h' ((marked ms blocks).map Prod.fst)) :
    Ready m₀ blocks ms h' := by
  have hlive : ∀ o, o ∈ (marked ms blocks).map Prod.fst → o ∈ ms := fun o ho => mem_of_marked ho
  have htag : ∀ o ∈ ms, h.tag o = m₀.heap.tag o := fun o ho =>
    Arena.tag_congr (hp.payload hf (i := 0) ho (Arena.payload_pos (hf.known o ho)))
  -- only the fields of marked pairs are redirected
  have hother : ∀ b ∈ blocks, ∀ a, b.1 ≤ a + 3 → a + 3 < b.1 + b.2 →
      ¬ (b.1 ∈ ms ∧ m₀.heap.tag b.1 = some .pair ∧ (a = b.1 + 1 ∨ a = b.1 + 2)) →
        h'.word a = h.word a := by
    intro b hb a h1 h2 hn
    refine hr.other a fun o ho ht => ?_
    have hom := hlive o ho
    rw [htag o hom] at ht
    obtain ⟨n, hc, hfit⟩ := hf.block hom
    rw [Arena.payload_of_pair ht] at hfit
    rcases hf.inv.block_apart hb (mem_marked.mp hc).1 with rfl | h | h
    · refine ⟨fun he => hn ⟨hom, ht, .inl he⟩, fun he => hn ⟨hom, ht, .inr he⟩⟩
    · simp only at h; omega
    · simp only at h; omega
  refine ⟨hr.size_eq.trans hp.size_eq, fun p hpm => ?_, fun b hb => ?_, fun b hb i hlt => ?_⟩
  · obtain ⟨hbo, -, -, -⟩ := hf.mem_moves hpm
    have hin := hf.inv.block_inside hbo
    rw [hother _ hbo _ (by simp only; omega) (by simp only at hin ⊢; omega)
      (by simp only at hin ⊢; omega)]
    exact hp.forward p hpm
  · have hin := hf.inv.block_inside hb
    rw [hother b hb _ (by omega) (by omega) (by omega)]
    exact hp.other b hb _ (by omega) (by omega) (by omega) (by omega)
  · obtain ⟨hbb, hbm⟩ := mem_marked.mp hb
    split
    · rename_i hfield
      have hval : h.value (b.1 + i) = m₀.heap.value (b.1 + i) :=
        Arena.value_congr (hp.other b hbb _ (by omega) (by omega) (by omega) (by omega))
      have hnew := hr.field b.1 (List.mem_map_of_mem hb)
        (by rw [htag _ hbm]; exact hfield.1) i hfield.2
      rw [hval] at hnew
      exact congrArg Value.bits hnew
    · rename_i hfield
      rw [hother b hbb _ (by omega) (by omega) fun hc => hfield ⟨hc.2.1, by omega⟩]
      exact hp.other b hbb _ (by omega) (by omega) (by omega) (by omega)

end Redirect

/-! ## Moves -/

/-- The heap after one object was moved and its marks were cleared. -/
def slid (h : Arena) (p : Copy) : Arena :=
  ((h.copy (p.old - 3) (p.new - 3) p.size).put (p.new - 2) 0).put (p.new - 1) 0

section Slide

variable {h : Arena} {p : Copy}

theorem slid_slid (h1 : 3 ≤ p.new) (h2 : p.new ≤ p.old) (h3 : 3 < p.size)
    (h4 : p.old - 3 + p.size ≤ h.size) :
    Slid header (fun _ => 0) h (slid h p) p := by
  have hcopy : ∀ a, (h.copy (p.old - 3) (p.new - 3) p.size).word a
      = if p.new - 3 ≤ a ∧ a < p.new - 3 + p.size then h.word (p.old - 3 + (a - (p.new - 3)))
        else h.word a :=
    fun a => Arena.word_copy h4 (by omega)
  have hother : ∀ a, a ≠ p.new - 1 → a ≠ p.new - 2 →
      (slid h p).word a = (h.copy (p.old - 3) (p.new - 3) p.size).word a :=
    fun a ha hb => by rw [slid, Arena.word_put_ne _ ha, Arena.word_put_ne _ hb]
  refine ⟨by simp [slid], fun a ha => ?_, fun i hi => ?_, ?_, ?_, ?_⟩
  · simp only [header_words] at ha
    rw [hother a (by omega) (by omega), hcopy, if_neg (by omega)]
  · simp only [header_words] at hi
    rw [hother _ (by omega) (by omega), hcopy, if_pos (by omega)]
    congr 1
    omega
  · simp only [header_size]
    rw [hother _ (by omega) (by omega), hcopy, if_pos (by omega)]
    congr 1
    omega
  · simp only [header_forward]
    rw [slid, Arena.word_put_ne _ (by omega), Arena.word_put_self _ (by simp; omega)]
  · rw [slid, Arena.word_put_self _ (by simp; omega)]

theorem slide_run (h1 : 3 ≤ p.new) (h2 : p.new ≤ p.old) (h3 : 3 < p.size)
    (h4 : p.old - 3 + p.size ≤ h.size) (hsmall : h.size < 0x1000000000000000)
    (hfwd : h.word (p.old - 2) = UInt64.ofNat p.new) (hsz : (h.word (p.old - 3)).toNat = p.size) :
    slide p.old h = .ok () (slid h p) := by
  have hf : forwardingAt forwardOffset p.old h = .ok (some p.new) := by
    rw [forwarding_run (by omega) (by omega), hfwd, toNat_ofNat_of_lt (by omega), if_neg (by omega)]
  have hs : blockSize p.old h = .ok p.size := by rw [blockSize_run (by omega) (by omega), hsz]
  have hb1 : back p.old headerWords h = .ok (p.old - 3) := back_run (show 3 ≤ p.old by omega)
  have hb2 : back p.new headerWords h = .ok (p.new - 3) := back_run (show 3 ≤ p.new by omega)
  have hc : copyWords (p.old - 3) (p.new - 3) p.size h = .ok ()
      (h.copy (p.old - 3) (p.new - 3) p.size) :=
    copyWords_run h4 (by omega)
  have hz : storeHeader p.new forwardOffset 0 (h.copy (p.old - 3) (p.new - 3) p.size)
      = .ok () ((h.copy (p.old - 3) (p.new - 3) p.size).put (p.new - 2) 0) :=
    storeHeader_run (show 2 ≤ p.new by omega) (by show p.new - 2 < _; simp; omega)
  have hu : storeHeader p.new markOffset 0
      ((h.copy (p.old - 3) (p.new - 3) p.size).put (p.new - 2) 0) = .ok () (slid h p) :=
    storeHeader_run (show 1 ≤ p.new by omega) (by show p.new - 1 < _; simp; omega)
  rw [slide, bind_ok (read_heap hf)]
  dsimp only
  rw [bind_ok (read_heap hs), bind_ok (read_heap hb1),
    bind_ok (read_heap hb2), bind_ok hc, bind_ok hz, hu]

end Slide

/-- All marked objects are moved. -/
theorem slideAll_runs (hf : Found m₀ blocks S ms) (hr : Ready m₀ blocks ms m.heap) {top : Nat}
    (hst : Stacked 3 m₀.own.space.region.first ((moves m₀ blocks ms).map Copy.block) top)
    (E : Failure → Machine Sliding → Prop) :
    Runs (((marked ms blocks).map Prod.fst).forM
      fun obj => (liftM (slide obj) : GcM Sliding Unit)) m
      (fun _ m' => m' = m.withHeap m'.heap ∧ ∃ src,
        Shifted header (fun _ => 0) m.heap m'.heap (moves m₀ blocks ms)
          [] m₀.own.space.region.first top src top) E := by
  obtain ⟨hi, hsl, -⟩ := hf.slides
  obtain rfl : hi = top := hsl.stacked.end_unique hst
  -- `os` are the objects of the moves `rest` still to come
  let J : List Nat → Machine Sliding → Prop :=
    fun os m' => ∃ done rest lo src, os = rest.map Copy.old ∧
    moves m₀ blocks ms = done ++ rest ∧
    Shifted header (fun _ => 0) m.heap m'.heap done rest m₀.own.space.region.first lo src hi ∧
      m' = m.withHeap m'.heap
  have hstart : J ((marked ms blocks).map Prod.fst) m := by
    refine ⟨[], moves m₀ blocks ms, _, _, ?_, rfl, .start hsl, rfl⟩
    have hold := congrArg (List.map Prod.fst)
      (targets_old 3 m₀.own.space.region.first (marked ms blocks))
    rw [List.map_map] at hold
    exact hold.symm
  refine (forM_runs (J := J) ?_ hstart).mono ?_
  · rintro o os m1 ⟨done, rest, lo, src, hos, hsplit, hs, hm1⟩
    obtain ⟨p, rest, rfl, rfl, rfl⟩ : ∃ p rest', rest = p :: rest' ∧ o = p.old ∧
      os = rest'.map Copy.old := by
      cases rest with
      | nil => simp at hos
      | cons p rest' =>
        simp only [List.map_cons, List.cons.injEq] at hos
        exact ⟨p, rest', rfl, hos.1, hos.2⟩
    have hmem : p ∈ moves m₀ blocks ms := by simp [hsplit]
    obtain ⟨hbo, -, hpn, hpo⟩ := hf.mem_moves hmem
    have hin := hf.inv.block_inside hbo
    have hsize : m1.heap.size = m₀.heap.size := by rw [hs.size_eq, hr.size_eq]
    have hsmall := hf.inv.small
    simp only at hin
    have hslide : slide p.old m1.heap = .ok () (slid m1.heap p) := by
      refine slide_run hpn hpo (by omega) (by omega) (by omega) ?_ ?_
      · rw [hs.next (by simp only [header_words]; omega)]
        exact hr.forward p hmem
      · rw [hs.next (by simp only [header_words]; omega), hr.size _ hbo]
        exact hf.inv.sized _ hbo
    refine Runs.of_eq (heap_lift hslide) ⟨done ++ [p], rest, _, _, rfl, by simp [hsplit],
      hs.step header_distinct (slid_slid hpn hpo (by omega) (by omega)), ?_⟩
    rw [hm1]
    rfl
  · rintro - m' ⟨done, rest, lo, src, hos, hsplit, hs, hm'⟩
    obtain rfl : rest = [] := List.map_eq_nil_iff.mp hos.symm
    rw [List.append_nil] at hsplit
    subst hsplit
    have hlo : lo = hi := hs.slides
    subst hlo
    exact ⟨hm', src, hs⟩

/-! ## The whole collection -/

/-- What a collection that marked `ms` makes of `m`. -/
structure Compacted (m m' : Machine Sliding) (blocks : List (Nat × Nat))
    (ms : List Nat) : Prop where
  reach : ∀ o, o ∈ ms ↔ Reach m.heap m.roots.Refers o
  /-- A marked object moves down to where those below it end. -/
  address : ∀ b ∈ marked ms blocks,
    relocate (moves m blocks ms) b.1 = m.own.space.region.first + wordsBelow
      (marked ms blocks) b.1 + 3
  /-- Its fields are renamed, all its other words are kept. -/
  visited : ∀ b ∈ marked ms blocks, ∀ i, i + 3 < b.2 →
    m'.heap.word (relocate (moves m blocks ms) b.1 + i)
    = if m.heap.tag b.1 = some .pair ∧ (i = 1 ∨ i = 2) then
      ((m.heap.value (b.1 + i)).rename (relocate (moves m blocks ms))).bits
      else m.heap.word (b.1 + i)
  renamed : Renamed (relocate (moves m blocks ms)) (· ∈ ms) m.heap m'.heap
  roots : m.roots.Mapped (fun v v' => v' = v.rename (relocate (moves m blocks ms))) m'.roots
  closed : Closed m'.heap fun o' => ∃ o, o ∈ ms ∧ o' = relocate (moves m blocks ms) o
  inv : Inv m' ((moves m blocks ms).map Copy.block) fun o' => ∃ o, o ∈ ms ∧
    o' = relocate (moves m blocks ms) o
  region : m'.own.space.region = m.own.space.region
  size_eq : m'.heap.size = m.heap.size
  markCapacity : m'.own.markCapacity = m.own.markCapacity
  stress : m'.stress = m.stress
  cycles : m'.stats.collections = m.stats.collections + 1

section Outcome

variable {h h' : Arena} {top src : Nat}

/-- A word of a marked object at its new address. -/
theorem Found.word_moved (hf : Found m₀ blocks S ms) (hr : Ready m₀ blocks ms h)
    (hs : Shifted header (fun _ => 0) h h' (moves m₀ blocks ms)
      [] m₀.own.space.region.first top src top) {b : Nat × Nat} (hb : b ∈ marked ms blocks)
      {i : Nat} (hlt : i + 3 < b.2) :
    h'.word (relocate (moves m₀ blocks ms) b.1 + i) = if m₀.heap.tag b.1 = some .pair ∧
    (i = 1 ∨ i = 2) then
        ((m₀.heap.value (b.1 + i)).rename (relocate (moves m₀ blocks ms))).bits
        else m₀.heap.word (b.1 + i) := by
  obtain ⟨p, hp, hpo, hpz⟩ : ∃ p ∈ moves m₀ blocks ms, p.old = b.1 ∧ p.size = b.2 :=
    exists_target hb
  rw [← hr.visited b hb i hlt, ← hpo, hf.relocate_old hp]
  exact hs.payload p hp i (by simp only [header_words]; omega)

theorem Found.renamed (hf : Found m₀ blocks S ms) (hr : Ready m₀ blocks ms h)
    (hs : Shifted header (fun _ => 0) h h' (moves m₀ blocks ms)
      [] m₀.own.space.region.first top src top) :
    Renamed (relocate (moves m₀ blocks ms)) (· ∈ ms) m₀.heap h' := by
  obtain ⟨hi, hsl, -⟩ := hf.slides
  refine ⟨fun o o' ho ho' he => ?_, fun o i ho hlt hn => ?_, fun o i ho ht hio => ?_⟩
  · obtain ⟨p, hp, rfl, hpn, -⟩ := hf.move ho
    obtain ⟨q, hq, rfl, hqn, -⟩ := hf.move ho'
    rw [hpn, hqn] at he
    rw [hsl.eq_of_new hp hq he]
  · obtain ⟨n, hb, hfit⟩ := hf.block ho
    rw [hf.word_moved hr hs hb (by simp only; omega), if_neg hn]
  · obtain ⟨n, hb, hfit⟩ := hf.block ho
    rw [Arena.payload_of_pair ht] at hfit
    rw [Arena.value, hf.word_moved hr hs hb (by simp only; omega), if_pos ⟨ht, hio⟩]

theorem Found.named (hf : Found m₀ blocks S ms) :
    Value.Named fun o' => ∃ o, o ∈ ms ∧ o' = relocate (moves m₀ blocks ms) o := by
  rintro o' ⟨o, ho, rfl⟩
  obtain ⟨p, hp, rfl, hpn, -⟩ := hf.move ho
  obtain ⟨hbo, -, h1, h2⟩ := hf.mem_moves hp
  have hin := hf.inv.block_inside hbo
  have hsmall := hf.inv.small
  simp only at hin
  omega

/-- The space is in order again. -/
theorem Found.inv_moved (hf : Found m₀ blocks S ms) (hr : Ready m₀ blocks ms h)
    (hs : Shifted header (fun _ => 0) h m.heap (moves m₀ blocks ms)
      [] m₀.own.space.region.first top src top)
      (hst : Stacked 3 m₀.own.space.region.first ((moves m₀ blocks ms).map Copy.block) top)
      (hregion : m.own.space.region = m₀.own.space.region) (htop : m.own.space.top = top)
      (hroots : m₀.roots.Mapped
        (fun v v' => v' = v.rename (relocate (moves m₀ blocks ms))) m.roots) :
    Inv m ((moves m₀ blocks ms).map Copy.block) fun o' => ∃ o, o ∈ ms ∧
      o' = relocate (moves m₀ blocks ms) o := by
  have hsize : m.heap.size = m₀.heap.size := by rw [hs.size_eq, hr.size_eq]
  have hren := hf.renamed hr hs
  obtain ⟨hi, hsl, hle⟩ := hf.slides
  obtain rfl : hi = top := hsl.stacked.end_unique hst
  refine ⟨by rw [hsize]; exact hf.inv.small, ?_, by
    rw [hregion, hsize]; exact hf.inv.inside, ?_, ?_, ?_, ?_, ?_,
    (hren.closed hf.closed hf.named).linked, ?_⟩
  · rw [htop, hregion]
    exact Nat.le_trans hle hf.inv.top_le
  · rw [hregion, htop]
    exact hst
  · intro b hb
    obtain ⟨p, hp, rfl⟩ := List.mem_map.mp hb
    have hsz := hs.size p hp
    simp only [header_size] at hsz
    rw [Copy.block, hsz, hr.size _ (hf.mem_moves hp).1]
    exact hf.inv.sized _ (hf.mem_moves hp).1
  · intro b hb
    obtain ⟨p, hp, rfl⟩ := List.mem_map.mp hb
    exact hs.forward p hp
  · intro b hb
    obtain ⟨p, hp, rfl⟩ := List.mem_map.mp hb
    exact hs.flags p hp
  · rintro o' ⟨o, ho, rfl⟩
    obtain ⟨p, hp, rfl, hpn, hfit⟩ := hf.move ho
    refine ⟨p.size, List.mem_map.mpr ⟨p, hp, ?_⟩, ?_⟩
    · rw [hpn]
      rfl
    · rw [hren.payload hf.closed ho]
      exact hfit
  · intro slot v' hv'
    obtain ⟨v, hv, rfl⟩ := hroots.of_slot hv'
    exact Value.rename_within (hf.roots slot v hv) hf.named

end Outcome

/-- A collection ends, and records what it took out of use and what is left; or it fails in the mark
phase, before anything is moved. -/
theorem collect_records (hi : Filled m blocks S) :
    Runs collect m (fun _ m' => (∃ ms, Compacted m m' blocks ms) ∧
      m'.stats = m.stats.recordCycle .full (m.own.space.used - m'.own.space.used) m'.own.space.used)
    (fun f m' => Marking.MarkStops m.own.markCapacity m.heap m.roots.Refers f m' ∧
      Marking.Unmoved (~~~0) blocks m m') := by
  unfold collect
  refine Runs.step GcM.run_own ?_
  refine ((Marking.mark_runs hi.claims (.start _ m S) hi.roots).mono_fail ?_).bind ?_
  · rintro f m1 ⟨hf, hroots1, ms, hm1⟩
    refine ⟨hf, hm1.unmoved hroots1 (fun o ho => ?_) (fun b hb => ?_) fun w => ?_⟩
    · obtain ⟨n, hb, -⟩ := hi.placed o ho
      exact ⟨n, hb⟩
    · have hin := hi.block_inside hb
      omega
    · rw [UInt64.not_not, UInt64.and_zero, UInt64.and_zero]
  rintro - m1 ⟨hroots1, ms, hm1, -, hreach, hknown⟩
  have hf : Found m blocks S ms := ⟨hi, hreach, hknown⟩
  obtain ⟨hobjs, hlive⟩ := live_run hf hm1
  obtain ⟨top, hassign, hst, hprep⟩ := prepare hf hm1
  refine Runs.step (read_lift hobjs) (Runs.step hlive (Runs.step (heap_lift hassign) ?_))
  have hred : ∀ o ∈ ms, redirection 2 (noted 2 m1.heap (moves m blocks ms)) o = relocate
      (moves m blocks ms) o :=
    fun o ho => hprep.redirection hf ho
  refine (redirectRoots_runs (hprep.apart hf) (by decide) (by decide) hred rfl (by
    show m1.roots.Within _
    rw [hroots1]
    exact hf.roots)).bind ?_
  rintro - m2 ⟨hm2, hmap2⟩
  refine (redirectObjects_runs (hprep.apart hf) (by decide) (by decide) hred (by rw [hm2]; rfl)
    (fun o ho => mem_of_marked ho) hf.nodup).bind ?_
  rintro - m3 ⟨hm3, hr3⟩
  have hready := hprep.ready hf hr3
  refine (slideAll_runs hf hready hst _).bind ?_
  rintro - m4 ⟨hm4, src, hs4⟩
  -- nothing but heap and roots has changed so far
  have hown4 : m4.own = m.own := by rw [hm4, hm3, hm2, hm1.rest]; rfl
  have hstress : m4.stress = m.stress := by rw [hm4, hm3, hm2, hm1.rest]; rfl
  have hstats : m4.stats = m.stats := by rw [hm4, hm3, hm2, hm1.rest]; rfl
  have hroots4 : m.roots.Mapped
      (fun v v' => v' = v.rename (relocate (moves m blocks ms))) m4.roots := by
    rw [show m4.roots = m2.roots by rw [hm4, hm3]; rfl, ← hroots1]
    exact hmap2
  have hren := hf.renamed hready hs4
  refine Runs.step (GcM.run_modifyOwn _) ?_
  refine Runs.of_eq (GcM.run_recordCycle _ _ _)
    ⟨⟨ms, hreach, ?_, fun b hb i hlt => hf.word_moved hready hs4 hb hlt, hren,
    hroots4, hren.closed hf.closed hf.named,
      hf.inv_moved hready hs4 hst rfl rfl hroots4, rfl, ?_, ?_, hstress, ?_⟩, ?_⟩
  · intro b hb
    obtain ⟨p, hp, hpo, -⟩ : ∃ p ∈ moves m blocks ms, p.old = b.1 ∧ p.size = b.2 := exists_target hb
    rw [← hpo, hf.relocate_old hp]
    exact target_address hf.sorted hp
  · exact hs4.size_eq.trans hready.size_eq
  · simp only [Machine.withOwn_own, hown4]
  · simp only [Machine.withOwn_stats, hstats, Stats.recordCycle]
  · simp only [Machine.withOwn_stats, Machine.withOwn_own, hstats]

/-- A collection ends, overflows its mark stack or meets something that is no object. -/
theorem collect_runs (hi : Inv m blocks S) :
    Runs collect m (fun _ m' => ∃ ms, Compacted m m' blocks ms)
    (Marking.MarkStops m.own.markCapacity m.heap m.roots.Refers) :=
  ((collect_records hi.filled).mono fun _ _ h => h.1).mono_fail fun _ _ hf => hf.1

/-- A collection that ends has moved what the roots reach together, at the bottom of the space and
in its old order, and renamed every reference to it. -/
theorem collect_packs_reachable {m' : Machine Sliding} (hi : Inv m blocks S)
    (hrun : collect m = .ok () m') :
    ∃ ms, Compacted m m' blocks ms ∧
      objects m'.own m'.heap = .ok ((marked ms blocks).map fun b =>
        (m.own.space.region.first + wordsBelow (marked ms blocks) b.1 + 3, b.2)) ∧
      m'.own.space.top = m.own.space.region.first + ((marked ms blocks).map Prod.snd).sum := by
  obtain ⟨ms, hc⟩ := (collect_runs hi).ok hrun
  have hsorted : (marked ms blocks).Pairwise fun b c => b.1 < c.1 :=
    hi.stacked.sorted.sublist List.filter_sublist
  have hblocks : (targets 3 m.own.space.region.first (marked ms blocks)).map Copy.block
      = (marked ms blocks).map fun b =>
        (m.own.space.region.first + wordsBelow (marked ms blocks) b.1 + 3, b.2) :=
    targets_block hsorted
  refine ⟨ms, hc, ?_, ?_⟩
  · rw [← hblocks]
    exact hc.inv.filled.objects
  · have hend := hc.inv.stacked.end_eq
    rw [hc.region, moves, hblocks, List.map_map] at hend
    exact hend

/-- A pair that nothing refers to, and above it two pairs that refer to each other; the upper one is
a root. -/
def loop : Machine Sliding where
  heap := ⟨#[6, 0, 0, 2, 14, 14, 6, 0, 0, 2, 120, 14, 6, 0, 0, 2, 72, 14, 0, 0]⟩
  roots :=
    { stack := #[.ofRef 15], capacity := 4, parked := 0, globals := #[.undef], hash := fun _ => 0 }
  stress := false
  stats := {}
  own := ⟨⟨⟨0, 20⟩, 18⟩, 4⟩

theorem loop_inv : Inv loop [(3, 6), (9, 6), (15, 6)] fun o => o = 9 ∨ o = 15 where
  small := by decide
  top_le := by decide
  inside := by decide
  stacked := ⟨rfl, by decide, rfl, by decide, rfl, by decide, rfl⟩
  sized := by unfold Sized; decide
  unforwarded := by decide
  unmarked := by decide
  placed := by
    rintro o (rfl | rfl)
    · exact ⟨6, by decide, by decide⟩
    · exact ⟨6, by decide, by decide⟩
  linked := by
    have hlow : (Value.ofRef 9).Within fun o => o = 9 ∨ o = 15 :=
      Value.ofRef_within (by decide) (by decide) (.inl rfl)
    have hhigh : (Value.ofRef 15).Within fun o => o = 9 ∨ o = 15 :=
      Value.ofRef_within (by decide) (by decide) (.inr rfl)
    have hnil : Value.nil.Within fun o => o = 9 ∨ o = 15 := .of_not_ref (by decide)
    rintro o a (rfl | rfl) - (rfl | rfl)
    · exact hhigh
    · exact hnil
    · exact hlow
    · exact hnil
  roots := Roots.within_of_single rfl rfl (Value.ofRef_within (by decide) (by decide) (.inr rfl))
    (.of_not_ref (v := .undef) (by decide))

/-- The two pairs move down by one block, and the root with them. -/
theorem loop_packed : ∃ m' ms, collect loop = .ok () m' ∧ m'.roots.stack = #[.ofRef 9] ∧
    Compacted loop m' [(3, 6), (9, 6), (15, 6)] ms := by
  have hok : (match collect loop with
      | .ok _ m' => m'.roots.stack.toList == [.ofRef 9]
      | .error _ _ => false) = true := by
    decide +kernel
  cases hrun : collect loop with
  | ok a m' =>
    rw [hrun] at hok
    obtain ⟨ms, hc, -⟩ := collect_packs_reachable loop_inv hrun
    exact ⟨m', ms, rfl, Array.toList_inj.mp (eq_of_beq hok), hc⟩
  | error e m' =>
    rw [hrun] at hok
    cases hok

end Reclaim.Sliding
