import Mathlib.Algebra.GroupWithZero.Nat
import Reclaim.Proofs.Words

/-!
# Blocks side by side

A bump allocator hands out blocks one after the other. `Stacked hd lo bs hi` says that the blocks of
`bs` fill the words from `lo` up to `hi` in this order and without a gap, each with a header of `hd`
words in front of its object. It speaks of addresses alone; `Sized` adds that each header keeps the
size of its block, and then the blocks can be found by walking (`blocksFrom_run`).
-/

namespace Reclaim

/-- Blocks, each given by its object and its size, that fill the words from `lo` up to `hi`. -/
def Stacked (hd : Nat) : Nat → List (Nat × Nat) → Nat → Prop
  | lo, [], hi => lo = hi
  | lo, (o, n) :: bs, hi => o = lo + hd ∧ hd < n ∧ Stacked hd (lo + n) bs hi

namespace Stacked

variable {hd lo mid hi o n o' n' : Nat} {bs cs : List (Nat × Nat)}

theorem append (hb : Stacked hd lo bs mid) (hc : Stacked hd mid cs hi) :
    Stacked hd lo (bs ++ cs) hi := by
  induction bs generalizing lo with
  | nil => cases hb; exact hc
  | cons b bs ih => exact ⟨hb.1, hb.2.1, ih hb.2.2⟩

theorem split (h : Stacked hd lo (bs ++ cs) hi) : ∃ mid, Stacked hd lo bs mid ∧
    Stacked hd mid cs hi := by
  induction bs generalizing lo with
  | nil => exact ⟨lo, rfl, h⟩
  | cons b bs ih =>
    obtain ⟨mid, h1, h2⟩ := ih h.2.2
    exact ⟨mid, ⟨h.1, h.2.1, h1⟩, h2⟩

theorem snoc (hb : Stacked hd lo bs hi) (hn : hd < n) :
    Stacked hd lo (bs ++ [(hi + hd, n)]) (hi + n) :=
  hb.append ⟨rfl, hn, rfl⟩

theorem le (h : Stacked hd lo bs hi) : lo ≤ hi := by
  induction bs generalizing lo with
  | nil => exact Nat.le_of_eq h
  | cons b bs ih => have := ih h.2.2; omega

theorem length_le (h : Stacked hd lo bs hi) : lo + bs.length ≤ hi := by
  induction bs generalizing lo with
  | nil => exact Nat.le_of_eq h
  | cons b bs ih =>
    have hlen := ih h.2.2
    have hn := h.2.1
    simp only [List.length_cons]
    omega

/-- A block lies inside the range that the blocks fill. -/
theorem bounds (h : Stacked hd lo bs hi) (hm : (o, n) ∈ bs) : lo + hd ≤ o ∧
    o + n ≤ hi + hd ∧ hd < n := by
  induction bs generalizing lo with
  | nil => cases hm
  | cons b bs ih =>
    have hle := h.2.2.le
    rcases List.mem_cons.mp hm with rfl | hm
    · have h1 := h.1
      have h2 := h.2.1
      omega
    · have hb := ih h.2.2 hm
      omega

/-- Two blocks are the same one or do not overlap. -/
theorem apart (h : Stacked hd lo bs hi) (hm : (o, n) ∈ bs) (hm' : (o', n') ∈ bs) :
    (o = o' ∧ n = n') ∨ o + n ≤ o' ∨ o' + n' ≤ o := by
  induction bs generalizing lo with
  | nil => cases hm
  | cons b bs ih =>
    have h1 := h.1
    rcases List.mem_cons.mp hm with rfl | hr <;> rcases List.mem_cons.mp hm' with he | hr'
    · cases he; exact .inl ⟨rfl, rfl⟩
    · have hb := h.2.2.bounds hr'
      omega
    · subst he
      have hb := h.2.2.bounds hr
      omega
    · exact ih h.2.2 hr hr'

/-- The blocks stand in the order of their addresses. -/
theorem sorted (h : Stacked hd lo bs hi) : bs.Pairwise fun b c => b.1 < c.1 := by
  induction bs generalizing lo with
  | nil => exact .nil
  | cons b bs ih =>
    refine List.pairwise_cons.mpr ⟨?_, ih h.2.2⟩
    intro c hc
    have hb := h.2.2.bounds hc
    have h1 := h.1
    have h2 := h.2.1
    omega

/-- The blocks end where their sizes add up to. -/
theorem end_eq (h : Stacked hd lo bs hi) : hi = lo + (bs.map Prod.snd).sum := by
  induction bs generalizing lo with
  | nil => exact h.symm
  | cons b bs ih =>
    have hrest := ih h.2.2
    simp only [List.map_cons, List.sum_cons]
    omega

theorem end_unique {hi' : Nat} (h : Stacked hd lo bs hi)
    (h' : Stacked hd lo bs hi') : hi = hi' := by
  induction bs generalizing lo with
  | nil => exact h.symm.trans h'
  | cons b bs ih => exact ih h.2.2 h'.2.2

theorem eq_nil (h : Stacked hd lo bs lo) : bs = [] := by
  have hlen := h.length_le
  exact List.eq_nil_of_length_eq_zero (by omega)

theorem size_unique (h : Stacked hd lo bs hi) (hm : (o, n) ∈ bs) (hm' : (o, n') ∈ bs) : n = n' := by
  have hb := h.bounds hm
  have hb' := h.bounds hm'
  rcases h.apart hm hm' with he | he | he <;> omega

theorem nodup (h : Stacked hd lo bs hi) : (bs.map Prod.fst).Nodup := by
  induction bs generalizing lo with
  | nil => exact .nil
  | cons b bs ih =>
    refine List.nodup_cons.mpr ⟨?_, ih h.2.2⟩
    intro hm
    obtain ⟨⟨o, n⟩, hm, he⟩ := List.mem_map.mp hm
    have hb := h.2.2.bounds hm
    have h1 := h.1
    have h2 := h.2.1
    simp only at he
    omega

end Stacked

/-- The header of each block keeps its size, `offset` words before the object. -/
def Sized (offset : Nat) (h : Arena) (bs : List (Nat × Nat)) :
    Prop := ∀ b ∈ bs, (h.word (b.1 - offset)).toNat = b.2

/-- The blocks of a filled range are found by walking. -/
theorem blocksFrom_run {hd offset lo hi fuel : Nat} {bs : List (Nat × Nat)} {h : Arena}
    (hb : Stacked hd lo bs hi) (hz : Sized offset h bs) (hoff : offset ≤ hd) (hpos : 1 ≤ offset)
    (hs : hi ≤ h.size) (hf : bs.length < fuel) :
    blocksFrom hd offset hi fuel lo h = .ok bs := by
  induction bs generalizing lo fuel with
  | nil =>
    obtain ⟨fuel, rfl⟩ : ∃ k, fuel = k + 1 := ⟨fuel - 1, by omega⟩
    cases hb
    simp only [blocksFrom, Nat.lt_irrefl, if_false]
    rfl
  | cons b bs ih =>
    obtain ⟨o, n⟩ := b
    simp only [List.length_cons] at hf
    obtain ⟨fuel, rfl⟩ : ∃ k, fuel = k + 1 := ⟨fuel - 1, by omega⟩
    obtain ⟨rfl, hn, hrest⟩ := hb
    have hle := hrest.le
    have hw : (h.word (lo + hd - offset)).toNat = n := hz (lo + hd, n) (by simp)
    simp only [blocksFrom]
    rw [if_pos (by omega), read_bind (loadHeader_run (by omega) (by omega)), hw,
      read_bind (ih hrest (fun b hb => hz b (List.mem_cons_of_mem _ hb)) (by omega))]
    rfl

theorem blocksOf_run {hd offset : Nat} {bs : List (Nat × Nat)} {h : Arena} {b : Bump}
    (hb : Stacked hd b.region.first bs b.top) (hz : Sized offset h bs) (hoff : offset ≤ hd)
    (hpos : 1 ≤ offset) (hs : b.top ≤ h.size) : blocksOf hd offset b h = .ok bs := by
  have hlen := hb.length_le
  exact blocksFrom_run hb hz hoff hpos hs (by simp only [Bump.used]; omega)

end Reclaim
