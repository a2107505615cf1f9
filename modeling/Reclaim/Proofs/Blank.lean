import Reclaim.Proofs.Housed

/-!
# New blocks

A bump allocator places a new block behind the last one: a header that keeps the size and is zero
otherwise, and behind it zeroed words. `Blank` says so of the heap before and after, and the blocks
with the new one are in good order again.
-/

namespace Reclaim

/-- The words of a new block at `top`: `words` zeroes behind a header of `hd` words, which keeps the
size of the block `offset` words before the object. -/
structure Blank (hd offset : Nat) (h h' : Arena) (top words : Nat) : Prop where
  size_eq : h'.size = h.size
  outside : ∀ a, a < top ∨ top + hd + words ≤ a → h'.word a = h.word a
  size : h'.word (top + hd - offset) = UInt64.ofNat (words + hd)
  header : ∀ k, 1 ≤ k → k ≤ hd → k ≠ offset → h'.word (top + hd - k) = 0
  zero : ∀ i, i < words → h'.word (top + hd + i) = 0

namespace Blank

variable {hd offset first top words : Nat} {h h' : Arena} {blocks : List (Nat × Nat)}

/-- The header words of the blocks below stay. -/
theorem header_eq (hb : Blank hd offset h h' top words) (hs : Stacked hd first blocks top)
    {b : Nat × Nat} (hbm : b ∈ blocks) {k : Nat} (hk : k ≤ hd) :
    h'.word (b.1 - k) = h.word (b.1 - k) := by
  have hbd := hs.bounds hbm
  exact hb.outside _ (by omega)

theorem same (hb : Blank hd offset h h' top words) (hs : Stacked hd first blocks top)
    (hh : Housed hd h blocks) :
    Same (Held blocks) h h' := by
  rintro o i ⟨n, hbm⟩ hi
  have hbd := hs.bounds hbm
  have hfit := hh.fits _ hbm
  simp only at hfit
  exact hb.outside _ (by omega)

theorem sized (hb : Blank hd offset h h' top words) (hs : Stacked hd first blocks top)
    (hz : Sized offset h blocks) (hoff : offset ≤ hd) (hsmall : words + hd < 0x10000000000000000) :
    Sized offset h' (blocks ++ [(top + hd, words + hd)]) := by
  intro b hbm
  rcases List.mem_append.mp hbm with hbm | hbm
  · rw [hb.header_eq hs hbm hoff]
    exact hz b hbm
  · obtain rfl := List.mem_singleton.mp hbm
    rw [hb.size, toNat_ofNat_of_lt hsmall]

/-- A header word that is zero in all blocks is zero in the new one too. -/
theorem clean (hb : Blank hd offset h h' top words) (hs : Stacked hd first blocks top) {k : Nat}
    (h1 : 1 ≤ k) (h2 : k ≤ hd) (hne : k ≠ offset) (hz : ∀ b ∈ blocks, h.word (b.1 - k) = 0) :
    ∀ b ∈ blocks ++ [(top + hd, words + hd)], h'.word (b.1 - k) = 0 := by
  intro b hbm
  rcases List.mem_append.mp hbm with hbm | hbm
  · rw [hb.header_eq hs hbm h2]
    exact hz b hbm
  · obtain rfl := List.mem_singleton.mp hbm
    exact hb.header k h1 h2 hne

theorem housed (hb : Blank hd offset h h' top words) (hs : Stacked hd first blocks top)
    (hh : Housed hd h blocks) (hpos : 1 ≤ words) (hin : top + (words + hd) ≤ h.size) :
    Housed hd h' (blocks ++ [(top + hd, words + hd)]) := by
  refine hh.add (o := top + hd) (k := words + hd) hb.size_eq (hb.same hs hh) (fun c => by simp)
    (by omega) (by omega) (fun c hc => ?_) (hb.zero 0 (by omega))
  have hbd := hs.bounds hc
  omega

/-- The object of the new block was not there before. -/
theorem fresh (hs : Stacked hd first blocks top) : ¬ Held blocks (top + hd) := by
  rintro ⟨n, hbm⟩
  have hbd := hs.bounds hbm
  omega

end Blank

end Reclaim
