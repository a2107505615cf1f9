import Mathlib.Algebra.Order.BigOperators.Group.List
import Mathlib.Algebra.Order.Group.Nat
import Mathlib.Data.List.Nodup
import Reclaim.Proofs.Blocks

/-!
# Demand for room

`Exceeds listed R room` says that the objects of `R` need more than `room` words: some blocks of the
list `listed`, no two of them the same, hold objects of `R` and take that much together. Nothing is
said about the other blocks, so `R` need not be decidable.

Results:
* `exceeds_iff`: the demand as a sum.
* `Exceeds.pull`: what was copied block by block needs no more room than its originals.
* `Stacked.not_exceeds`, `Stacked.exceeds_append`: the demand of blocks side by side is what they
  fill.
-/

namespace Reclaim

/-- The blocks of `listed` whose objects are in `R` take more than `room` words. -/
def Exceeds (listed : List (Nat × Nat)) (R : Nat → Prop) (room : Nat) : Prop :=
  ∃ bs : List (Nat × Nat), bs.Nodup ∧ (∀ b ∈ bs, b ∈ listed ∧ R b.1) ∧ room < (bs.map Prod.snd).sum

variable {listed listed' : List (Nat × Nat)} {R R' : Nat → Prop} {room room' : Nat}

/-- If each block is as large as one of those it comes from, these take no less. -/
theorem Exceeds.pull {ρ : Nat → Nat} (h : Exceeds listed' R' room')
    (hback : ∀ b ∈ listed', R' b.1 → ∃ o, (o, b.2) ∈ listed ∧ R o ∧ ρ o = b.1)
    (hroom : room ≤ room') :
    Exceeds listed R room := by
  obtain ⟨bs, hnd, hbs, hsum⟩ := h
  have hsrc : ∀ b, ∃ o, b ∈ bs → (o, b.2) ∈ listed ∧ R o ∧ ρ o = b.1 := by
    intro b
    by_cases hb : b ∈ bs
    · obtain ⟨o, ho⟩ := hback b (hbs b hb).1 (hbs b hb).2
      exact ⟨o, fun _ => ho⟩
    · exact ⟨0, fun h => absurd h hb⟩
  choose src hsrc using hsrc
  refine ⟨bs.map fun b => (src b, b.2), List.Nodup.map_on
    (fun b hb c hc hbc => ?_) hnd, fun x hx => ?_, ?_⟩
  · -- the block that a source was taken for is its image
    obtain ⟨hs, hn⟩ := Prod.mk.inj hbc
    exact Prod.ext (by rw [← (hsrc b hb).2.2, ← (hsrc c hc).2.2, hs]) hn
  · obtain ⟨b, hb, rfl⟩ := List.mem_map.mp hx
    exact ⟨(hsrc b hb).1, (hsrc b hb).2.1⟩
  · rw [List.map_map]
    exact Nat.lt_of_le_of_lt hroom hsum

theorem Exceeds.mono (h : Exceeds listed R room) (hR : ∀ b ∈ listed, R b.1 → b ∈ listed' ∧ R' b.1)
    (hroom : room' ≤ room) :
    Exceeds listed' R' room' :=
  h.pull (ρ := id) (fun b hb hr => ⟨b.1, (hR b hb hr).1, (hR b hb hr).2, rfl⟩) hroom

/-- The blocks of the list are enough to meet a demand. -/
theorem Exceeds.lt_sum (h : Exceeds listed R room) : room < (listed.map Prod.snd).sum := by
  obtain ⟨bs, hnd, hbs, hsum⟩ := h
  obtain ⟨cs, hperm, hsub⟩ := List.subperm_of_subset hnd fun b hb => (hbs b hb).1
  have hle : (cs.map Prod.snd).sum ≤ (listed.map Prod.snd).sum :=
    (hsub.map Prod.snd).sum_le_sum fun _ _ => Nat.zero_le _
  rw [(hperm.map Prod.snd).sum_eq] at hle
  omega

/-- Different blocks, each as large as one that it comes from, take no more than these. -/
theorem sum_le_of_origins {ρ : Nat → Nat} (hnd : listed'.Nodup)
    (hback : ∀ b ∈ listed', ∃ o, (o, b.2) ∈ listed ∧ ρ o = b.1) :
    (listed'.map Prod.snd).sum ≤ (listed.map Prod.snd).sum := by
  refine Nat.not_lt.mp fun hlt => ?_
  have hall : Exceeds listed' (fun _ => True) (listed.map Prod.snd).sum :=
    ⟨listed', hnd, fun b hb => ⟨hb, trivial⟩, hlt⟩
  have hpull : Exceeds listed (fun _ => True) (listed.map Prod.snd).sum :=
    hall.pull (ρ := ρ) (fun b hb _ => by
    obtain ⟨o, hm, ho⟩ := hback b hb
    exact ⟨o, hm, trivial, ho⟩) (Nat.le_refl _)
  exact absurd hpull.lt_sum (Nat.lt_irrefl _)

/-- If the blocks of the list are different, the demand is the sum of their sizes. -/
theorem exceeds_iff [DecidablePred R] (hnd : listed.Nodup) :
    Exceeds listed R room ↔ room < ((listed.filter fun b => R b.1).map Prod.snd).sum := by
  refine ⟨fun h => ?_, fun h => ⟨_, hnd.filter _, fun b hb => by simpa using hb, h⟩⟩
  exact (h.mono (fun b hb hr => ⟨by simpa using ⟨hb, hr⟩, hr⟩) (Nat.le_refl _)).lt_sum

namespace Stacked

variable {hd lo hi : Nat} {bs : List (Nat × Nat)}

/-- With blocks that are all in use, what exceeds the rest exceeds the whole. -/
theorem exceeds_append (h : Stacked hd lo bs hi) (hR : ∀ b ∈ bs, R b.1)
    (hx : Exceeds listed R room') (hne : ∀ b ∈ listed, b ∉ bs) (hroom : lo + room ≤ hi + room') :
    Exceeds (listed ++ bs) R room := by
  obtain ⟨cs, hnd, hcs, hsum⟩ := hx
  have hend := h.end_eq
  refine ⟨cs ++ bs, List.nodup_append.mpr
    ⟨hnd, List.Nodup.of_map Prod.fst h.nodup, ?_⟩, fun b hb => ?_, ?_⟩
  · rintro c hc b hb rfl
    exact hne c (hcs c hc).1 hb
  · rcases List.mem_append.mp hb with hb | hb
    · exact ⟨List.mem_append_left _ (hcs b hb).1, (hcs b hb).2⟩
    · exact ⟨List.mem_append_right _ hb, hR b hb⟩
  · rw [List.map_append, List.sum_append]
    omega

/-- Blocks take no more than they fill. -/
theorem not_exceeds (h : Stacked hd lo bs hi) (hroom : hi ≤ lo + room) : ¬ Exceeds bs R room := by
  intro hx
  have hsum := hx.lt_sum
  have hend := h.end_eq
  omega

end Stacked

end Reclaim
