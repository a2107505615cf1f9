import Reclaim.Proofs.Generational.Compacted
import Reclaim.Proofs.MarkSweep.Collection
import Reclaim.Proofs.Sliding.Collection

/-!
# Collections that fail

A collection that begins with marking can fail while it marks: its mark stack overflows, or a
reference leads to something that is no object. A major collection has one more reason, a remembered
set without room for all that it would have to hold afterwards, and finds out before it moves
anything. The phases behind these points redirect references, slide objects and fill the remembered
set; they visit only what was marked, so it is an object, and none of their steps can fail. So
whatever a collection reports, nothing was moved.

Results:
* `failed_marking_moves_nothing`: the machine after a collection that failed, for each strategy that
  marks.
-/

namespace Reclaim

/-- A collection that fails has moved nothing. Mark-sweep leaves the machine as it was; mark-compact
leaves marks, and a major collection marks and remembered flags. It is enough that blocks fill the
spaces, that roots and fields refer to them and that none is marked. -/
theorem failed_marking_moves_nothing :
    (∀ {m m' : Machine MarkSweep} {ts : List Tile} {S : Nat → Prop} {e : Fault},
      MarkSweep.Filled m ts S →
      MarkSweep.collect m = .error e m' →
      (∃ f, e = .failed f ∧ Marking.MarkStops m.own.markCapacity m.heap m.roots.Refers f m) ∧
        m' = m) ∧
    (∀ {m m' : Machine Sliding} {blocks : List (Nat × Nat)} {S : Nat → Prop} {e : Fault},
      Sliding.Filled m blocks S →
      Sliding.collect m = .error e m' →
      (∃ f, e = .failed f ∧ Marking.MarkStops m.own.markCapacity m.heap m.roots.Refers f m) ∧
        Marking.Unmoved (~~~0) blocks m m') ∧
    ∀ {m m' : Machine Generational} {young old : List (Nat × Nat)} {S : Nat → Prop} {e : Fault},
    Generational.Filled m young old S →
      Generational.collectMajor m = .error e m' →
      (∃ f, e = .failed f ∧ Generational.MajorStops m young old S f) ∧
      Marking.Unmoved (Generational.markedFlag ||| Generational.rememberedFlag)
      (young ++ old) m m' := by
  refine ⟨fun hi hrun => ?_, fun hi hrun => ?_, fun hi hrun => ?_⟩
  · obtain ⟨f, rfl, hf, hm⟩ := (MarkSweep.collect_sweeps hi).error hrun
    exact ⟨⟨f, rfl, hf⟩, hm⟩
  · obtain ⟨f, rfl, hf, hm⟩ := (Sliding.collect_records hi).error hrun
    exact ⟨⟨f, rfl, hf⟩, hm⟩
  · obtain ⟨f, rfl, hf, hm⟩ := (Generational.collectMajor_slides hi).error hrun
    exact ⟨⟨f, rfl, hf⟩, hm⟩

/-- A root pair that refers to a block without a tag. -/
def frayed : Machine MarkSweep where
  heap := ⟨#[4, 2, 40, 14, 2, 255]⟩
  roots :=
    { stack := #[.ofRef 1], capacity := 4, parked := 0, globals := #[.undef], hash := fun _ => 0 }
  stress := false
  stats := {}
  own := ⟨⟨0, 6⟩, ⟨.first, none, none, 0⟩, 4⟩

theorem frayed_filled : MarkSweep.Filled frayed [⟨0, 4, false⟩, ⟨4, 2, false⟩] fun o =>
    o = 1 ∨ o = 5 where
  region := rfl
  tiles := {
    small := by decide
    inside := by decide
    stacked := ⟨rfl, by decide, rfl, by decide, rfl⟩
    large := by decide
    sized := by decide }
  placed := by
    rintro o (rfl | rfl)
    · exact ⟨⟨0, 4, false⟩, by decide, rfl, rfl, by decide⟩
    · exact ⟨⟨4, 2, false⟩, by decide, rfl, rfl, by decide⟩
  linked := by
    have hlast : (Value.ofRef 5).Within fun o => o = 1 ∨ o = 5 :=
      Value.ofRef_within (by decide) (by decide) (.inr rfl)
    have hnil : Value.nil.Within fun o => o = 1 ∨ o = 5 := .of_not_ref (by decide)
    rintro o a (rfl | rfl) ht (rfl | rfl)
    · exact hlast
    · exact hnil
    · exact absurd ht (by decide)
    · exact absurd ht (by decide)
  roots := Roots.within_of_single rfl rfl (Value.ofRef_within (by decide) (by decide) (.inl rfl))
    (.of_not_ref (v := .undef) (by decide))

/-- `Sliding.loop` without room on the mark stack. -/
def stackless : Machine Sliding := { Sliding.loop with own := { Sliding.loop.own with
      markCapacity := 0 } }

theorem stackless_filled : Sliding.Filled stackless [(3, 6), (9, 6), (15, 6)] fun o =>
    o = 9 ∨ o = 15 :=
  have hi := Sliding.loop_inv
  ⟨hi.small, hi.top_le, hi.inside, hi.stacked, hi.sized, hi.unmarked, hi.placed,
    hi.linked, hi.roots⟩

/-- A tenured pair that refers into the nursery; it is not remembered, and there is no room to do
so. -/
def crammed : Machine Generational where
  heap := ⟨#[0, 6, 0, 2, 120, 14, 0, 0, 0, 0, 0, 0, 0, 6, 0x200, 2, 24, 14]⟩
  roots :=
    { stack := #[.ofRef 15], capacity := 4, parked := 0, globals := #[.undef], hash := fun _ => 0 }
  stress := false
  stats := {}
  own := {
    nursery := ⟨⟨0, 6⟩, 6⟩
    survivorSpace := ⟨6, 12⟩
    tenured := ⟨⟨12, 18⟩, 18⟩
    remembered := ⟨#[], 0⟩
    markCapacity := 4
    threshold := 2 }

theorem crammed_filled : Generational.Filled crammed [(3, 6)] [(15, 6)] fun o =>
    o = 3 ∨ o = 15 where
  spaces := by constructor <;> decide
  young_stacked := ⟨rfl, by decide, rfl⟩
  old_stacked := ⟨rfl, by decide, rfl⟩
  young_sized := by unfold Sized; decide
  old_sized := by unfold Sized; decide
  no_mark := fun b hb =>
    (show ∀ b ∈ [(3, 6), (15, 6)], crammed.heap.word (b.1 - 1) &&&
      Generational.markedFlag = 0 by decide) b (by simpa using hb)
  placed := by
    rintro o (rfl | rfl)
    · exact ⟨6, .inl (by decide), by decide⟩
    · exact ⟨6, .inr (by decide), by decide⟩
  linked := by
    have hold : (Value.ofRef 15).Within fun o => o = 3 ∨ o = 15 :=
      Value.ofRef_within (by decide) (by decide) (.inr rfl)
    have hyoung : (Value.ofRef 3).Within fun o => o = 3 ∨ o = 15 :=
      Value.ofRef_within (by decide) (by decide) (.inl rfl)
    have hnil : Value.nil.Within fun o => o = 3 ∨ o = 15 := .of_not_ref (by decide)
    rintro o a (rfl | rfl) - (rfl | rfl)
    · exact hold
    · exact hnil
    · exact hyoung
    · exact hnil
  roots := Roots.within_of_single rfl rfl (Value.ofRef_within (by decide) (by decide) (.inr rfl))
    (.of_not_ref (v := .undef) (by decide))

/-- The three of them fail: for want of an object, of room on the mark stack, and of room in the
remembered set. The second leaves a mark on the root, and the last one marks both pairs and flags
the tenured one. -/
theorem stuck_collections :
    (∃ m', MarkSweep.collect frayed = .error (.failed (.corruptObject 5 255)) m' ∧ m' = frayed) ∧
    (∃ m', Sliding.collect stackless = .error (.failed (.markStackOverflow 0)) m' ∧
      m'.heap.word 14 = 1 ∧
      Marking.Unmoved (~~~0) [(3, 6), (9, 6), (15, 6)] stackless m') ∧
    ∃ m', Generational.collectMajor crammed = .error (.failed (.rememberedSetFull 0)) m' ∧
    m'.heap.word 14 = 0x700 ∧
      Marking.Unmoved (Generational.markedFlag ||| Generational.rememberedFlag)
      ([(3, 6)] ++ [(15, 6)]) crammed m' := by
  obtain ⟨hsweep, hslide, hmajor⟩ := failed_marking_moves_nothing
  have h₁ : (match MarkSweep.collect frayed with
      | .ok _ _ => false
      | .error e _ => e == .failed (.corruptObject 5 255)) = true := by
    decide +kernel
  have h₂ : (match Sliding.collect stackless with
      | .ok _ _ => false
      | .error e m' => e == .failed (.markStackOverflow 0) && m'.heap.word 14 == 1) = true := by
    decide +kernel
  have h₃ : (match Generational.collectMajor crammed with
      | .ok _ _ => false
      | .error e m' => e == .failed (.rememberedSetFull 0) && m'.heap.word 14 == 0x700) = true := by
    decide +kernel
  refine ⟨?_, ?_, ?_⟩
  · cases hrun : MarkSweep.collect frayed with
    | ok a m' =>
      rw [hrun] at h₁
      cases h₁
    | error e m' =>
      rw [hrun] at h₁
      obtain rfl := eq_of_beq h₁
      exact ⟨m', rfl, (hsweep frayed_filled hrun).2⟩
  · cases hrun : Sliding.collect stackless with
    | ok a m' =>
      rw [hrun] at h₂
      cases h₂
    | error e m' =>
      rw [hrun] at h₂
      obtain ⟨he, hw⟩ := Bool.and_eq_true_iff.mp h₂
      obtain rfl := eq_of_beq he
      exact ⟨m', rfl, eq_of_beq hw, (hslide stackless_filled hrun).2⟩
  · cases hrun : Generational.collectMajor crammed with
    | ok a m' =>
      rw [hrun] at h₃
      cases h₃
    | error e m' =>
      rw [hrun] at h₃
      obtain ⟨he, hw⟩ := Bool.and_eq_true_iff.mp h₃
      obtain rfl := eq_of_beq he
      exact ⟨m', rfl, eq_of_beq hw, (hmajor crammed_filled hrun).2⟩

end Reclaim
