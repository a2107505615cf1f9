import Reclaim.Generational
import Reclaim.Proofs.Graph

/-!
# Flag words

The flag word of a generational header holds an age in its lowest byte and three single bits above
it. Setting or clearing one part leaves the others alone, and a survivor's new flags are its old
ones with the age gone up and, if it is promoted, the tenured bit set.

Results:
* `age_agedFlags`: the age goes up by one, to 255 at most.
* `agedFlags_and`: no other part of the word changes, but for the tenured bit of a promoted object.
-/

namespace Reclaim.Generational

/-! ## Bitwise laws -/

theorem or_and_right (a b c : Word) : (a ||| b) &&& c = (a &&& c) ||| (b &&& c) := by
  refine UInt64.eq_of_toBitVec_eq ?_
  simp only [UInt64.toBitVec_and, UInt64.toBitVec_or]
  ext i
  simp [Bool.and_or_distrib_right]

/-- Setting bits that `g` does not see. -/
theorem or_and_of_disjoint {a f g : Word} (hfg : f &&& g = 0) : (a ||| f) &&& g = a &&& g := by
  rw [or_and_right, hfg, UInt64.or_zero]

/-- Clearing bits that `g` does not see. -/
theorem and_not_and_of_disjoint {a f g : Word} (hfg : g &&& ~~~f = g) :
    (a &&& ~~~f) &&& g = a &&& g := by
  rw [UInt64.and_assoc, UInt64.and_comm (~~~f), hfg]

theorem or_and_not_self (a f : Word) : (a ||| f) &&& ~~~f = a &&& ~~~f := by
  rw [or_and_right, UInt64.and_not_self, UInt64.or_zero]

theorem and_not_and_not_self (a f : Word) : (a &&& ~~~f) &&& ~~~f = a &&& ~~~f := by
  rw [UInt64.and_assoc, UInt64.and_self]

theorem and_not_and_self (a f : Word) : (a &&& ~~~f) &&& f = 0 := by
  rw [UInt64.and_assoc, UInt64.not_and_self, UInt64.and_zero]

theorem or_and_self (a f : Word) : (a ||| f) &&& f = f := by
  refine UInt64.eq_of_toBitVec_eq ?_
  simp only [UInt64.toBitVec_and, UInt64.toBitVec_or]
  ext i
  rw [BitVec.getElem_and, BitVec.getElem_or]
  cases f.toBitVec[i] <;> simp

theorem and_not_of_and_eq_zero {a f : Word} (haf : a &&& f = 0) : a &&& ~~~f = a := by
  refine UInt64.eq_of_toBitVec_eq ?_
  have hb := congrArg UInt64.toBitVec haf
  simp only [UInt64.toBitVec_and, UInt64.toBitVec_not] at hb ⊢
  ext i hi
  have hbi := congrArg (fun b => BitVec.getLsbD b i) hb
  simp only [BitVec.getLsbD_and, BitVec.getElem_and, BitVec.getElem_not] at hbi ⊢
  simp only [← BitVec.getLsbD_eq_getElem]
  revert hbi
  cases a.toBitVec.getLsbD i <;> cases f.toBitVec.getLsbD i <;> simp

/-- Words that agree outside `f` agree on what `f` does not see. -/
theorem and_eq_of_and_not_eq {a b f g : Word} (hab : a &&& ~~~f = b &&& ~~~f)
    (hfg : g &&& ~~~f = g) :
    a &&& g = b &&& g := by
  rw [← and_not_and_of_disjoint (a := a) hfg, ← and_not_and_of_disjoint (a := b) hfg, hab]

/-! ## Ages -/

/-- The age in a flag word. -/
def ageOf (flags : Word) : Nat := (flags &&& ageMask).toNat

/-- The age after one more collection. -/
def nextAge (flags : Word) : Nat := min (ageOf flags + 1) 255

theorem toNat_min (a b : Word) : (min a b).toNat = min a.toNat b.toNat := by
  have h : min a b = if a ≤ b then a else b := rfl
  rw [h]
  split <;> rename_i hab <;> rw [UInt64.le_iff_toNat_le] at hab <;> omega

theorem ageOf_eq (w : Word) : ageOf w = w.toNat % 256 := by
  rw [ageOf, UInt64.toNat_and, show ageMask.toNat = 2 ^ 8 - 1 from rfl,
    Nat.and_two_pow_sub_one_eq_mod]

theorem toNat_age (old : Word) : (min ((old &&& ageMask) + 1) ageMask).toNat = nextAge old := by
  have ha : (old &&& ageMask).toNat = ageOf old := rfl
  have hm : ageMask.toNat = 255 := rfl
  have h1 : (1 : Word).toNat = 1 := rfl
  have hlt : ageOf old < 256 := by rw [ageOf_eq]; omega
  rw [toNat_min, UInt64.toNat_add, ha, hm, h1, nextAge]
  omega

theorem isPromoted_iff {threshold : Nat} {old : Word} : isPromoted threshold old = true ↔
    threshold ≤ nextAge old := by
  simp only [isPromoted, decide_eq_true_eq, toNat_age]

/-- The age byte alone, seen through a mask for the other bits. -/
theorem age_and {old g : Word} (hg : g &&& ageMask = 0) :
    min ((old &&& ageMask) + 1) ageMask &&& g = 0 := by
  have hn := toNat_age old
  have hself : min ((old &&& ageMask) + 1) ageMask &&& ageMask =
      min ((old &&& ageMask) + 1) ageMask := by
    rw [← UInt64.toNat_inj, ← ageOf, ageOf_eq, hn, nextAge]
    omega
  rw [← hself, UInt64.and_assoc, UInt64.and_comm ageMask, hg, UInt64.and_zero]

/-- What a mask sees of a survivor's new flags, if it sees neither the age nor the tenured bit. -/
theorem agedFlags_and {threshold : Nat} {old g : Word} (hg : g &&& ageMask = 0)
    (ht : tenuredFlag &&& g = 0) :
    agedFlags threshold old &&& g = old &&& g := by
  have hg' : g &&& ~~~ageMask = g := and_not_of_and_eq_zero hg
  have hnew : (old &&& ~~~ageMask ||| min ((old &&& ageMask) + 1) ageMask) &&& g = old &&& g := by
    rw [or_and_right, age_and hg, UInt64.or_zero, and_not_and_of_disjoint hg']
  simp only [agedFlags]
  split
  · rw [or_and_of_disjoint ht, hnew]
  · exact hnew

/-- The age goes up by one, to 255 at most. -/
theorem age_agedFlags (threshold : Nat) (old : Word) :
    ageOf (agedFlags threshold old) = nextAge old := by
  have hlow : ((old &&& ~~~ageMask) ||| min ((old &&& ageMask) + 1) ageMask) &&& ageMask
      = min ((old &&& ageMask) + 1) ageMask := by
    rw [or_and_right, and_not_and_self, UInt64.zero_or]
    rw [← UInt64.toNat_inj, ← ageOf, ageOf_eq, toNat_age, nextAge]
    omega
  rw [ageOf, agedFlags]
  split
  · rw [or_and_of_disjoint (by decide), hlow, toNat_age]
  · rw [hlow, toNat_age]

/-- A survivor's new flags hold the tenured bit exactly if it is promoted. -/
theorem agedFlags_tenured {threshold : Nat} {old : Word} (hold : old &&& tenuredFlag = 0) :
    agedFlags threshold old &&& tenuredFlag ≠ 0 ↔ isPromoted threshold old = true := by
  have hnew : ((old &&& ~~~ageMask) ||| min ((old &&& ageMask) + 1) ageMask) &&&
      tenuredFlag = 0 := by
    rw [or_and_right, age_and (by decide), UInt64.or_zero,
      and_not_and_of_disjoint (by decide), hold]
  simp only [agedFlags, isPromoted, decide_eq_true_eq]
  split <;> rename_i hp
  · rw [or_and_self]
    simp [hp, tenuredFlag]
  · rw [hnew]
    simp [hp]

/-! ## Header accesses -/

section Access

variable {h : Arena} {o : Nat}

theorem flags_run (ho : 1 ≤ o) (hs : o - 1 < h.size) : flags o h = .ok (h.word (o - 1)) :=
  loadHeader_run ho hs

theorem blockSize_run (ho : 2 ≤ o) (hs : o - 2 < h.size) :
    blockSize o h = .ok (h.word (o - 2)).toNat :=
  read_bind (loadHeader_run ho hs)

theorem forwarding_run (ho : 3 ≤ o) (hs : o - 3 < h.size) :
    forwarding o h = .ok (if (h.word (o - 3)).toNat = 0 then none
      else some (h.word (o - 3)).toNat) :=
  forwardingAt_run ho hs

theorem hasFlag_run {flag : Word} (ho : 1 ≤ o) (hs : o - 1 < h.size) :
    hasFlag flag o h = .ok (h.word (o - 1) &&& flag != 0) := read_bind (flags_run ho hs)

theorem setFlag_run {flag : Word} {on : Bool} (ho : 1 ≤ o) (hs : o - 1 < h.size) :
    setFlag flag on o h
      = .ok () (h.put (o - 1) (if on then h.word (o - 1) ||| flag
        else h.word (o - 1) &&& ~~~flag)) := by
  rw [setFlag, bind_ok (read_heap (flags_run ho hs))]
  exact storeHeader_run ho hs

theorem setForwarding_run {target : Nat} (ho : 3 ≤ o) (hs : o - 3 < h.size) :
    setForwarding o target h = .ok () (h.put (o - 3) (UInt64.ofNat target)) := storeHeader_run ho hs

end Access

end Reclaim.Generational
