import Mathlib.Algebra.GroupWithZero.Nat
import Mathlib.Logic.Relation
import Reclaim.Collector
import Reclaim.Mutator.Inspect
import Reclaim.Proofs.Runs

/-!
# Accounts

What the measurements of a heap stand for. Blocks are handed out, and from time to time a cycle
reclaims some of the words in use; `Account slack s t` says that `s` was measured over such a
history, and `t` is what went through the heap in it, as numbers that do not wrap. A block may be
`slack` words larger than what was asked for, which the measurements do not see.

`Books` are the measurements together with the words in use. `Turns` and `Issues` say how an
operation may change them.

Results:
* `Account.balance`: what was handed out was reclaimed or is in use.
* `Account.counted`: the measurements are the totals, as 64-bit words.
* `Books.Accounted.turns`, `Books.Accounted.issues`: books that are sound stay sound.
-/

namespace Reclaim

variable {σ : Type}

theorem byteCount_add (m n : Nat) : byteCount (m + n) = byteCount m + byteCount n := by
  rw [byteCount, byteCount, byteCount, Nat.add_mul, UInt64.ofNat_add]

theorem Mutator.wordsOf_eq_sum (blocks : List (Nat × Nat)) :
    wordsOf blocks = (blocks.map Prod.snd).sum := by
  induction blocks with
  | nil => rfl
  | cons b blocks ih => rw [wordsOf, ih, List.map_cons, List.sum_cons]

/-- Nothing was ever handed out, or reclaimed. -/
structure Stats.Untouched (s : Stats) : Prop where
  allocations : s.allocations = 0
  allocatedBytes : s.allocatedBytes = 0
  totalReclaimed : s.totalReclaimed = 0

/-- A cycle that reclaims nothing. -/
theorem Stats.Untouched.recordCycle {s : Stats} (h : s.Untouched) (kind : CycleKind) (live : Nat) :
    (s.recordCycle kind 0 live).Untouched :=
  ⟨h.allocations, h.allocatedBytes, by rw [Stats.recordCycle, h.totalReclaimed]; rfl⟩

/-! ## Turnover -/

/-- What went through a heap, in words. -/
structure Turnover where
  /-- How many blocks were handed out. -/
  blocks : Nat := 0
  /-- What was asked for. -/
  asked : Nat := 0
  /-- What was handed out beyond that. -/
  surplus : Nat := 0
  /-- What was reclaimed. -/
  reclaimed : Nat := 0
  /-- What the last cycle left in use. -/
  settled : Nat := 0
  /-- What was handed out since. -/
  fresh : Nat := 0

namespace Turnover

def inUse (t : Turnover) : Nat := t.settled + t.fresh

/-- After a block of `words` words and `extra` more was handed out. -/
def issue (t : Turnover) (words extra : Nat) : Turnover :=
  { t with
    blocks := t.blocks + 1
    asked := t.asked + words
    surplus := t.surplus + extra
    fresh := t.fresh + (words + extra) }

/-- After a cycle that left `live` words in use. -/
def close (t : Turnover) (live : Nat) : Turnover :=
  { t with
    reclaimed := t.reclaimed + (t.inUse - live)
    settled := live
    fresh := 0 }

end Turnover

/-- The measurements `s` were taken while `t` went through the heap. A cycle leaves no more in use
than there was. -/
inductive Account (slack : Nat) : Stats → Turnover → Prop where
  | start : Account slack {} {}
  | issue {s : Stats} {t : Turnover} {words extra : Nat} : Account slack s t → extra ≤ slack →
      Account slack (s.recordAllocation words) (t.issue words extra)
  | close {s : Stats} {t : Turnover} (kind : CycleKind) {live : Nat} : Account slack s t →
      live ≤ t.inUse →
      Account slack (s.recordCycle kind (t.inUse - live) live) (t.close live)

namespace Account

variable {slack : Nat} {s : Stats} {t : Turnover}

/-- What was handed out was reclaimed, or is in use. -/
theorem balance (h : Account slack s t) : t.asked + t.surplus = t.reclaimed + t.inUse := by
  induction h with
  | start => rfl
  | issue _ _ ih =>
    simp only [Turnover.inUse, Turnover.issue] at ih ⊢
    omega
  | close _ _ hle ih =>
    simp only [Turnover.inUse, Turnover.close] at hle ih ⊢
    omega

theorem surplus_le (h : Account slack s t) : t.surplus ≤ slack * t.blocks := by
  induction h with
  | start => exact Nat.zero_le _
  | issue _ hle ih =>
    rw [Turnover.issue, Nat.mul_add, Nat.mul_one]
    exact Nat.add_le_add ih hle
  | close _ _ _ ih => exact ih

/-- The measurements are the totals, as far as these fit into a word. -/
theorem counted (h : Account slack s t) : s.allocations = UInt64.ofNat t.blocks ∧
    s.allocatedBytes = byteCount t.asked ∧
    s.totalReclaimed = byteCount t.reclaimed ∧ s.liveBytes = byteCount t.settled := by
  induction h with
  | start => exact ⟨rfl, rfl, rfl, rfl⟩
  | issue _ _ ih =>
    obtain ⟨h1, h2, h3, h4⟩ := ih
    simp only [Stats.recordAllocation, Turnover.issue, h1, h2, UInt64.ofNat_add, byteCount_add]
    exact ⟨rfl, trivial, h3, h4⟩
  | close _ _ _ ih =>
    obtain ⟨h1, h2, h3, -⟩ := ih
    simp only [Stats.recordCycle, Turnover.close, h3, byteCount_add]
    exact ⟨h1, h2, trivial, trivial⟩

/-- Blocks as large as asked for: what is measured as handed out and not reclaimed is in use. -/
theorem live_eq (h : Account 0 s t) : s.allocatedBytes - s.totalReclaimed = byteCount t.inUse := by
  obtain ⟨-, ha, hr, -⟩ := h.counted
  have hs := h.surplus_le
  have hb := h.balance
  rw [ha, hr, show t.asked = t.inUse + t.reclaimed by omega, byteCount_add, UInt64.add_sub_cancel]

/-- While the total fits into a word, nothing wraps. -/
theorem live_exact (h : Account 0 s t) (hfit : t.asked * wordBytes < 2 ^ 64) :
    s.allocatedBytes.toNat = s.totalReclaimed.toNat + t.inUse * wordBytes := by
  obtain ⟨-, ha, hr, -⟩ := h.counted
  have hs := h.surplus_le
  have hb := h.balance
  simp only [wordBytes] at hfit ⊢
  rw [ha, hr, byteCount_toNat_of_lt (by omega), byteCount_toNat_of_lt (by omega)]
  omega

end Account

/-! ## Books -/

/-- Measurements, and the words in use. -/
structure Books where
  stats : Stats
  inUse : Nat

/-- The books of a machine whose collector counts the words in use by `used`. -/
def Machine.books (used : σ → Nat) (m : Machine σ) : Books := ⟨m.stats, used m.own⟩

namespace Books

/-- One cycle, which records what it took out of use and what it left. -/
def Cycled (b b' : Books) : Prop :=
  ∃ kind, b'.inUse ≤ b.inUse ∧ b'.stats = b.stats.recordCycle kind (b.inUse - b'.inUse) b'.inUse

/-- Any number of cycles. -/
abbrev Turns : Books → Books → Prop := Relation.ReflTransGen Cycled

/-- Some cycles, and then a block for `words` words, which is not recorded yet. -/
def Issues (slack words : Nat) (b b' : Books) : Prop :=
  ∃ b₁ extra, Turns b b₁ ∧ extra ≤ slack ∧ b' = ⟨b₁.stats, b₁.inUse + (words + extra)⟩

/-- The measurements are those of a history that has left these words in use. -/
def Accounted (slack : Nat) (b : Books) : Prop := ∃ t, Account slack b.stats t ∧ t.inUse = b.inUse

variable {slack words : Nat} {b b' b'' : Books}

theorem Turns.issues (h : Turns b b') (hi : Issues slack words b' b'') :
    Issues slack words b b'' := by
  obtain ⟨b₁, extra, ht, hle, he⟩ := hi
  exact ⟨b₁, extra, h.trans ht, hle, he⟩

theorem Accounted.start : Accounted slack ⟨{}, 0⟩ := ⟨{}, .start, rfl⟩

/-- A cycle leaves nothing but what it has measured. -/
theorem Accounted.cycled (hb : Accounted slack b) (h : Cycled b b') :
    ∃ t, Account slack b'.stats t ∧ t.inUse = b'.inUse ∧ t.fresh = 0 := by
  obtain ⟨t, ha, hu⟩ := hb
  obtain ⟨kind, hle, hs⟩ := h
  refine ⟨t.close b'.inUse, ?_, rfl, rfl⟩
  rw [hs, ← hu]
  exact ha.close kind (by rw [hu]; exact hle)

theorem Accounted.turns (hb : Accounted slack b) (h : Turns b b') : Accounted slack b' := by
  induction h with
  | refl => exact hb
  | tail _ hc ih =>
    obtain ⟨t, ha, hu, -⟩ := ih.cycled hc
    exact ⟨t, ha, hu⟩

/-- A block is handed out, and then it is recorded. -/
theorem Accounted.issues (hb : Accounted slack b) (h : Issues slack words b b') :
    Accounted slack ⟨b'.stats.recordAllocation words, b'.inUse⟩ := by
  obtain ⟨b₁, extra, ht, hle, rfl⟩ := h
  obtain ⟨t, ha, hu⟩ := hb.turns ht
  refine ⟨t.issue words extra, ha.issue hle, ?_⟩
  simp only [Turnover.inUse, Turnover.issue] at hu ⊢
  omega

end Books

end Reclaim
