import Reclaim.Proofs.Generational.Remembered
import Reclaim.Proofs.MarkSweep.Barren
import Reclaim.Proofs.Semispace.Operations
import Reclaim.Proofs.Sliding.Operations

/-!
# Heaps that obey the laws

Each strategy has laws of its own, and a heap that is too small for them. What is said here of a
session holds for any configuration, so that a result about reading needs none of the six cases.

Results:
* `Config.lawful`: there are laws that hold from the start, but for mark-sweep heaps without room
  for an object.
* `Session.apart`: what a program may use are objects of a well-formed heap.
-/

namespace Reclaim

variable {c : Config} {u : Mutator} {H : Nat → Prop}

/-- The laws `I` hold of every new heap of this configuration. -/
def Config.Starts (c : Config) (I : Machine Collector → (Nat → Prop) → Prop) : Prop :=
  ∀ u, c.Makes u → ∃ S, I u.machine S

/-- Counting heaps obey the laws, whether there is room in them or not. -/
theorem Config.counting_lawful (mode : CountMode) (hc : c.strategy = mode.strategy) :
    ∃ I N, Laws Collector.operations I N ∧ c.Starts I := by
  by_cases h2 : 2 ≤ c.heapWords
  · exact ⟨_, _, (Counting.laws mode c.zeroCountCapacity).hosted Counting.hosts,
      fun _ => Counting.start_kept hc h2⟩
  · exact ⟨_, _, Counting.barren_laws.hosted Counting.hosts,
      fun _ hu => ⟨_, Counting.start_barren hc (by omega) hu⟩⟩

/-- Whatever the strategy, there are laws that hold from the start, but for a mark-sweep heap
without room for an object. -/
theorem Config.lawful (c : Config) :
    (c.strategy = .markSweep ∧ c.heapWords < 2) ∨ ∃ I N, Laws Collector.operations I N ∧
    c.Starts I := by
  cases hc : c.strategy with
  | copying =>
    exact .inr ⟨_, _, Semispace.laws.hosted Semispace.hosts, fun _ => Semispace.start_kept hc⟩
  | markSweep =>
    by_cases h2 : 2 ≤ c.heapWords
    · exact .inr ⟨_, _, MarkSweep.laws.hosted MarkSweep.hosts, fun _ => MarkSweep.start_kept hc h2⟩
    · exact .inl ⟨rfl, by omega⟩
  | markCompact =>
    exact .inr ⟨_, _, Sliding.laws.hosted Sliding.hosts, fun _ => Sliding.start_kept hc⟩
  | generational =>
    exact .inr ⟨_, _, Generational.laws.hosted Generational.hosts,
      fun _ => Generational.start_intact hc⟩
  | counting => exact .inr (Config.counting_lawful .eager hc)
  | deferredCounting => exact .inr (Config.counting_lawful .deferred hc)

/-- After a session, the roots and what a program may use are among the objects of a well-formed
heap. -/
theorem Session.apart (hs : Session c u H) :
    ∃ hd S, Apart hd u.machine.heap S ∧ u.machine.roots.Within S ∧ ∀ v, u.Allows H v →
    v.Within S := by
  rcases c.lawful with ⟨hc, h2⟩ | ⟨I, N, hl, hstart⟩
  · obtain ⟨hb, -, hH⟩ := MarkSweep.session_barren hc h2 hs
    exact ⟨1, Nothing, MarkSweep.Barren.apart u, hb.within, fun v hv => hb.allows hH hv⟩
  · obtain ⟨S, hi, hH⟩ := (hs.steady hl hstart).good
    exact ⟨_, S, hl.apart hi, hl.roots hi, fun v hv => hv.within hl hi hH⟩

end Reclaim
