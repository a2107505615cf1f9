import Reclaim.Proofs.Counting.Letting

/-!
# Popping what a pair holds

A program may put the top of the stack into a new pair, pop it, and go on with the pair, which no
root reaches. When nothing is allocated, the only danger is a heap that counts references: it could
reclaim what the stack has let go of, or scan its table and find the pair there. It does neither,
since what is popped is counted still by the field that holds it (`Operations.Pins`).

Results:
* `Gentle.pins`: strategies that leave all objects in place.
* `Counting.pins`: counting, in both modes.
* `Operations.Pins.hosted`: the collector that follows such a strategy.
-/

namespace Reclaim

variable {σ α : Type}

/-- All objects are left when the popped value is a reference that a field of an object holds as
well. -/
def Operations.Pins (ops : Operations σ) (I : Machine σ → (Nat → Prop) → Prop) : Prop :=
  ∀ ⦃m : Machine σ⦄ ⦃S : Nat → Prop⦄ ⦃v : Value⦄ ⦃o c : Nat⦄, I m S → m.roots.parked = 0 →
    m.roots.stack.back? = some v → v.ref? = some c →
    S o → c ∈ m.heap.succ o → Anyhow ops.pop m fun m' =>
      ops.objects m'.own m'.heap = ops.objects m.own m.heap

section Pins

variable {ops : Operations σ} {I : Machine σ → (Nat → Prop) → Prop} {wrap : σ → Collector}

theorem Gentle.pins (hg : Gentle ops I fun _ => True) : ops.Pins I := by
  intro m S v o c hi hpark _ _ _ _
  refine (hg.pop hi hpark).mono fun m' h => ?_
  obtain ⟨before, after, hbefore, hafter, -, -, hsame⟩ := h.listed
  rw [hbefore, hafter, hsame (h.quiet trivial)]

theorem Operations.Pins.hosted (hp : ops.Pins I) (hh : Collector.Hosts wrap ops) :
    Collector.operations.Pins (Collector.Hosted wrap I) := by
  rintro m S v o c ⟨s, hs, hi⟩ hpark hv hr ho hc
  refine Hosts.anyhow (hh.pop hs) ((hp hi hpark hv hr ho hc).mono fun m' h => ?_)
  have hafter : Collector.objects (wrap m'.own) m'.heap = ops.objects m'.own m'.heap := by
    rw [hh.objects]
  have hbefore : Collector.objects m.own m.heap = ops.objects s m.heap := by rw [hs, hh.objects]
  exact hafter.trans (h.trans hbefore.symm)

end Pins

namespace Counting

variable {cap : Nat} {m : Machine Counting} {ts : List Tile} {v : Value} {c : Nat}

/-- A field or a root has let go of an object that is counted elsewhere. -/
theorem letGo_pinned {T : List Nat} (hd : Dying m ts (c :: T) []) (hr : v.ref? = some c)
    (hheld : Held (blocksOf m ts) c) (hc : c ∈ T) :
    Anyhow (letGo v) m fun m' => objects m'.own m'.heap = .ok (blocksOf m ts) := by
  obtain ⟨m', hadj, -, hn, hd'⟩ := hd.lose_run hheld
  have hne : (T.count c : Int) ≠ 0 := by
    have hpos := List.count_pos_iff.mpr hc
    omega
  unfold letGo
  rw [hr]
  refine .step GcM.run_own (.step hadj ?_)
  rw [if_neg hne]
  refine .pure ?_
  rw [hd'.stock.objects_run, hn.blocksOf_eq]

/-- A root that was not counted has let go of an object that is. -/
theorem unroot_pinned {T : List Nat} (hd : Dying m ts T []) (hr : v.ref? = some c)
    (hheld : Held (blocksOf m ts) c) (hc : c ∈ T) :
    Anyhow (unroot v) m fun m' => objects m'.own m'.heap = .ok (blocksOf m ts) := by
  have hne : (T.count c : Int) ≠ 0 := by
    have hpos := List.count_pos_iff.mpr hc
    omega
  unfold unroot
  rw [hr]
  refine .step GcM.run_own (.step (read_lift (hd.count_run hheld)) ?_)
  rw [if_neg hne]
  exact .pure hd.stock.objects_run

theorem pins (mode : CountMode) (cap : Nat) : operations.Pins (Kept (Good mode cap)) := by
  rintro m S v o c ⟨blocks, ⟨ts, hmode, -, rfl, hg⟩, rfl⟩ hpark hv hr ⟨n, ho⟩ hc
  have hb := hg.dying.stock
  have hfield : c ∈ heapRefs m.heap (blocksOf m ts) := mem_heapRefs.mpr ⟨_, ho, hc⟩
  have hheld : Held (blocksOf m ts) c := heapRefs_held hb.housed.closed hfield
  have hbelow := hb.roots.pop (r := m.roots) m.roots.parked
  change Anyhow pop m fun m' => objects m'.own m'.heap = objects m.own m.heap
  rw [hb.objects_run]
  unfold pop
  refine .step (roots_lift (popRoot_run hv)) (.step GcM.run_own ?_)
  rw [Machine.withRoots_own, hmode]
  have hd := hg.dying.withRoots hbelow
  rw [hmode] at hd
  cases mode with
  | eager =>
    -- the reference on the stack is counted beside that of the field
    have hd' : Dying (m.withRoots { m.roots with stack := m.roots.stack.pop }) ts
        (c :: refs m ts (rootRefs .eager { m.roots with stack := m.roots.stack.pop })) [] := by
      refine hd.perm ?_
      have hpop := Roots.refs_pop hpark hv
      rw [hr] at hpop
      exact (hpop.append_left _).trans List.perm_middle
    exact Anyhow.returns (f := fun _ => v)
      (letGo_pinned hd' hr hheld (List.mem_append_left _ hfield))
  | deferred =>
    exact Anyhow.returns (f := fun _ => v)
      (unroot_pinned hd hr hheld (List.mem_append_left _ hfield))

end Counting

end Reclaim
