import Reclaim.Proofs.Counting.Operations

/-!
# Objects made in a counting heap

What an allocation leaves when values are parked around it (`Brings`): a new object, and every other
object in the block and with the object word that it had, or else reclaimed. Filling the new object
does not change that, and neither does taking the parked values back, except that these may then be
lost: a scan that ran meanwhile takes whatever is parked for held, so an object that only reclaimed
pairs referred to has left the counts without a trace. `Populated` is what several such steps keep.

Results:
* `Issued.brings`: a new object, after scans if need be.
* `Brings.unpark`: a parked value is taken back.
* `Brings.after`: the new object is filled.
* `Populated.trans`: one new object after the other.
-/

namespace Reclaim

/-- What is parked comes behind what was parked before. -/
theorem Roots.parkedValues_withParked {r : Roots} {v : Value} (hle : r.parked ≤ r.stack.size) :
    (r.withParked v).parkedValues = r.parkedValues ++ [v] := by
  have hmin : min (r.parked + 1) (r.stack.size + 1) = r.parked + 1 := by omega
  have hmin' : min r.parked r.stack.size = r.parked := by omega
  simp only [parkedValues, withParked, depth, Array.size_push, hmin, hmin', Array.toList_extract,
    List.extract_eq_take_drop, Array.toList_push]
  rw [List.drop_append_of_le_length (by simp), List.take_of_length_le (by simp; omega),
    List.take_of_length_le (by simp)]
  congr 2
  omega

namespace Counting

variable {m m' m₁ m₂ : Machine Counting} {ts ts' ts₁ ts₂ : List Tile} {vs ws : List Value}
  {new new' : List Nat} {o n k x : Nat} {v : Value}

theorem Balanced.of_eq (hg : Balanced m ts) (hheap : m'.heap = m.heap) (hroots : m'.roots = m.roots)
    (hown : m'.own = m.own) : Balanced m' ts := by
  refine ⟨?_, by rw [hroots]; exact hg.fits⟩
  simp only [refs, blocksOf, hheap, hroots, hown]
  exact hg.dying.of_eq hheap hroots hown

/-- Objects were made, those of `new`, while the values `vs` were parked for a time. -/
structure Populated (vs : List Value) (new : List Nat) (m m' : Machine Counting)
    (ts ts' : List Tile) : Prop where
  mode : m'.own.mode = m.own.mode
  capacity : m'.own.zeroCounts.capacity = m.own.zeroCounts.capacity
  balanced : Balanced m' ts'
  kept : ∀ b ∈ blocksOf m' ts', (b ∈ blocksOf m ts ∧ m'.heap.word b.1 = m.heap.word b.1) ∨ b.1 ∈ new
  idle : m.own.mode = .eager → (∀ b ∈ blocksOf m ts, b ∈ blocksOf m' ts') ∧ ∀ x ∈ new,
    ¬ Held (blocksOf m ts) x
  lost : ∀ x, Lost m' ts' x → Lost m ts x ∨ (m.own.mode = .eager ∧ x ∈ new) ∨
    (m.own.mode = .deferred ∧ ∃ v ∈ vs, v.ref? = some x)

namespace Populated

theorem trans (h : Populated vs new m m₁ ts ts₁) (h' : Populated ws new' m₁ m₂ ts₁ ts₂) :
    Populated (vs ++ ws) (new ++ new') m m₂ ts ts₂ := by
  refine ⟨h'.mode.trans h.mode, h'.capacity.trans h.capacity, h'.balanced, fun b hb => ?_,
    fun hmode => ?_, fun x hx => ?_⟩
  · rcases h'.kept b hb with ⟨hb₁, hw₁⟩ | hnew
    · rcases h.kept b hb₁ with ⟨hb₀, hw₀⟩ | hnew
      · exact .inl ⟨hb₀, hw₁.trans hw₀⟩
      · exact .inr (List.mem_append_left _ hnew)
    · exact .inr (List.mem_append_right _ hnew)
  · obtain ⟨h1, h2⟩ := h.idle hmode
    obtain ⟨h3, h4⟩ := h'.idle (h.mode.trans hmode)
    refine ⟨fun b hb => h3 b (h1 b hb), fun x hx ⟨n, hb⟩ => ?_⟩
    rcases List.mem_append.mp hx with hx | hx
    · exact h2 x hx ⟨n, hb⟩
    · exact h4 x hx ⟨n, h1 _ hb⟩
  · rcases h'.lost x hx with hx | ⟨hmode, hnew⟩ | ⟨hmode, v, hv, hvx⟩
    · rcases h.lost x hx with hx | ⟨hmode, hnew⟩ | ⟨hmode, v, hv, hvx⟩
      · exact .inl hx
      · exact .inr (.inl ⟨hmode, List.mem_append_left _ hnew⟩)
      · exact .inr (.inr ⟨hmode, v, List.mem_append_left _ hv, hvx⟩)
    · exact .inr (.inl ⟨h.mode.symm.trans hmode, List.mem_append_right _ hnew⟩)
    · exact .inr (.inr ⟨h.mode.symm.trans hmode, v, List.mem_append_right _ hv, hvx⟩)

end Populated

/-! ## One object -/

/-- A new object `o` of `n` words, while the values `vs` were parked: what was live then is as it
was, and those of `vs` that waited in the table without any field that refers to them wait there
still. -/
structure Brings (vs : List Value) (o n : Nat) (m m' : Machine Counting) (ts ts' : List Tile) :
    Prop extends Populated vs [o] m m' ts ts' where
  roots : m'.roots = m.roots
  block : ∃ k, m.own.mode.headerWords + n ≤ k ∧ (o, k) ∈ blocksOf m' ts'
  live : ∀ x, m.Live vs x → Held (blocksOf m' ts') x ∧ x ≠ o
  same : Same (m.Live vs) m.heap m'.heap
  waiting : ∀ x ∈ m.own.zeroCounts.entries.toList,
    (Value.ofRef x ∈ m.roots.parkedValues ∨ Value.ofRef x ∈ vs) →
    x ∉ heapRefs m.heap (blocksOf m ts) → x ∈ m'.own.zeroCounts.entries.toList

theorem Issued.brings (hi : Issued m₁ ts₁ n o m' ts') (hg : Balanced m ts)
    (hs : AfterScans m ts m₁ ts₁ k) : Brings [] o n m m' ts ts' := by
  have hcl := hg.dying.stock.housed.closed
  have hcl₁ := hs.balanced.dying.stock.housed.closed
  obtain ⟨k, hk, hmem⟩ := hi.block
  have hreach : ∀ x, m.Live [] x → Held (blocksOf m₁ ts₁) x := fun x hx =>
    hs.fewer.held_of_reachable hcl hs.balanced.dying.stock hx.reachable
  refine ⟨⟨hi.mode.trans hs.fewer.mode,
    hi.capacity.trans hs.fewer.capacity, hi.balanced, fun b hb => ?_,
      fun hmode => ?_, fun x hx => ?_⟩,
    hi.roots.trans hs.fewer.roots,
      ⟨k, by rw [← hs.fewer.mode]; exact hk, (hmem _).mpr (.inr rfl)⟩, fun x hx => ?_, ?_,
        fun x hx hp hno => ?_⟩
  · rcases (hmem b).mp hb with hb | rfl
    · refine .inl ⟨hs.fewer.sublist.subset hb, ?_⟩
      have hheld : Held (blocksOf m₁ ts₁) b.1 := ⟨b.2, hb⟩
      rw [hi.same.head (hcl₁.known _ hheld) hheld, hs.fewer.same.head
        (hcl.known _ (hs.fewer.held hheld)) hheld]
    · exact .inr (by simp)
  · obtain ⟨rfl, rfl⟩ := hs.idle hmode
    exact ⟨fun b hb => (hmem b).mpr (.inl hb), by simpa using hi.fresh⟩
  · rcases hi.lost x hx with hx | ⟨hmode, rfl⟩
    · exact .inl (hs.lost x hx)
    · exact .inr (.inl ⟨hs.fewer.mode.symm.trans hmode, by simp⟩)
  · obtain ⟨j, hb⟩ := hreach x hx
    refine ⟨⟨j, (hmem _).mpr (.inl hb)⟩, ?_⟩
    rintro rfl
    exact hi.fresh ⟨j, hb⟩
  · have hsame : Same (m.Live []) m.heap m₁.heap := hs.fewer.same.mono hreach
    exact hsame.trans (hi.same.mono hreach) fun x hx => hcl.known x (hs.fewer.held (hreach x hx))
  · refine hi.table x (hs.waiting x hx ?_ hno)
    simpa using hp

namespace Brings

theorem held (hb : Brings vs o n m m' ts ts') : Held (blocksOf m' ts') o := by
  obtain ⟨k, -, hm⟩ := hb.block
  exact ⟨k, hm⟩

/-- A live value still refers to what is listed. -/
theorem within (hb : Brings vs o n m m' ts ts') (hv : v.Within (m.Live vs)) :
    v.Within (Held (blocksOf m' ts')) :=
  hv.mono fun x hx => (hb.live x hx).1

/-- The words of the new object, and of headers, change. -/
theorem after (hb : Brings vs o n m m₁ ts ts') (hown : m'.own = m₁.own)
    (hroots : m'.roots = m₁.roots) (hg : Balanced m' ts')
    (hlost : ∀ x, Lost m' ts' x → Lost m₁ ts' x)
    (hrw : Rewritten (Held (blocksOf m₁ ts')) o m₁.heap m'.heap) (hcl : Closed m.heap (m.Live vs)) :
    Brings vs o n m m' ts ts' := by
  have hblocks : blocksOf m' ts' = blocksOf m₁ ts' := by rw [blocksOf, hown]
  have hcl₁ := hb.balanced.dying.stock.housed.closed
  refine ⟨⟨by rw [hown, hb.mode], by rw [hown, hb.capacity], hg, fun b hmem => ?_, by
    rw [hblocks]; exact hb.idle, fun x hx => hb.lost x (hlost x hx)⟩,
    hroots.trans hb.roots, by
      rw [hblocks]; exact hb.block, by
        rw [hblocks]; exact hb.live, fun x i hx hi => ?_, by rw [hown]; exact hb.waiting⟩
  · rw [hblocks] at hmem
    by_cases hbo : b.1 = o
    · exact .inr (by simp [hbo])
    · rw [hrw.head hcl₁ ⟨b.2, hmem⟩ hbo]
      exact hb.kept b hmem
  · obtain ⟨hheld, hne⟩ := hb.live x hx
    rw [hrw x i hheld hne (by rw [hb.same.payload (hcl.known x hx) hx]; exact hi),
      hb.same x i hx hi]

end Brings

/-! ## Parked values -/

/-- Parking a value adds to what is held. -/
theorem Lost.of_parked (hx : Lost (m.withRoots (m.roots.withParked v)) ts x)
    (hle : m.roots.parked ≤ m.roots.stack.size) : Lost m ts x := by
  refine hx.of_refs rfl (fun x h => Roots.refers_withParked h) fun x hm => ?_
  change x ∈ heapRefs m.heap (blocksOf m ts) ++ rootRefs m.own.mode (m.roots.withParked v)
  cases hmode : m.own.mode with
  | eager =>
    rw [hmode] at hm
    rw [rootRefs, Roots.withParked, Roots.refs_park hle]
    exact hm
  | deferred =>
    rw [hmode] at hm
    exact hm

/-- Taking a parked value back may lose its object, if counting is deferred. -/
theorem Lost.unparked (hx : Lost m ts x) (hle : m.roots.parked ≤ m.roots.stack.size) :
    Lost (m.withRoots (m.roots.withParked v)) ts x ∨
    (m.own.mode = .deferred ∧ v.ref? = some x) := by
  cases hmode : m.own.mode with
  | eager =>
    refine .inl ⟨⟨hx.stray.held, fun hm => hx.stray.uncounted ?_, by simp, hx.stray.unqueued⟩,
      fun h => absurd (hmode.symm.trans h) (by decide)⟩
    change x ∈ heapRefs m.heap (blocksOf m ts) ++ rootRefs m.own.mode (m.roots.withParked v) at hm
    rw [hmode, rootRefs, Roots.withParked, Roots.refs_park hle] at hm
    rw [hmode]
    exact hm
  | deferred =>
    by_cases hv : v.ref? = some x
    · exact .inr ⟨rfl, hv⟩
    · refine .inl ⟨⟨hx.stray.held, fun hm => hx.stray.uncounted ?_, by simp, hx.stray.unqueued⟩,
        fun _ hr => hx.unheld hmode ?_⟩
      · change x ∈ heapRefs m.heap (blocksOf m ts) ++ rootRefs m.own.mode
          (m.roots.withParked v) at hm
        rw [hmode] at hm ⊢
        exact hm
      · -- the parked value is the only root that is gone
        have hback : (m.roots.withParked v).stack.back? = some v := by simp [Roots.withParked]
        rcases refers_pop hback hr with hr | hr
        · have hroots : Roots.Refers { (m.roots.withParked v) with
              stack := (m.roots.withParked v).stack.pop } x → m.roots.Refers x := by
            rintro ⟨slot, w, hw, hwx⟩
            refine ⟨slot, w, ?_, hwx⟩
            cases slot with
            | stack i => simpa [Roots.withParked, Roots.get?] using hw
            | global i => exact hw
          exact hroots hr
        · simp [hv] at hr

/-- A value that was parked for the allocation is taken back. -/
theorem Brings.unpark (hg : Balanced m ts)
    (hb : Brings vs o n (m.withRoots (m.roots.withParked v)) m' ts ts') :
    Brings (v :: vs) o n m (m'.withRoots m.roots) ts ts' := by
  have hfits := hg.fits.parked
  have hroots : m'.roots = m.roots.withParked v := hb.roots
  have hlive : ∀ x, m.Live (v :: vs) x → (m.withRoots (m.roots.withParked v)).Live vs x :=
    fun x hx => hx.withParked
  have hback : m'.withRoots m.roots = m'.withRoots { m'.roots with
      stack := m'.roots.stack.pop, parked := m'.roots.parked - 1 } := by
    rw [hroots]
    simp [Roots.withParked]
  have hparked : (m'.withRoots m.roots).withRoots
      ((m'.withRoots m.roots).roots.withParked v) = m' := by
    rw [Machine.withRoots_roots, ← hroots]
    rfl
  refine ⟨⟨hb.mode, hb.capacity, ?_, hb.kept, hb.idle, fun x hx => ?_⟩, rfl, hb.block,
    fun x hx => hb.live x (hlive x hx),
    hb.same.mono hlive, fun x hx hp hno => hb.waiting x hx ?_ hno⟩
  · rw [hback]
    exact hb.balanced.unpark (by rw [hroots]; simp [Roots.withParked])
  · rcases hx.unparked (v := v) hfits with hx | ⟨hmode, hvx⟩
    · rw [hparked] at hx
      rcases hb.lost x hx with hx | hx | ⟨hmode, w, hw, hwx⟩
      · exact .inl (hx.of_parked hfits)
      · exact .inr (.inl hx)
      · exact .inr (.inr ⟨hmode, w, List.mem_cons_of_mem _ hw, hwx⟩)
    · exact .inr (.inr ⟨hb.mode.symm.trans hmode, v, List.mem_cons_self, hvx⟩)
  · rw [Machine.withRoots_roots, Roots.parkedValues_withParked hfits]
    simp only [List.mem_append, List.mem_cons, List.not_mem_nil, or_false] at hp ⊢
    tauto

end Counting

end Reclaim
