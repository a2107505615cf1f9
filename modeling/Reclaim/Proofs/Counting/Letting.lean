import Reclaim.Proofs.Counting.Barren
import Reclaim.Proofs.Handles

/-!
# What deferred counting leaves in place

When a field or a root lets go of an object that nothing else counts, the object joins the zero
count table. As long as the table has room, that is all that happens. If it is full there is a scan
first, which may reclaim objects that no root reaches; the object itself is not among them, since it
is neither in the table nor referred to by a field, and what was reachable through it is not either.
All this also holds when the table is still full after the scan, so that the operation fails.

Results:
* `enqueue_trims`: putting an object into the table.
* `gentle`, `barren_gentle`: a heap with deferred counts leaves objects in place unless it scans.
-/

namespace Reclaim.Counting

variable {cap : Nat} {m m₁ m' : Machine Counting} {ts ts' : List Tile} {cs : List Nat}
  {o : Nat} {v : Value}

/-- Objects were reclaimed by a scan at most, but not those of `cs`; without a full table there was
none. -/
structure Trimmed (cs : List Nat) (m m' : Machine Counting) (ts ts' : List Tile) :
    Prop extends Fewer m m' ts ts' where
  stock : Stock m' ts' []
  kept : ∀ c ∈ cs, Held (blocksOf m' ts') c
  quiet : m'.stats.collections = m.stats.collections → blocksOf m' ts' = blocksOf m ts
  calm : m.own.zeroCounts.isFull = false → m'.stats.collections = m.stats.collections

namespace Trimmed

theorem refl (hb : Stock m ts []) (hc : ∀ c ∈ cs, Held (blocksOf m ts) c) : Trimmed cs m m ts ts :=
  ⟨.refl m ts, hb, hc, fun _ => rfl, fun _ => rfl⟩

/-- What the roots reached before a reference was taken away is still there, if what it referred to
is. -/
theorem held_of_reachable (ht : Trimmed cs m₁ m' ts ts')
    (hcl : Closed m₁.heap (Held (blocksOf m₁ ts)))
    (hroots : ∀ x, m.roots.Refers x → m₁.roots.Refers x ∨ x ∈ cs)
    (hsucc : ∀ a, Held (blocksOf m₁ ts) a → ∀ c ∈ m.heap.succ a, c ∈ m₁.heap.succ a ∨ c ∈ cs)
    (ho : m.Reachable o) :
    Held (blocksOf m' ts') o := by
  induction ho with
  | root hr =>
    rcases hroots _ hr with hr | hr
    · rw [← ht.roots] at hr
      exact ht.stock.roots.refers hr
    · exact ht.kept _ hr
  | @step a c _ hc ih =>
    have ha := ht.held ih
    rcases hsucc a ha c hc with hc | hc
    · rw [← ht.same.succ (hcl.known a ha) ih] at hc
      exact ht.stock.housed.closed.succ ih hc
    · exact ht.kept _ hc

/-- The operation as a whole, from before the reference was taken away. -/
theorem lasting (ht : Trimmed cs m₁ m' ts ts') (hm : Balanced m ts) (hown : m₁.own = m.own)
    (hstats : m₁.stats = m.stats) (hcl : Closed m₁.heap (Held (blocksOf m ts)))
    (hroots : ∀ x, m.roots.Refers x → m₁.roots.Refers x ∨ x ∈ cs)
    (hsucc : ∀ a, Held (blocksOf m ts) a → ∀ c ∈ m.heap.succ a, c ∈ m₁.heap.succ a ∨ c ∈ cs) :
    Lasting operations (m.own.zeroCounts.isFull = false) m m' := by
  have hblocks : blocksOf m₁ ts = blocksOf m ts := by rw [blocksOf, hown]
  have hsub := ht.sublist
  have hquiet := ht.quiet
  have hcalm := ht.calm
  rw [hblocks] at hsub hquiet
  rw [hstats] at hquiet hcalm
  rw [hown] at hcalm
  refine ⟨⟨_, _, hm.dying.stock.objects_run,
    ht.stock.objects_run, hsub, fun o ho => ?_, hquiet⟩, hcalm⟩
  exact ht.held_of_reachable (by rw [hblocks]; exact hcl) hroots (by rw [hblocks]; exact hsucc) ho

end Trimmed

/-- Headers and the table have changed beforehand. -/
theorem Noted.trimmed (hn : Noted m m₁ ts) (hb : Stock m ts []) (ht : Trimmed cs m₁ m' ts ts')
    (hfull : m₁.own.zeroCounts = m.own.zeroCounts) :
    Trimmed cs m m' ts ts' := by
  have hblocks := hn.blocksOf_eq
  refine ⟨(hn.fewer hb).trans ht.toFewer hb.housed.closed, ht.stock, ht.kept, fun h => ?_,
    fun h => ?_⟩
  · rw [ht.quiet (by rw [h, hn.stats]), hblocks]
  · rw [ht.calm (by rw [hfull]; exact h), hn.stats]

/-! ## Joining the table -/

/-- An object joins the table, or there is no room for it. -/
theorem queue_notes (hg : Balanced m ts) (hmode : m.own.mode = .deferred)
    (ho : Held (blocksOf m ts) o) (hne : o ∉ m.own.zeroCounts.entries.toList) :
    Anyhow (queue o) m fun m' => Noted m m' ts ∧ Stock m' ts [] := by
  cases hfull : m.own.zeroCounts.isFull with
  | true =>
    have hstop : queue o m = .error (.failed m.own.zeroCounts.full) m := by
      rw [queue, bind_ok GcM.run_own]
      simp only [hfull, if_true]
      rfl
    exact .of_error hstop ⟨.refl m ts, hg.dying.stock⟩
  | false =>
    obtain ⟨m', hrun, hn, hg', -⟩ := hg.queue_run hmode ho hne hfull
    exact .of_eq hrun ⟨hn, hg'.dying.stock⟩

/-- An object that no field refers to is put into the table unless it is there. -/
theorem enqueue_trims (hg : Balanced m ts) (hmode : m.own.mode = .deferred)
    (ho : Held (blocksOf m ts) o) (hT : o ∉ heapRefs m.heap (blocksOf m ts)) :
    Anyhow (enqueue o) m fun m' => ∃ ts', Trimmed [o] m m' ts ts' := by
  have hb := hg.dying.stock
  unfold enqueue
  refine .step GcM.run_own (.step (read_lift (hb.isQueued_run hmode ho (by simp))) ?_)
  by_cases hmem : o ∈ m.own.zeroCounts.entries.toList
  · simp only [hmem, decide_true, Bool.not_true, Bool.false_eq_true, if_false]
    exact .pure ⟨ts, .refl hb (by simpa using ho)⟩
  · simp only [hmem, decide_false, Bool.not_false, if_true]
    cases hfull : m.own.zeroCounts.isFull with
    | false =>
      simp only [Bool.false_eq_true, if_false]
      refine (queue_notes hg hmode ho hmem).mono fun m' ⟨hn, hb'⟩ =>
        ⟨ts, hn.fewer hb, hb', ?_, fun _ => hn.blocksOf_eq, fun _ => ?_⟩
      · rw [hn.blocksOf_eq]
        simpa using ho
      · rw [hn.stats]
    | true =>
      simp only [if_true]
      obtain ⟨m₁, ts₁, hrun, hs, hg₁, -⟩ := hg.scan_run hmode
      -- neither in the table nor referred to by a field, so it was spared
      have ho₁ : Held (blocksOf m₁ ts₁) o := by
        by_contra hno
        exact (hs.gone o ho hno).elim hmem hT
      have hne₁ : o ∉ m₁.own.zeroCounts.entries.toList := fun h => (hs.table o h).elim hmem hT
      refine .step hrun ((queue_notes hg₁ (hs.mode.trans hmode) ho₁ hne₁).mono
        fun m' ⟨hn, hb'⟩ => ⟨ts₁, ?_⟩)
      refine ⟨hs.toFewer.trans (hn.fewer hg₁.dying.stock) hb.housed.closed, hb', ?_, fun h => ?_,
        fun h => ?_⟩
      · rw [hn.blocksOf_eq]
        simpa using ho₁
      · rw [hn.stats, hs.cycles] at h
        exact absurd (ofNat_eq_zero (k := 1) (by decide) h) (by decide)
      · rw [hfull] at h
        cases h

/-- A field has let go of `v`, which is still counted. -/
theorem letGo_trims (hd : Dying m ts (v.ref?.toList ++ refs m ts (rootRefs m.own.mode m.roots)) [])
    (hf : RootsFit m.roots) (hmode : m.own.mode = .deferred)
    (hv : v.Within (Held (blocksOf m ts))) :
    Anyhow (letGo v) m fun m' => ∃ ts', Trimmed v.ref?.toList m m' ts ts' := by
  unfold letGo
  cases hr : v.ref? with
  | none => exact .pure ⟨ts, .refl hd.stock (by simp)⟩
  | some c =>
    obtain ⟨-, hc⟩ := hv c hr
    rw [hr] at hd
    obtain ⟨m₁, hadj, hown, hn, hd₁⟩ :=
      Dying.lose_run (T := refs m ts (rootRefs m.own.mode m.roots)) hd hc
    have hrefs : refs m₁ ts (rootRefs m₁.own.mode m₁.roots) = refs m ts
        (rootRefs m.own.mode m.roots) := by
      rw [hn.mode, hn.roots, hn.refs_eq hd.stock]
    have hg₁ : Balanced m₁ ts := ⟨by rw [hrefs]; exact hd₁, by rw [hn.roots]; exact hf⟩
    have hc₁ : Held (blocksOf m₁ ts) c := by
      rw [hn.blocksOf_eq]
      exact hc
    have hfull : m₁.own.zeroCounts = m.own.zeroCounts := by rw [hown]
    refine .step GcM.run_own (.step hadj ?_)
    split
    · rename_i h0
      rw [hmode]
      refine (enqueue_trims hg₁ (hn.mode.trans hmode) hc₁ fun hmem => ?_).mono fun m' ⟨ts', ht⟩ =>
        ⟨ts', hn.trimmed hd.stock ht hfull⟩
      have hz : (refs m ts (rootRefs m.own.mode m.roots)).count c = 0 := by exact_mod_cast h0
      rw [← hrefs] at hz
      exact List.count_eq_zero.mp hz (List.mem_append_left _ hmem)
    · exact .pure ⟨ts, hn.trimmed hd.stock (.refl hg₁.dying.stock (by simpa using hc₁)) hfull⟩

/-- A root has let go of `v`. -/
theorem unroot_trims (hg : Balanced m ts) (hmode : m.own.mode = .deferred)
    (hv : v.Within (Held (blocksOf m ts))) :
    Anyhow (unroot v) m fun m' => ∃ ts', Trimmed v.ref?.toList m m' ts ts' := by
  have hb := hg.dying.stock
  unfold unroot
  cases hr : v.ref? with
  | none => exact .pure ⟨ts, .refl hb (by simp)⟩
  | some c =>
    obtain ⟨-, hc⟩ := hv c hr
    refine .step GcM.run_own (.step (read_lift (hg.dying.count_run hc)) ?_)
    split
    · rename_i h0
      refine enqueue_trims hg hmode hc fun hmem => ?_
      have hz : (refs m ts (rootRefs m.own.mode m.roots)).count c = 0 := by exact_mod_cast h0
      exact List.count_eq_zero.mp hz (List.mem_append_left _ hmem)
    · exact .pure ⟨ts, .refl hb (by simpa using hc)⟩

/-! ## Operations -/

theorem writeField_lasting {field : Nat} (hg : Balanced m ts) (hmode : m.own.mode = .deferred)
    (ho : Held (blocksOf m ts) o) (ht : m.heap.tag o = some .pair)
    (hf : field = o + 1 ∨ field = o + 2) (hv : v.Within (Held (blocksOf m ts))) :
    Anyhow (writeField field v) m (Lasting operations (m.own.zeroCounts.isFull = false) m) := by
  have hcl := hg.dying.stock.housed.closed
  obtain ⟨m₀, m₁, hinc, hload, hstore, hown, hd₁, -, hst, hroots, hstats, -⟩ :=
    hg.replace_run ho ht hf hv
  have hblocks : blocksOf m₁ ts = blocksOf m ts := by rw [blocksOf, hown]
  have hcl₁ : Closed m₁.heap (Held (blocksOf m ts)) := by
    rw [← hblocks]
    exact hd₁.stock.housed.closed
  have hold : (m.heap.value field).Within (Held (blocksOf m₁ ts)) := by
    rw [hblocks]
    exact hcl.field o field ho ht hf
  unfold writeField
  refine .step GcM.run_own (.step hinc (.step hload (.step hstore ?_)))
  refine (letGo_trims (by rw [hown, hroots]; exact hd₁) (by rw [hroots]; exact hg.fits)
    (by rw [hown]; exact hmode) hold).mono ?_
  rintro m' ⟨ts', htrim⟩
  refine htrim.lasting hg hown hstats hcl₁ (fun x hx => .inl (by rw [hroots]; exact hx))
    fun a ha c hc => ?_
  -- a field of `a` still holds what it held, unless it is the one that was written
  obtain ⟨hta, hval⟩ := Arena.mem_succ.mp hc
  have hp3 := Arena.payload_of_pair hta
  have hta₁ : m₁.heap.tag a = some .pair := by
    rw [Arena.tag_congr (hst.head hg.dying.stock.housed.objects_apart ho ht hf ha), hta]
  have hfield : ∀ i, i < 3 → (m.heap.value (a + i)).ref? = some c →
      (m₁.heap.value (a + i)).ref? = some c ∨ c ∈ (m.heap.value field).ref?.toList := by
    intro i hi hc
    by_cases he : a + i = field
    · rw [← he, hc]
      exact .inr (by simp)
    · have hw := hst a i ha (by omega)
      rw [if_neg he] at hw
      rw [Arena.value_congr hw]
      exact .inl hc
  rcases hval with hval | hval
  · exact (hfield 1 (by omega) hval).imp_left fun h => Arena.mem_succ.mpr ⟨hta₁, .inl h⟩
  · exact (hfield 2 (by omega) hval).imp_left fun h => Arena.mem_succ.mpr ⟨hta₁, .inr h⟩

/-- The roots have changed, and one of them has let go of `old`. -/
theorem unroot_lasting {r : Roots} {old : Value} (hg : Balanced m ts)
    (hmode : m.own.mode = .deferred) (hr : r.Within (Held (blocksOf m ts))) (hf : RootsFit r)
    (hold : old.Within (Held (blocksOf m ts)))
    (hroots : ∀ x, m.roots.Refers x → r.Refers x ∨ x ∈ old.ref?.toList) :
    Anyhow (unroot old) (m.withRoots r)
    (Lasting operations (m.own.zeroCounts.isFull = false) m) := by
  have hg₁ : Balanced (m.withRoots r) ts := hg.withRoots hr hf (by rw [hmode]; exact .refl _)
  refine (unroot_trims hg₁ hmode hold).mono ?_
  rintro m' ⟨ts', htrim⟩
  exact htrim.lasting hg rfl rfl hg.dying.stock.housed.closed hroots fun _ _ _ hc => .inl hc

/-- A heap with deferred counts leaves objects in place, unless its table is full. -/
theorem gentle (cap : Nat) : Gentle operations (Kept (Good .deferred cap)) fun m =>
    m.own.zeroCounts.isFull = false where
  writeField := by
    rintro m S o field v ⟨blocks, ⟨ts, hmode, -, rfl, hg⟩, rfl⟩ - ho ht hf hv
    exact writeField_lasting hg hmode ho ht hf hv
  writeRoot := by
    rintro m S slot v ⟨blocks, ⟨ts, hmode, hcap, rfl, hg⟩, rfl⟩ - hv
    have hb := hg.dying.stock
    have hsame : Lasting operations (m.own.zeroCounts.isFull = false) m m :=
      (laws .deferred cap).lasting ⟨_, ⟨ts, hmode, hcap, rfl, hg⟩, rfl⟩ rfl rfl
    refine .step GcM.run_own ?_
    rw [hmode]
    cases hs : m.roots.get? slot with
    | none =>
      have htrap : getRoot slot m.roots = .error .trap m.roots := by rw [getRoot, hs]
      exact .of_error (bind_error (roots_lift_error htrap)) hsame
    | some old =>
      refine .step (roots_lift (getRoot_run hs)) (.step (roots_lift (setRoot_run hs)) ?_)
      exact unroot_lasting hg hmode (hb.roots.set hv slot) (hg.fits.set slot v)
        (hb.roots slot old hs) fun x hx => refers_set hs hx
  push := by
    rintro m S v ⟨blocks, ⟨ts, hmode, hcap, rfl, hg⟩, rfl⟩ - -
    have hl : ∀ r, Lasting operations (m.own.zeroCounts.isFull = false) m (m.withRoots r) :=
      (laws .deferred cap).lasting_roots ⟨_, ⟨ts, hmode, hcap, rfl, hg⟩, rfl⟩
    change Anyhow (push v) m _
    unfold push
    cases hp : pushRoot v m.roots with
    | error e r => exact .of_error (bind_error (roots_lift_error hp)) (hl r)
    | ok a r =>
      refine .step (roots_lift hp) (.step GcM.run_own ?_)
      rw [Machine.withRoots_own, hmode]
      exact .pure (hl r)
  pop := by
    rintro m S ⟨blocks, ⟨ts, hmode, hcap, rfl, hg⟩, rfl⟩ hpark
    have hb := hg.dying.stock
    have hl : ∀ r, Lasting operations (m.own.zeroCounts.isFull = false) m (m.withRoots r) :=
      (laws .deferred cap).lasting_roots ⟨_, ⟨ts, hmode, hcap, rfl, hg⟩, rfl⟩
    change Anyhow pop m _
    unfold pop
    cases hv : m.roots.stack.back? with
    | none =>
      have hfail : popRoot m.roots = .error (.failed .stackUnderflow) m.roots := by rw [popRoot, hv]
      exact .of_error (bind_error (roots_lift_error hfail)) (hl m.roots)
    | some v =>
      have hw : v.Within (Held (blocksOf m ts)) := by
        have hv' := hv
        rw [Array.back?_eq_getElem?] at hv'
        exact hb.roots (.stack _) v hv'
      refine .step (roots_lift (popRoot_run hv)) (.step GcM.run_own ?_)
      rw [Machine.withRoots_own, hmode]
      refine Anyhow.returns (f := fun _ => v) ?_
      exact unroot_lasting hg hmode (hb.roots.pop _) (hg.fits.pop hpark) hw fun x hx =>
        refers_pop hv hx

/-- Where there are no objects, there is nothing to disturb. -/
theorem barren_gentle : Gentle operations NoRoom fun _ => True where
  writeField := by
    rintro m S o field v ⟨hb, rfl⟩ - ho
    exact ho.elim
  writeRoot := by
    rintro m S slot v ⟨hb, rfl⟩ - hv
    have hl : ∀ r, Lasting operations True m (m.withRoots r) := barren_laws.lasting_roots ⟨hb, rfl⟩
    cases hs : m.roots.get? slot with
    | none => exact .of_error (Barren.writeRoot_trap hv hs) (hl m.roots)
    | some old => exact .of_eq (hb.writeRoot_run hs hv) (hl _)
  push := by
    rintro m S v ⟨hb, rfl⟩ - hv
    have hl : ∀ r, Lasting operations True m (m.withRoots r) := barren_laws.lasting_roots ⟨hb, rfl⟩
    change Anyhow (push v) m _
    unfold push
    cases hp : pushRoot v m.roots with
    | error e r => exact .of_error (bind_error (roots_lift_error hp)) (hl r)
    | ok a r =>
      refine .step (roots_lift hp) (.step GcM.run_own ?_)
      rw [Machine.withRoots_own]
      cases m.own.mode with
      | eager => exact .of_eq (increment_immediate .eager hv.ref_none) (hl r)
      | deferred => exact .pure (hl r)
  pop := by
    rintro m S ⟨hb, rfl⟩ -
    have hl : ∀ r, Lasting operations True m (m.withRoots r) := barren_laws.lasting_roots ⟨hb, rfl⟩
    cases hv : m.roots.stack.back? with
    | none =>
      have hfail : popRoot m.roots = .error (.failed .stackUnderflow) m.roots := by rw [popRoot, hv]
      exact .of_error (bind_error (roots_lift_error hfail)) (hl m.roots)
    | some v => exact .of_eq (hb.pop_run hv) (hl _)

end Reclaim.Counting
