import Reclaim.Proofs.Counting.Balance

/-!
# Writing into counted objects and roots

Whatever is written into an object leaves the headers alone, so the counts stay those of the
references before the write; the references after it differ by those of the object (`refs_rewrite`),
or by the one in the field that is written (`Arena.succ_put`). A write is therefore correct if it
counts the new reference and lets go of the old one.

Results:
* `initField_run`, `countCopied_run`: filling a new object.
* `writeField_runs`, `writeRoot_runs`, `push_run`, `pop_runs`: the write barriers.
-/

namespace Reclaim

/-! ## References that change -/

section Refs

variable {hd o k field : Nat} {h h' : Arena} {blocks : List (Nat × Nat)} {v : Value}

/-- The references of one object may change, and those of the others stay. -/
theorem Housed.refs_rewrite (hh : Housed hd h blocks) (hnd : blocks.Nodup) (hb : (o, k) ∈ blocks)
    (hrw : Rewritten (Held blocks) o h h') :
    ∃ rest, (heapRefs h blocks).Perm (h.succ o ++ rest) ∧ (heapRefs h' blocks).Perm
    (h'.succ o ++ rest) := by
  have hrest : heapRefs h' (blocks.erase (o, k)) = heapRefs h (blocks.erase (o, k)) := by
    refine heapRefs_congr fun c hc => ?_
    obtain ⟨hne, hc⟩ := hnd.mem_erase_iff.mp hc
    have hco : c.1 ≠ o := fun he => hne (hh.eq_of_fst hc hb he)
    refine Arena.succ_congr (hrw.head hh.closed ⟨c.2, hc⟩ hco) fun ht => ?_
    have hp := Arena.payload_of_pair ht
    exact ⟨hrw c.1 1 ⟨c.2, hc⟩ hco (by omega), hrw c.1 2 ⟨c.2, hc⟩ hco (by omega)⟩
  have hbefore := heapRefs_perm (h := h) hb
  have hafter := heapRefs_perm (h := h') hb
  rw [hrest] at hafter
  exact ⟨_, hbefore, hafter⟩

/-- A pair refers to something else after a store. -/
theorem Arena.succ_put (ht : h.tag o = some .pair) (hf : field = o + 1 ∨ field = o + 2)
    (hs : field < h.size) :
    ∃ rest, (h.succ o).Perm ((h.value field).ref?.toList ++ rest) ∧
    ((h.put field v.bits).succ o).Perm (v.ref?.toList ++ rest) := by
  have hword : (h.put field v.bits).word o = h.word o := Arena.word_put_ne _ (by omega)
  have ht' : (h.put field v.bits).tag o = some .pair := by rw [Arena.tag_congr hword, ht]
  have hpair : ∀ a b : Value, [a, b].filterMap Value.ref? = a.ref?.toList ++
      b.ref?.toList := fun a b => by
    cases ha : a.ref? <;> cases hb : b.ref? <;> simp [ha, hb]
  have hsucc : ∀ g : Arena, g.tag o = some .pair →
      g.succ o = (g.value (o + 1)).ref?.toList ++ (g.value (o + 2)).ref?.toList := fun g hg => by
    rw [Arena.succ_eq, if_pos hg, ← hpair]
    rfl
  rw [hsucc h ht, hsucc _ ht']
  rcases hf with rfl | rfl
  · refine ⟨(h.value (o + 2)).ref?.toList, .refl _, ?_⟩
    rw [Arena.value_put_self hs, Arena.value_congr
      (Arena.word_put_ne v.bits (show o + 2 ≠ o + 1 by omega))]
  · refine ⟨(h.value (o + 1)).ref?.toList, List.perm_append_comm, ?_⟩
    rw [Arena.value_put_self hs, Arena.value_congr
      (Arena.word_put_ne v.bits (show o + 1 ≠ o + 2 by omega))]
    exact List.perm_append_comm

end Refs

namespace Counting

variable {mode : CountMode} {m m' m'' : Machine Counting} {ts ts' : List Tile}
  {T R doomed : List Nat} {o k n field x : Nat} {v old : Value}

/-- What is lost after a change that takes no reference away was lost before. -/
theorem Lost.of_refs (hx : Lost m' ts x) (hown : m'.own = m.own)
    (hroots : ∀ x, m.roots.Refers x → m'.roots.Refers x)
    (hrefs : ∀ x ∈ refs m ts (rootRefs m.own.mode m.roots), x ∈ refs m' ts
      (rootRefs m'.own.mode m'.roots)) : Lost m ts x := by
  have hheld := hx.stray.held
  have hqueue := hx.stray.unqueued
  have hunheld := hx.unheld
  rw [blocksOf, hown] at hheld
  rw [hown] at hqueue hunheld
  exact ⟨⟨hheld, fun hm => hx.stray.uncounted (hrefs x hm), by simp, hqueue⟩,
    fun hmode hr => hunheld hmode (hroots x hr)⟩

/-! ## Words of objects -/

/-- The words of one object change. -/
theorem Dying.rewrite {h' : Arena} (hd : Dying m ts T doomed) (hm : (o, k) ∈ blocksOf m ts)
    (hsize : h'.size = m.heap.size)
    (hout : ∀ a, a < o ∨ o + k ≤ a + m.own.mode.headerWords → h'.word a = m.heap.word a)
    (hcl : Closed h' (Held (blocksOf m ts))) (hfit : m.own.mode.headerWords + h'.payload o ≤ k) :
    Dying (m.withHeap h') ts T doomed := by
  have hb := hd.stock
  have hheader : ∀ x, Held (blocksOf m ts) x → ∀ i, 1 ≤ i → i ≤ m.own.mode.headerWords →
      h'.word (x - i) = m.heap.word (x - i) := by
    rintro x ⟨n, hx⟩ i h1 h2
    refine hout _ ?_
    by_contra hno
    exact hb.housed.object_ne_header hm hx (by simp only; omega) (by simp only; omega) h1 h2 rfl
  refine ⟨⟨?_, ?_, hb.housed.rewrite hm hsize hout hcl hfit, hb.roots, fun hmode => ?_⟩, ?_,
    hd.bounded, hd.nodup, hd.held, hd.uncounted⟩
  · exact hb.region.trans (by simp [Arena.region, hsize])
  · change Tiled m.own.freeList h' 0 h'.size ts
    rw [hsize]
    exact hb.tiled.update m.own.mode.header_pos hsize fun a ha => hout a (ha _ hm)
  · have hq := hb.queued hmode
    refine ⟨hq.nodup, hq.room, hq.listed, hq.apart, fun x hx hxd => ?_⟩
    rw [Machine.withHeap_heap, hheader x hx queuedOffset (by decide) m.own.mode.header_pos]
    exact hq.flag x hx hxd
  · exact hd.counted.congr fun x hx =>
      hheader x hx _ m.own.mode.offset_pos (Nat.le_of_lt m.own.mode.offset_lt)

/-- One more word, in a field of a pair. -/
theorem Dying.store (hd : Dying m ts T []) (ho : Held (blocksOf m ts) o)
    (ht : m.heap.tag o = some .pair) (hf : field = o + 1 ∨ field = o + 2)
    (hv : v.Within (Held (blocksOf m ts))) (R : List Nat) :
    field < m.heap.size ∧ Dying (m.withHeap (m.heap.put field v.bits)) ts T [] ∧
      ((m.heap.value field).ref?.toList ++ refs (m.withHeap (m.heap.put field v.bits)) ts R).Perm
      (v.ref?.toList ++ refs m ts R) := by
  have hb := hd.stock
  have hap := hb.housed.objects_apart
  obtain ⟨i, hlt, -, rfl⟩ := field_offset ht hf
  obtain ⟨k, hm⟩ := id ho
  have hin := hap.inside o ho
  have hfit := hb.housed.fit hm
  have hs : o + i < m.heap.size := by omega
  have hst : Stored (Held (blocksOf m ts)) (o + i) v.bits m.heap (m.heap.put (o + i) v.bits) :=
    stored_put hs
  refine ⟨hs, hd.rewrite hm (by simp) (fun a ha => Arena.word_put_ne _ (by omega))
    (hst.closed hap ho ht hf hv) ?_, ?_⟩
  · rw [Arena.payload_congr (hst.head hap ho ht hf ho)]
    exact hfit
  · have hrw : Rewritten (Held (blocksOf m ts)) o m.heap (m.heap.put (o + i) v.bits) :=
      fun x j hx hne hj =>
      Arena.word_put_ne _ fun he => hne (hap.field_unique ho ht hf hx hj he)
    obtain ⟨rest, h1, h2⟩ := hb.housed.refs_rewrite (hb.tiled.nodup_objectsIn _) hm hrw
    obtain ⟨rest', h3, h4⟩ := Arena.succ_put (v := v) ht hf hs
    change (_ ++ (heapRefs (m.heap.put (o + i) v.bits) (blocksOf m ts) ++ R)).Perm
      (_ ++ (heapRefs m.heap (blocksOf m ts) ++ R))
    refine List.perm_iff_count.mpr fun a => ?_
    have e1 := h1.count_eq a
    have e2 := h2.count_eq a
    have e3 := h3.count_eq a
    have e4 := h4.count_eq a
    simp only [List.count_append] at e1 e2 e3 e4 ⊢
    omega

/-- There is room for one more reference. -/
theorem Balanced.length_add (hg : Balanced m ts) (v : Value) :
    (v.ref?.toList ++ refs m ts (rootRefs m.own.mode m.roots)).length ≤ countLimit := by
  have hlt := hg.dying.stock.length_refs hg.fits (length_rootRefs m.own.mode m.roots)
  have hle : v.ref?.toList.length ≤ 1 := by cases v.ref? <;> simp
  rw [List.length_append]
  omega

/-- One more reference is counted. -/
theorem Balanced.increment_run (hg : Balanced m ts) (hv : v.Within (Held (blocksOf m ts))) :
    ∃ m', (liftM (increment m.own.mode v) : GcM Counting Unit) m = .ok () m' ∧ m'.own = m.own ∧
    Noted m m' ts ∧
      Dying m' ts (v.ref?.toList ++ refs m' ts (rootRefs m.own.mode m.roots)) [] := by
  obtain ⟨m', hrun, hown, hn, hd'⟩ := hg.dying.increment_run hv (hg.length_add v)
  exact ⟨m', hrun, hown, hn, by rw [hn.refs_eq hg.dying.stock]; exact hd'⟩

/-- A value is counted and stored into a field; what was there is still counted. -/
theorem Balanced.replace_run (hg : Balanced m ts) (ho : Held (blocksOf m ts) o)
    (ht : m.heap.tag o = some .pair) (hf : field = o + 1 ∨ field = o + 2)
    (hv : v.Within (Held (blocksOf m ts))) :
    ∃ m₁ m', (liftM (increment m.own.mode v) : GcM Counting Unit) m = .ok () m₁ ∧
      (liftM (loadValue field) : GcM Counting Value) m₁ = .ok (m.heap.value field) m₁ ∧
      (liftM (storeValue field v) : GcM Counting Unit) m₁ = .ok () m' ∧ m'.own = m.own ∧
      Dying m' ts ((m.heap.value field).ref?.toList ++ refs m' ts
        (rootRefs m.own.mode m.roots)) [] ∧
      ((m.heap.value field).ref?.toList ++ refs m' ts (rootRefs m.own.mode m.roots)).Perm
        (v.ref?.toList ++ refs m ts (rootRefs m.own.mode m.roots)) ∧
      Stored (Held (blocksOf m ts)) field v.bits m.heap m'.heap ∧ m'.roots = m.roots ∧
      m'.stats = m.stats ∧ m'.stress = m.stress := by
  have hb := hg.dying.stock
  have hcl := hb.housed.closed
  obtain ⟨m₁, hinc, hown, hn, hd₁⟩ := hg.increment_run hv
  have hsame := hn.same hb
  have ht₁ : m₁.heap.tag o = some .pair := by
    rw [Arena.tag_congr (hsame.head (hcl.known o ho) ho), ht]
  have hval : m₁.heap.value field = m.heap.value field := by
    obtain ⟨i, hlt, -, rfl⟩ := field_offset ht hf
    exact Arena.value_congr (hsame o i ho hlt)
  have heq := hn.blocksOf_eq
  obtain ⟨hs, hd₂, hperm⟩ := hd₁.store (by rw [heq]; exact ho) ht₁ hf (by rw [heq]; exact hv)
    (rootRefs m.own.mode m.roots)
  rw [hval] at hperm
  have hperm' := hperm
  rw [hn.refs_eq hb] at hperm'
  refine ⟨m₁, _, hinc, ?_, heap_lift (storeValue_run hs), hown, hd₂.perm hperm.symm, hperm',
    fun x i hx hi => ?_, hn.roots, hn.stats, hn.stress⟩
  · rw [← hval]
    exact read_lift (loadValue_run hs)
  · have hst : Stored (Held (blocksOf m ts)) field v.bits m₁.heap (m₁.heap.put field v.bits) :=
      stored_put hs
    rw [Machine.withHeap_heap, hst x i hx (by rw [hsame.payload (hcl.known x hx) hx]; exact hi),
      hsame x i hx hi]

/-- A field that refers to nothing gets a value. -/
theorem initField_run (hg : Balanced m ts) (ho : Held (blocksOf m ts) o)
    (ht : m.heap.tag o = some .pair) (hf : field = o + 1 ∨ field = o + 2)
    (hold : (m.heap.value field).isRef = false) (hv : v.Within (Held (blocksOf m ts))) :
    ∃ m', initField field v m = .ok () m' ∧ m'.own = m.own ∧ Balanced m' ts ∧
      (∀ x, Lost m' ts x → Lost m ts x ∧ v.ref? ≠ some x) ∧
      Stored (Held (blocksOf m ts)) field v.bits m.heap m'.heap ∧
      m'.roots = m.roots ∧ m'.stats = m.stats ∧ m'.stress = m.stress := by
  obtain ⟨m₁, m', hinc, -, hstore, hown, hd', hperm, hst, hroots, hrest⟩ :=
    hg.replace_run ho ht hf hv
  rw [Value.ref?_eq_none hold] at hd' hperm
  have hrefs : ∀ x ∈ v.ref?.toList ++ refs m ts (rootRefs m.own.mode m.roots),
      x ∈ refs m' ts (rootRefs m'.own.mode m'.roots) := by
    rw [hown, hroots]
    exact fun x hx => hperm.mem_iff.mpr hx
  refine ⟨m', ?_, hown, ⟨by rw [hown, hroots]; exact hd', by rw [hroots]; exact hg.fits⟩,
    fun x hx => ⟨?_, fun hv => ?_⟩, hst, hroots, hrest⟩
  · rw [initField, bind_ok GcM.run_own, bind_ok hinc]
    exact hstore
  · exact hx.of_refs hown (by rw [hroots]; exact fun _ h => h) fun x hm =>
      hrefs x (List.mem_append_right _ hm)
  · exact hx.stray.uncounted (hrefs x (by simp [hv]))

/-- A field that held another value before. -/
theorem writeField_runs (hg : Balanced m ts) (hpark : m.roots.parked = 0)
    (ho : Held (blocksOf m ts) o) (ht : m.heap.tag o = some .pair)
    (hf : field = o + 1 ∨ field = o + 2) (hv : v.Within (Held (blocksOf m ts))) :
    Runs (writeField field v) m
    (fun _ m' => ∃ ts', Thinned m m' ts ts' ∧
      Stored (Held (blocksOf m' ts')) field v.bits m.heap m'.heap ∧
      m'.roots = m.roots) (Declined m) := by
  obtain ⟨m₀, m₁, hinc, hload, hstore, hown, hd₁, hperm, hst, hroots, hstats, hstress⟩ :=
    hg.replace_run ho ht hf hv
  unfold writeField
  refine Runs.step GcM.run_own (Runs.step hinc (Runs.step hload (Runs.step hstore ?_)))
  have hblocks : blocksOf m₁ ts = blocksOf m ts := by rw [blocksOf, hown]
  have hold : (m.heap.value field).Within (Held (blocksOf m₁ ts)) := by
    rw [hblocks]
    exact hg.dying.stock.housed.closed.field o field ho ht hf
  have hrun := letGo_runs (by rw [hown, hroots]; exact hd₁) (by rw [hroots]; exact hg.fits)
    (by rw [hroots]; exact hpark) hold
  refine (runs_declined hrun (by rw [hown]) (by rw [hroots]) hstats).mono fun _ m' hm => ?_
  rw [hown, hroots] at hm
  obtain ⟨ts', hthin, hs⟩ :=
    hm.thinned hown hstats hstress (fun x hx => hperm.mem_iff.mpr (List.mem_append_right _ hx))
    (by rw [hroots]; exact fun _ h => .inl h)
  refine ⟨ts', hthin, fun x i hx hi => ?_, hs.roots.trans hroots⟩
  have hx₀ := hthin.held hx
  rw [hs.same x i hx ?_, hst x i hx₀ hi]
  rw [Arena.payload_congr (hst.head hg.dying.stock.housed.objects_apart ho ht hf hx₀)]
  exact hi

/-- Words without references are written into a new object. -/
theorem Balanced.overwrite {h' : Arena} (hg : Balanced m ts) (hm : (o, k) ∈ blocksOf m ts)
    (hroom : m.own.mode.headerWords + n ≤ k) (hsize : h'.size = m.heap.size)
    (hout : ∀ a, a < o ∨ o + n ≤ a → h'.word a = m.heap.word a)
    (hnew : ∀ x, Held (blocksOf m ts) x → x ≠ o → x + m.heap.payload x ≤ o ∨ o + n ≤ x)
    (htag : h'.tag o ≠ none) (hpay : h'.payload o ≤ n) (hnil : m.heap.succ o = [])
    (hnil' : h'.succ o = []) : Balanced (m.withHeap h') ts ∧ ∀ x, Lost (m.withHeap h') ts x →
    Lost m ts x := by
  have hb := hg.dying.stock
  have hrw : Rewritten (Held (blocksOf m ts)) o m.heap h' := rewritten_of_outside hout hnew
  have hcl : Closed h' (Held (blocksOf m ts)) := by
    refine hrw.closed hb.housed.closed htag fun ht => ?_
    obtain ⟨h1, h2⟩ := Arena.fields_of_succ_nil hnil' ht
    exact ⟨.of_not_ref h1, .of_not_ref h2⟩
  have hd' := hg.dying.rewrite hm hsize (fun a ha => hout a (by omega)) hcl (by omega)
  obtain ⟨rest, h1, h2⟩ := hb.housed.refs_rewrite (hb.tiled.nodup_objectsIn _) hm hrw
  rw [hnil] at h1
  rw [hnil'] at h2
  have hperm := (h1.trans h2.symm).append_right (rootRefs m.own.mode m.roots)
  exact ⟨⟨hd'.perm hperm, hg.fits⟩,
    fun x hx => hx.of_refs rfl (fun _ h => h) fun x hm => hperm.mem_iff.mp hm⟩

/-- Counts what one field of a copy refers to. -/
def countField (mode : CountMode) (field : Nat) : GcM Counting Unit := do
  increment mode (← loadValue field)

/-- The references in some fields are counted. -/
theorem countFields_run {fs : List Nat} (hd : Dying m ts T []) (ho : Held (blocksOf m ts) o)
    (hfs : ∀ a ∈ fs, a ∈ m.heap.fields o)
    (hlen : ((fs.filterMap fun a => (m.heap.value a).ref?) ++ T).length ≤ countLimit) :
    ∃ m', fs.forM (countField m.own.mode) m = .ok () m' ∧ m'.own = m.own ∧ Noted m m' ts ∧
      Dying m' ts ((fs.filterMap fun a => (m.heap.value a).ref?) ++ T) [] := by
  induction fs generalizing m T with
  | nil => exact ⟨m, rfl, rfl, .refl m ts, hd⟩
  | cons a fs ih =>
    have hb := hd.stock
    obtain ⟨-, -, hsize, c, hc, -⟩ := (Noted.refl m ts).keeps_field hb ho (hfs a (by simp))
    have hw : (m.heap.value a).Within (Held (blocksOf m ts)) := by
      obtain ⟨ht, hor, -⟩ := Arena.mem_fields.mp (hfs a (by simp))
      exact hb.housed.closed.field o a ho ht hor
    have hcons : ((a :: fs).filterMap fun a => (m.heap.value a).ref?) = c :: fs.filterMap fun a =>
      (m.heap.value a).ref? :=
      List.filterMap_cons_some hc
    rw [hcons] at hlen ⊢
    obtain ⟨m₁, hinc, hown, hn, hd₁⟩ := hd.increment_run hw (by
      rw [hc]
      simp only [Option.toList_some, List.cons_append, List.nil_append, List.length_cons,
        List.length_append] at hlen ⊢
      omega)
    rw [hc] at hd₁
    have hkeep := fun b (hb' : b ∈ fs) => hn.keeps_field hb ho (hfs b (by simp [hb']))
    have hvals : (fs.filterMap fun a => (m₁.heap.value a).ref?) = fs.filterMap fun a =>
      (m.heap.value a).ref? :=
      List.filterMap_congr fun b hb' => by rw [(hkeep b hb').1]
    have hperm : ((fs.filterMap fun a => (m.heap.value a).ref?) ++ c :: T).Perm
        (c :: (fs.filterMap fun a => (m.heap.value a).ref?) ++ T) :=
      List.perm_middle
    obtain ⟨m₂, hrest, hown₂, hn₂, hd₂⟩ := ih hd₁ (by rw [hn.blocksOf_eq]; exact ho)
      (fun b hb' => (hkeep b hb').2.1) (by
      rw [hvals]
      exact Nat.le_trans (Nat.le_of_eq hperm.length_eq) hlen)
    rw [hvals] at hd₂
    refine ⟨m₂, ?_, hown₂.trans hown, hn.trans hn₂, hd₂.perm hperm⟩
    have hfirst : countField m.own.mode a m = .ok () m₁ := by
      rw [countField, bind_ok (read_lift (loadValue_run hsize))]
      exact hinc
    rw [hown] at hrest
    exact (bind_ok hfirst).trans hrest

/-- A new object becomes a copy of another one, and its references are counted. -/
theorem countCopied_run {src : Nat} (hg : Balanced m ts) (hm : (o, k) ∈ blocksOf m ts)
    (hroom : m.own.mode.headerWords + n ≤ k) (hnil : m.heap.succ o = [])
    (hc : CopiedInto (Held (blocksOf m ts)) m.heap src o n (m.heap.copy src o n)) :
    ∃ m', countCopied o (m.withHeap (m.heap.copy src o n)) = .ok () m' ∧ m'.own = m.own ∧
    Balanced m' ts ∧
      (∀ x, Lost m' ts x → Lost m ts x) ∧ Same (Held (blocksOf m ts))
      (m.heap.copy src o n) m'.heap ∧ m'.roots = m.roots ∧ m'.stats = m.stats ∧
      m'.stress = m.stress := by
  have hb := hg.dying.stock
  have ho : Held (blocksOf m ts) o := ⟨k, hm⟩
  have hd₁ := hg.dying.rewrite hm (by simp) (fun a ha => hc.outer a (by omega)) hc.closed
    (by rw [hc.payload]; exact hroom)
  obtain ⟨rest, h1, h2⟩ := hb.housed.refs_rewrite (hb.tiled.nodup_objectsIn _) hm hc.rewritten
  have hperm : ((m.heap.copy src o n).succ o ++ refs m ts (rootRefs m.own.mode m.roots)).Perm
      (refs (m.withHeap (m.heap.copy src o n)) ts (rootRefs m.own.mode m.roots)) := by
    rw [hnil, List.nil_append] at h1
    rw [refs, ← List.append_assoc]
    exact ((h1.append_left _).trans h2.symm).append_right _
  have hlen := hd₁.stock.length_refs hg.fits (length_rootRefs m.own.mode m.roots)
  rw [← hperm.length_eq] at hlen
  obtain ⟨m', hrun, hown, hn, hd'⟩ := countFields_run hd₁ ho (fun a ha => ha) (Nat.le_of_lt hlen)
  have hfields : pointerFields o (m.heap.copy src o n) = .ok ((m.heap.copy src o n).fields o) := by
    have hap := hd₁.stock.housed.objects_apart
    exact pointerFields_run (hap.closed.known o ho) (hap.inside o ho).2
  have hrefs : refs m' ts (rootRefs m'.own.mode m'.roots) =
      refs (m.withHeap (m.heap.copy src o n)) ts (rootRefs m.own.mode m.roots) := by
    rw [hn.refs_eq hd₁.stock, hown, hn.roots]
    rfl
  refine ⟨m', ?_, hown, ⟨?_, by rw [hn.roots]; exact hg.fits⟩, fun x hx => ?_,
    hn.same hd₁.stock, hn.roots, hn.stats, hn.stress⟩
  · rw [countCopied, bind_ok GcM.run_own, bind_ok (read_lift hfields)]
    exact hrun
  · rw [hrefs]
    exact hd'.perm hperm
  · refine hx.of_refs hown (by rw [hn.roots]; exact fun _ h => h) fun x hm => ?_
    rw [hrefs]
    exact hperm.mem_iff.mp (List.mem_append_right _ hm)

/-! ## Roots -/

theorem Dying.withRoots (hd : Dying m ts T doomed) {r : Roots}
    (hr : r.Within (Held (blocksOf m ts))) : Dying (m.withRoots r) ts T doomed :=
  ⟨⟨hd.stock.region, hd.stock.tiled, hd.stock.housed, hr, hd.stock.queued⟩, hd.counted, hd.bounded,
    hd.nodup, hd.held, hd.uncounted⟩

/-- The roots may change where they are not counted. -/
theorem Balanced.withRoots (hg : Balanced m ts) {r : Roots} (hr : r.Within (Held (blocksOf m ts)))
    (hf : RootsFit r) (hp : (rootRefs m.own.mode r).Perm (rootRefs m.own.mode m.roots)) :
    Balanced (m.withRoots r) ts :=
  ⟨(hg.dying.withRoots hr).perm (hp.symm.append_left _), hf⟩

theorem RootsFit.set {r : Roots} (hf : RootsFit r) (slot : RootSlot) (v : Value) :
    RootsFit (r.set slot v) :=
  ⟨by simpa using hf.depth, by simpa using hf.table, by simpa using hf.parked⟩

theorem RootsFit.pop {r : Roots} (hf : RootsFit r) (hpark : r.parked = 0) :
    RootsFit { r with stack := r.stack.pop } := by
  have hdepth := hf.depth
  exact ⟨by simp only [Array.size_pop]; omega, hf.table, by simp [hpark]⟩

/-- What a slot refers to is still referred to after another value was stored, but for what the slot
held. -/
theorem refers_set {r : Roots} {slot : RootSlot} (hold : r.get? slot = some old) (hx : r.Refers x) :
    (r.set slot v).Refers x ∨ x ∈ old.ref?.toList := by
  obtain ⟨s, w, hw, hwx⟩ := hx
  by_cases hs : s = slot
  · subst hs
    rw [hold] at hw
    cases hw
    exact .inr (by simp [hwx])
  · exact .inl ⟨s, w, by rw [Roots.get?_set_of_ne hs]; exact hw, hwx⟩

theorem refers_pop {r : Roots} (hv : r.stack.back? = some v) (hx : r.Refers x) :
    Roots.Refers { r with stack := r.stack.pop } x ∨ x ∈ v.ref?.toList := by
  obtain ⟨s, w, hw, hwx⟩ := hx
  cases s with
  | global i => exact .inl ⟨.global i, w, hw, hwx⟩
  | stack i =>
    by_cases hi : i < r.stack.size - 1
    · refine .inl ⟨.stack i, w, ?_, hwx⟩
      rw [Roots.get?, Array.getElem?_pop, if_pos hi]
      exact hw
    · obtain ⟨hlt, -⟩ := Array.getElem?_eq_some_iff.mp hw
      have hlast : i = r.stack.size - 1 := by omega
      rw [Roots.get?, hlast, ← Array.back?_eq_getElem?, hv] at hw
      cases hw
      exact .inr (by simp [hwx])

theorem refers_push {r : Roots} {parked : Nat} (hx : r.Refers x) : Roots.Refers { r with
      stack := r.stack.push v, parked } x := by
  obtain ⟨s, w, hw, hwx⟩ := hx
  refine ⟨s, w, ?_, hwx⟩
  cases s with
  | global i => exact hw
  | stack i =>
    obtain ⟨hi, -⟩ := Array.getElem?_eq_some_iff.mp hw
    rw [Roots.get?, Array.getElem?_push, if_neg (by omega)]
    exact hw

/-- A root slot that held another value before. -/
theorem writeRoot_runs {slot : RootSlot} (hg : Balanced m ts) (hpark : m.roots.parked = 0)
    (hold : m.roots.get? slot = some old) (hv : v.Within (Held (blocksOf m ts))) :
    Runs (writeRoot slot v) m
    (fun _ m' => ∃ ts', Thinned m m' ts ts' ∧ Same (Held (blocksOf m' ts')) m.heap m'.heap ∧
      m'.roots = m.roots.set slot v) (Declined m) := by
  have hb := hg.dying.stock
  have hr : (m.roots.set slot v).Within (Held (blocksOf m ts)) := hb.roots.set hv slot
  have hw := hb.roots slot old hold
  have hlost : ∀ x, m.roots.Refers x → (m.roots.set slot v).Refers x ∨
      x ∈ old.ref?.toList ++ refs m ts (rootRefs m.own.mode (m.roots.set slot v)) :=
    fun x hx => (refers_set hold hx).imp_right (List.mem_append_left _)
  unfold writeRoot
  refine Runs.step GcM.run_own ?_
  cases hmode : m.own.mode with
  | eager =>
    obtain ⟨m₁, hinc, hown, hn, hd₁⟩ := hg.increment_run hv
    have heq := hn.blocksOf_eq
    have hrefs := hn.refs_eq (R := rootRefs m.own.mode (m.roots.set slot v)) hb
    have hold₁ : m₁.roots.get? slot = some old := by
      rw [hn.roots]
      exact hold
    have hset : (liftM (setRoot slot v) : GcM Counting Unit) m₁ = .ok ()
        (m₁.withRoots (m.roots.set slot v)) := by
      have h1 := roots_lift (m := m₁) (setRoot_run (w := v) hold₁)
      rwa [hn.roots] at h1
    rw [hmode] at hinc
    refine Runs.step hinc (Runs.step (roots_lift (getRoot_run hold₁)) (Runs.step hset ?_))
    have hperm : (v.ref?.toList ++ refs m ts (rootRefs m.own.mode m.roots)).Perm
        (old.ref?.toList ++ refs m ts (rootRefs m.own.mode (m.roots.set slot v))) := by
      obtain ⟨rest, h1, h2⟩ := Roots.refs_set (v := v) Roots.nodup_unparked
        (Roots.mem_unparked hpark hold) hold
      rw [hmode, rootRefs, rootRefs, Roots.unparked_set]
      refine List.perm_iff_count.mpr fun a => ?_
      have e1 := h1.count_eq a
      have e2 := h2.count_eq a
      simp only [List.count_append] at e1 e2 ⊢
      omega
    rw [hn.refs_eq hb] at hd₁
    have hd₂ : Dying (m₁.withRoots (m.roots.set slot v)) ts
      (old.ref?.toList ++ refs (m₁.withRoots (m.roots.set slot v)) ts
        (rootRefs (m₁.withRoots (m.roots.set slot v)).own.mode (m.roots.set slot v))) [] := by
      have h := (hd₁.withRoots (by rw [heq]; exact hr)).perm hperm
      rw [← hrefs, ← hown] at h
      exact h
    have hrun := letGo_runs hd₂ (hg.fits.set slot v) (by simpa using hpark)
      (by rw [← heq] at hw; exact hw)
    refine (runs_declined hrun (by rw [Machine.withRoots_own, hown]) (by simp) hn.stats).mono
      fun _ m' hm => ?_
    change LetGo (old.ref?.toList ++ refs m₁ ts
      (rootRefs m₁.own.mode (m.roots.set slot v))) _ ts m' at hm
    rw [hown, hrefs] at hm
    obtain ⟨ts', hthin, hs⟩ := hm.thinned (m := m) hown hn.stats hn.stress
      (fun x hx => hperm.mem_iff.mp (List.mem_append_right _ hx)) hlost
    exact ⟨ts', hthin, ((hn.same hb).mono fun _ ho => hthin.held ho).trans hs.same
      fun x hx => hb.housed.closed.known x (hthin.held hx), hs.roots⟩
  | deferred =>
    have hg₁ : Balanced (m.withRoots (m.roots.set slot v)) ts :=
      hg.withRoots hr (hg.fits.set slot v) (by rw [hmode]; exact .refl _)
    refine Runs.step (roots_lift (getRoot_run hold)) (Runs.step (roots_lift (setRoot_run hold)) ?_)
    refine (runs_declined (m := m) (unroot_runs hg₁ hmode hw) rfl (by simp) rfl).mono
      fun _ m' hm => ?_
    obtain ⟨ts', hthin, hs⟩ :=
      hm.thinned (m := m) rfl rfl rfl (fun x hx => List.mem_append_right _ (by
      rw [hmode] at hx
      rw [Machine.withRoots_own, hmode]
      exact hx)) hlost
    exact ⟨ts', hthin, hs.same, hs.roots⟩

/-- The value on top of the stack. -/
theorem pop_runs (hg : Balanced m ts) (hpark : m.roots.parked = 0)
    (hv : m.roots.stack.back? = some v) :
    Runs pop m (fun v' m' => v' = v ∧ ∃ ts', Thinned m m' ts ts' ∧
      Same (Held (blocksOf m' ts')) m.heap m'.heap ∧
      m'.roots = { m.roots with stack := m.roots.stack.pop }) (Declined m) := by
  have hb := hg.dying.stock
  have hr := hb.roots.pop (r := m.roots) m.roots.parked
  have hw : v.Within (Held (blocksOf m ts)) := by
    rw [Array.back?_eq_getElem?] at hv
    exact hb.roots (.stack _) v hv
  unfold pop
  refine Runs.step (roots_lift (popRoot_run hv)) (Runs.step GcM.run_own ?_)
  simp only [Machine.withRoots_own]
  -- what was counted is counted still, or it is the value itself
  have hlast : ∀ (_ : Unit) m', (refs m ts (rootRefs m.own.mode m.roots) ⊆
        v.ref?.toList ++ refs m ts (rootRefs m.own.mode { m.roots with
          stack := m.roots.stack.pop })) →
      LetGo (v.ref?.toList ++ refs m ts (rootRefs m.own.mode { m.roots with
        stack := m.roots.stack.pop }))
        (m.withRoots { m.roots with stack := m.roots.stack.pop }) ts m' →
      Runs (pure v : GcM Counting Value) m' (fun v' m' => v' = v ∧ ∃ ts', Thinned m m' ts ts' ∧
        Same (Held (blocksOf m' ts')) m.heap m'.heap ∧ m'.roots = { m.roots with
          stack := m.roots.stack.pop }) (Declined m) := by
    intro _ m' hsub hm
    obtain ⟨ts', hthin, hs⟩ := hm.thinned (m := m) rfl rfl rfl (fun x hx => hsub hx)
      fun x hx => (refers_pop hv hx).imp_right (List.mem_append_left _)
    exact Runs.pure ⟨rfl, ts', hthin, hs.same, hs.roots⟩
  cases hmode : m.own.mode with
  | eager =>
    have hperm : (refs m ts (rootRefs m.own.mode m.roots)).Perm
        (v.ref?.toList ++ refs m ts (rootRefs m.own.mode { m.roots with
          stack := m.roots.stack.pop })) := by
      rw [hmode, rootRefs, rootRefs]
      refine List.perm_iff_count.mpr fun a => ?_
      have e1 := (Roots.refs_pop hpark hv).count_eq a
      simp only [List.count_append] at e1 ⊢
      omega
    have hd₁ := (hg.dying.withRoots hr).perm hperm
    have hrun := runs_declined (m := m) (letGo_runs hd₁ (hg.fits.pop hpark) hpark hw) rfl rfl rfl
    exact hrun.bind fun u m' hm => hlast u m' hperm.subset hm
  | deferred =>
    have hrun := unroot_runs (hg.withRoots hr (hg.fits.pop hpark)
      (by rw [hmode]; exact .refl _)) hmode hw
    refine (runs_declined (m := m) hrun rfl rfl rfl).bind fun u m' hm => hlast u m' ?_ hm
    rw [hmode]
    exact List.subset_append_right _ _

/-- One more value on the stack. -/
theorem push_run (hg : Balanced m ts) (hpark : m.roots.parked = 0)
    (hv : v.Within (Held (blocksOf m ts))) (hcap : m.roots.stack.size < m.roots.capacity)
    (hlim : m.roots.stack.size + 1 < tableLimit) :
    ∃ m', push v m = .ok () m' ∧ Balanced m' ts ∧ (∀ x, Lost m' ts x → Lost m ts x) ∧
    Same (Held (blocksOf m ts)) m.heap m'.heap ∧
      m'.own = m.own ∧ m'.roots = { m.roots with stack := m.roots.stack.push v } ∧
      m'.stats = m.stats ∧ m'.stress = m.stress ∧
      m'.heap.size = m.heap.size := by
  have hb := hg.dying.stock
  have hr := hb.roots.push (r := m.roots) hv m.roots.parked
  have hf : RootsFit { m.roots with stack := m.roots.stack.push v } :=
    ⟨by simpa using hlim, hg.fits.table, by simp [hpark]⟩
  have hpush : (liftM (pushRoot v) : GcM Counting Unit) m = .ok () (m.withRoots { m.roots with
      stack := m.roots.stack.push v }) :=
    roots_lift (pushRoot_run hcap hlim)
  rw [push, bind_ok hpush, bind_ok GcM.run_own]
  simp only [Machine.withRoots_own]
  cases hmode : m.own.mode with
  | eager =>
    have hd₁ := hg.dying.withRoots hr
    obtain ⟨m', hrun, hown, hn, hd'⟩ := hd₁.increment_run hv (hg.length_add v)
    rw [Machine.withRoots_own, hmode] at hrun
    have hperm : (v.ref?.toList ++ refs m ts (rootRefs m.own.mode m.roots)).Perm
        (refs m' ts (rootRefs m'.own.mode m'.roots)) := by
      rw [hn.refs_eq hd₁.stock, hown, hn.roots]
      change (_ ++ (heapRefs m.heap (blocksOf m ts) ++ rootRefs m.own.mode m.roots)).Perm
        (heapRefs m.heap (blocksOf m ts) ++ rootRefs m.own.mode { m.roots with
          stack := m.roots.stack.push v })
      rw [hmode, rootRefs, rootRefs]
      refine List.perm_iff_count.mpr fun a => ?_
      have e1 := (Roots.refs_push (v := v) hpark).count_eq a
      simp only [List.count_append] at e1 ⊢
      omega
    refine ⟨m', hrun, ⟨hd'.perm hperm, by rw [hn.roots]; exact hf⟩, fun x hx => ?_,
      hn.same hd₁.stock, hown, hn.roots, hn.stats, hn.stress,
      hn.heap.size_eq⟩
    refine hx.of_refs hown (fun x h => ?_) fun x hm => hperm.mem_iff.mp (List.mem_append_right _ hm)
    rw [hn.roots]
    exact refers_push h
  | deferred =>
    refine ⟨_, rfl, hg.withRoots hr hf
      (by rw [hmode]; exact .refl _), fun x hx => ?_, .refl _ _, rfl, rfl, rfl, rfl, rfl⟩
    refine hx.of_refs rfl (fun x h => refers_push h) fun x hm => ?_
    rw [Machine.withRoots_own, hmode]
    rw [hmode] at hm
    exact hm

/-- A value is put aside for a while. -/
theorem Balanced.park (hg : Balanced m ts) (hv : v.Within (Held (blocksOf m ts)))
    (hlim : m.roots.stack.size + 1 < tableLimit) :
    Balanced (m.withRoots { m.roots with
      stack := m.roots.stack.push v, parked := m.roots.parked + 1 }) ts := by
  have hle := hg.fits.parked
  refine hg.withRoots (hg.dying.stock.roots.push hv _)
    ⟨by simpa using hlim, hg.fits.table, by simpa using hle⟩ ?_
  cases m.own.mode with
  | eager => exact .of_eq (Roots.refs_park hle)
  | deferred => exact .refl _

/-- A value that was put aside is taken back. -/
theorem Balanced.unpark (hg : Balanced m ts) (h1 : 1 ≤ m.roots.parked) :
    Balanced (m.withRoots { m.roots with
      stack := m.roots.stack.pop, parked := m.roots.parked - 1 }) ts := by
  have hle := hg.fits.parked
  have hdepth := hg.fits.depth
  refine hg.withRoots (hg.dying.stock.roots.pop _)
    ⟨by simp only [Array.size_pop]; omega, hg.fits.table, by simp only [Array.size_pop]; omega⟩ ?_
  cases m.own.mode with
  | eager => exact .of_eq (Roots.refs_unpark h1 hle)
  | deferred => exact .refl _

end Counting

end Reclaim
