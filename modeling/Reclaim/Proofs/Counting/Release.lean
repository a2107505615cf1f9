import Reclaim.Proofs.Counting.Counts

/-!
# Reclaiming objects

An object to which nothing refers is reclaimed together with what only it kept alive. While that
goes on, the counts are exact with respect to the references that are left, and the objects that are
about to be reclaimed (`doomed`) are not among those; the first of them loses its fields one by one
and then gives its block back. Counting may be deferred: then objects whose count drops to zero wait
in the table, as long as it has room.

Results:
* `dropFields_run`: the fields of a doomed object are taken out of the counts.
* `free_run`: its block is given back.
* `releaseAll_run`, `release_run`: all of this ends, every object that is left is as it was
  (`Shrunk`), none of them has become stray (`Reaped`), and the words of those that are gone are
  reported.
-/

namespace Reclaim.Counting

/-- The objects with their blocks, when the arena consists of the tiles `ts`. -/
abbrev blocksOf (m : Machine Counting) (ts : List Tile) : List (Nat × Nat) :=
  objectsIn m.own.mode.headerWords ts

/-- The words that these blocks take. -/
abbrev usedWords (m : Machine Counting) (ts : List Tile) : Nat := ((blocksOf m ts).map Prod.snd).sum

/-- The table holds listed objects, no more than it has room for, each of which knows that it is
there. Nothing is said of the `doomed` ones, but that they are not in the table. -/
structure Queued (h : Arena) (blocks : List (Nat × Nat)) (t : ZeroCountTable)
    (doomed : List Nat) : Prop where
  nodup : t.entries.toList.Nodup
  room : t.entries.size ≤ t.capacity
  listed : ∀ o ∈ t.entries.toList, Held blocks o
  apart : ∀ o ∈ doomed, o ∉ t.entries.toList
  flag : ∀ o, Held blocks o → o ∉ doomed → (h.word (o - queuedOffset) ≠ 0 ↔ o ∈ t.entries.toList)

/-- The objects lie in the tiles that are handed out, the roots refer to such objects alone, and the
table is in order. -/
structure Stock (m : Machine Counting) (ts : List Tile) (doomed : List Nat) : Prop where
  region : m.own.region = m.heap.region
  tiled : Tiled m.own.freeList m.heap 0 m.heap.size ts
  housed : Housed m.own.mode.headerWords m.heap (blocksOf m ts)
  roots : m.roots.Within (Held (blocksOf m ts))
  queued : m.own.mode = .deferred → Queued m.heap (blocksOf m ts) m.own.zeroCounts doomed

/-- The counts are those of the references `T`, and the `doomed` objects are listed, but not among
them. -/
structure Dying (m : Machine Counting) (ts : List Tile) (T doomed : List Nat) : Prop where
  stock : Stock m ts doomed
  counted : Counted (countOffset m.own.mode) m.heap (Held (blocksOf m ts)) T
  bounded : T.length ≤ countLimit
  nodup : doomed.Nodup
  held : ∀ p ∈ doomed, Held (blocksOf m ts) p
  uncounted : ∀ p ∈ doomed, p ∉ T

/-- An object that is listed though nothing refers to it, neither one of the references `T` nor the
table, and that is not about to be reclaimed either. -/
structure Stray (m : Machine Counting) (ts : List Tile) (T doomed : List Nat) (x : Nat) : Prop where
  held : Held (blocksOf m ts) x
  uncounted : x ∉ T
  spared : x ∉ doomed
  unqueued : m.own.mode = .deferred → x ∉ m.own.zeroCounts.entries.toList

/-- Only headers and the table have changed, and the table has grown at most. -/
structure Noted (m m' : Machine Counting) (ts : List Tile) : Prop where
  heap : Annotated m.own.mode.headerWords (blocksOf m ts) m.heap m'.heap
  own : m'.own = { m.own with zeroCounts := { m.own.zeroCounts with
    entries := m'.own.zeroCounts.entries } }
  grown : m.own.zeroCounts.entries.toList <+: m'.own.zeroCounts.entries.toList
  roots : m'.roots = m.roots
  stress : m'.stress = m.stress
  stats : m'.stats = m.stats

variable {m m' m'' : Machine Counting} {ts : List Tile} {T doomed pending : List Nat}
  {o c field : Nat}

namespace Noted

theorem refl (m : Machine Counting) (ts : List Tile) : Noted m m ts :=
  ⟨.refl _ _ _, rfl, List.prefix_rfl, rfl, rfl, rfl⟩

theorem mode (hn : Noted m m' ts) : m'.own.mode = m.own.mode := by rw [hn.own]

theorem capacity (hn : Noted m m' ts) :
    m'.own.zeroCounts.capacity = m.own.zeroCounts.capacity := by rw [hn.own]

theorem blocksOf_eq (hn : Noted m m' ts) : blocksOf m' ts = blocksOf m ts := by
  rw [blocksOf, hn.mode]

/-- An object that is stray afterwards was so before, as long as nothing else referred to it
then. -/
theorem stray {T' doomed' : List Nat} {x : Nat} (hn : Noted m m' ts) (hx : Stray m' ts T' doomed' x)
    (hT : x ∉ T) (hd : ∀ p ∈ doomed, p ∈ doomed') : Stray m ts T doomed x :=
  ⟨by rw [← hn.blocksOf_eq]; exact hx.held, hT, fun hm => hx.spared (hd x hm), fun hmode hm =>
    hx.unqueued (hn.mode.trans hmode) (hn.grown.subset hm)⟩

theorem trans (hn : Noted m m' ts) (hn' : Noted m' m'' ts) : Noted m m'' ts := by
  refine ⟨?_, ?_, hn.grown.trans hn'.grown, hn'.roots.trans hn.roots, hn'.stress.trans hn.stress,
    hn'.stats.trans hn.stats⟩
  · have hh := hn'.heap
    rw [hn.blocksOf_eq, hn.mode] at hh
    exact hn.heap.trans hh
  · rw [hn'.own, hn.own]

theorem same (hn : Noted m m' ts) (hb : Stock m ts doomed) :
    Same (Held (blocksOf m ts)) m.heap m'.heap := hn.heap.same hb.housed

/-- The references in fields are the same. -/
theorem heapRefs_eq (hn : Noted m m' ts) (hb : Stock m ts doomed) :
    heapRefs m'.heap (blocksOf m' ts) = heapRefs m.heap (blocksOf m ts) := by
  rw [hn.blocksOf_eq]
  exact (hn.same hb).heapRefs hb.housed.closed

/-- The stock but for the table are in order again. -/
theorem stock {doomed' : List Nat} (hn : Noted m m' ts) (hb : Stock m ts doomed)
    (hq : m.own.mode = .deferred → Queued m'.heap (blocksOf m ts) m'.own.zeroCounts doomed') :
    Stock m' ts doomed' := by
  have hlist : m'.own.freeList = m.own.freeList := by rw [hn.own]
  refine ⟨?_, ?_, ?_, ?_, ?_⟩
  · rw [hn.own, hb.region, Arena.region, Arena.region, hn.heap.size_eq]
  · rw [hlist, hn.heap.size_eq]
    exact hn.heap.tiled hb.housed m.own.mode.header_pos hb.tiled
  · rw [hn.blocksOf_eq, hn.mode]
    exact hn.heap.housed hb.housed
  · rw [hn.blocksOf_eq, hn.roots]
    exact hb.roots
  · rw [hn.blocksOf_eq, hn.mode]
    exact hq

end Noted

/-! ## The table -/

namespace Stock

theorem isQueued_run (hb : Stock m ts doomed) (hmode : m.own.mode = .deferred)
    (ho : Held (blocksOf m ts) o) (hd : o ∉ doomed) :
    isQueued m.own.mode o m.heap = .ok (decide (o ∈ m.own.zeroCounts.entries.toList)) := by
  have hh := hb.housed.header ho
  have hp := m.own.mode.header_pos
  have hf := (hb.queued hmode).flag o ho hd
  have hrun : loadHeader o queuedOffset m.heap = .ok (m.heap.word (o - queuedOffset)) :=
    loadHeader_run (by simp only [queuedOffset]; omega) (hh.2 _ (by decide) hp)
  rw [hmode, isQueued, read_bind hrun]
  change Except.ok _ = _
  congr 1
  by_cases hm : o ∈ m.own.zeroCounts.entries.toList
  · rw [decide_eq_true hm]
    exact bne_iff_ne.mpr (hf.mpr hm)
  · rw [decide_eq_false hm]
    exact bne_eq_false_iff_eq.mpr (not_not.mp (mt hf.mp hm))

end Stock

/-- A flag in the header of a listed object. -/
theorem flag_annotated (hmode : m.own.mode = .deferred) (ho : Held (blocksOf m ts) o) {w : Word} :
    Annotated m.own.mode.headerWords (blocksOf m ts) m.heap (m.heap.put (o - queuedOffset) w) := by
  obtain ⟨n, hb⟩ := ho
  exact .put (b := (o, n)) hb (by decide) (by rw [hmode]; decide)

/-- An object joins the table. -/
theorem queue_run (hb : Stock m ts doomed) (hmode : m.own.mode = .deferred)
    (ho : Held (blocksOf m ts) o) (hd : o ∉ doomed) (hne : o ∉ m.own.zeroCounts.entries.toList)
    (hfull : m.own.zeroCounts.isFull = false) :
    ∃ m', queue o m = .ok () m' ∧ Noted m m' ts ∧ Stock m' ts doomed ∧
      m'.own.zeroCounts.entries.toList = m.own.zeroCounts.entries.toList ++ [o] ∧
      ∀ x, Held (blocksOf m ts) x → m'.heap.word (x - countOffset m.own.mode) = m.heap.word
      (x - countOffset m.own.mode) := by
  have hh := hb.housed.header ho
  have hp := m.own.mode.header_pos
  have hq := hb.queued hmode
  let m₁ : Machine Counting := m.withOwn { m.own with zeroCounts := m.own.zeroCounts.insert o }
  have hstore : setQueued o true m.heap = .ok () (m.heap.put (o - queuedOffset) 1) :=
    storeHeader_run (by simp only [queuedOffset]; omega) (hh.2 _ (by decide) hp)
  have hlift : (liftM (setQueued o true) : GcM Counting Unit) m₁ = .ok ()
      (m₁.withHeap (m.heap.put (o - queuedOffset) 1)) :=
    heap_lift (m := m₁) hstore
  have hn : Noted m (m₁.withHeap (m.heap.put (o - queuedOffset) 1)) ts := 
    ⟨flag_annotated hmode ho, rfl, by simp [m₁, ZeroCountTable.insert], rfl, rfl, rfl⟩
  have hroom : m.own.zeroCounts.entries.size < m.own.zeroCounts.capacity := by
    simpa [ZeroCountTable.isFull] using hfull
  refine ⟨_, ?_, hn, hn.stock hb fun _ => ⟨?_, ?_, ?_, ?_, ?_⟩, ?_,
    fun x hx => Arena.word_put_ne _ (hb.housed.count_ne_flag hmode hx ho)⟩
  · rw [queue, bind_ok GcM.run_own]
    simp only [hfull, Bool.false_eq_true, if_false]
    rw [bind_ok (GcM.run_modifyOwn _)]
    exact hlift
  all_goals simp only [m₁, Machine.withHeap_own, Machine.withHeap_heap, Machine.withOwn_own,
    ZeroCountTable.insert, Array.toList_push]
  · exact List.nodup_append.mpr ⟨hq.nodup, by simp, fun a ha b hb hab => hne (by
      rw [List.mem_singleton.mp hb] at hab
      exact hab ▸ ha)⟩
  · rw [Array.size_push]
    exact hroom
  · intro x hx
    rcases List.mem_append.mp hx with hx | hx
    · exact hq.listed x hx
    · obtain rfl := List.mem_singleton.mp hx
      exact ho
  · intro x hx hmem
    rcases List.mem_append.mp hmem with hmem | hmem
    · exact hq.apart x hx hmem
    · obtain rfl := List.mem_singleton.mp hmem
      exact hd hx
  · intro x hx hxd
    by_cases he : x = o
    · subst he
      simp [Arena.word_put_self _ (hh.2 queuedOffset (by decide) hp)]
    · rw [Arena.word_put_ne _ fun heq => he (hb.housed.flag_inj hx ho heq), hq.flag x hx hxd]
      simp [he]

/-! ## Fields of a doomed object -/

/-- A count changes, and nothing else. -/
theorem noted_count (m : Machine Counting) (ho : Held (blocksOf m ts) o) (k : Nat) :
    Noted m (m.withHeap (m.heap.withCount m.own.mode o k)) ts :=
  ⟨Housed.annotated_count ho, rfl, List.prefix_rfl, rfl, rfl, rfl⟩

theorem Stock.recount (hb : Stock m ts doomed) (ho : Held (blocksOf m ts) o) (k : Nat) :
    Stock (m.withHeap (m.heap.withCount m.own.mode o k)) ts doomed := by
  refine (noted_count m ho k).stock hb fun hmode => ?_
  have hq := hb.queued hmode
  refine ⟨hq.nodup, hq.room, hq.listed, hq.apart, fun x hx hxd => ?_⟩
  rw [Machine.withHeap_heap, Arena.withCount, Arena.word_put_ne _
    fun he => hb.housed.count_ne_flag hmode ho hx he.symm]
  exact hq.flag x hx hxd

namespace Dying

/-- Only heap, roots and the state of the collector matter. -/
theorem of_eq (hd : Dying m ts T doomed) (hheap : m'.heap = m.heap) (hroots : m'.roots = m.roots)
    (hown : m'.own = m.own) :
    Dying m' ts T doomed := by
  have hb := hd.stock
  refine ⟨⟨?_, ?_, ?_, ?_, ?_⟩, ?_, hd.bounded, hd.nodup, ?_, hd.uncounted⟩
  all_goals simp only [blocksOf, hheap, hroots, hown]
  · exact hb.region
  · exact hb.tiled
  · exact hb.housed
  · exact hb.roots
  · exact hb.queued
  · exact hd.counted
  · exact hd.held

/-- The order of the references does not matter. -/
theorem perm {T' : List Nat} (hd : Dying m ts T doomed) (hp : T.Perm T') : Dying m ts T' doomed :=
  ⟨hd.stock, hd.counted.perm hp, by rw [← hp.length_eq]; exact hd.bounded, hd.nodup, hd.held,
    fun p hm hT => hd.uncounted p hm (hp.mem_iff.mpr hT)⟩

/-- One reference less. -/
theorem drop (hd : Dying m ts (c :: T) doomed) (hc : Held (blocksOf m ts) c) :
    Dying (m.withHeap (m.heap.withCount m.own.mode c (T.count c))) ts T doomed := by
  have hlen := hd.bounded
  rw [List.length_cons] at hlen
  exact ⟨hd.stock.recount hc _, hd.counted.drop hd.stock.housed hc, by omega, hd.nodup, hd.held,
    fun p hp hT => hd.uncounted p hp (List.mem_cons_of_mem _ hT)⟩

theorem adjust_run (hd : Dying m ts (c :: T) doomed) (hc : Held (blocksOf m ts) c) :
    adjust m.own.mode c (-1) m.heap = .ok (T.count c : Int)
    (m.heap.withCount m.own.mode c (T.count c)) :=
  hd.counted.adjust_run hd.stock.housed hc hd.bounded (by rw [List.count_cons_self]; omega)

theorem lose_run (hd : Dying m ts (c :: T) doomed) (hc : Held (blocksOf m ts) c) :
    ∃ m', (liftM (adjust m.own.mode c (-1)) : GcM Counting Int) m = .ok (T.count c : Int) m' ∧
    m'.own = m.own ∧ Noted m m' ts ∧
      Dying m' ts T doomed := ⟨_, heap_lift (hd.adjust_run hc), rfl, noted_count m hc _, hd.drop hc⟩

/-- An object that is not counted any more is doomed as well, unless it waits in the table. -/
theorem doom (hd : Dying m ts T doomed) (hc : Held (blocksOf m ts) c) (hne : c ∉ doomed)
    (hT : c ∉ T) (hq : m.own.mode = .deferred → c ∉ m.own.zeroCounts.entries.toList) :
    Dying m ts T (c :: doomed) := by
  refine ⟨⟨hd.stock.region, hd.stock.tiled, hd.stock.housed, hd.stock.roots,
    fun hmode => ?_⟩, hd.counted, hd.bounded,
    List.nodup_cons.mpr ⟨hne, hd.nodup⟩, List.forall_mem_cons.mpr ⟨hc, hd.held⟩,
      List.forall_mem_cons.mpr ⟨hT, hd.uncounted⟩⟩
  have hqd := hd.stock.queued hmode
  exact ⟨hqd.nodup, hqd.room, hqd.listed, List.forall_mem_cons.mpr ⟨hq hmode, hqd.apart⟩,
    fun x hx hxd => hqd.flag x hx fun hm => hxd (by simp [hm])⟩

/-- The order of the doomed objects does not matter. -/
theorem reorder {doomed' : List Nat} (hd : Dying m ts T doomed) (hp : doomed.Perm doomed') :
    Dying m ts T doomed' := by
  refine ⟨⟨hd.stock.region, hd.stock.tiled, hd.stock.housed, hd.stock.roots,
    fun hmode => ?_⟩, hd.counted, hd.bounded, hp.nodup_iff.mp hd.nodup,
    fun p hm => hd.held p (hp.mem_iff.mpr hm), fun p hm => hd.uncounted p (hp.mem_iff.mpr hm)⟩
  have hqd := hd.stock.queued hmode
  exact ⟨hqd.nodup, hqd.room, hqd.listed, fun p hm => hqd.apart p (hp.mem_iff.mpr hm),
    fun x hx hxd => hqd.flag x hx (mt hp.mem_iff.mp hxd)⟩

end Dying

/-- The references `C` in fields of the doomed object `o` were taken out of the counts. What nothing
refers to then is doomed as well, or waits in the table. -/
structure Dropped (C T : List Nat) (o : Nat) (pending pending' : List Nat) (m m' : Machine Counting)
    (ts : List Tile) : Prop where
  noted : Noted m m' ts
  dying : Dying m' ts T (o :: pending')
  joined : ∀ x ∈ pending', x ∈ pending ∨ x ∈ C
  table : ∀ x ∈ m'.own.zeroCounts.entries.toList, x ∈ m.own.zeroCounts.entries.toList ∨ x ∈ C
  strays : ∀ x, Stray m' ts T (o :: pending') x → Stray m ts (C ++ T) (o :: pending) x

theorem Dropped.trans {C D pending' pending'' : List Nat}
    (h : Dropped C (D ++ T) o pending pending' m m' ts)
    (h' : Dropped D T o pending' pending'' m' m'' ts) :
    Dropped (C ++ D) T o pending pending'' m m'' ts := by
  refine ⟨h.noted.trans h'.noted, h'.dying, fun x hx => ?_, fun x hx => ?_, fun x hx => ?_⟩
  · rcases h'.joined x hx with hx | hx
    · exact (h.joined x hx).imp_right (List.mem_append_left _)
    · exact .inr (List.mem_append_right _ hx)
  · rcases h'.table x hx with hx | hx
    · exact (h.table x hx).imp_right (List.mem_append_left _)
    · exact .inr (List.mem_append_right _ hx)
  · rw [List.append_assoc]
    exact h.strays x (h'.strays x hx)

/-- One field of a doomed object is taken out of the counts. -/
theorem dropField_run (hd : Dying m ts (c :: T) (o :: pending)) (hc : Held (blocksOf m ts) c)
    (hf : field < m.heap.size) (hv : (m.heap.value field).ref? = some c) :
    ∃ pending' m', dropField pending field m = .ok pending' m' ∧
    Dropped [c] T o pending pending' m m' ts := by
  have hne : c ∉ o :: pending := fun hm => hd.uncounted c hm (List.mem_cons_self ..)
  obtain ⟨m₁, hadj, hown, hn, hd₁⟩ := hd.lose_run hc
  have hload : (liftM (loadValue field) : GcM Counting Value) m = .ok (m.heap.value field) m :=
    read_lift (loadValue_run hf)
  rw [dropField, bind_ok hload, hv]
  simp only
  rw [bind_ok GcM.run_own, bind_ok hadj]
  have hc₁ : Held (blocksOf m₁ ts) c := by
    rw [hn.blocksOf_eq]
    exact hc
  -- the child is the only object that may be stray now, and it is not
  have hstrays : ∀ {m' pending'}, Noted m m' ts → ¬ Stray m' ts T (o :: pending') c →
    (∀ x ∈ pending, x ∈ pending') →
      ∀ x, Stray m' ts T (o :: pending') x → Stray m ts ([c] ++ T) (o :: pending) x := by
    intro m' pending' hn' hno hsub x hx
    refine hn'.stray hx (fun hm => ?_) fun p hp => ?_
    · rcases List.mem_cons.mp hm with rfl | hm
      · exact hno hx
      · exact hx.uncounted hm
    · rcases List.mem_cons.mp hp with rfl | hp
      · exact List.mem_cons_self ..
      · exact List.mem_cons_of_mem _ (hsub p hp)
  have htable : ∀ x ∈ m₁.own.zeroCounts.entries.toList,
      x ∈ m.own.zeroCounts.entries.toList ∨ x ∈ [c] := by
    rw [hown]
    exact fun x hx => .inl hx
  by_cases h0 : T.count c = 0
  · have hT : c ∉ T := List.count_eq_zero.mp h0
    rw [if_neg (by simp [h0])]
    have hjoin : (m.own.mode = .deferred → c ∉ m₁.own.zeroCounts.entries.toList) →
        Dropped [c] T o pending (c :: pending) m m₁ ts := by
      intro hq
      have hd₂ := (hd₁.doom hc₁ hne hT fun hm => hq (by rwa [← hown])).reorder (.swap o c pending)
      refine ⟨hn, hd₂, fun x hx => ?_, htable, hstrays hn (fun h => h.spared ?_)
        fun x hx => List.mem_cons_of_mem c hx⟩
      · exact (List.mem_cons.mp hx).symm.imp_right List.mem_singleton.mpr
      · exact List.mem_cons_of_mem _ (List.mem_cons_self ..)
    cases hmode : m.own.mode with
    | eager => exact ⟨_, m₁, rfl, hjoin fun hm => absurd (hmode.symm.trans hm) (by decide)⟩
    | deferred =>
      have hmode₁ : m₁.own.mode = .deferred := by rw [hown, hmode]
      have hrun := hd₁.stock.isQueued_run hmode₁ hc₁ hne
      rw [hmode₁] at hrun
      simp only
      rw [bind_ok (read_lift hrun)]
      by_cases hqc : c ∈ m₁.own.zeroCounts.entries.toList
      · exact ⟨pending, m₁, by simp only [hqc, decide_true, if_true]; rfl, hn, hd₁,
          fun x hx => .inl hx, htable,
          hstrays hn (fun h => h.unqueued hmode₁ hqc) fun x hx => hx⟩
      · simp only [hqc, decide_false, Bool.false_eq_true, if_false]
        cases hfull : m.own.zeroCounts.isFull with
        | true => exact ⟨_, m₁, rfl, hjoin fun _ => hqc⟩
        | false =>
          obtain ⟨m₂, hqrun, hn₂, hb₂, hent, hword⟩ := queue_run hd₁.stock hmode₁ hc₁ hne hqc
            (by rw [hown]; exact hfull)
          have hwaits : c ∈ m₂.own.zeroCounts.entries.toList := by simp [hent]
          refine ⟨pending, m₂, ?_, hn.trans hn₂, ?_, fun x hx => .inl hx, ?_, hstrays (hn.trans hn₂)
            (fun h => h.unqueued (hn₂.mode.trans hmode₁) hwaits) fun x hx => hx⟩
          · simp only [Bool.false_eq_true, if_false]
            rw [bind_ok hqrun]
            rfl
          · refine ⟨hb₂, ?_, hd₁.bounded, hd₁.nodup, ?_, hd₁.uncounted⟩
            · rw [hn₂.blocksOf_eq, hn₂.mode]
              exact hd₁.counted.congr hword
            · rw [hn₂.blocksOf_eq]
              exact hd₁.held
          · rw [hent, hown]
            intro x hx
            simpa using hx
  · refine ⟨pending, m₁, ?_, hn, hd₁, fun x hx => .inl hx, htable,
      hstrays hn (fun h => ?_) fun x hx => hx⟩
    · rw [if_pos (by exact_mod_cast h0)]
      rfl
    · exact h0 (List.count_eq_zero.mpr h.uncounted)

/-- The fields of a listed object are not touched. -/
theorem Noted.keeps_field (hn : Noted m m' ts) (hb : Stock m ts doomed)
    (ho : Held (blocksOf m ts) o) {a : Nat} (ha : a ∈ m.heap.fields o) :
    m'.heap.value a = m.heap.value a ∧ a ∈ m'.heap.fields o ∧
    a < m.heap.size ∧ ∃ c, (m.heap.value a).ref? = some c ∧ c ∈ m.heap.succ o := by
  obtain ⟨ht, hor, hr⟩ := Arena.mem_fields.mp ha
  obtain ⟨i, hlt, -, rfl⟩ := field_offset ht hor
  obtain ⟨c, hc⟩ := Value.exists_ref? hr
  have hsame := hn.same hb
  have hin := hb.housed.objects_apart.inside o ho
  have hval : m'.heap.value (o + i) = m.heap.value (o + i) := Arena.value_congr (hsame o i ho hlt)
  have ht' : m'.heap.tag o = some .pair := by
    rw [Arena.tag_congr (hsame.head (by simp [ht]) ho), ht]
  exact ⟨hval, Arena.mem_fields.mpr ⟨ht', hor, by rw [hval, hr]⟩, by omega, c, hc,
    List.mem_filterMap.mpr ⟨_, ha, hc⟩⟩

/-- Fields of a doomed object are taken out of the counts, one after the other. -/
theorem dropFields_run {fs : List Nat}
    (hd : Dying m ts ((fs.filterMap fun a => (m.heap.value a).ref?) ++ T) (o :: pending))
    (hfs : ∀ a ∈ fs, a ∈ m.heap.fields o) :
    ∃ pending' m', fs.foldlM dropField pending m = .ok pending' m' ∧
      Dropped (fs.filterMap fun a => (m.heap.value a).ref?) T o pending pending' m m' ts := by
  have ho : Held (blocksOf m ts) o := hd.held o (by simp)
  induction fs generalizing m pending with
  | nil =>
    exact ⟨pending, m, rfl, .refl m ts, hd, fun x hx => .inl hx,
      fun x hx => .inl hx, fun x hx => hx⟩
  | cons a fs ih =>
    obtain ⟨-, -, hsize, c, hc, hcs⟩ := (Noted.refl m ts).keeps_field hd.stock ho (hfs a (by simp))
    have hcons : ((a :: fs).filterMap fun a => (m.heap.value a).ref?) = [c] ++ fs.filterMap fun a =>
      (m.heap.value a).ref? :=
      List.filterMap_cons_some hc
    rw [hcons, List.append_assoc] at hd
    obtain ⟨pending₁, m₁, hrun, h₁⟩ :=
      dropField_run hd (hd.stock.housed.closed.succ ho hcs) hsize hc
    have hn := h₁.noted
    have hvals : (fs.filterMap fun a => (m₁.heap.value a).ref?) = fs.filterMap fun a =>
      (m.heap.value a).ref? :=
      List.filterMap_congr fun b hb => by rw [(hn.keeps_field hd.stock ho (hfs b (by simp [hb]))).1]
    have hd₁ := h₁.dying
    rw [← hvals] at hd₁
    obtain ⟨pending₂, m₂, hrun₂, h₂⟩ :=
      ih hd₁ (fun b hb => (hn.keeps_field hd.stock ho (hfs b (by simp [hb]))).2.1)
      (by rw [hn.blocksOf_eq]; exact ho)
    rw [hvals] at h₂
    refine ⟨pending₂, m₂, ?_, by
      rw [hcons]; exact h₁.trans (D := fs.filterMap fun a => (m.heap.value a).ref?) h₂⟩
    rw [List.foldlM_cons, bind_ok hrun]
    exact hrun₂

/-! ## Giving a block back -/

theorem Stock.blockSize_run (hb : Stock m ts doomed) {n : Nat} (hm : (o, n) ∈ blocksOf m ts) :
    blockSize m.own.mode o m.heap = .ok n := by
  have hh := hb.housed.header ⟨n, hm⟩
  have hp := m.own.mode.header_pos
  obtain ⟨a, k, ht, he⟩ := mem_objectsIn.mp hm
  cases he
  have hsize := hb.tiled.sized _ ht
  simp only at hsize
  rw [blockSize, read_bind (loadHeader_run hh.1 (hh.2 _ hp (Nat.le_refl _))),
    Nat.add_sub_cancel, hsize]
  rfl

/-- What is not free is handed out. -/
theorem Stock.usedWords_eq (hb : Stock m ts doomed) :
    m.own.region.length - m.own.freeList.freeWords = usedWords m ts := by
  rw [hb.region, Arena.region, Region.length_ofLength, usedWords, blocksOf,
    hb.tiled.words_objectsIn, Nat.sub_zero]

theorem Stock.length_le (hb : Stock m ts doomed) : (blocksOf m ts).length ≤ m.heap.size := by
  have hlen := hb.tiled.stacked.length_le
  have hle : (usedRuns ts).length ≤ ts.length := by
    rw [usedRuns, List.length_map]
    exact List.length_filter_le _ _
  rw [List.length_map] at hlen
  rw [blocksOf, objectsIn, List.length_map]
  omega

/-- All other objects have their blocks still. -/
theorem Stock.held_erase (hb : Stock m ts doomed) {n x : Nat} (hm : (o, n) ∈ blocksOf m ts) :
    Held ((blocksOf m ts).erase (o, n)) x ↔ Held (blocksOf m ts) x ∧ x ≠ o := by
  have hnd := hb.tiled.nodup_objectsIn m.own.mode.headerWords
  constructor
  · rintro ⟨k, hx⟩
    obtain ⟨hne, hx⟩ := hnd.mem_erase_iff.mp hx
    exact ⟨⟨k, hx⟩, fun he => hne (hb.housed.eq_of_fst hx hm he)⟩
  · rintro ⟨⟨k, hx⟩, hne⟩
    exact ⟨k, hnd.mem_erase_iff.mpr ⟨fun he => hne (congrArg Prod.fst he), hx⟩⟩

/-- The roots refer to nothing but what is counted. -/
def Rooted (m : Machine Counting) (R : List Nat) : Prop := ∀ o, m.roots.Refers o → o ∈ R

/-- All references that are counted: those in fields, and `R`. -/
abbrev refs (m : Machine Counting) (ts : List Tile) (R : List Nat) : List Nat :=
  heapRefs m.heap (blocksOf m ts) ++ R

/-- The block of a doomed object is given back, when nothing counts its fields any more. -/
theorem free_run {R : List Nat} {n : Nat}
    (hd : Dying m ts (heapRefs m.heap ((blocksOf m ts).erase (o, n)) ++ R) (o :: pending))
    (hm : (o, n) ∈ blocksOf m ts) (hr : Rooted m R) :
    ∃ m' ts', free o m = .ok n m' ∧ blocksOf m' ts' = (blocksOf m ts).erase (o, n) ∧
    Dying m' ts' (refs m' ts' R) pending ∧
      (∀ x, Stray m' ts' (refs m' ts' R) pending x →
        Stray m ts (heapRefs m.heap ((blocksOf m ts).erase (o, n)) ++ R) (o :: pending) x) ∧
      Same (Held (blocksOf m' ts')) m.heap m'.heap ∧ m'.own = { m.own with
        freeList := m'.own.freeList } ∧ m'.roots = m.roots ∧
      m'.stress = m.stress ∧ m'.stats = m.stats := by
  have hb := hd.stock
  have ho : o ∉ heapRefs m.heap ((blocksOf m ts).erase (o, n)) ++ R := hd.uncounted o (by simp)
  obtain ⟨l', h', ts', hgive, hrel⟩ := hb.tiled.release_run hm
  have hheld : ∀ x, Held (objectsIn m.own.mode.headerWords ts') x ↔ Held (blocksOf m ts) x ∧
      x ≠ o := fun x => by
    rw [hrel.objects]
    exact hb.held_erase hm
  have hsub : objectsIn m.own.mode.headerWords ts' ⊆ blocksOf m ts := by
    rw [hrel.objects]
    exact List.erase_subset
  -- nothing refers to the object, so the others are closed without it
  have hcl : Closed m.heap (Held (objectsIn m.own.mode.headerWords ts')) := by
    refine ⟨fun x hx => hb.housed.closed.known x ((hheld x).mp hx).1, fun x a hx ht ha c hc => ?_⟩
    obtain ⟨hval, hch⟩ := hb.housed.closed.field x a ((hheld x).mp hx).1 ht ha c hc
    refine ⟨hval, (hheld c).mpr ⟨hch, fun he => ho (List.mem_append_left _ ?_)⟩⟩
    obtain ⟨k, hxk⟩ := hx
    rw [hrel.objects] at hxk
    refine mem_heapRefs.mpr ⟨_, hxk, Arena.mem_succ.mpr ⟨ht, ?_⟩⟩
    rw [← he]
    rcases ha with rfl | rfl
    · exact .inl hc
    · exact .inr hc
  have hh := hb.housed.sub hsub hcl
  have hsame := hh.same hrel.kept
  have hheader : ∀ x, Held (objectsIn m.own.mode.headerWords ts') x → ∀ i,
    i ≤ m.own.mode.headerWords →
      h'.word (x - i) = m.heap.word (x - i) := fun x ⟨k, hx⟩ i hi =>
        hh.blockKept_header hx (hrel.kept _ hx) hi
  let m' : Machine Counting := (m.withHeap h').withOwn { m.own with freeList := l' }
  have hrefs : refs m' ts' R = heapRefs m.heap ((blocksOf m ts).erase (o, n)) ++ R := by
    rw [refs, ← hrel.objects]
    exact congrArg (· ++ R) (hsame.heapRefs hcl)
  have hstrays : ∀ x, Stray m' ts' (refs m' ts' R) pending x →
      Stray m ts (heapRefs m.heap ((blocksOf m ts).erase (o, n)) ++ R) (o :: pending) x := by
    intro x hx
    obtain ⟨hx', hne⟩ := (hheld x).mp hx.held
    exact ⟨hx', by rw [← hrefs]; exact hx.uncounted,
      fun hm => hx.spared ((List.mem_cons.mp hm).resolve_left hne), hx.unqueued⟩
  refine ⟨m', ts', ?_, hrel.objects,
    ⟨⟨?_, ?_, ?_, ?_, fun hmode => ?_⟩, ?_, ?_, ?_, ?_, ?_⟩, hstrays, hsame, rfl, rfl, rfl, rfl⟩
  · have hlift : (liftM (m.own.freeList.give (o - m.own.mode.headerWords) n) : GcM
        Counting FreeList) m = .ok l' (m.withHeap h') :=
      heap_lift hgive
    rw [free, bind_ok GcM.run_own, bind_ok (read_lift (back_run (hb.housed.header ⟨n, hm⟩).1)),
      bind_ok (read_lift (hb.blockSize_run hm)),
      bind_ok hlift]
    rfl
  · exact hb.region.trans (by simp [m', Arena.region, hrel.size_eq])
  · change Tiled l' h' 0 h'.size ts'
    rw [hrel.size_eq]
    exact hrel.tiled
  · refine hrel.tiled.housed (fun b hb' => ?_) (hsame.closed hcl)
    rw [hsame.payload (hcl.known _ ⟨b.2, hb'⟩) ⟨b.2, hb'⟩]
    exact hh.fits b hb'
  · intro slot v hv c hc
    obtain ⟨hval, hch⟩ := hb.roots slot v hv c hc
    exact ⟨hval, (hheld c).mpr
      ⟨hch, fun he => ho (List.mem_append_right _ (he ▸ hr c ⟨slot, v, hv, hc⟩))⟩⟩
  · have hq := hb.queued hmode
    have hno : o ∉ m.own.zeroCounts.entries.toList := hq.apart o (by simp)
    refine ⟨hq.nodup, hq.room, fun x hx => (hheld x).mpr ⟨hq.listed x hx, fun he => hno (he ▸ hx)⟩,
      fun x hx => hq.apart x (by simp [hx]),
      fun x hx hxp => ?_⟩
    obtain ⟨hx', hne⟩ := (hheld x).mp hx
    change h'.word (x - queuedOffset) ≠ 0 ↔ _
    rw [hheader x hx queuedOffset m.own.mode.header_pos]
    exact hq.flag x hx' (by simp [hne, hxp])
  · rw [hrefs]
    exact (hd.counted.mono fun x hx => ((hheld x).mp hx).1).congr fun x hx =>
      hheader x hx _ (Nat.le_of_lt m.own.mode.offset_lt)
  · rw [hrefs]
    exact hd.bounded
  · exact (List.nodup_cons.mp hd.nodup).2
  · intro p hp
    exact (hheld p).mpr ⟨hd.held p (by simp [hp]),
      fun he => (List.nodup_cons.mp hd.nodup).1 (he ▸ hp)⟩
  · rw [hrefs]
    exact fun p hp => hd.uncounted p (by simp [hp])

/-! ## Everything that dies -/

/-- Some objects are gone at most, and the others are as they were. -/
structure Fewer (m m' : Machine Counting) (ts ts' : List Tile) : Prop where
  region : m'.own.region = m.own.region
  mode : m'.own.mode = m.own.mode
  capacity : m'.own.zeroCounts.capacity = m.own.zeroCounts.capacity
  sublist : (blocksOf m' ts').Sublist (blocksOf m ts)
  same : Same (Held (blocksOf m' ts')) m.heap m'.heap
  roots : m'.roots = m.roots
  stress : m'.stress = m.stress

/-- Only objects of `D` and such as fields referred to are gone, and only the latter have joined the
table. -/
structure Shrunk (D : List Nat) (m m' : Machine Counting) (ts ts' : List Tile) :
    Prop extends Fewer m m' ts ts' where
  gone : ∀ x, Held (blocksOf m ts) x → ¬ Held (blocksOf m' ts') x → x ∈ D ∨
    x ∈ heapRefs m.heap (blocksOf m ts)
  table : ∀ x ∈ m'.own.zeroCounts.entries.toList, x ∈ m.own.zeroCounts.entries.toList ∨
    x ∈ heapRefs m.heap (blocksOf m ts)

section Shrunk

variable {D D' R : List Nat} {ts' ts'' : List Tile}

namespace Fewer

theorem refl (m : Machine Counting) (ts : List Tile) : Fewer m m ts ts :=
  ⟨rfl, rfl, rfl, List.Sublist.refl _, .refl _ _, rfl, rfl⟩

theorem held (hs : Fewer m m' ts ts') (ho : Held (blocksOf m' ts') o) : Held (blocksOf m ts) o := by
  obtain ⟨n, hb⟩ := ho
  exact ⟨n, hs.sublist.subset hb⟩

theorem mem_refs (hs : Fewer m m' ts ts') (hcl : Closed m.heap (Held (blocksOf m ts)))
    (hc : c ∈ heapRefs m'.heap (blocksOf m' ts')) :
    c ∈ heapRefs m.heap (blocksOf m ts) := by
  obtain ⟨b, hb, hcb⟩ := mem_heapRefs.mp hc
  have hb' := hs.sublist.subset hb
  rw [hs.same.succ (hcl.known _ ⟨b.2, hb'⟩) ⟨b.2, hb⟩] at hcb
  exact mem_heapRefs.mpr ⟨b, hb', hcb⟩

theorem trans (hs : Fewer m m' ts ts') (hs' : Fewer m' m'' ts' ts'')
    (hcl : Closed m.heap (Held (blocksOf m ts))) : Fewer m m'' ts ts'' :=
  ⟨hs'.region.trans hs.region, hs'.mode.trans hs.mode, hs'.capacity.trans hs.capacity,
    hs'.sublist.trans hs.sublist, (hs.same.mono fun _ ho => hs'.held ho).trans hs'.same
    fun o ho => hcl.known o (hs.held (hs'.held ho)), hs'.roots.trans hs.roots,
      hs'.stress.trans hs.stress⟩

end Fewer

theorem Noted.fewer (hn : Noted m m' ts) (hb : Stock m ts doomed) : Fewer m m' ts ts := by
  have heq := hn.blocksOf_eq
  exact ⟨by rw [hn.own], hn.mode, hn.capacity, by rw [heq], by
    rw [heq]; exact hn.same hb, hn.roots, hn.stress⟩

namespace Shrunk

theorem refl (D : List Nat) (m : Machine Counting) (ts : List Tile) : Shrunk D m m ts ts :=
  ⟨.refl m ts, fun _ hx hn => absurd hx hn, fun _ hx => .inl hx⟩

theorem trans (hs : Shrunk D m m' ts ts') (hs' : Shrunk D' m' m'' ts' ts'')
    (hcl : Closed m.heap (Held (blocksOf m ts)))
    (hD : ∀ x ∈ D', x ∈ D ∨ x ∈ heapRefs m.heap (blocksOf m ts)) : Shrunk D m m'' ts ts'' := by
  refine ⟨hs.toFewer.trans hs'.toFewer hcl, fun x hx hn => ?_, fun x hx => ?_⟩
  · by_cases hx' : Held (blocksOf m' ts') x
    · rcases hs'.gone x hx' hn with h | h
      · exact hD x h
      · exact .inr (hs.mem_refs hcl h)
    · exact hs.gone x hx hx'
  · rcases hs'.table x hx with h | h
    · exact hs.table x h
    · exact .inr (hs.mem_refs hcl h)

end Shrunk

theorem Noted.shrunk (hn : Noted m m' ts) (hb : Stock m ts doomed) (D : List Nat)
    (ht : ∀ x ∈ m'.own.zeroCounts.entries.toList, x ∈ m.own.zeroCounts.entries.toList ∨
      x ∈ heapRefs m.heap (blocksOf m ts)) :
    Shrunk D m m' ts ts :=
  ⟨hn.fewer hb, fun x hx hnx => absurd hx (by rwa [hn.blocksOf_eq] at hnx), ht⟩

end Shrunk

/-- Some of the `doomed` objects were reclaimed, with what died with them, and `doomed'` are still
to be. Nothing has become stray. -/
structure Reaped (R doomed doomed' : List Nat) (m m' : Machine Counting) (ts ts' : List Tile) :
    Prop extends Shrunk doomed m m' ts ts' where
  dying : Dying m' ts' (refs m' ts' R) doomed'
  grown : m.own.zeroCounts.entries.toList <+: m'.own.zeroCounts.entries.toList
  stats : m'.stats = m.stats
  strays : ∀ x, Stray m' ts' (refs m' ts' R) doomed' x → Stray m ts (refs m ts R) doomed x

theorem Reaped.refl {R : List Nat} (hd : Dying m ts (refs m ts R) doomed) :
    Reaped R doomed doomed m m ts ts :=
  ⟨.refl _ _ _, hd, List.prefix_rfl, rfl, fun _ hx => hx⟩

theorem Reaped.trans {R doomed' doomed'' : List Nat} {ts' ts'' : List Tile}
    (h : Reaped R doomed doomed' m m' ts ts') (h' : Reaped R doomed' doomed'' m' m'' ts' ts'')
    (hcl : Closed m.heap (Held (blocksOf m ts)))
    (hd : ∀ x ∈ doomed', x ∈ doomed ∨ x ∈ heapRefs m.heap (blocksOf m ts)) :
    Reaped R doomed doomed'' m m'' ts ts'' :=
  ⟨h.toShrunk.trans h'.toShrunk hcl hd, h'.dying, h.grown.trans h'.grown, h'.stats.trans h.stats,
    fun x hx => h.strays x (h'.strays x hx)⟩

/-- The first of the doomed objects is reclaimed. -/
theorem reclaim_run {R : List Nat} (hd : Dying m ts (refs m ts R) (o :: pending))
    (hr : Rooted m R) :
    ∃ pending' n m₁ m' ts', (m.heap.fields o).foldlM dropField pending m = .ok pending' m₁ ∧
    free o m₁ = .ok n m' ∧
      Reaped R (o :: pending) pending' m m' ts ts' ∧ (blocksOf m' ts').length <
      (blocksOf m ts).length ∧
      n + usedWords m' ts' = usedWords m ts ∧ ∀ x ∈ pending', x ∈ o :: pending ∨ x ∈ heapRefs m.heap
      (blocksOf m ts) := by
  obtain ⟨n, hm⟩ := hd.held o (by simp)
  have hb := hd.stock
  have hcl := hb.housed.closed
  have hsucc : ∀ x ∈ m.heap.succ o, x ∈ heapRefs m.heap (blocksOf m ts) :=
    fun x hx => mem_heapRefs.mpr ⟨_, hm, hx⟩
  -- the references of this object are counted one by one, apart from all others
  have hperm : (refs m ts R).Perm
      (m.heap.succ o ++ (heapRefs m.heap ((blocksOf m ts).erase (o, n)) ++ R)) := by
    rw [← List.append_assoc]
    exact (heapRefs_perm hm).append_right R
  obtain ⟨pending', m₁, hfold, h₁⟩ := dropFields_run (hd.perm hperm) fun a ha => ha
  have hn := h₁.noted
  have heq := hn.blocksOf_eq
  have hsame₁ := hn.same hb
  have hrefs₁ : heapRefs m₁.heap ((blocksOf m₁ ts).erase (o, n)) = heapRefs m.heap
      ((blocksOf m ts).erase (o, n)) := by
    rw [heq]
    exact heapRefs_congr fun b hb' =>
      have hbm := List.erase_subset hb'
      hsame₁.succ (hcl.known _ ⟨b.2, hbm⟩) ⟨b.2, hbm⟩
  have hd₁ := h₁.dying
  rw [← hrefs₁] at hd₁
  obtain ⟨m', ts', hfree, hblocks, hd', hstrays, hsame', hown, hroots, hstress, hstats⟩ :=
    free_run hd₁ (by rw [heq]; exact hm)
    (by rw [Rooted, hn.roots]; exact hr)
  rw [hrefs₁] at hstrays
  have hzero : m'.own.zeroCounts = m₁.own.zeroCounts := by rw [hown]
  have hs₁ : Shrunk (o :: pending) m m₁ ts ts :=
    hn.shrunk hb _ fun x hx => (h₁.table x hx).imp_right (hsucc x)
  have hs' : Shrunk [o] m₁ m' ts ts' := by
    refine ⟨⟨by rw [hown], by rw [hown], by rw [hzero], ?_, hsame', hroots, hstress⟩,
      fun x hx hnx => .inl ?_, fun x hx => .inl (by rwa [← hzero])⟩
    · rw [hblocks]
      exact List.erase_sublist
    · rw [hblocks] at hnx
      by_contra hne
      exact hnx ((hd₁.stock.held_erase (by rw [heq]; exact hm)).mpr ⟨hx, by simpa using hne⟩)
  refine ⟨pending', n, m₁, m', ts', hfold, hfree,
    ⟨hs₁.trans hs' hcl (by simp), hd', ?_, hstats.trans hn.stats, fun x hx => ?_⟩, ?_, ?_,
    fun x hx => (h₁.joined x hx).imp (List.mem_cons_of_mem _) (hsucc x)⟩
  · rw [hzero]
    exact hn.grown
  · have hx₁ := h₁.strays x (hstrays x hx)
    exact ⟨hx₁.held, fun hm => hx₁.uncounted (hperm.mem_iff.mp hm), hx₁.spared, hx₁.unqueued⟩
  · have hpos := List.length_pos_of_mem hm
    rw [hblocks, heq, List.length_erase_of_mem hm]
    omega
  · have hperm := (List.perm_cons_erase hm).map Prod.snd
    rw [usedWords, usedWords, hblocks, heq, hperm.sum_nat]
    simp

/-- Doomed objects are reclaimed with all that dies with them. -/
theorem releaseAll_run {R : List Nat} {fuel : Nat} (hd : Dying m ts (refs m ts R) doomed)
    (hr : Rooted m R) (hfuel : (blocksOf m ts).length ≤ fuel) (freed : Nat) :
    ∃ freed' m' ts', releaseAll fuel doomed freed m = .ok freed' m' ∧
    Reaped R doomed [] m m' ts ts' ∧
      (doomed ≠ [] → (blocksOf m' ts').length < (blocksOf m ts).length) ∧
      freed' + usedWords m' ts' = freed + usedWords m ts := by
  induction fuel generalizing m ts doomed freed with
  | zero =>
    cases doomed with
    | nil => exact ⟨freed, m, ts, rfl, .refl hd, fun h => absurd rfl h, rfl⟩
    | cons o pending =>
      obtain ⟨n, hm⟩ := hd.held o (by simp)
      have hpos := List.length_pos_of_mem hm
      omega
  | succ fuel ih =>
    cases doomed with
    | nil => exact ⟨freed, m, ts, rfl, .refl hd, fun h => absurd rfl h, rfl⟩
    | cons o pending =>
      have hb := hd.stock
      have ho := hd.held o (by simp)
      have hfields : pointerFields o m.heap = .ok (m.heap.fields o) :=
        pointerFields_run (hb.housed.closed.known o ho) (hb.housed.objects_apart.inside o ho).2
      obtain ⟨pending₁, n, m₁, m₂, ts₂, hfold, hfree, h₂, hlt, hwords, hp⟩ := reclaim_run hd hr
      obtain ⟨freed', m', ts', hrun, h', -, hwords'⟩ :=
        ih h₂.dying (by rw [Rooted, h₂.roots]; exact hr) (by omega) (freed + n)
      have hle := h'.sublist.length_le
      refine ⟨freed', m', ts', ?_, h₂.trans h' hb.housed.closed hp, fun _ => by omega, by omega⟩
      rw [releaseAll, bind_ok (read_lift hfields), bind_ok hfold, bind_ok hfree]
      exact hrun

/-- One object is reclaimed with all that dies with it. -/
theorem release_run {R : List Nat} (hd : Dying m ts (refs m ts R) [o]) (hr : Rooted m R) :
    ∃ freed m' ts', release o m = .ok freed m' ∧ Reaped R [o] [] m m' ts ts' ∧
    (blocksOf m' ts').length < (blocksOf m ts).length ∧
      freed + usedWords m' ts' = usedWords m ts := by
  have hle := hd.stock.length_le
  obtain ⟨freed, m', ts', hrun, hs, hlt, hwords⟩ := releaseAll_run hd hr (Nat.le_succ_of_le hle) 0
  refine ⟨freed, m', ts', ?_, hs, hlt (by simp), by omega⟩
  rw [release, bind_ok GcM.run_heapSize]
  exact hrun

end Reclaim.Counting
