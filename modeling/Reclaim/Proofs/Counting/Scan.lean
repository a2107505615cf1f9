import Mathlib.Algebra.Order.BigOperators.Group.List
import Mathlib.Algebra.Order.Group.Nat
import Reclaim.Proofs.Accounts
import Reclaim.Proofs.Counting.Release

/-!
# Scanning the zero count table

A scan counts the roots, reclaims every object of the table that is not counted then, and takes the
roots out of the counts again. It always ends: a pass over the table either goes on to the next
entry or reclaims an object, and a pass after which there is another one has reclaimed something.

Results:
* `countRoots_run`, `uncountRoots_run`: the roots join the counts and leave them.
* `scanPass_run`, `scanTable_run`: the table is gone through (`EntriesReclaimed`).
* `scan_run`: a whole scan (`Cleared`), after which no object is stray that was not before, but for
  those that roots hold.
-/

namespace Reclaim.Counting

variable {m m' : Machine Counting} {ts ts' : List Tile} {T R : List Nat} {o i : Nat} {v : Value}

/-! ## Counting roots -/

/-- Counts one more reference, if `v` is one. -/
theorem Dying.increment_run (hd : Dying m ts T []) (hv : v.Within (Held (blocksOf m ts)))
    (hlen : (v.ref?.toList ++ T).length ≤ countLimit) :
    ∃ m', (liftM (increment m.own.mode v) : GcM Counting Unit) m = .ok () m' ∧ m'.own = m.own ∧
    Noted m m' ts ∧
      Dying m' ts (v.ref?.toList ++ T) [] := by
  cases hr : v.ref? with
  | none =>
    have hrun : increment m.own.mode v m.heap = .ok () m.heap := by
      rw [increment, hr]
      rfl
    exact ⟨m, heap_lift hrun, rfl, .refl m ts, hd⟩
  | some c =>
    obtain ⟨-, hc⟩ := hv c hr
    have hadj := hd.counted.adjust_run hd.stock.housed hc hd.bounded (k := T.count c + 1)
      (n := 1) (by omega)
    have hrun : increment m.own.mode v m.heap = .ok ()
        (m.heap.withCount m.own.mode c (T.count c + 1)) := by
      rw [increment, hr]
      exact bind_ok hadj
    rw [hr] at hlen
    exact ⟨_, heap_lift hrun, rfl, noted_count m hc _, hd.stock.recount hc _,
      hd.counted.add hd.stock.housed hc, hlen, List.nodup_nil,
      by simp, by simp⟩

/-- Counts one reference less, if `v` is one. -/
theorem Dying.decrement_run (hd : Dying m ts (v.ref?.toList ++ T) [])
    (hv : v.Within (Held (blocksOf m ts))) :
    ∃ m', (liftM (decrement m.own.mode v) : GcM Counting Unit) m = .ok () m' ∧ m'.own = m.own ∧
    Noted m m' ts ∧ Dying m' ts T [] := by
  cases hr : v.ref? with
  | none =>
    have hrun : decrement m.own.mode v m.heap = .ok () m.heap := by
      rw [decrement, hr]
      rfl
    rw [hr] at hd
    exact ⟨m, heap_lift hrun, rfl, .refl m ts, hd⟩
  | some c =>
    obtain ⟨-, hc⟩ := hv c hr
    rw [hr] at hd
    have hrun : decrement m.own.mode v m.heap = .ok ()
        (m.heap.withCount m.own.mode c (T.count c)) := by
      rw [decrement, hr]
      exact bind_ok (hd.adjust_run hc)
    exact ⟨_, heap_lift hrun, rfl, noted_count m hc _, hd.drop hc⟩

/-- Visiting roots without changing them: `J slots m` is what holds when the `slots` are still to be
visited. -/
theorem visitRoots_run {f : Value → HeapM Unit} {J : List RootSlot → Machine Counting → Prop}
    (hstep : ∀ s slots m, J (s :: slots) m → ∃ v m', m.roots.get? s = some v ∧
      (liftM (f v) : GcM Counting Unit) m = .ok () m' ∧ m'.roots = m.roots ∧ J slots m')
      {slots : List RootSlot} (h : J slots m) :
    ∃ m', slots.forM (visitRoot fun v => do
      f v
      return v) m = .ok () m' ∧ J [] m' := by
  induction slots generalizing m with
  | nil => exact ⟨m, rfl, h⟩
  | cons s slots ih =>
    obtain ⟨v, m₁, hv, hrun, hroots, hJ⟩ := hstep s slots m h
    obtain ⟨m', hrest, hJ'⟩ := ih hJ
    refine ⟨m', ?_, hJ'⟩
    have hset : (liftM (setRoot s v) : GcM Counting Unit) m₁ = .ok () m₁ := by
      have hself := roots_lift (m := m₁)
        (setRoot_run (w := v) (hroots ▸ hv : m₁.roots.get? s = some v))
      rwa [Roots.set_self (hroots ▸ hv), Machine.withRoots_self] at hself
    have hget : (liftM (getRoot s) : GcM Counting Value) m = .ok v m := roots_lift (getRoot_run hv)
    have hvisit : visitRoot (fun v => do
        (f v : GcM Counting Unit)
        return v) s m = .ok () m₁ := by
      rw [visitRoot, bind_ok hget, bind_assoc, bind_ok hrun, pure_bind]
      exact hset
    exact (bind_ok hvisit).trans hrest

/-- The roots join the counts. -/
theorem countRoots_run (hd : Dying m ts T [])
    (hlen : (m.roots.refs m.roots.references ++ T).length ≤ countLimit) :
    ∃ m', traceRoots (fun v => do
      increment m.own.mode v
      return v) m = .ok () m' ∧ m'.own = m.own ∧ Noted m m' ts ∧
        Dying m' ts (m.roots.refs m.roots.references ++ T) [] := by
  let J : List RootSlot → Machine Counting → Prop :=
    fun todo m' => ∃ done, done ++ todo = m.roots.references ∧ m'.own = m.own ∧
    Noted m m' ts ∧ Dying m' ts (m.roots.refs done ++ T) []
  obtain ⟨m', hrun, done, hdone, hrest⟩ := visitRoots_run (f := increment m.own.mode) (J := J)
    (fun s slots m₁ hJ => by
    obtain ⟨done, hdone, hown, hn, hd₁⟩ := hJ
    obtain ⟨v, hv, -⟩ := Roots.mem_references.mp (show s ∈ m.roots.references by simp [← hdone])
    have hv₁ : m₁.roots.get? s = some v := by
      rw [hn.roots]
      exact hv
    have hrefs : m.roots.refs (done ++ [s]) = m.roots.refs done ++ v.ref?.toList := by
      rw [Roots.refs_append, Roots.refs_cons, hv]
      simp
    have hperm : (v.ref?.toList ++ (m.roots.refs done ++ T)).Perm
        (m.roots.refs (done ++ [s]) ++ T) := by
      rw [hrefs, ← List.append_assoc]
      exact List.perm_append_comm.append_right T
    have hle : (v.ref?.toList ++ (m.roots.refs done ++ T)).length ≤ countLimit := by
      rw [hperm.length_eq]
      refine Nat.le_trans ?_ hlen
      rw [← hdone]
      simp only [Roots.refs_append, Roots.refs_cons, Roots.refs_nil, List.length_append,
        List.length_nil]
      omega
    obtain ⟨m₂, hrun, hown₂, hn₂, hd₂⟩ := hd₁.increment_run (hd₁.stock.roots s v hv₁) hle
    rw [hown] at hrun
    exact ⟨v, m₂, hv₁, hrun, hn₂.roots, done ++ [s], by simpa using hdone,
      hown₂.trans hown, hn.trans hn₂, hd₂.perm hperm⟩)
    (show J m.roots.references m from ⟨[], rfl, rfl, .refl m ts, hd⟩)
  rw [List.append_nil] at hdone
  subst hdone
  exact ⟨m', hrun, hrest⟩

/-- The roots leave the counts. -/
theorem uncountRoots_run (hd : Dying m ts (m.roots.refs m.roots.references ++ T) []) :
    ∃ m', traceRoots (fun v => do
      decrement m.own.mode v
      return v) m = .ok () m' ∧ m'.own = m.own ∧ Noted m m' ts ∧ Dying m' ts T [] := by
  let J : List RootSlot → Machine Counting → Prop :=
    fun todo m' => todo ⊆ m.roots.references ∧ m'.own = m.own ∧
    Noted m m' ts ∧ Dying m' ts (m.roots.refs todo ++ T) []
  obtain ⟨m', hrun, -, hrest⟩ := visitRoots_run (f := decrement m.own.mode) (J := J)
    (fun s slots m₁ hJ => by
    obtain ⟨hsub, hown, hn, hd₁⟩ := hJ
    obtain ⟨v, hv, -⟩ := Roots.mem_references.mp (hsub (by simp) : s ∈ m.roots.references)
    have hv₁ : m₁.roots.get? s = some v := by
      rw [hn.roots]
      exact hv
    rw [Roots.refs_cons, hv, Option.bind_some, List.append_assoc] at hd₁
    obtain ⟨m₂, hrun, hown₂, hn₂, hd₂⟩ := hd₁.decrement_run (hd₁.stock.roots s v hv₁)
    rw [hown] at hrun
    exact ⟨v, m₂, hv₁, hrun, hn₂.roots, fun x hx => hsub (by simp [hx]),
      hown₂.trans hown, hn.trans hn₂, hd₂⟩)
    (show J m.roots.references m from ⟨List.Subset.refl _, rfl, .refl m ts, hd⟩)
  exact ⟨m', hrun, hrest⟩

/-! ## Going through the table -/

/-- An entry that is removed is the only one that is missing. -/
theorem swapRemove_perm {t : ZeroCountTable} (hi : t.entries[i]? = some o) :
    t.entries.toList.Perm (o :: (t.swapRemove i).entries.toList) := by
  obtain ⟨hlt, hget⟩ := Array.getElem?_eq_some_iff.mp hi
  have hlast : t.entries.size - 1 < t.entries.size := by omega
  have hswap : t.entries.swapIfInBounds i (t.entries.size - 1) = t.entries.swap i
      (t.entries.size - 1) hlt hlast := by
    rw [Array.swapIfInBounds_def, dif_pos hlt, dif_pos hlast]
  have hback : (t.entries.swap i (t.entries.size - 1) hlt hlast).back? = some o := by
    rw [Array.back?_eq_getElem?, Array.size_swap, Array.getElem?_swap]
    simp [hget]
  obtain ⟨ys, hys⟩ := Array.back?_eq_some_iff.mp hback
  have hperm := Array.perm_iff_toList_perm.mp (Array.swap_perm hlt hlast)
  rw [hys, Array.toList_push] at hperm
  rw [ZeroCountTable.swapRemove, hswap, hys, Array.pop_push]
  exact hperm.symm.trans (List.perm_append_singleton o _)

/-- There are at least as many objects as entries. -/
theorem Queued.length_le {h : Arena} {blocks : List (Nat × Nat)} {t : ZeroCountTable}
    {doomed : List Nat} (hq : Queued h blocks t doomed) :
    t.entries.toList.length ≤ blocks.length := by
  have hsub : t.entries.toList ⊆ blocks.map Prod.fst := fun o ho => by
    obtain ⟨n, hb⟩ := hq.listed o ho
    exact List.mem_map_of_mem (f := Prod.fst) hb
  simpa using hq.nodup.length_le_of_subset hsub

/-- An entry that is not counted leaves the table and is doomed. -/
theorem Dying.unqueue (hd : Dying m ts T []) (hmode : m.own.mode = .deferred)
    (hi : m.own.zeroCounts.entries[i]? = some o) (ho : o ∉ T) :
    Dying (m.withOwn { m.own with zeroCounts := m.own.zeroCounts.swapRemove i }) ts T [o] ∧
      ∀ x, Stray (m.withOwn { m.own with zeroCounts := m.own.zeroCounts.swapRemove i }) ts T [o] x →
      Stray m ts T [] x := by
  have hb := hd.stock
  have hq := hb.queued hmode
  have hperm := swapRemove_perm hi
  have hnd := hperm.nodup_iff.mp hq.nodup
  have hlist : Held (blocksOf m ts) o := hq.listed o (hperm.mem_iff.mpr (by simp))
  have hroom := hq.room
  have hlen := hperm.length_eq
  simp only [Array.length_toList, List.length_cons] at hlen
  refine ⟨⟨⟨hb.region, hb.tiled, hb.housed, hb.roots,
    fun _ => ⟨(List.nodup_cons.mp hnd).2, ?_, fun x hx => ?_, fun x hx => ?_,
    fun x hx hxo => ?_⟩⟩, hd.counted, hd.bounded, by
      simp, ?_, ?_⟩, fun x hx => ⟨hx.held, hx.uncounted, by simp, fun _ hm => ?_⟩⟩
  · change _ ≤ m.own.zeroCounts.capacity
    simp only [Machine.withOwn_own]
    omega
  · exact hq.listed x (hperm.mem_iff.mpr (List.mem_cons_of_mem _ hx))
  · obtain rfl := List.mem_singleton.mp hx
    exact (List.nodup_cons.mp hnd).1
  · refine (hq.flag x hx (by simp)).trans ?_
    rw [hperm.mem_iff, List.mem_cons]
    exact or_iff_right (by simpa using hxo)
  · intro p hp
    obtain rfl := List.mem_singleton.mp hp
    exact hlist
  · intro p hp
    obtain rfl := List.mem_singleton.mp hp
    exact ho
  · rcases List.mem_cons.mp (hperm.mem_iff.mp hm) with rfl | hm
    · exact hx.spared (by simp)
    · exact hx.unqueued hmode hm

/-- The count of a listed object. -/
theorem Dying.count_run {doomed : List Nat} (hd : Dying m ts T doomed)
    (ho : Held (blocksOf m ts) o) :
    count m.own.mode o m.heap = .ok (T.count o : Int) := by
  have hh := hd.stock.housed.header ho
  have hlt := m.own.mode.offset_lt
  exact hd.counted.count_run ho (by omega)
    (hh.2 _ m.own.mode.offset_pos (Nat.le_of_lt hlt)) hd.bounded

/-- Some entries of the table were reclaimed, with what died with them. What the roots `R` refer to
is still in the table if it was, and nothing has become stray. -/
structure EntriesReclaimed (R : List Nat) (m m' : Machine Counting) (ts ts' : List Tile) : Prop
    extends Shrunk m.own.zeroCounts.entries.toList m m' ts ts' where
  dying : Dying m' ts' (refs m' ts' R) []
  stats : m'.stats = m.stats
  spared : ∀ x ∈ m.own.zeroCounts.entries.toList, x ∈ R → x ∈ m'.own.zeroCounts.entries.toList
  strays : ∀ x, Stray m' ts' (refs m' ts' R) [] x → Stray m ts (refs m ts R) [] x

theorem EntriesReclaimed.refl (hd : Dying m ts (refs m ts R) []) : EntriesReclaimed R m m ts ts :=
  ⟨.refl _ _ _, hd, rfl, fun _ hx _ => hx, fun _ hx => hx⟩

theorem EntriesReclaimed.trans {m'' : Machine Counting} {ts'' : List Tile}
    (h : EntriesReclaimed R m m' ts ts') (h' : EntriesReclaimed R m' m'' ts' ts'')
    (hcl : Closed m.heap (Held (blocksOf m ts))) :
    EntriesReclaimed R m m'' ts ts'' :=
  ⟨h.toShrunk.trans h'.toShrunk hcl h.table, h'.dying, h'.stats.trans h.stats,
    fun x hx hr => h'.spared x (h.spared x hx hr) hr,
    fun x hx => h.strays x (h'.strays x hx)⟩

/-- An entry to which nothing refers is reclaimed. -/
theorem Dying.sweep_run (hd : Dying m ts (refs m ts R) []) (hmode : m.own.mode = .deferred)
    (hr : Rooted m R) (hi : m.own.zeroCounts.entries[i]? = some o) (ho : o ∉ refs m ts R) :
    ∃ freed m' ts', release o (m.withOwn { m.own with
      zeroCounts := m.own.zeroCounts.swapRemove i }) = .ok freed m' ∧
      EntriesReclaimed R m m' ts ts' ∧ (blocksOf m' ts').length < (blocksOf m ts).length ∧
      freed + usedWords m' ts' = usedWords m ts ∧
      m.own.zeroCounts.entries.size ≤ m'.own.zeroCounts.entries.size + 1 := by
  have hperm := swapRemove_perm hi
  have hentry : o ∈ m.own.zeroCounts.entries.toList := hperm.mem_iff.mpr (List.mem_cons_self ..)
  obtain ⟨hd₁, hstrays⟩ := hd.unqueue hmode hi ho
  obtain ⟨freed, m', ts', hrun, hrel, hlt, hwords⟩ := release_run hd₁ hr
  have hs₁ : Shrunk m.own.zeroCounts.entries.toList m (m.withOwn { m.own with
      zeroCounts := m.own.zeroCounts.swapRemove i }) ts ts :=
    ⟨⟨rfl, rfl, rfl, List.Sublist.refl _, .refl _ _, rfl, rfl⟩,
      fun _ hx hn => absurd hx hn, fun x hx =>
      .inl (hperm.mem_iff.mpr (List.mem_cons_of_mem _ hx))⟩
  refine ⟨freed, m', ts', hrun,
    ⟨hs₁.trans hrel.toShrunk hd.stock.housed.closed fun x hx => .inl ?_, hrel.dying, hrel.stats,
    fun x hx hxR => hrel.grown.subset ?_, fun x hx =>
      hstrays x (hrel.strays x hx)⟩, hlt, hwords, ?_⟩
  · rw [List.mem_singleton.mp hx]
    exact hentry
  · rcases List.mem_cons.mp (hperm.mem_iff.mp hx) with rfl | hx
    · exact absurd (List.mem_append_right _ hxR) ho
    · exact hx
  · have hlen := hperm.length_eq
    have hgrown := hrel.grown.length_le
    simp only [Array.length_toList, List.length_cons, Machine.withOwn_own] at hlen hgrown
    omega

/-- A pass over the table, from entry `i` on, adds up the words of what it reclaims. If nothing is
reclaimed, all these entries are counted. -/
theorem scanPass_run {fuel : Nat} (hd : Dying m ts (refs m ts R) [])
    (hmode : m.own.mode = .deferred) (hr : Rooted m R) (hi : i ≤ m.own.zeroCounts.entries.size)
    (hfuel : 2 * (blocksOf m ts).length < fuel + i) (progress : Bool) (freed : Nat) :
    ∃ progress' freed' m' ts', scanPass fuel i progress freed m = .ok (progress', freed') m' ∧
    EntriesReclaimed R m m' ts ts' ∧
      freed' + usedWords m' ts' = freed + usedWords m ts ∧
      (progress' = true → progress = true ∨ (blocksOf m' ts').length < (blocksOf m ts).length) ∧
      (progress' = false → progress = false ∧ m' = m ∧ ts' = ts ∧
        ∀ j o, i ≤ j → m.own.zeroCounts.entries[j]? = some o → o ∈ refs m ts R) := by
  induction fuel generalizing m ts i progress freed with
  | zero =>
    have hle := (hd.stock.queued hmode).length_le
    rw [Array.length_toList] at hle
    omega
  | succ fuel ih =>
    rw [scanPass, bind_ok GcM.run_own]
    cases he : m.own.zeroCounts.entries[i]? with
    | none =>
      have hend : m.own.zeroCounts.entries.size ≤ i := Array.getElem?_eq_none_iff.mp he
      refine ⟨progress, freed, m, ts, rfl, .refl hd, rfl, .inl,
        fun hp => ⟨hp, rfl, rfl, fun j o hj ho => ?_⟩⟩
      have hlt := (Array.getElem?_eq_some_iff.mp ho).1
      omega
    | some o =>
      have hentry : o ∈ m.own.zeroCounts.entries.toList :=
        Array.mem_toList_iff.mpr (Array.mem_of_getElem? he)
      have ho := (hd.stock.queued hmode).listed o hentry
      have hlt := (Array.getElem?_eq_some_iff.mp he).1
      simp only
      rw [bind_ok (read_lift (hd.count_run ho))]
      by_cases hmem : o ∈ refs m ts R
      · -- the entry is counted, and the pass goes on to the next one
        have hpos := List.count_pos_iff.mpr hmem
        rw [if_neg (by omega)]
        obtain ⟨progress', freed', m', ts', hrun, hs, hwords, hprog, hidle⟩ :=
          ih hd hmode hr hlt (by omega) progress freed
        refine ⟨progress', freed', m', ts', hrun, hs, hwords, hprog, fun hp => ?_⟩
        obtain ⟨h1, h2, h3, h4⟩ := hidle hp
        refine ⟨h1, h2, h3, fun j o' hj ho' => ?_⟩
        rcases Nat.eq_or_lt_of_le hj with rfl | hj
        · rw [he] at ho'
          cases ho'
          exact hmem
        · exact h4 j o' hj ho'
      · rw [if_pos (by rw [List.count_eq_zero.mpr hmem]; decide), bind_ok (GcM.run_modifyOwn _)]
        obtain ⟨n, m₂, ts₂, hrel, hs, hfewer, hgone, hsize⟩ := hd.sweep_run hmode hr he hmem
        obtain ⟨progress', freed', m', ts', hrun, hs', hwords, hprog, hidle⟩ :=
          ih (i := i) hs.dying (hs.mode.trans hmode)
          (by rw [Rooted, hs.roots]; exact hr) (by omega) (by omega) true (freed + n)
        have hle := hs'.sublist.length_le
        refine ⟨progress', freed', m', ts', ?_, hs.trans hs' hd.stock.housed.closed, by omega,
          fun _ => .inr (by omega), fun hp => ?_⟩
        · rw [bind_ok hrel]
          exact hrun
        · cases (hidle hp).1

/-- Passes over the table until nothing more is reclaimed, and everything that is left in it is
counted. -/
theorem scanTable_run {bound fuel : Nat} (hd : Dying m ts (refs m ts R) [])
    (hmode : m.own.mode = .deferred) (hr : Rooted m R) (hbound : 2 * (blocksOf m ts).length < bound)
    (hfuel : (blocksOf m ts).length < fuel) (freed : Nat) :
    ∃ freed' m' ts', scanTable bound fuel freed m = .ok freed' m' ∧ EntriesReclaimed R m m' ts ts' ∧
      freed' + usedWords m' ts' = freed + usedWords m ts ∧ ∀ x ∈ m'.own.zeroCounts.entries.toList,
      x ∈ refs m' ts' R := by
  induction fuel generalizing m ts freed with
  | zero => omega
  | succ fuel ih =>
    obtain ⟨progress, freed₁, m₁, ts₁, hpass, hs₁, hwords₁, hprog, hidle⟩ :=
      scanPass_run hd hmode hr (i := 0) (Nat.zero_le _) hbound false freed
    rw [scanTable, bind_ok hpass]
    cases progress with
    | false =>
      obtain ⟨-, rfl, rfl, hall⟩ := hidle rfl
      refine ⟨freed₁, _, _, rfl, hs₁, hwords₁, fun x hx => ?_⟩
      obtain ⟨j, hj⟩ := Array.mem_iff_getElem?.mp (Array.mem_toList_iff.mp hx)
      exact hall j x (Nat.zero_le j) hj
    | true =>
      have hlt : (blocksOf m₁ ts₁).length < (blocksOf m ts).length :=
        (hprog rfl).resolve_left (by decide)
      obtain ⟨freed', m', ts', hrun, hs', hwords', hall⟩ := ih hs₁.dying (hs₁.mode.trans hmode)
        (by rw [Rooted, hs₁.roots]; exact hr)
        (by omega) (by omega) freed₁
      exact ⟨freed', m', ts', hrun, hs₁.trans hs' hd.stock.housed.closed, by omega, hall⟩

/-! ## The rest of the table -/

/-- Entries that leave the table lose their flags, and nothing else changes. -/
theorem keepParked_run {mode : CountMode} {h : Arena} {blocks : List (Nat × Nat)}
    {entries : List Nat} (hmode : mode = .deferred) (hh : Housed mode.headerWords h blocks)
    (hc : Counted (countOffset mode) h (Held blocks) T) (hT : T.length ≤ countLimit)
    (hlist : ∀ o ∈ entries, Held blocks o) (hnd : entries.Nodup) (parked : List Value) :
    ∃ entries' h', keepParked mode parked entries h = .ok entries' h' ∧ entries'.Sublist entries ∧
      (∀ x ∈ entries, x ∉ T → Value.ofRef x ∈ parked → x ∈ entries') ∧
      (∀ x ∈ entries', Value.ofRef x ∈ parked) ∧
      Annotated mode.headerWords blocks h h' ∧
      (∀ x, Held blocks x → h'.word (x - countOffset mode) = h.word (x - countOffset mode)) ∧
      ∀ x, Held blocks x → h'.word (x - queuedOffset) = if x ∈ entries ∧ x ∉ entries' then 0
      else h.word (x - queuedOffset) := by
  induction entries generalizing h with
  | nil =>
    exact ⟨[], h, rfl, List.Sublist.refl _, by simp, by simp, .refl _ _ _, fun _ _ => rfl,
      fun _ _ => by simp⟩
  | cons o rest ih =>
    have ho := hlist o (by simp)
    obtain ⟨hnew, hnd⟩ := List.nodup_cons.mp hnd
    have hlist' : ∀ x ∈ rest, Held blocks x := fun x hx => hlist x (by simp [hx])
    have hbound := hh.header ho
    have hlt := mode.offset_lt
    have hpos := mode.header_pos
    have hcount := hc.count_run ho (by omega) (hbound.2 _ mode.offset_pos (Nat.le_of_lt hlt)) hT
    rw [keepParked, bind_ok (read_heap hcount)]
    by_cases hkeep : (T.count o : Int) = 0 ∧ Value.ofRef o ∈ parked
    · rw [if_pos hkeep]
      obtain ⟨entries', h', hrun, hsub, hwait, hpark, hann, hcw, hfw⟩ := ih hh hc hlist' hnd
      refine ⟨o :: entries', h', ?_, hsub.cons_cons o, fun x hx hT hp => ?_,
        List.forall_mem_cons.mpr ⟨hkeep.2, hpark⟩, hann, hcw,
        fun x hx => ?_⟩
      · rw [bind_ok hrun]
        rfl
      · rcases List.mem_cons.mp hx with rfl | hx
        · exact List.mem_cons_self ..
        · exact List.mem_cons_of_mem _ (hwait x hx hT hp)
      · rw [hfw x hx]
        by_cases hxo : x = o
        · simp [hxo, hnew]
        · simp [hxo]
    · rw [if_neg hkeep]
      have hstore : setQueued o false h = .ok () (h.put (o - queuedOffset) 0) :=
        storeHeader_run (by simp only [queuedOffset]; omega) (hbound.2 _ (by decide) hpos)
      have hann₁ : Annotated mode.headerWords blocks h (h.put (o - queuedOffset) 0) := by
        obtain ⟨n, hb⟩ := ho
        exact .put (b := (o, n)) hb (by decide) (by rw [hmode]; decide)
      have hcw₁ : ∀ x, Held blocks x → (h.put (o - queuedOffset) 0).word (x - countOffset mode) =
          h.word (x - countOffset mode) :=
        fun x hx => Arena.word_put_ne _ (hh.count_ne_flag hmode hx ho)
      obtain ⟨entries', h', hrun, hsub, hwait, hpark, hann, hcw, hfw⟩ :=
        ih (hann₁.housed hh) (hc.congr hcw₁) hlist' hnd
      refine ⟨entries', h', ?_, hsub.cons o, fun x hx hT hp => ?_, hpark, hann₁.trans hann,
        fun x hx => (hcw x hx).trans (hcw₁ x hx),
        fun x hx => ?_⟩
      · rw [bind_ok hstore]
        exact hrun
      · rcases List.mem_cons.mp hx with rfl | hx
        · exact absurd ⟨by rw [List.count_eq_zero.mpr hT]; rfl, hp⟩ hkeep
        · exact hwait x hx hT hp
      · rw [hfw x hx]
        by_cases hxo : x = o
        · subst hxo
          have hout : x ∉ entries' := fun hm => hnew (hsub.subset hm)
          simp [hnew, hout, Arena.word_put_self _ (hbound.2 queuedOffset (by decide) hpos)]
        · rw [Arena.word_put_ne _ fun he => hxo (hh.flag_inj hx ho he)]
          simp [hxo]

/-- After a scan, entries that nothing has parked leave the table. -/
theorem Dying.keepParked_run (hd : Dying m ts T []) (hmode : m.own.mode = .deferred)
    (parked : List Value) :
    ∃ entries h', keepParked m.own.mode parked m.own.zeroCounts.entries.toList m.heap =
    .ok entries h' ∧
      Same (Held (blocksOf m ts)) m.heap h' ∧ (∀ x ∈ entries, x ∈ m.own.zeroCounts.entries.toList) ∧
      (∀ x ∈ m.own.zeroCounts.entries.toList, x ∉ T → Value.ofRef x ∈ parked → x ∈ entries) ∧
      (∀ x ∈ entries, Value.ofRef x ∈ parked) ∧ entries.length ≤ parked.length ∧
      Dying ((m.withHeap h').withOwn { m.own with zeroCounts := { m.own.zeroCounts with
        entries := entries.toArray } }) ts T [] := by
  have hb := hd.stock
  have hq := hb.queued hmode
  obtain ⟨entries, h', hrun, hsub, hwait, hpark, hann, hcw, hfw⟩ :=
    Counting.keepParked_run hmode hb.housed hd.counted hd.bounded hq.listed hq.nodup parked
  have hlen : entries.length ≤ parked.length := by
    have hrefs : entries ⊆ parked.filterMap Value.ref? := fun x hx => by
      obtain ⟨h0, hlt⟩ := hb.housed.named m.own.mode.header_pos x (hq.listed x (hsub.subset hx))
      exact List.mem_filterMap.mpr ⟨_, hpark x hx, Value.ref?_ofRef h0 (by omega)⟩
    exact Nat.le_trans ((hsub.nodup hq.nodup).length_le_of_subset hrefs)
      (List.length_filterMap_le ..)
  refine ⟨entries, h', hrun, hann.same hb.housed, fun x hx => hsub.subset hx, hwait, hpark, hlen,
    ⟨?_, ?_, hann.housed hb.housed, hb.roots, fun _ => ?_⟩,
    hd.counted.congr hcw, hd.bounded, List.nodup_nil, by simp, by simp⟩
  · exact hb.region.trans (by simp [Arena.region, hann.size_eq])
  · change Tiled m.own.freeList h' 0 h'.size ts
    rw [hann.size_eq]
    exact hann.tiled hb.housed m.own.mode.header_pos hb.tiled
  · have hroom : entries.length ≤ m.own.zeroCounts.capacity := Nat.le_trans hsub.length_le hq.room
    refine ⟨hsub.nodup hq.nodup, hroom, fun x hx => hq.listed x (hsub.subset hx), by simp,
      fun x hx _ => ?_⟩
    change h'.word (x - queuedOffset) ≠ 0 ↔ x ∈ entries
    have hflag := hq.flag x hx (by simp)
    have hmem : x ∈ entries → x ∈ m.own.zeroCounts.entries.toList := fun h => hsub.subset h
    rw [hfw x hx]
    split
    · simp_all
    · rw [hflag]
      tauto

/-! ## A whole scan -/

/-- What is parked is referred to by a root. -/
theorem refers_of_parked {r : Roots} (hv : v ∈ r.parkedValues) (ho : v.ref? = some o) :
    r.Refers o := by
  rw [Roots.parkedValues, Array.mem_toList_iff] at hv
  obtain ⟨j, hj⟩ := Array.mem_iff_getElem?.mp hv
  obtain ⟨hlt, -⟩ := Array.getElem?_eq_some_iff.mp hj
  rw [Array.getElem?_extract] at hj
  split at hj
  · exact ⟨.stack _, v, hj, ho⟩
  · cases hj

theorem length_parkedValues_le (r : Roots) : r.parkedValues.length ≤ r.parked := by
  simp only [Roots.parkedValues, Array.length_toList, Array.size_extract, Roots.depth]
  omega

/-- After a scan, on record with the words that it reclaimed: of the objects to which no field
refers, those that are parked are still in the table, and any other that is not was not there before
or is held by a root. -/
structure Cleared (m m' : Machine Counting) (ts ts' : List Tile) :
    Prop extends Shrunk m.own.zeroCounts.entries.toList m m' ts ts' where
  dying : Dying m' ts' (refs m' ts' []) []
  stats : m'.stats = m.stats.recordCycle .zeroCounts (usedWords m ts - usedWords m' ts')
    (usedWords m' ts')
  waiting : ∀ x ∈ m.own.zeroCounts.entries.toList, Value.ofRef x ∈ m.roots.parkedValues →
    x ∉ heapRefs m'.heap (blocksOf m' ts') →
    x ∈ m'.own.zeroCounts.entries.toList
  parked : ∀ x ∈ m'.own.zeroCounts.entries.toList, Value.ofRef x ∈ m.roots.parkedValues
  crowd : m'.own.zeroCounts.entries.size ≤ m.roots.parked
  strays : ∀ x, Stray m' ts' (refs m' ts' []) [] x → Stray m ts (refs m ts []) [] x ∨
    m.roots.Refers x

/-- The measurements, and the words that the blocks take. -/
abbrev booksOf (m : Machine Counting) (ts : List Tile) : Books := ⟨m.stats, usedWords m ts⟩

/-- A scan is one cycle. -/
theorem Cleared.cycled (hs : Cleared m m' ts ts') :
    Books.Cycled (booksOf m ts) (booksOf m' ts') :=
  ⟨.zeroCounts, (hs.sublist.map Prod.snd).sum_le_sum fun _ _ => Nat.zero_le _, hs.stats⟩

theorem Cleared.cycles (hs : Cleared m m' ts ts') :
    m'.stats.collections = m.stats.collections + 1 := by
  rw [hs.stats]
  rfl

/-- A scan leaves what the roots reach, and what is neither in the table nor referred to by
fields. -/
theorem scan_run (hd : Dying m ts (refs m ts []) []) (hmode : m.own.mode = .deferred)
    (hlen : (m.roots.refs m.roots.references ++ refs m ts []).length ≤ countLimit) :
    ∃ m' ts', scan m = .ok () m' ∧ Cleared m m' ts ts' := by
  have hcl := hd.stock.housed.closed
  have hle := hd.stock.length_le
  obtain ⟨m₁, hrun₁, hown₁, hn₁, hd₁⟩ := countRoots_run hd hlen
  have hs₁ : Shrunk m.own.zeroCounts.entries.toList m m₁ ts ts :=
    hn₁.shrunk hd.stock _ fun x hx => .inl (by rwa [← hown₁])
  have hmode₁ := hn₁.mode.trans hmode
  have hrefs₁ := hn₁.heapRefs_eq hd.stock
  rw [refs, List.append_nil, ← hrefs₁] at hd₁
  have hroots : Rooted m₁ (m.roots.refs m.roots.references) := by
    rw [Rooted, hn₁.roots]
    exact fun o ho => Roots.mem_references_of_refers ho
  have hblocks := hn₁.blocksOf_eq
  have hbound : 2 * (blocksOf m₁ ts).length < 2 * (m.heap.size + m.own.zeroCounts.length) + 2 := by
    rw [hblocks]
    omega
  have hfuel : (blocksOf m₁ ts).length < 2 * (m.heap.size + m.own.zeroCounts.length) + 2 := by omega
  obtain ⟨freed, m₂, ts₂, hrun₂, hs₂, hwords₂, hall⟩ :=
    scanTable_run (hd₁.perm List.perm_append_comm) hmode₁ hroots hbound hfuel 0
  have hd₂ := hs₂.dying
  have hmode₂ := hs₂.mode.trans hmode₁
  have hroots₂ : m₂.roots = m.roots := hs₂.roots.trans hn₁.roots
  have hd₂' : Dying m₂ ts₂ (m₂.roots.refs m₂.roots.references ++ heapRefs m₂.heap
      (blocksOf m₂ ts₂)) [] := by
    rw [hroots₂]
    exact hd₂.perm List.perm_append_comm
  obtain ⟨m₃, hrun₃, hown₃, hn₃, hd₃⟩ := uncountRoots_run hd₂'
  have hs₃ : Shrunk m₂.own.zeroCounts.entries.toList m₂ m₃ ts₂ ts₂ :=
    hn₃.shrunk hd₂.stock _ fun x hx => .inl (by rwa [← hown₃])
  have hmode₃ := hn₃.mode.trans hmode₂
  obtain ⟨entries, h', hrun₄, hsame₄, hsub₄, hwait₄, hpark₄, hlen₄, hd₄⟩ :=
    hd₃.keepParked_run hmode₃ m₃.roots.parkedValues
  let m₄ : Machine Counting := (m₃.withHeap h').withOwn { m₃.own with
    zeroCounts := { m₃.own.zeroCounts with entries := entries.toArray } }
  let m₅ : Machine Counting :=
    { m₄ with
      stats := m₄.stats.recordCycle .zeroCounts freed
        (m₄.own.region.length - m₄.own.freeList.freeWords) }
  have hs₅ : Shrunk [] m₃ m₅ ts₂ ts₂ :=
    ⟨⟨rfl, rfl, rfl, List.Sublist.refl _, hsame₄, rfl, rfl⟩, fun _ hx hn => absurd hx hn,
      fun x hx => .inl (hsub₄ x hx)⟩
  have hrefs : refs m₅ ts₂ [] = heapRefs m₂.heap (blocksOf m₂ ts₂) := by
    rw [refs, List.append_nil, ← hn₃.heapRefs_eq hd₂.stock]
    exact hsame₄.heapRefs hd₃.stock.housed.closed
  have hs₁₂ := hs₁.trans hs₂.toShrunk hcl fun x hx => .inl (by rwa [← hown₁])
  have hparked : m₃.roots.parkedValues = m.roots.parkedValues := by rw [hn₃.roots, hroots₂]
  have hused : usedWords m₅ ts₂ = usedWords m₂ ts₂ :=
    congrArg (fun bs => (bs.map Prod.snd).sum) hn₃.blocksOf_eq
  refine ⟨m₅, ts₂, ?_, (hs₁₂.trans hs₃ hcl hs₁₂.table).trans hs₅ hcl (by simp), ?_, ?_,
    fun x hx hp hno => ?_,
    fun x hx => by rw [← hparked]; exact hpark₄ x hx, ?_, fun x hx => ?_⟩
  · rw [hmode₂.trans hmode.symm] at hrun₃
    rw [hmode₃.trans hmode.symm] at hrun₄
    have hlift :
      (liftM (keepParked m.own.mode m₃.roots.parkedValues m₃.own.zeroCounts.entries.toList) : GcM
        Counting (List Nat)) m₃
        = .ok entries (m₃.withHeap h') := heap_lift hrun₄
    rw [scan, bind_ok GcM.run_own,
      bind_ok GcM.run_heapSize, bind_ok hrun₁, bind_ok hrun₂, bind_ok hrun₃, bind_ok GcM.run_roots,
      bind_ok GcM.run_own, bind_ok hlift]
    rfl
  · rw [hrefs]
    exact hd₄.of_eq rfl rfl rfl
  · change m₃.stats.recordCycle .zeroCounts freed
      (m₄.own.region.length - m₄.own.freeList.freeWords) = _
    have hfreed : freed = usedWords m ts - usedWords m₅ ts₂ := by
      have hused₁ : usedWords m₁ ts = usedWords m ts :=
        congrArg (fun bs => (bs.map Prod.snd).sum) hblocks
      omega
    rw [hd₄.stock.usedWords_eq, hn₃.stats, hs₂.stats, hn₁.stats, hfreed]
  · -- a root refers to it, so it was not reclaimed
    obtain ⟨h0, hlt⟩ := hd.stock.housed.named m.own.mode.header_pos x
      ((hd.stock.queued hmode).listed x hx)
    have hroot : m.roots.Refers x := refers_of_parked hp (Value.ref?_ofRef h0 (by omega))
    have hx₂ := hs₂.spared x (by rwa [hown₁]) (Roots.mem_references_of_refers hroot)
    refine hwait₄ x (by rwa [hown₃]) ?_ (by rwa [hparked])
    rw [← hrefs]
    simpa [refs] using hno
  · rw [hparked] at hlen₄
    exact Nat.le_trans hlen₄ (length_parkedValues_le m.roots)
  · by_cases hr : m.roots.Refers x
    · exact .inr hr
    · -- nothing counted it when the table was gone through, so it was not in the table at the end
      left
      have hheap : x ∉ heapRefs m₂.heap (blocksOf m₂ ts₂) := by
        rw [← hrefs]
        exact hx.uncounted
      have hT : x ∉ refs m₂ ts₂ (m.roots.refs m.roots.references) := by
        intro hm
        rcases List.mem_append.mp hm with hm | hm
        · exact hheap hm
        · exact hr (Roots.refers_of_mem hm)
      have hx₁ := hs₂.strays x ⟨by rw [← hn₃.blocksOf_eq]; exact hx.held, hT, by simp,
        fun _ hm => hT (hall x hm)⟩
      refine hn₁.stray hx₁ (fun hm => hx₁.uncounted ?_) (by simp)
      rw [refs, List.append_nil, ← hrefs₁] at hm
      exact List.mem_append_left _ hm

end Reclaim.Counting
