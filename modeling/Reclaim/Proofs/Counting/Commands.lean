import Reclaim.Proofs.Counting.Making
import Reclaim.Proofs.Globals

/-!
# Commands on a counting heap

What the operations of a program do to the machine of a counting heap (`Mutator.Counts`). A
constructor brings one new object, after its operands were parked and taken back; binding a name
brings three, one after the other, and stores the last into the bucket of the name.

Results:
* `allocateWords_counts`, `Constructs.counts`, `cons_counts`, `duplicate_counts`: constructors.
* `bindNew_counts`: a name is bound for the first time.
-/

namespace Reclaim

variable {α : Type}

/-- What a name is bound by in its bucket: the first link, the entry that this holds, and the text
in the entry. -/
structure Binding {σ : Type} (m : Machine σ) (bucket link entry key : Nat) : Prop where
  bucket : m.roots.get? (.global bucket) = some (.ofRef link)
  link : m.heap.value (link + 1) = .ofRef entry
  entry : m.heap.value (entry + 1) = .ofRef key

namespace Counting

/-- The table is not said to be full. -/
def NotTableFull (e : Fault) : Prop := ∀ k, e ≠ .failed (.zeroCountTableFull k)

/-- The table is not said to be full if it has room for more objects than there are parked values,
and `n` more. -/
def Uncrowded (m : Machine Counting) (n : Nat) (e : Fault) : Prop :=
  m.roots.parked + n < m.own.zeroCounts.capacity → NotTableFull e

/-- The collector failed: the heap is poisoned. -/
def Poisons (m : Machine Counting) (e : Fault) (u' : Mutator) : Prop := u'.poisoned = true ∧
    Uncrowded m 0 e

/-- Why an operation that parks `n` values stops on a counting heap. -/
def StopsUncrowded (u : Mutator) (m : Machine Counting) (n : Nat) (e : Fault)
    (u' : Mutator) : Prop := Stops u n e u' ∧ Uncrowded m n e

section Uncrowded

variable {m m' : Machine Counting} {n k : Nat} {e : Fault} {u u' : Mutator}

/-- Only the number of parked values matters, and the room that there is. -/
theorem Uncrowded.mono (h : Uncrowded m n e)
    (hcap : m.own.zeroCounts.capacity = m'.own.zeroCounts.capacity)
    (hle : m.roots.parked + n ≤ m'.roots.parked + k) : Uncrowded m' k e :=
  fun hroom => h (by omega)

theorem NotTableFull.uncrowded (h : NotTableFull e) : Uncrowded m n e := fun _ => h

/-- A full table is a fatal failure. -/
theorem notTableFull_of_recoverable (h : ∀ f, e = .failed f → f.isFatal = false) : NotTableFull e :=
  fun _ he => Bool.noConfusion (h _ he)

theorem notTableFull_of_parking {size capacity : Nat}
    (h : Roots.parking size capacity n = .error e) : NotTableFull e :=
  notTableFull_of_recoverable (Roots.not_fatal_of_parking h)

theorem notTableFull_underflow : NotTableFull (.failed .stackUnderflow) := fun _ he => by cases he

theorem Poisons.stops (h : Poisons m e u') : StopsUncrowded u m 0 e u' := ⟨.inl h.1, h.2⟩

end Uncrowded

end Counting

/-- The mutator runs the counting heap `m`, and is in order. -/
structure Mutator.Counts (u : Mutator) (m : Machine Counting) : Prop where
  machine : u.machine = m.withOwn (.counting m.own)
  clean : u.poisoned = false

namespace Mutator.Counts

variable {u : Mutator} {m m' : Machine Counting} {x : GcM Collector α} {y : GcM Counting α} {a : α}
  {Q : α → Machine Counting → Prop} {h : Arena}

theorem heap (hu : u.Counts m) : u.machine.heap = m.heap := by rw [hu.machine]; rfl

theorem roots (hu : u.Counts m) : u.machine.roots = m.roots := by rw [hu.machine]; rfl

theorem withHeap (hu : u.Counts m) : (u.withHeap h).Counts (m.withHeap h) :=
  ⟨by rw [Mutator.withHeap_machine, hu.machine]; rfl, hu.clean⟩

theorem withRoots (hu : u.Counts m) (r : Roots) :
    (u.withMachine (u.machine.withRoots r)).Counts (m.withRoots r) :=
  ⟨by rw [Mutator.withMachine_machine, hu.machine]; rfl, hu.clean⟩

/-- What the collector does is known from the counting heap. -/
theorem operate (hu : u.Counts m)
    (hxy : ∀ {mc s}, mc.own = Collector.counting s →
      x mc = Collector.within Collector.counting s y mc) (hy : Runs y m Q (Counting.Declined m)) :
    Ends (MutatorM.operate x) u (fun a u' => ∃ m', u'.Counts m' ∧ Q a m') (Counting.Poisons m) := by
  have hx : Runs x u.machine (fun a mc => ∃ m', (u.withMachine mc).Counts m' ∧ Q a m') fun f _ =>
    ∃ m', Counting.Declined m f m' := by
    refine Collector.Hosts.runs (hxy (s := m.own) (by rw [hu.machine]; rfl)) ?_
    rw [hu.machine]
    exact (hy.mono fun a m' h => ⟨m', ⟨rfl, hu.clean⟩, h⟩).mono_fail fun _ m' h => ⟨m', h⟩
  refine (MutatorM.operate_fails hu.clean hx fun _ _ ⟨_, h⟩ => h.fatal).mono_error ?_
  rintro e u' ⟨hpo, f, rfl, m', hf⟩
  exact ⟨hpo, fun hroom n he => hf.table hroom n (Fault.failed.inj he)⟩

theorem guarded (hu : u.Counts m)
    (hxy : ∀ {mc s}, mc.own = Collector.counting s →
      x mc = Collector.within Collector.counting s y mc) (hy : y m = .ok a m') : ∃ u',
      MutatorM.guarded (liftM x) u = .ok a u' ∧ u'.Counts m' := by
  have hrun : x u.machine = .ok a (m'.withOwn (.counting m'.own)) := by
    rw [hxy (s := m.own) (by rw [hu.machine]; rfl)]
    refine Collector.run_within ?_
    rw [hu.machine]
    exact hy
  exact ⟨_, MutatorM.guarded_run hrun, rfl, hu.clean⟩

end Mutator.Counts

namespace Counting

open MutatorM

variable {m m' m₁ : Machine Counting} {ts ts' : List Tile} {vs : List Value} {o n k i : Nat}
  {v w car cdr : Value} {u : Mutator}

/-! ## New objects -/

/-- The other objects keep clear of a block. -/
theorem Balanced.clear (hg : Balanced m ts) (hm : (o, k) ∈ blocksOf m ts)
    (hroom : m.own.mode.headerWords + n ≤ k) :
    o + n ≤ m.heap.size ∧ ∀ x, Held (blocksOf m ts) x → x ≠ o → x + m.heap.payload x ≤ o ∨
    o + n ≤ x := by
  have hh := hg.dying.stock.housed
  have hin := hh.inside _ hm
  simp only at hin
  refine ⟨by omega, ?_⟩
  rintro x ⟨j, hx⟩ hne
  have hfit := hh.fit hx
  rcases hh.apart _ hx _ hm with he | hap | hap
  · exact absurd (congrArg Prod.fst he) hne
  · simp only at hap
    omega
  · simp only at hap
    omega

namespace Brings

/-- Words without references are written into the new object. -/
theorem fill {h' : Arena} (hb : Brings vs o n m m₁ ts ts') (hcl : Closed m.heap (m.Live vs))
    (hsize : h'.size = m₁.heap.size) (hout : ∀ a, a < o ∨ o + n ≤ a → h'.word a = m₁.heap.word a)
    (htag : h'.tag o ≠ none) (hpay : h'.payload o ≤ n) (hnil : m₁.heap.succ o = [])
    (hnil' : h'.succ o = []) : Brings vs o n m (m₁.withHeap h') ts ts' := by
  obtain ⟨k, hroom, hm⟩ := hb.block
  rw [← hb.mode] at hroom
  have hnew := (hb.balanced.clear hm hroom).2
  obtain ⟨hg, hlost⟩ := hb.balanced.overwrite hm hroom hsize hout hnew htag hpay hnil hnil'
  exact hb.after rfl rfl hg hlost (rewritten_of_outside hout hnew) hcl

/-- A field of the new object, a pair, gets its first value. -/
theorem init (hb : Brings vs o 3 m m₁ ts ts') (hcl : Closed m.heap (m.Live vs))
    (ht : m₁.heap.tag o = some .pair) (hio : i = 1 ∨ i = 2)
    (hold : (m₁.heap.value (o + i)).isRef = false) (hv : v.Within (m.Live vs)) :
    ∃ m', initField (o + i) v m₁ = .ok () m' ∧ Brings vs o 3 m m' ts ts' ∧ m'.heap.tag o =
    some .pair ∧ m'.heap.value (o + i) = v ∧
      (∀ j, j = 1 ∨ j = 2 → j ≠ i → m'.heap.value (o + j) = m₁.heap.value (o + j)) ∧
      ∀ x, Lost m' ts' x → Lost m₁ ts' x ∧ v.ref? ≠ some x := by
  have hap := hb.balanced.dying.stock.housed.objects_apart
  have hf : o + i = o + 1 ∨ o + i = o + 2 := by omega
  have hp := Arena.payload_of_pair ht
  obtain ⟨m', hrun, hown, hg, hlost, hst, hroots, -⟩ :=
    initField_run hb.balanced hb.held ht hf hold (hb.within hv)
  have hrw : Rewritten (Held (blocksOf m₁ ts')) o m₁.heap m'.heap := by
    intro x j hx hne hj
    rw [hst x j hx hj, if_neg fun he => hne (hap.field_unique hb.held ht hf hx hj he)]
  refine ⟨m', hrun, hb.after hown hroots hg (fun x hx => (hlost x hx).1) hrw hcl, ?_, ?_,
    fun j hj hne => ?_, hlost⟩
  · rw [Arena.tag_congr (hst.head hap hb.held ht hf hb.held)]
    exact ht
  · have hw := hst o i hb.held (by omega)
    rw [if_pos rfl] at hw
    rw [Arena.value, hw]
  · have hw := hst o j hb.held (by omega)
    rw [if_neg (by omega)] at hw
    exact Arena.value_congr hw

end Brings

/-- A listed object can be referred to. -/
theorem Balanced.ref_held (hg : Balanced m ts) (ho : Held (blocksOf m ts) o) :
    (Value.ofRef o).ref? = some o ∧ (Value.ofRef o).Within (Held (blocksOf m ts)) := by
  obtain ⟨h0, hlt⟩ := hg.dying.stock.housed.named m.own.mode.header_pos o ho
  exact ⟨Value.ref?_ofRef h0 (by omega), Value.ofRef_within h0 (by omega) ho⟩

/-- No root refers to a lost object. -/
theorem Lost.not_refers {x : Nat} (hx : Lost m ts x) (hpark : m.roots.parked = 0) :
    ¬ m.roots.Refers x := by
  cases hmode : m.own.mode with
  | eager =>
    intro hr
    refine hx.stray.uncounted (List.mem_append_right _ ?_)
    rw [hmode]
    exact Roots.mem_unparked_of_refers hpark hr
  | deferred => exact hx.unheld hmode

theorem Balanced.closed_live (hg : Balanced m ts)
    (hvs : ∀ v ∈ vs, v.Within (Held (blocksOf m ts))) : Closed m.heap (m.Live vs) :=
  Machine.closed_live hg.dying.stock.housed.closed hg.dying.stock.roots hvs

theorem hosted (hu : u.Counts m) (hg : Balanced m ts) :
    Collector.Hosted Collector.counting (Kept (Good m.own.mode m.own.zeroCounts.capacity)) u.machine
      (Held (blocksOf m ts)) := by
  rw [hu.machine]
  exact ⟨m.own, rfl, _, ⟨ts, rfl, rfl, rfl, hg⟩, rfl⟩

/-- A new object, all zero. -/
theorem allocateWords_counts (hu : u.Counts m) (hg : Balanced m ts) (hn : 1 ≤ n) :
    Ends (allocateWords n) u (fun o u' => ∃ m' ts', u'.Counts m' ∧
      Brings [] o n m m' ts ts' ∧ ∀ i, i < n → m'.heap.word (o + i) = 0)
      (fun e u' => Poisons m e u' ∨ Uncounted u n e u') := by
  by_cases hcount : Collector.operations.Countable u.machine n
  case neg =>
    have hl := (laws m.own.mode m.own.zeroCounts.capacity).hosted hosts
    exact .of_error (allocateWords_overflows hl (hosted hu hg) hu.clean hn hcount)
      (.inr ⟨rfl, rfl, hcount⟩)
  have hcount : operations.Countable m n := by
    rw [hosts.countable (s := m.own) (by rw [hu.machine]; rfl), hu.machine] at hcount
    exact hcount
  refine .mono_error ?_ fun _ _ h => .inl h
  unfold allocateWords
  refine (hu.operate (fun h => hosts.allocate n h) (allocate_issues hg hn hcount)).bind ?_
  rintro o u' ⟨m₂, hu', m₁, ts₁, k, ts', -, hs, hi⟩
  have hb := hi.brings hg hs
  let m' : Machine Counting := { m₂ with
    stats := m₂.stats.recordAllocation (n + (Collector.counting m₂.own).headerWords) }
  refine .step (a := ()) (t := { u' with machine := { u'.machine with
    stats := u'.machine.stats.recordAllocation (n + u'.machine.own.headerWords) } }) rfl
      (.pure ⟨m', ts', ⟨?_, hu'.clean⟩, ?_, hi.zero⟩)
  · rw [hu'.machine]
    rfl
  · have hg' : Balanced m' ts' := hb.balanced.of_eq rfl rfl rfl
    refine hb.after rfl rfl hg' (fun x hx => hx.of_refs rfl (fun _ h => h) fun _ h => h)
      (fun _ _ _ _ _ => rfl) (hg.closed_live (by simp))

/-- An object that fits into memory. -/
theorem allocateWords_halts (hu : u.Counts m) (hg : Balanced m ts) (hn : 1 ≤ n)
    (hlt : n < tableLimit) :
    Ends (allocateWords n) u (fun o u' => ∃ m' ts', u'.Counts m' ∧ Brings [] o n m m' ts ts' ∧
      ∀ i, i < n → m'.heap.word (o + i) = 0) (StopsUncrowded u m 0) :=
  (allocateWords_counts hu hg hn).mono_error fun _ _ h =>
    h.elim Poisons.stops fun h => absurd (Collector.countable_of_lt hlt) h.2.2

/-- A constructor of objects without references. -/
theorem constructs_counts {y : MutatorM Value} {t : Tag} {aux : Word} {words : List Word}
    (hy : Constructs y t aux words) (hu : u.Counts m) (hg : Balanced m ts) :
    Ends y u (fun w u' => ∃ m' ts' o, w = .ofRef o ∧ u'.Counts m' ∧
      Brings [] o (words.length + 1) m m' ts ts' ∧
        m'.heap.tag o ≠ some .pair)
      (fun e u' => Poisons m e u' ∨ Uncounted u (words.length + 1) e u') := by
  obtain ⟨x, rfl, hx⟩ := hy.run
  refine (allocateWords_counts hu hg (by omega)).bind ?_
  rintro o u' ⟨m', ts', hu', hb, hz⟩
  obtain ⟨k, hroom, hm⟩ := hb.block
  have hin := (hb.balanced.clear hm (by rw [hb.mode]; exact hroom)).1
  obtain ⟨htag, hpay, hnp⟩ := hy.words hin
  have hnil : ∀ h : Arena, h.tag o ≠ some .pair → h.succ o = [] := by
    intro h ht
    rw [Arena.succ, Arena.fields_of_not_pair ht]
    rfl
  refine .of_eq (hx o u' (by rw [hu'.heap]; exact hin)) ⟨_, ts', o, rfl, hu'.withHeap, ?_⟩
  rw [hu'.heap]
  refine ⟨?_, hnp⟩
  refine hb.fill (hg.closed_live (by simp)) (by simp)
    (fun a ha => Arena.word_puts_outside (by simpa using ha)) (by rw [htag]; simp) hpay
    (hnil _ ?_) (hnil _ hnp)
  have hz0 : m'.heap.word o = 0 := hz 0 (by omega)
  rw [Arena.tag_of_zero hz0]
  decide

/-! ## Parked operands -/

/-- A value is parked while `x` brings a new object. -/
theorem keeping_counts {x : MutatorM α} {P : α → Nat → Arena → Prop} {l : List Value}
    (hu : u.Counts m) (hg : Balanced m ts) (hv : v.Within (Held (blocksOf m ts)))
    (hx : (parkedOn u v).Counts (m.withRoots (m.roots.withParked v)) →
      Balanced (m.withRoots (m.roots.withParked v)) ts → Ends x (parkedOn u v)
      (fun a u' => Roots.parking (parkedOn u v).machine.roots.stack.size
        (parkedOn u v).machine.roots.capacity k = .ok () ∧ ∃ m' ts' o, u'.Counts m' ∧
        Brings l o n (m.withRoots (m.roots.withParked v)) m' ts ts' ∧ P a o m'.heap)
        (StopsUncrowded (parkedOn u v) (m.withRoots (m.roots.withParked v)) k)) :
    Ends (keeping v x) u (fun r u' => r.1 = v ∧
      Roots.parking u.machine.roots.stack.size u.machine.roots.capacity (k + 1) = .ok () ∧
      ∃ m' ts' o, u'.Counts m' ∧ Brings (v :: l) o n m m' ts ts' ∧
        P r.2 o m'.heap) (StopsUncrowded u m (k + 1)) := by
  have hroots := hu.roots
  cases hroom : Roots.parking u.machine.roots.stack.size u.machine.roots.capacity 1 with
  | ok =>
    obtain ⟨hcap, hlim⟩ := Roots.room_of_parking hroom
    have hpark : (parkedOn u v).Counts (m.withRoots (m.roots.withParked v)) := by
      rw [← hroots]
      exact hu.withRoots _
    have hend := hx hpark (hg.park hv (by rw [← hroots]; exact hlim))
    cases hrun : x (parkedOn u v) with
    | ok a u' =>
      obtain ⟨hok, m', ts', o, hu', hb, hp⟩ := hend.ok hrun
      have hr : u'.machine.roots = m.roots.withParked v := hu'.roots.trans hb.roots
      have hback : u'.machine.roots.stack.back? = some v := by
        rw [hr]
        simp [Roots.withParked]
      have hres : u'.machine.roots.withoutParked = m.roots := by
        rw [hr]
        simp [Roots.withParked, Roots.withoutParked]
      refine .of_eq (keeping_ok hcap hlim hrun hback)
        ⟨rfl, (parking_succ hcap hlim).trans hok,
          m'.withRoots m.roots, ts', o, ?_, hb.unpark hg, hp⟩
      rw [hres]
      exact hu'.withRoots _
    | error e u' =>
      obtain ⟨hstop, hcrowd⟩ := hend.error hrun
      refine ((keeping_stops hcap hlim hrun hstop).and_error
        (keeping_blames hcap hlim hrun)).mono_error fun e' u'' h => ⟨h.1, ?_⟩
      rcases h.2 with rfl | rfl
      · exact hcrowd.mono rfl (by simp [Roots.withParked]; omega)
      · exact notTableFull_underflow.uncrowded
  | error e =>
    exact .of_error (keeping_full hroom)
      ⟨.inr ⟨Roots.parking_error hroom k, fun _ _ => rfl⟩,
        (notTableFull_of_parking hroom).uncrowded⟩

/-- A new pair of `car` and `cdr`, which its fields count from now on. -/
structure Pairs (car cdr : Value) (o : Nat) (m m' : Machine Counting) (ts ts' : List Tile) :
    Prop extends Brings [car, cdr] o 3 m m' ts ts' where
  tag : m'.heap.tag o = some .pair
  first : m'.heap.value (o + 1) = car
  second : m'.heap.value (o + 2) = cdr
  unlost : ∀ x, Lost m' ts' x → car.ref? ≠ some x ∧ cdr.ref? ≠ some x ∧
    (Lost m ts x ∨ (m.own.mode = .eager ∧ x = o))

theorem cons_counts (hu : u.Counts m) (hg : Balanced m ts)
    (hcar : car.Within (Held (blocksOf m ts))) (hcdr : cdr.Within (Held (blocksOf m ts))) :
    Ends (cons car cdr) u (fun w u' =>
      Roots.parking u.machine.roots.stack.size u.machine.roots.capacity 2 = .ok () ∧
      ∃ m' ts' o, w = .ofRef o ∧ u'.Counts m' ∧ Pairs car cdr o m m' ts ts')
      (StopsUncrowded u m 2) := by
  have hops : ∀ v ∈ [car, cdr], v.Within (Held (blocksOf m ts)) := by
    intro v hv
    simp only [List.mem_cons, List.not_mem_nil, or_false] at hv
    rcases hv with rfl | rfl
    · exact hcar
    · exact hcdr
  have hcl := hg.closed_live hops
  have hlive : ∀ v ∈ [car, cdr], v.Within (m.Live [car, cdr]) :=
    fun v hv => Machine.within_live hv (hops v hv)
  unfold cons
  refine .step (check_run hu.clean) ?_
  -- what is known of the new object when the operands are taken back
  let P : Nat → Nat → Arena → Prop := fun a o h => a = o ∧ ∀ i, i < 3 → h.word (o + i) = 0
  refine (keeping_counts (k := 1) (n := 3) (l := [cdr])
    (P := fun (r : Value × Nat) o h => r.1 = cdr ∧ P r.2 o h) hu hg hcar fun hu₁ hg₁ => ?_).bind ?_
  · refine (keeping_counts (k := 0) (n := 3) (l := []) (P := P) hu₁ hg₁ hcdr
      fun hu₂ hg₂ => ?_).mono ?_
    · refine (allocateWords_halts hu₂ hg₂ (by decide) (by decide)).mono ?_
      rintro o u' ⟨m', ts', hu', hb, hz⟩
      exact ⟨rfl, m', ts', o, hu', hb, rfl, hz⟩
    · rintro r u' ⟨hr, hpark, m', ts', o, hu', hb, hp⟩
      exact ⟨hpark, m', ts', o, hu', hb, hr, hp⟩
  · rintro r u₁ ⟨hcar₁, hpark, m₁, ts', o, hu₁, hb, hcdr₁, ho, hz⟩
    obtain rfl : r = (car, cdr, o) := Prod.ext hcar₁ (Prod.ext hcdr₁ ho)
    obtain ⟨k, hroom, hm⟩ := hb.block
    have hin := (hb.balanced.clear hm (by rw [hb.mode]; exact hroom)).1
    obtain ⟨ht, hval, hnil', hnil⟩ := Arena.put_pair hin hz
    have hstore : store o (objectWord .pair 0) u₁.machine.heap = .ok ()
        (m₁.heap.put o (objectWord .pair 0)) := by
      rw [hu₁.heap]
      exact store_run (by omega)
    have hb₁ := hb.fill hcl (by simp) (fun a ha => Arena.word_put_ne _ (by omega))
      (by rw [ht]; simp)
      (by rw [Arena.payload_of_pair ht]) hnil hnil'
    obtain ⟨m₂, hrun₂, hb₂, ht₂, hsnd, hoth₂, hlost₂⟩ := hb₁.init hcl ht (i := 2) (.inr rfl)
      (hval 2 (.inr rfl)) (hlive cdr (by simp))
    obtain ⟨m₃, hrun₃, hb₃, ht₃, hfst, hoth₃, hlost₃⟩ := hb₂.init hcl ht₂ (i := 1) (.inl rfl)
      (by rw [hoth₂ 1 (.inl rfl) (by omega)]; exact hval 1 (.inl rfl)) (hlive car (by simp))
    obtain ⟨u₂, hg₂, hu₂⟩ := hu₁.withHeap.guarded (fun h => hosts.initField (o + 2) cdr h) hrun₂
    obtain ⟨u₃, hg₃, hu₃⟩ := hu₂.guarded (fun h => hosts.initField (o + 1) car h) hrun₃
    refine .step (MutatorM.heap_lift hstore)
      (.step hg₂
        (.step hg₃ (.pure ⟨hpark, m₃, ts', o, rfl, hu₃, hb₃, ht₃, hfst, ?_, fun x hx => ?_⟩)))
    · exact (hoth₃ 2 (.inr rfl) (by omega)).trans hsnd
    · obtain ⟨hx₂, hcar⟩ := hlost₃ x hx
      obtain ⟨hx₁, hcdr⟩ := hlost₂ x hx₂
      refine ⟨hcar, hcdr, ?_⟩
      rcases hb₁.lost x hx₁ with h | ⟨hmode, h⟩ | ⟨-, v, hv, h⟩
      · exact .inl h
      · exact .inr ⟨hmode, by simpa using h⟩
      · simp only [List.mem_cons, List.not_mem_nil, or_false] at hv
        rcases hv with rfl | rfl
        · exact absurd h hcar
        · exact absurd h hcdr

/-- A copy of an object. -/
theorem duplicate_counts {src : Nat} (hu : u.Counts m) (hg : Balanced m ts)
    (hv : v.Within (Held (blocksOf m ts))) (hsrc : v.ref? = some src) :
    Ends (duplicate v) u (fun w u' => ∃ m' ts' o, w = .ofRef o ∧ u'.Counts m' ∧
      Brings [v] o (m.heap.payload src) m m' ts ts') (StopsUncrowded u m 1) := by
  obtain ⟨rfl, hS⟩ := hv src hsrc
  have hh := hg.dying.stock.housed
  have hk := hh.closed.known src hS
  have hlt : m.heap.payload src < tableLimit := by
    have hin := (hh.objects_apart.inside src hS).2
    have hsmall := hh.small
    unfold tableLimit
    omega
  have hread : payloadWords src u.machine.heap = .ok (m.heap.payload src) := by
    rw [hu.heap]
    exact payloadWords_run (by
      have := (hh.objects_apart.inside src hS).2; have := Arena.payload_pos hk; omega) hk
  have hops : ∀ w ∈ [Value.ofRef src], w.Within (Held (blocksOf m ts)) := by simpa using hv
  have hcl := hg.closed_live hops
  have hlive : m.Live [.ofRef src] src := .root (.inr ⟨_, by simp, hsrc⟩)
  unfold duplicate
  rw [hsrc]
  refine .step (check_run hu.clean) (.step (MutatorM.read_lift hread) ?_)
  let P : Nat → Nat → Arena → Prop := fun a o h => a = o ∧ h.word o = 0
  refine (keeping_counts (k := 0) (n := m.heap.payload src) (l := []) (P := P) hu hg hv
    fun hu₁ hg₁ => ?_).bind ?_
  · refine (allocateWords_halts hu₁ hg₁ (Arena.payload_pos hk) hlt).mono ?_
    rintro o u' ⟨m', ts', hu', hb, hz⟩
    exact ⟨rfl, m', ts', o, hu', hb, rfl, hz 0 (Arena.payload_pos hk)⟩
  · rintro r u₁ ⟨hr, -, m₁, ts', o, hu₁, hb, ho, hz⟩
    obtain rfl : r = (.ofRef src, o) := Prod.ext hr ho
    dsimp only
    rw [hsrc]
    obtain ⟨k, hroom, hm⟩ := hb.block
    rw [← hb.mode] at hroom
    have hh₁ := hb.balanced.dying.stock.housed
    obtain ⟨hin, hnew⟩ := hb.balanced.clear hm hroom
    obtain ⟨hheld, hne⟩ := hb.live src hlive
    have hpay : m₁.heap.payload src = m.heap.payload src :=
      hb.same.payload (hcl.known src hlive) hlive
    have hc := hh₁.objects_apart.copy hheld hpay hin hnew
    have hsin := (hh₁.objects_apart.inside src hheld).2
    have hcopy : copyWords src o (m.heap.payload src) u₁.machine.heap = .ok ()
        (m₁.heap.copy src o (m.heap.payload src)) := by
      rw [hu₁.heap]
      exact copyWords_run (by omega) hin
    have hnil : m₁.heap.succ o = [] := by
      rw [Arena.succ, Arena.fields_of_not_pair (by rw [Arena.tag_of_zero hz]; decide)]
      rfl
    obtain ⟨m₂, hrun, hown, hg₂, hlost, hsame, hroots, -⟩ :=
      countCopied_run hb.balanced hm hroom hnil hc
    obtain ⟨u₂, hnote, hu₂⟩ := hu₁.withHeap.guarded (fun h => hosts.noteCopy o h) hrun
    refine .step (MutatorM.heap_lift hcopy)
      (.step hnote (.pure ⟨m₂, ts', o, rfl, hu₂, hb.after hown hroots hg₂ hlost ?_ hcl⟩))
    intro x i hx hxo hi
    rw [hsame x i hx (by rw [Arena.payload_congr (hc.rewritten.head hh₁.closed hx hxo)]; exact hi)]
    exact hc.rewritten x i hx hxo hi

/-! ## A name is bound -/

/-- The text of the name is made while the value is parked. -/
theorem key_counts (hu : u.Counts m) (hg : Balanced m ts) (hv : v.Within (Held (blocksOf m ts)))
    (name : String) :
    Ends (keeping v (string name)) u
    (fun r u' => ∃ m' ts' key n, r = (v, .ofRef key) ∧ u'.Counts m' ∧
        Brings [v] key n m m' ts ts' ∧ m'.heap.tag key ≠ some .pair)
      (fun e u' => StopsUncrowded u m 1 e u' ∨ e = .trap) := by
  by_cases hname : Lengthy u name
  case pos =>
    have hl := (laws m.own.mode m.own.zeroCounts.capacity).hosted hosts
    exact (key_ends_of_lengthy hl (hosted hu hg) hu.clean hv hname).mono_error fun _ _ h =>
      h.imp (fun h => ⟨.inr ⟨h.1, fun _ _ => h.2⟩, (notTableFull_of_parking h.1).uncrowded⟩) id
  refine .mono_error ?_ fun _ _ h => .inl h
  refine (keeping_counts (k := 0) (n := (Text.pack (Text.encode name)).length + 1) (l := [])
    (P := fun w o h => w = .ofRef o ∧ h.tag o ≠ some .pair) hu hg hv fun hu₁ hg₁ => ?_).mono ?_
  · refine ((constructs_counts
      (text_constructs (.inl rfl) (Text.encode name)) hu₁ hg₁).mono ?_).mono_error fun _ _ h =>
      h.elim Poisons.stops fun h => absurd (by rw [Lengthy, textWords_eq]; exact h.2.2) hname
    rintro w u' ⟨m', ts', o, rfl, hu', hb, htag⟩
    exact ⟨rfl, m', ts', o, hu', hb, rfl, htag⟩
  · rintro r u' ⟨hr, -, m', ts', key, hu', hb, hkey, htag⟩
    exact ⟨m', ts', key, _, Prod.ext hr hkey, hu', hb, htag⟩

/-- Three objects were made for a binding of `v`, and the last of them was stored into the bucket.
What was live lies in none of their blocks, and the roots reach nothing else besides. -/
structure BindingMade (v : Value) (bucket link entry key : Nat) (m m' : Machine Counting)
    (ts ts' : List Tile) : Prop where
  mode : m'.own.mode = m.own.mode
  capacity : m'.own.zeroCounts.capacity = m.own.zeroCounts.capacity
  balanced : Balanced m' ts'
  roots : m'.roots = m.roots.set (.global bucket) (.ofRef link)
  kept : ∀ b ∈ blocksOf m' ts', (b ∈ blocksOf m ts ∧ m'.heap.word b.1 = m.heap.word b.1) ∨
    b.1 ∈ [key, entry, link]
  fresh : m.own.mode = .eager → ∀ x ∈ [key, entry, link], ¬ Held (blocksOf m ts) x
  lost : ∀ x, Lost m' ts' x → Lost m ts x
  binding : Binding m' bucket link entry key
  distinct : [key, entry, link].Nodup
  apart : ∀ x, m.Live [v] x → x ∉ [key, entry, link]
  reached : ∀ x, m'.Reachable x → x ∈ [key, entry, link] ∨ m.Live [v] x
  same : Same (fun x => m.Live [v] x ∧ Held (blocksOf m' ts') x) m.heap m'.heap

/-- What was live while a new object was made is live afterwards, if its operands are. -/
theorem Brings.live_of_live {ws : List Value} {x : Nat} (hb : Brings vs o n m m' ts ts')
    (hcl : Closed m.heap (m.Live vs)) (hvs : ∀ v ∈ vs, ∀ y, v.ref? = some y → m'.Live ws y)
    (hx : m.Live vs x) : m'.Live ws x := by
  refine Reach.trans ((hb.same.reach_iff hcl.known).mpr hx) ?_
  rintro y (hy | ⟨v, hv, hy⟩)
  · rw [← hb.roots] at hy
    exact .root (.inl hy)
  · exact hvs v hv y hy

/-- Three objects that were made one after the other for a binding, before the last of them is
stored. -/
structure Linking (v head : Value) (link entry key : Nat) (m m₁ m₂ m₃ : Machine Counting)
    (ts ts₁ ts₂ ts₃ : List Tile) : Prop where
  text : ∃ n, Brings [v] key n m m₁ ts ts₁
  plain : m₁.heap.tag key ≠ some .pair
  pair : Pairs (.ofRef key) v entry m₁ m₂ ts₁ ts₂
  cell : Pairs (.ofRef entry) (rest head) link m₂ m₃ ts₂ ts₃
  live : Closed m.heap (m.Live [v])
  live₁ : Closed m₁.heap (m₁.Live [.ofRef key, v])
  live₂ : Closed m₂.heap (m₂.Live [.ofRef entry, rest head])

namespace Linking

variable {m₂ m₃ : Machine Counting} {ts₁ ts₂ ts₃ : List Tile}
  {key entry link x : Nat} {head : Value}

theorem key_ref (hl : Linking v head link entry key m m₁ m₂ m₃ ts ts₁ ts₂ ts₃) :
    (Value.ofRef key).ref? = some key :=
  hl.text.elim fun _ h => (h.balanced.ref_held h.held).1

theorem entry_ref (hl : Linking v head link entry key m m₁ m₂ m₃ ts ts₁ ts₂ ts₃) :
    (Value.ofRef entry).ref? = some entry :=
  (hl.pair.balanced.ref_held hl.pair.held).1

theorem key_live (hl : Linking v head link entry key m m₁ m₂ m₃ ts ts₁ ts₂ ts₃) :
    m₁.Live [.ofRef key, v] key :=
  .root (.inr ⟨_, by simp, hl.key_ref⟩)

theorem entry_live (hl : Linking v head link entry key m m₁ m₂ m₃ ts ts₁ ts₂ ts₃) :
    m₂.Live [.ofRef entry, rest head] entry :=
  .root (.inr ⟨_, by simp, hl.entry_ref⟩)

theorem live_key (hl : Linking v head link entry key m m₁ m₂ m₃ ts ts₁ ts₂ ts₃)
    (hx : m.Live [v] x) :
    m₁.Live [.ofRef key, v] x := by
  obtain ⟨n, hkey⟩ := hl.text
  exact hkey.live_of_live hl.live
    (fun w hw y hy => .root (.inr ⟨w, List.mem_cons_of_mem _ hw, hy⟩)) hx

/-- The operands of the entry are reached from it. -/
theorem live_entry (hl : Linking v head link entry key m m₁ m₂ m₃ ts ts₁ ts₂ ts₃)
    (hx : m₁.Live [.ofRef key, v] x) :
    m₂.Live [.ofRef entry, rest head] x := by
  refine hl.pair.live_of_live hl.live₁
    (fun w hw y hy => hl.entry_live.step (Arena.mem_succ.mpr ⟨hl.pair.tag, ?_⟩)) hx
  simp only [List.mem_cons, List.not_mem_nil, or_false] at hw
  rcases hw with rfl | rfl
  · exact .inl (by rw [hl.pair.first]; exact hy)
  · exact .inr (by rw [hl.pair.second]; exact hy)

theorem distinct (hl : Linking v head link entry key m m₁ m₂ m₃ ts ts₁ ts₂ ts₃) :
    [key, entry, link].Nodup := by
  have h1 := (hl.pair.live key hl.key_live).2
  have h2 := (hl.cell.live key (hl.live_entry hl.key_live)).2
  have h3 := (hl.cell.live entry hl.entry_live).2
  simp [h1, h2, h3]

theorem apart (hl : Linking v head link entry key m m₁ m₂ m₃ ts ts₁ ts₂ ts₃) (hx : m.Live [v] x) :
    x ∉ [key, entry, link] := by
  obtain ⟨n, hkey⟩ := hl.text
  have h0 := (hkey.live x hx).2
  have h1 := (hl.pair.live x (hl.live_key hx)).2
  have h2 := (hl.cell.live x (hl.live_entry (hl.live_key hx))).2
  simp [h0, h1, h2]

/-- What is there after the entry was made is not changed by the link. -/
theorem same₁ (hl : Linking v head link entry key m m₁ m₂ m₃ ts ts₁ ts₂ ts₃) :
    Same (m₁.Live [.ofRef key, v]) m₁.heap m₃.heap :=
  hl.pair.same.trans (hl.cell.same.mono fun _ hx => hl.live_entry hx) hl.live₁.known

theorem same (hl : Linking v head link entry key m m₁ m₂ m₃ ts ts₁ ts₂ ts₃) :
    Same (m.Live [v]) m.heap m₃.heap := by
  obtain ⟨n, hkey⟩ := hl.text
  exact hkey.same.trans (hl.same₁.mono fun _ hx => hl.live_key hx) hl.live.known

theorem roots (hl : Linking v head link entry key m m₁ m₂ m₃ ts ts₁ ts₂ ts₃) :
    m₃.roots = m.roots := by
  obtain ⟨n, hkey⟩ := hl.text
  exact hl.cell.roots.trans (hl.pair.roots.trans hkey.roots)

/-- The fields of the new objects refer to each other, or to what was live before. -/
theorem succ_mem (hl : Linking v head link entry key m m₁ m₂ m₃ ts ts₁ ts₂ ts₃)
    (hh : m.roots.get? (.global n) = some head) (hx : x ∈ [key, entry, link] ∨ m.Live [v] x)
    (hc : k ∈ m₃.heap.succ x) : k ∈ [key, entry, link] ∨ m.Live [v] k := by
  rcases hx with hx | hx
  · simp only [List.mem_cons, List.not_mem_nil, or_false] at hx
    rcases hx with rfl | rfl | rfl
    · -- the text has no fields
      rw [hl.same₁.succ (hl.live₁.known _ hl.key_live) hl.key_live, Arena.succ,
        Arena.fields_of_not_pair hl.plain] at hc
      cases hc
    · rw [hl.cell.same.succ (hl.live₂.known _ hl.entry_live) hl.entry_live] at hc
      rcases (Arena.mem_succ.mp hc).2 with hc | hc
      · rw [hl.pair.first, hl.key_ref] at hc
        cases hc
        exact .inl (by simp)
      · rw [hl.pair.second] at hc
        exact .inr (.root (.inr ⟨_, by simp, hc⟩))
    · rcases (Arena.mem_succ.mp hc).2 with hc | hc
      · rw [hl.cell.first, hl.entry_ref] at hc
        cases hc
        exact .inl (by simp)
      · rw [hl.cell.second, rest] at hc
        split at hc
        · cases hc
        · exact .inr (.root (.inl ⟨_, _, hh, hc⟩))
  · rw [hl.same.succ (hl.live.known _ hx) hx] at hc
    exact .inr (hx.step hc)

end Linking

/-- The link is stored into the bucket, and everything that was made is counted by then. -/
theorem Linking.binds {m₂ m₃ : Machine Counting} {ts₁ ts₂ ts₃ : List Tile}
    {bucket key entry link : Nat} {head : Value}
    (hl : Linking v head link entry key m m₁ m₂ m₃ ts ts₁ ts₂ ts₃) (hpark : m.roots.parked = 0)
    (hh : m.roots.get? (.global bucket) = some head) (hthin : Thinned m₃ m' ts₃ ts')
    (hsame : Same (Held (blocksOf m' ts')) m₃.heap m'.heap)
    (hroots : m'.roots = m₃.roots.set (.global bucket) (.ofRef link)) :
    BindingMade v bucket link entry key m m' ts ts' := by
  have hhead : m₃.roots.get? (.global bucket) = some head := by rwa [hl.roots]
  have hdistinct := hl.distinct
  obtain ⟨⟨n, hkey⟩, -, hentry, hlink, -⟩ := id hl
  have hgrown := (hkey.toPopulated.trans hentry.toPopulated).trans hlink.toPopulated
  have hparked : m'.roots.parked = m.roots.parked := by
    rw [hroots, hl.roots]
    rfl
  have hbucket : m'.roots.get? (.global bucket) = some (.ofRef link) := by
    rw [hroots]
    exact Roots.get?_set_self hhead
  have hbooks := hthin.balanced.dying.stock
  have hrefl := (hlink.balanced.ref_held hlink.held).1
  have hlinked : Held (blocksOf m' ts') link := hbooks.roots.refers ⟨_, _, hbucket, hrefl⟩
  have htag : m'.heap.tag link = some .pair := by
    rw [Arena.tag_congr (hsame.head (by rw [hlink.tag]; simp) hlinked)]
    exact hlink.tag
  have hfirst : m'.heap.value (link + 1) = .ofRef entry := by
    rw [Arena.value_congr (hsame link 1 hlinked (by rw [Arena.payload_of_pair hlink.tag]; decide)),
      hlink.first]
  have hentered : Held (blocksOf m' ts') entry := by
    refine hbooks.housed.closed.succ hlinked (Arena.mem_succ.mpr ⟨htag, .inl ?_⟩)
    rw [hfirst, hl.entry_ref]
  have hpay := Arena.payload_of_pair hentry.tag
  have hsecond : m'.heap.value (entry + 1) = .ofRef key := by
    have htag₃ : m₃.heap.payload entry = 3 := by
      rw [hlink.same.payload (by rw [hentry.tag]; simp) hl.entry_live, hpay]
    rw [Arena.value_congr (hsame entry 1 hentered (by omega)), Arena.value_congr
      (hlink.same entry 1 hl.entry_live (by omega)),
      hentry.first]
  have hknown : ∀ x, Held (blocksOf m₃ ts₃) x → m₃.heap.tag x ≠ none :=
    hlink.balanced.dying.stock.housed.closed.known
  refine ⟨hthin.mode.trans hgrown.mode, hthin.capacity.trans hgrown.capacity, hthin.balanced, by
    rw [hroots, hl.roots], fun b hb => ?_,
    fun hmode => (hgrown.idle hmode).2, fun x hx => ?_, ⟨hbucket, hfirst, hsecond⟩, hdistinct,
      fun x => hl.apart, fun x hx => ?_,
    fun x i hx hi => ?_⟩
  · have hheld : Held (blocksOf m' ts') b.1 := ⟨b.2, hb⟩
    rw [hsame.head (hknown _ (hthin.held hheld)) hheld]
    exact hgrown.kept b (hthin.sublist.subset hb)
  · obtain ⟨hne, -, h₂⟩ := hlink.unlost x (hthin.lost x hx)
    have hx₂ : Lost m₂ ts₂ x := by
      refine h₂.resolve_right fun ⟨_, he⟩ => ?_
      exact hx.not_refers (hparked.trans hpark) ⟨_, _, hbucket, by rw [he]; exact hrefl⟩
    obtain ⟨hnk, hnv, h₁⟩ := hentry.unlost x hx₂
    have hx₁ := h₁.resolve_right fun ⟨_, he⟩ => hne (by rw [he]; exact hl.entry_ref)
    refine (hkey.lost x hx₁).resolve_right ?_
    rintro (⟨-, hm⟩ | ⟨-, w, hw, hwx⟩)
    · exact hnk (by rw [List.mem_singleton.mp hm]; exact hl.key_ref)
    · exact hnv (by rw [← List.mem_singleton.mp hw]; exact hwx)
  · -- the roots reach the link, and whatever they reached before
    have hstep : ∀ {x}, m'.Reachable x → Held (blocksOf m' ts') x := fun hx =>
      hx.mem_of_closed hbooks.housed.closed fun _ h => hbooks.roots.refers h
    induction hx with
    | root hr =>
      obtain ⟨slot, w, hw, hwx⟩ := hr
      rw [hroots] at hw
      by_cases hs : slot = .global bucket
      · rw [hs, Roots.get?_set_self hhead] at hw
        cases hw
        rw [hrefl] at hwx
        cases hwx
        exact .inl (by simp)
      · rw [Roots.get?_set_of_ne hs, hl.roots] at hw
        exact .inr (.root (.inl ⟨slot, w, hw, hwx⟩))
    | step hy hc ih =>
      rw [hsame.succ (hknown _ (hthin.held (hstep hy))) (hstep hy)] at hc
      exact hl.succ_mem hh ih hc
  · have hpay₃ := hl.same.payload (hl.live.known x hx.1) hx.1
    rw [hsame x i hx.2 (by omega), hl.same x i hx.1 hi]

/-- A name is bound for the first time. If there is no room for the operands of the entry, the text
has been made in vain. -/
theorem bindNew_counts {bucket : Nat} {head : Value} (hu : u.Counts m) (hg : Balanced m ts)
    (hpark : m.roots.parked = 0) (hv : v.Within (Held (blocksOf m ts)))
    (hh : m.roots.get? (.global bucket) = some head) (name : String) :
    Ends (bindNew bucket name v) u
    (fun _ u' => ∃ m' ts' link entry key, u'.Counts m' ∧
      BindingMade v bucket link entry key m m' ts ts')
      fun e u' => (u'.poisoned = true ∨ ∀ f, e = .failed f → u' = u ∨ ∃ m' ts' key n, u'.Counts m' ∧
        Brings [v] key n m m' ts ts') ∧
        Uncrowded m 2 e := by
  unfold bindNew
  refine ((key_counts hu hg hv name).mono_error fun e u' h => h.elim
    (fun h => ⟨h.1.imp id fun h f hf => .inl (h.2 f hf), h.2.mono rfl (by omega)⟩)
    fun h => ⟨.inr fun f hf => absurd (h.symm.trans hf) (by simp),
      fun _ k hk => absurd (h.symm.trans hk) (by simp)⟩).bind ?_
  rintro r u₁ ⟨m₁, ts₁, key, n, rfl, hu₁, hkey, hplain⟩
  have hv₁ := hkey.within (Machine.within_live (by simp) hv)
  refine ((cons_counts hu₁ hkey.balanced (hkey.balanced.ref_held hkey.held).2 hv₁).mono_error
    fun e u' h =>
    ⟨h.1.imp id fun h f hf => .inr ⟨m₁, ts₁, key, n, by rw [h.2 f hf]; exact hu₁, hkey⟩,
      h.2.mono hkey.capacity (by rw [hkey.roots])⟩).bind ?_
  rintro w u₂ ⟨hroom, m₂, ts₂, entry, rfl, hu₂, hentry⟩
  have hh₂ : m₂.roots.get? (.global bucket) = some head := by
    rw [hentry.roots, hkey.roots]
    exact hh
  refine .step (MutatorM.roots_lift (getRoot_run (by rw [hu₂.roots]; exact hh₂))) ?_
  have hhead := hentry.balanced.dying.stock.roots _ _ hh₂
  -- the operands of the entry were parked in the same place, so there is room for those of the link
  have hfull : ∀ e u', Stops u₂ 2 e u' → u'.poisoned = true := by
    intro e u' h
    refine h.resolve_right fun h => ?_
    rw [hu₂.roots, hentry.roots, ← hu₁.roots, hroom] at h
    exact absurd h.1 (by simp)
  refine ((cons_counts hu₂ hentry.balanced (hentry.balanced.ref_held hentry.held).2
    (rest_within hhead)).mono_error fun e u' h =>
    ⟨.inl (hfull e u' h.1), h.2.mono (hentry.capacity.trans hkey.capacity)
      (by rw [hentry.roots, hkey.roots])⟩).bind ?_
  rintro w u₃ ⟨-, m₃, ts₃, link, rfl, hu₃, hlink⟩
  have hroots₃ : m₃.roots = m₂.roots := hlink.roots
  have hpark₃ : m₃.roots.parked = 0 := by rw [hroots₃, hentry.roots, hkey.roots, hpark]
  have hh₃ : m₃.roots.get? (.global bucket) = some head := by
    rw [hroots₃]
    exact hh₂
  refine ((hu₃.operate (fun h => hosts.writeRoot (.global bucket) (.ofRef link) h)
    (writeRoot_runs hlink.balanced hpark₃ hh₃
      (hlink.balanced.ref_held hlink.held).2)).mono ?_).mono_error fun _ _ h =>
      ⟨.inl h.1, h.2.mono (hlink.capacity.trans (hentry.capacity.trans hkey.capacity))
        (by rw [hroots₃, hentry.roots, hkey.roots]; omega)⟩
  rintro - u' ⟨m', hu', ts', hthin, hsame, hroots⟩
  have hlinking : Linking v head link entry key m m₁ m₂ m₃ ts ts₁ ts₂ ts₃ :=
    ⟨⟨n, hkey⟩, hplain, hentry, hlink, hg.closed_live (by simpa using hv),
      hkey.balanced.closed_live (by simpa using ⟨(hkey.balanced.ref_held hkey.held).2, hv₁⟩),
      hentry.balanced.closed_live
        (by simpa using ⟨(hentry.balanced.ref_held hentry.held).2, rest_within hhead⟩)⟩
  exact ⟨m', ts', link, entry, key, hu', hlinking.binds hpark hh hthin hsame hroots⟩

end Counting

end Reclaim
