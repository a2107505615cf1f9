import Reclaim.Proofs.Accounts
import Reclaim.Proofs.Counting.Barren
import Reclaim.Proofs.Frame
import Reclaim.Proofs.Handles
import Reclaim.Proofs.MarkSweep.Operations
import Reclaim.Proofs.Programs

/-!
# Mark-sweep heaps that hold nothing

An arena of less than two words has no room for a chunk. Nothing can be allocated there, and with
one word a collection traps: it takes that word for a block of no words and writes a link behind it.
So the laws of a strategy do not hold of such a heap, but it is simple enough to be looked at
directly: whatever is allocated is refused, and everything else leaves the heap without objects.

Results:
* `Barren.refuses`: what allocates fails.
* `Barren.run_ends`: no command puts an object into the heap, or a reference into the roots, and no
  name is bound.
* `session_barren`: neither does a whole session.
-/

namespace Reclaim

namespace MarkSweep

/-- A mark-sweep heap without room for any object. -/
structure Bare (u : Mutator) (s : MarkSweep) : Prop where
  own : u.machine.own = .markSweep s
  small : u.machine.heap.size < 2
  region : s.region = u.machine.heap.region
  blank : ∀ a, u.machine.heap.word a = 0
  unlinked : s.freeList.head = none
  untouched : u.machine.stats.Untouched
  roots : u.machine.roots.Within Nothing

/-- Whatever is in the roots, there is no object. -/
def Barren (u : Mutator) : Prop := ∃ s, Bare u s

variable {α β : Type} {P Q : Prop} {u : Mutator} {s : MarkSweep} {v : Value} {x : MutatorM α}

theorem Bare.length (hb : Bare u s) : s.region.length = u.machine.heap.size := by
  rw [hb.region, Arena.length_region]

theorem Barren.objects (hb : Barren u) : u.objects = .ok [] := by
  obtain ⟨s, hb⟩ := hb
  have hregion : s.region = ⟨0, u.machine.heap.size⟩ := hb.region.trans (Arena.region_eq _)
  have hwalk : s.freeList.allocated s.region u.machine.heap = .ok [] := by
    rw [hregion]
    exact FreeList.allocated_blank hb.unlinked (hb.blank 0)
  rw [Mutator.objects, Mutator.view, hb.own]
  change MarkSweep.objects s u.machine.heap = _
  rw [MarkSweep.objects, read_bind hwalk]
  rfl

theorem Barren.not_lists (hb : Barren u) (o : Nat) : ¬ u.Lists o := by
  rintro ⟨listed, n, hlist, hmem⟩
  rw [hb.objects] at hlist
  cases hlist
  cases hmem

/-- The roots may change, as long as there is no reference among them. -/
theorem Barren.withRoots (hb : Barren u) {r : Roots} (hr : r.Within Nothing) (poisoned : Bool) :
    Barren ⟨u.machine.withRoots r, poisoned⟩ := by
  obtain ⟨s, hb⟩ := hb
  exact ⟨s, hb.own, hb.small, hb.region, hb.blank, hb.unlinked, hb.untouched, hr⟩

theorem Barren.within (hb : Barren u) : u.machine.roots.Within Nothing :=
  hb.elim fun _ hb => hb.roots

/-- Everything in the roots is immediate. -/
theorem Barren.apart (u : Mutator) : Apart 1 u.machine.heap Nothing :=
  ⟨⟨fun _ ho => ho.elim, fun _ _ ho => ho.elim⟩, fun _ ho => ho.elim, fun _ _ ho => ho.elim⟩

/-! ## What is refused -/

/-- The computation fails, and nothing has changed but that the heap may be poisoned. It does not
trap if `P` holds, as long as the roots stand in a proper frame. -/
def Refuses (P : Prop) (x : MutatorM α) (u : Mutator) : Prop :=
  ∃ e u', x u = .error e u' ∧ (∀ f, e = .failed f → u'.machine = u.machine) ∧
    (u.Framed → P → e ≠ .trap)

theorem Refuses.mono (hx : Refuses P x u) (hq : Q → P) : Refuses Q x u := by
  obtain ⟨e, u', hrun, he, htrap⟩ := hx
  exact ⟨e, u', hrun, he, fun hf h => htrap hf (hq h)⟩

theorem Refuses.bind {k : α → MutatorM β} (hx : Refuses P x u) : Refuses P (x >>= k) u := by
  obtain ⟨e, u', hrun, he⟩ := hx
  exact ⟨e, u', bind_error hrun, he⟩

theorem Refuses.check (hx : Refuses P x u) : Refuses P (MutatorM.check >>= fun _ => x) u := by
  cases hu : u.poisoned with
  | false =>
    obtain ⟨e, u', hrun, he⟩ := hx
    exact ⟨e, u', (bind_ok (MutatorM.check_run hu)).trans hrun, he⟩
  | true => exact ⟨_, u, bind_error (check_poisoned hu), fun _ _ => rfl, by simp⟩

/-- With a value parked, a computation is refused still. -/
theorem Refuses.keeping (hx : Refuses P x (MutatorM.parkedOn u v)) :
    Refuses P (MutatorM.keeping v x) u := by
  cases hroom : Roots.parking u.machine.roots.stack.size u.machine.roots.capacity 1 with
  | error e =>
    exact ⟨e, u, MutatorM.keeping_full hroom, fun _ _ => rfl,
      fun hf _ he => Roots.parking_ne_trap hf.1 1 (he ▸ hroom)⟩
  | ok =>
    obtain ⟨hcap, hlim⟩ := Roots.room_of_parking hroom
    obtain ⟨e, u', hrun, he, htrap⟩ := hx
    have hpark : (liftM (park v) : MutatorM Unit) u = .ok () (MutatorM.parkedOn u v) :=
      MutatorM.roots_lift (park_run hcap hlim)
    cases e with
    | failed f =>
      have hback : u'.machine.roots.stack.back? = some v := by
        rw [he f rfl]
        simp [MutatorM.parkedOn, Roots.withParked]
      have hatt : attempt x (MutatorM.parkedOn u v) = .ok (.error f) u' := by rw [attempt, hrun]
      have hstop : MutatorM.keeping v x u = .error (.failed f) (MutatorM.unparked u') := by
        rw [MutatorM.keeping, bind_ok hpark, bind_ok hatt,
          bind_ok (MutatorM.roots_lift (unpark_run hback))]
        rfl
      refine ⟨_, _, hstop, fun _ _ => ?_, by simp⟩
      have hsame := congrArg Mutator.machine (MutatorM.unparked_parkedOn u v)
      rw [MutatorM.unparked, Mutator.withMachine_machine, he f rfl]
      exact hsame
    | trap =>
      have hatt : attempt x (MutatorM.parkedOn u v) = .error .trap u' := by rw [attempt, hrun]
      exact ⟨.trap, u', by rw [MutatorM.keeping, bind_ok hpark, bind_error hatt], by simp,
        fun hf h => absurd rfl (htrap hf h)⟩
    | endless =>
      have hatt : attempt x (MutatorM.parkedOn u v) = .error .endless u' := by rw [attempt, hrun]
      exact ⟨.endless, u', by rw [MutatorM.keeping, bind_ok hpark,
        bind_error hatt], by simp, by simp⟩

theorem allocate_too_large {m : Machine MarkSweep} {n : Nat} (hn : 1 ≤ n)
    (hcount : operations.Countable m n) (hlim : m.own.region.length < blockWords n) :
    allocate n m = .error (.failed
      (.objectTooLarge (byteCount (blockWords n)) (byteCount m.own.region.length))) m := by
  rw [allocate_eq, bind_ok GcM.run_own]
  simp only [hlim, if_true]
  exact bind_error (GcM.run_tooLarge (blockWords_eq hn ▸ hcount) hlim)

theorem Bare.tight (hb : Bare u s) (n : Nat) : s.region.length < blockWords n := by
  have hlen := hb.length
  have hsmall := hb.small
  rw [hlen, blockWords, FreeList.minChunk]
  omega

/-- Nothing fits. -/
theorem Barren.allocate_stops (hb : Barren u) {n : Nat} (hn : 1 ≤ n)
    (hcount : Collector.operations.Countable u.machine n) :
    ∃ f, Collector.allocate n u.machine = .error (.failed f) u.machine := by
  obtain ⟨s, hb⟩ := hb
  refine ⟨.objectTooLarge (byteCount (blockWords n)) (byteCount s.region.length), ?_⟩
  refine (hosts.allocate n hb.own).trans (Collector.run_within_error hb.own ?_)
  exact allocate_too_large (m := u.machine.withOwn s) hn
    ((hosts.countable hb.own).mp hcount) (hb.tight n)

theorem Barren.allocate_overflows (hb : Barren u) {n : Nat} (hn : 1 ≤ n)
    (hcount : ¬ Collector.operations.Countable u.machine n) :
    Collector.allocate n u.machine = .error .trap u.machine := by
  obtain ⟨s, hb⟩ := hb
  refine (hosts.allocate n hb.own).trans (Collector.run_within_error hb.own ?_)
  exact allocate_traps (m := u.machine.withOwn s) hn (hb.tight n)
    (Nat.not_lt.mp fun h => hcount ((hosts.countable hb.own).mpr h))

theorem Barren.refuses (hb : Barren u) {n : Nat} (hn : 1 ≤ n) :
    Refuses (Collector.operations.Countable u.machine n) (MutatorM.allocateWords n) u := by
  refine Refuses.bind (Refuses.check ?_)
  by_cases hcount : Collector.operations.Countable u.machine n
  · obtain ⟨f, hstop⟩ := hb.allocate_stops hn hcount
    have hlift : (liftM (Collector.allocate n) : MutatorM Nat) u = .error (.failed f) u :=
      MutatorM.gc_lift_error hstop
    exact ⟨.failed f, { u with
      poisoned := u.poisoned || f.isFatal }, by
        rw [MutatorM.guarded, hlift], fun _ _ => rfl, by simp⟩
  · have hlift : (liftM (Collector.allocate n) : MutatorM Nat) u = .error .trap u :=
      MutatorM.gc_lift_error (hb.allocate_overflows hn hcount)
    exact ⟨.trap, u, by rw [MutatorM.guarded, hlift], by simp, fun _ h => absurd h hcount⟩

/-- What fits into memory does not trap. -/
theorem Barren.refuses_of_lt (hb : Barren u) {n : Nat} (hn : 1 ≤ n) (hlt : n < tableLimit) :
    Refuses True (MutatorM.allocateWords n) u :=
  (hb.refuses hn).mono fun _ => Collector.countable_of_lt hlt

/-- A value that may be used is not a reference. -/
theorem Barren.parkedOn (hb : Barren u) (hv : v.Within Nothing) : Barren (MutatorM.parkedOn u v) :=
  hb.withRoots (hb.within.push hv _) u.poisoned

theorem Barren.cons_refuses (hb : Barren u) {a b : Value} (ha : a.Within Nothing)
    (hb' : b.Within Nothing) :
    Refuses True (MutatorM.cons a b) u :=
  .check
    (.bind
      (.keeping (.keeping (((hb.parkedOn ha).parkedOn hb').refuses_of_lt (by decide) (by decide)))))

theorem Barren.text_refuses (hb : Barren u) (tag : Tag) (bytes : List UInt8) :
    Refuses (Collector.operations.Countable u.machine (textWords bytes.length))
    (MutatorM.text tag bytes) u :=
  .bind (hb.refuses (by rw [MutatorM.textWords_eq]; omega))

theorem Barren.entryAt?_run (hb : Barren u) {bucket : Nat} {head : Value}
    (hh : u.machine.roots.globals[bucket]? = some head) (name : String) :
    MutatorM.entryAt? bucket name u.machine = .ok none u.machine := by
  have hw := hb.within (.global bucket) head hh
  refine MutatorM.entryAt?_run hh ?_
  rw [entryFrom?_succ (apart u) hw, Arena.fieldAt?, Arena.pairAt?, hw.ref_none]
  rfl

/-- No name is bound, and none can be. -/
theorem Barren.define_refuses (hb : Barren u) (name : String) (hv : v.Within Nothing) :
    Refuses (¬ MutatorM.Lengthy u name) (MutatorM.define name v) u := by
  suffices hat : Refuses (¬ MutatorM.Lengthy u name) (MutatorM.defineAt (u.bucket name) name v) u by
    obtain ⟨e, u', hrun, he⟩ := hat
    exact ⟨e, u', (MutatorM.define_eq name v u).trans hrun, he⟩
  rw [MutatorM.defineAt_eq]
  refine .check ?_
  cases hh : u.machine.roots.globals[u.bucket name]? with
  | none =>
    have hout : ¬ u.Framed :=
      fun hf => Array.getElem?_eq_none_iff.mp hh |>.not_gt (hf.bucket_lt (Text.encode name))
    exact ⟨.trap, u, bind_error (MutatorM.gc_lift_error (MutatorM.entryAt?_trap hh)), by simp,
      fun hf => absurd hf hout⟩
  | some head =>
    obtain ⟨e, u', hrun, he⟩ :
      Refuses (¬ MutatorM.Lengthy u name) (MutatorM.bindNew (u.bucket name) name v) u :=
      .bind (.keeping (((hb.parkedOn hv).text_refuses _ _).mono Classical.not_not.mp))
    exact ⟨e, u', (bind_ok (MutatorM.gc_lift (hb.entryAt?_run hh name))).trans hrun, he⟩

/-! ## Collections -/

/-- Nothing is marked where no root is a reference. -/
theorem mark_nothing {σ : Type} {m : Machine σ} (hr : m.roots.references = []) (capacity : Nat)
    (claim : Nat → GcM σ Bool) :
    Marking.mark capacity claim m = .ok () m := by
  have htrace : traceRoots (Marking.shade claim) (m.withOwn (m.own, MarkStack.empty capacity)) =
      .ok () (m.withOwn (m.own, MarkStack.empty capacity)) := by
    rw [traceRoots, bind_ok GcM.run_roots, Machine.withOwn_roots, hr]
    rfl
  have hinner : (do
      traceRoots (Marking.shade claim)
      Marking.drain (Marking.shade claim) (m.heap.size + 1))
        (m.withOwn (m.own, MarkStack.empty capacity))
      = .ok () (m.withOwn (m.own, MarkStack.empty capacity)) := by
    rw [bind_ok htrace]
    rfl
  have hscratch : GcM.withScratch (MarkStack.empty capacity) (do
      traceRoots (Marking.shade claim)
      Marking.drain (Marking.shade claim) (m.heap.size + 1)) m =
        .ok ((), MarkStack.empty capacity) m := by
    rw [GcM.withScratch, hinner]
    rfl
  rw [Marking.mark, bind_ok GcM.run_heapSize, bind_ok hscratch]
  rfl

/-- There is no word for the link of a chunk. -/
theorem pushBack_traps {l : FreeList} {h : Arena} {size : Nat} (hl : l.tail = none)
    (hs : h.size = 1) : ∃ h', l.pushBack 0 size h = .error .trap h' := by
  have h0 : store 0 (UInt64.ofNat size) h = .ok () (h.put 0 (UInt64.ofNat size)) :=
    store_run (by omega)
  have h1 : store 1 (FreeList.linkWord none) (h.put 0 (UInt64.ofNat size)) = .error .trap
      (h.put 0 (UInt64.ofNat size)) := by
    have hsize : (h.put 0 (UInt64.ofNat size)).words.size = 1 := (Arena.size_put ..).trans hs
    rw [store, if_neg (by omega)]
  have hwrite : FreeList.writeChunk 0 size none h = .error .trap (h.put 0 (UInt64.ofNat size)) :=
    (bind_ok h0).trans h1
  refine ⟨h.put 0 (UInt64.ofNat size), ?_⟩
  rw [FreeList.pushBack, hl]
  exact (bind_ok rfl).trans (bind_error hwrite)

/-- A block of no words is never passed. -/
theorem sweepFrom_stops {m : Machine (MarkSweep × MarkBitmap)} (hs : m.heap.size = 1)
    (h0 : m.heap.word 0 = 0) (hl : m.own.1.freeList.tail = none) (n live : Nat) :
    Ends (sweepFrom 1 n 0 live) m (fun _ _ => False) fun e _ => ∀ f, e ≠ .failed f := by
  induction n generalizing live with
  | zero => exact .of_error rfl (by simp)
  | succ n ih =>
    have hload : loadNat 0 m.heap = .ok 0 := by
      rw [loadNat_run (by omega), h0]
      rfl
    rw [sweepFrom, if_pos (by decide)]
    refine .step (read_lift hload) ?_
    cases hb : m.own.2.marked? (0 + headerWords) with
    | none => exact .of_error (bind_error (isMarked_of_none hb)) (by simp)
    | some b =>
      refine .step (isMarked_of_some hb) ?_
      cases b with
      | true => exact ih _
      | false =>
        obtain ⟨h', htrap⟩ : ∃ h', m.own.1.freeList.pushBack 0 0 m.heap = .error .trap h' :=
          pushBack_traps hl hs
        refine .step GcM.run_own ?_
        exact .of_error (bind_error (heap_lift_error htrap)) (by simp)

/-- A sweep of an arena without room finds no block, or does not succeed if there is a word. -/
theorem sweep_ends {m : Machine (MarkSweep × MarkBitmap)} (hregion : m.own.1.region = m.heap.region)
    (hsmall : m.heap.size < 2) (h0 : m.heap.word 0 = 0) :
    Ends sweep m (fun _ m' => m'.heap = m.heap ∧ m'.roots = m.roots ∧ m'.stats = m.stats ∧
      m'.own.1.region = m.own.1.region ∧
      m'.own.1.freeList = .empty m.own.1.freeList.fit) fun e _ =>
        (∀ f, e ≠ .failed f) ∧ m.heap.size = 1 := by
  let m₁ := m.withOwn ({ m.own.1 with freeList := m.own.1.freeList.reset }, m.own.2)
  have hr : m.own.1.region = ⟨0, m.heap.size⟩ := hregion.trans (Arena.region_eq _)
  unfold sweep
  refine .step (GcM.run_modifyOwn _) (.step GcM.run_own ?_)
  have hrun : sweepFrom m.own.1.region.limit (m.own.1.region.length + 1) m.own.1.region.first 0
      = sweepFrom m.heap.size (m.heap.size + 1) 0 0 := by
    rw [hr]
    rfl
  change Ends (sweepFrom m.own.1.region.limit
    (m.own.1.region.length + 1) m.own.1.region.first 0) m₁ _ _
  rw [hrun]
  obtain hs | hs : m.heap.size = 0 ∨ m.heap.size = 1 := by omega
  · rw [hs]
    exact .of_eq (a := 0) (t := m₁) rfl ⟨rfl, rfl, rfl, rfl, rfl⟩
  · rw [hs]
    exact ((sweepFrom_stops (m := m₁) hs h0 rfl _ _).mono fun _ _ h => h.elim).mono_error
      fun _ _ h => ⟨h, rfl⟩

/-- A collection finds nothing, or does not succeed if there is a word. -/
theorem collect_ends {m : Machine MarkSweep} (hregion : m.own.region = m.heap.region)
    (hsmall : m.heap.size < 2) (h0 : m.heap.word 0 = 0) (hr : m.roots.references = []) :
    Ends collect m (fun _ m' => m'.heap = m.heap ∧ m'.roots = m.roots ∧ m'.own.region =
      m.own.region ∧ m'.own.freeList.head = none ∧
      ∃ live, m'.stats = m.stats.recordCycle .full 0 live) fun e _ =>
        (∀ f, e ≠ .failed f) ∧ m.heap.size = 1 := by
  let marks := MarkBitmap.empty m.own.region.length
  have hsweep := sweep_ends (m := m.withOwn (m.own, marks)) hregion hsmall h0
  have hmark : Marking.mark m.own.markCapacity claim (m.withOwn (m.own, marks)) = .ok ()
      (m.withOwn (m.own, marks)) :=
    mark_nothing (by exact hr) _ _
  unfold collect
  refine .step GcM.run_own (Ends.bind
    (R := fun _ m' => m'.heap = m.heap ∧ m'.roots = m.roots ∧ m'.stats = m.stats ∧
    m'.own.region = m.own.region ∧ m'.own.freeList = .empty m.own.freeList.fit) ?_ fun a m' h =>
      .step GcM.run_own ?_)
  · have hcycle : Ends (do
        Marking.mark m.own.markCapacity claim
        sweep) (m.withOwn (m.own, marks)) _ _ := .step hmark hsweep
    unfold Ends GcM.withScratch at *
    cases hx : (do
        Marking.mark m.own.markCapacity claim
        sweep) (m.withOwn (m.own, marks)) with
    | ok a m' =>
      rw [hx] at hcycle
      exact hcycle
    | error e m' =>
      rw [hx] at hcycle
      exact hcycle
  · obtain ⟨hheap, hroots, hstats, hreg, hlist⟩ := h
    refine .of_eq (GcM.run_recordCycle ..)
      ⟨hheap, hroots, hreg, congrArg FreeList.head hlist, a.1, ?_⟩
    simp only [hlist, hstats, FreeList.empty, Nat.zero_sub]

/-- A collection finds nothing, or does not succeed if there is a word. -/
theorem Barren.collect_ends (hb : Barren u) {x : GcM Collector Unit}
    (hx : x u.machine = Collector.collect u.machine) :
    Ends (MutatorM.operate x) u
    (fun _ u' => Barren u' ∧ u'.machine.heap = u.machine.heap ∧ u'.machine.roots = u.machine.roots)
      fun e u' => (∀ f, e = .failed f → Barren u' ∧ u'.machine.heap = u.machine.heap ∧
        u'.machine.roots = u.machine.roots) ∧
        (e = .trap → u.machine.heap.size = 1) := by
  obtain ⟨s, hb⟩ := hb
  cases hu : u.poisoned with
  | true =>
    exact .of_error (bind_error (check_poisoned hu)) ⟨fun _ _ => ⟨⟨s, hb⟩, rfl, rfl⟩, by simp⟩
  | false =>
    refine .step (MutatorM.check_run hu) ?_
    have hrun : x u.machine = Collector.within .markSweep s collect u.machine := by
      rw [hx, Collector.collect, bind_ok GcM.run_own, hb.own]
    have hends := MarkSweep.collect_ends (m := u.machine.withOwn s) hb.region hb.small
      (hb.blank 0) hb.roots.references_nil
    unfold Ends Collector.within MutatorM.guarded at *
    rw [MutatorM.gc_lift_eq, hrun]
    cases h : collect (u.machine.withOwn s) with
    | ok a m' =>
      rw [h] at hends
      obtain ⟨hheap, hroots, hreg, hhead, live, hstats⟩ := hends
      have hsize : m'.heap.size = u.machine.heap.size := congrArg Arena.size hheap
      exact ⟨⟨m'.own, rfl, hsize.trans_lt hb.small,
        hreg.trans (hb.region.trans (congrArg Arena.region hheap.symm)),
        fun a => (congrArg (·.word a) hheap).trans (hb.blank a), hhead, hstats ▸
          hb.untouched.recordCycle .full live,
            (congrArg (Roots.Within · Nothing) hroots).mpr hb.roots⟩, hheap, hroots⟩
    | error e m' =>
      rw [h] at hends
      cases e with
      | failed f => exact (hends.1 f rfl).elim
      | trap | endless => exact ⟨by simp, fun _ => hends.2⟩

/-! ## Roots -/

/-- No slot refers to anything, and slots of the stack stay as they are, but for one that the
command writes. -/
structure Stays (cmd : Command) (r r' : Roots) : Prop where
  within : r'.Within Nothing
  table : r'.globals.size = r.globals.size
  stack : cmd.KeepsStack r r'

/-- What a command leaves of a heap without room. -/
def IdleStep (cmd : Command) (u u' : Mutator) : Prop :=
  Barren u' ∧ u'.machine.heap = u.machine.heap ∧ Stays cmd u.machine.roots u'.machine.roots

variable {cmd : Command}

theorem Stays.refl {r : Roots} (hr : r.Within Nothing) : Stays cmd r r := ⟨hr, rfl, .of_eq rfl⟩

theorem Barren.idleStep {u' : Mutator} (hb : Barren u') (hheap : u'.machine.heap = u.machine.heap)
    (hr : u'.machine.roots = u.machine.roots) : IdleStep cmd u u' := by
  refine ⟨hb, hheap, ?_⟩
  rw [← hr]
  exact .refl hb.within

theorem pushRoot_stays {r : Roots} (hr : r.Within Nothing) (hv : v.Within Nothing) :
    Anyhow (pushRoot v) r (Stays cmd r) := by
  have hpush : Stays cmd r { r with stack := r.stack.push v } :=
    ⟨hr.push hv r.parked, rfl, .push r v⟩
  unfold Anyhow Ends pushRoot
  by_cases hcap : r.stack.size < r.capacity
  · by_cases hlim : r.stack.size + 1 < tableLimit
    · simpa only [hcap, hlim, if_true] using hpush
    · simpa only [hcap, hlim, if_true, if_false] using .refl hr
  · simpa only [hcap, if_false] using .refl hr

theorem popRoot_stays {r : Roots} (hr : r.Within Nothing) : Anyhow popRoot r (Stays cmd r) := by
  cases hv : r.stack.back? with
  | some v => exact .of_eq (popRoot_run hv) ⟨hr.pop r.parked, rfl, .pop r⟩
  | none => exact .of_error (e := .failed .stackUnderflow) (t := r) (by rw [popRoot, hv]) (.refl hr)

theorem setRoot_stays {r : Roots} (hr : r.Within Nothing) (slot : RootSlot)
    (hv : v.Within Nothing) :
    Anyhow (setRoot slot v) r (Stays (.writeRoot slot v) r) := by
  cases hold : r.get? slot with
  | some w =>
    refine .of_eq (setRoot_run hold) ⟨hr.set hv slot, ?_, .set r slot v⟩
    cases slot with
    | stack j => rfl
    | global b => exact Array.size_setIfInBounds ..
  | none => exact .of_error (setRoot_trap hold) (.refl hr)

/-- An operation on the roots alone. -/
theorem Barren.roots_ends (hb : Barren u) {y : RootsM α} {x : GcM Collector α}
    (hx : x u.machine = (liftM y : GcM Collector α) u.machine)
    (hy : Anyhow y u.machine.roots (Stays cmd u.machine.roots)) :
    Anyhow (MutatorM.operate x) u (IdleStep cmd u) := by
  cases hu : u.poisoned with
  | true => exact .of_error (bind_error (check_poisoned hu)) (hb.idleStep rfl rfl)
  | false =>
    refine MutatorM.operate_anyhow hu ?_
    unfold Anyhow Ends at *
    rw [hx, Reclaim.roots_lift_eq]
    cases h : y u.machine.roots with
    | ok a r =>
      rw [h] at hy
      exact fun poisoned => ⟨hb.withRoots hy.within poisoned, rfl, hy⟩
    | error e r =>
      rw [h] at hy
      exact fun poisoned => ⟨hb.withRoots hy.within poisoned, rfl, hy⟩

/-! ## Sessions -/

/-- The heap holds nothing after what fails. -/
theorem Barren.after_refused (hb : Barren u) {x : MutatorM α} {f : α → List Value}
    {Q : List Value → Mutator → Prop} (hx : Refuses P x u) :
    Ends (do return f (← x)) u Q fun e u' => ∀ f, e = .failed f → IdleStep cmd u u' := by
  obtain ⟨e, u', hrun, he, -⟩ := hx
  refine .of_error (bind_error hrun) fun f hf => ?_
  have hm := he f hf
  obtain ⟨m, poisoned⟩ := u'
  obtain rfl : m = u.machine := hm
  exact (hb.withRoots hb.within poisoned).idleStep rfl rfl

/-- One command on a heap without room: a definition does not succeed. -/
theorem Barren.run_ends (hb : Barren u) (cmd : Command)
    (hops : ∀ v ∈ cmd.operands, v.Within Nothing) :
    Ends cmd.run u (fun _ u' => IdleStep cmd u u' ∧ ∀ name v, cmd ≠ .define name v)
    fun e u' => ∀ f, e = .failed f → IdleStep cmd u u' := by
  have hsame : ∀ {γ : Type} {x : MutatorM γ} {f : γ → List Value}, Anyhow x u (IdleStep cmd u) →
    (∀ name v, cmd ≠ .define name v) →
      Ends (do return f (← x)) u (fun _ u' => IdleStep cmd u u' ∧ ∀ name v, cmd ≠ .define name v)
        fun e u' => ∀ f, e = .failed f → IdleStep cmd u u' :=
    fun hx hne => (Ends.mono hx.returns fun _ _ h => ⟨h, hne⟩).mono_error fun _ _ h _ _ => h
  have hread : ∀ {γ : Type} (x : ReadM γ), Anyhow (liftM x : MutatorM γ) u (IdleStep cmd u) :=
    fun x => MutatorM.gc_anyhow ((read_anyhow x _).mono fun _ h => h ▸ hb.idleStep rfl rfl)
  have hset : ∀ {i : Nat} {pair v : Value}, pair.Within Nothing →
      Anyhow (MutatorM.setPairField i pair v) u (IdleStep cmd u) := by
    intro i pair v hp
    have hnone : pair? pair u.machine.heap = .ok none := by
      rw [pair?_run (apart u) hp, Arena.pairAt?, hp.ref_none]
      rfl
    exact .of_eq (bind_ok (MutatorM.read_lift hnone)) (hb.idleStep rfl rfl)
  cases cmd with
  | allocate bytes => exact hb.after_refused (hb.refuses (by omega))
  | char c => exact hb.after_refused (.bind (hb.refuses (by decide)))
  | string t => exact hb.after_refused (hb.text_refuses _ _)
  | symbol t => exact hb.after_refused (hb.text_refuses _ _)
  | cons a b =>
    exact hb.after_refused (hb.cons_refuses (hops a (by simp [Command.operands]))
      (hops b (by simp [Command.operands])))
  | lambda entry params variadic => exact hb.after_refused (.bind (hb.refuses (by decide)))
  | duplicate v =>
    exact hsame (.of_eq (MutatorM.duplicate_immediate
      (hops v (by simp [Command.operands])).ref_none) (hb.idleStep rfl rfl)) (by simp)
  | setCar pair v =>
    exact hsame (f := fun _ => []) (hset (hops pair (by simp [Command.operands]))) (by simp)
  | setCdr pair v =>
    exact hsame (f := fun _ => []) (hset (hops pair (by simp [Command.operands]))) (by simp)
  | push v =>
    refine hsame (f := fun _ => [])
      (hb.roots_ends ?_ (pushRoot_stays hb.within (hops v (by simp [Command.operands])))) (by simp)
    rw [Collector.push, bind_ok GcM.run_own, hb.choose_spec.own]
  | pop =>
    refine hsame (hb.roots_ends ?_ (popRoot_stays hb.within)) (by simp)
    rw [Collector.pop, bind_ok GcM.run_own, hb.choose_spec.own]
  | writeRoot slot v =>
    refine hsame (f := fun _ => [])
      (hb.roots_ends ?_ (setRoot_stays hb.within slot (hops v (by simp [Command.operands]))))
        (by simp)
    rw [Collector.writeRoot, bind_ok GcM.run_own, hb.choose_spec.own]
  | define name v =>
    exact hb.after_refused (f := fun _ => [])
      (hb.define_refuses name (hops v (by simp [Command.operands])))
  | collect =>
    exact ((hb.collect_ends rfl).mono_error
      fun _ _ h f hf => (h.1 f hf).1.idleStep (h.1 f hf).2.1 (h.1 f hf).2.2).bind fun _ _ h =>
        .pure ⟨h.1.idleStep h.2.1 h.2.2, by simp⟩
  | collectFull =>
    refine ((hb.collect_ends ?_).mono_error
      fun _ _ h f hf => (h.1 f hf).1.idleStep (h.1 f hf).2.1 (h.1 f hf).2.2).bind fun _ _ h =>
        .pure ⟨h.1.idleStep h.2.1 h.2.2, by simp⟩
    rw [Collector.collectFull, bind_ok GcM.run_own, hb.choose_spec.own]
  | setStress on =>
    obtain ⟨s, hb⟩ := hb
    refine .of_eq (a := []) (t := { u with machine := { u.machine with stress := on } }) rfl
      ⟨⟨⟨s, ?_⟩, rfl, .refl hb.roots⟩, by simp⟩
    exact ⟨hb.own, hb.small, hb.region, hb.blank, hb.unlinked, hb.untouched, hb.roots⟩
  | peek depth =>
    exact .of_eq (a := (u.peek? depth).toList) (t := u) rfl ⟨hb.idleStep rfl rfl, by simp⟩
  | car v => exact hsame (hread _) (by simp)
  | cdr v => exact hsame (hread _) (by simp)
  | lookup name =>
    refine hsame (MutatorM.gc_anyhow ?_) (by simp)
    have hrun := MutatorM.lookup?_eq name u
    cases hh : u.machine.roots.globals[u.bucket name]? with
    | none =>
      exact .of_error (hrun.trans (bind_error (MutatorM.entryAt?_trap hh))) (hb.idleStep rfl rfl)
    | some head =>
      exact .of_eq (hrun.trans (bind_ok (hb.entryAt?_run hh name))) (hb.idleStep rfl rfl)

/-- Only immediate values may be used. -/
theorem Barren.allows {H : Nat → Prop} (hb : Barren u) (hH : ∀ o, ¬ H o) (hv : u.Allows H v) :
    v.Within Nothing :=
  hv.within_closed (Barren.apart u).closed hb.within hH

/-- The heap holds nothing after a command. -/
theorem Barren.gives {u' : Mutator} {H : Nat → Prop} {vs : List Value} (hb : Barren u)
    (hH : ∀ o, ¬ H o) (hops : ∀ v ∈ cmd.operands, u.Allows H v) (hgives : cmd.Gives u vs u') :
    Barren u' ∧ u'.machine.heap = u.machine.heap := by
  have hrun := hb.run_ends cmd fun v hv => hb.allows hH (hops v hv)
  rcases hgives with h | ⟨f, h, -⟩
  · exact ⟨(hrun.ok h).1.1, (hrun.ok h).1.2.1⟩
  · exact ⟨(hrun.error h f rfl).1, (hrun.error h f rfl).2.1⟩

/-- A new heap of less than two words. -/
theorem start_barren {c : Config} (hc : c.strategy = .markSweep) (h2 : c.heapWords < 2)
    (hu : c.Makes u) :
    Barren u ∧ u.machine.heap.size = c.heapWords := by
  obtain ⟨hash, rfl, -⟩ := hu.eq
  have hwords := c.size_ofBytes
  have hof : FreeList.ofRegion (Arena.ofBytes c.heapSize).region c.fit (Arena.ofBytes c.heapSize) =
      (.empty c.fit, Arena.ofBytes c.heapSize) := by
    rw [FreeList.ofRegion, if_neg (by rw [c.length_region]; exact Nat.not_le.mpr h2)]
  have hbuild : Machine.ofConfig c hash =
    ⟨Arena.ofBytes c.heapSize, Roots.empty c.stackCapacity c.globalTableSize hash, c.stress, {},
      .markSweep ⟨(Arena.ofBytes c.heapSize).region, .empty c.fit, c.markStackCapacity⟩⟩ := by
    rw [Machine.ofConfig, Collector.build, hc]
    simp only [build, hof]
    rfl
  rw [Mutator.ofConfig, hbuild]
  exact ⟨⟨_, rfl, hwords.trans_lt h2, rfl, Arena.word_ofBytes c.heapSize, rfl, ⟨rfl, rfl, rfl⟩,
    Roots.empty_within _ _ _ _⟩, hwords⟩

/-- A session on a heap of less than two words never holds an object. -/
theorem session_barren {c : Config} (hc : c.strategy = .markSweep) (h2 : c.heapWords < 2)
    {H : Nat → Prop} (hses : Session c u H) :
    Barren u ∧ u.machine.heap.size = c.heapWords ∧ ∀ o, ¬ H o := by
  induction hses with
  | start hu =>
    obtain ⟨hb, hsize⟩ := start_barren hc h2 hu
    exact ⟨hb, hsize, fun _ h => h⟩
  | @step u u' H cmd vs hses hops hgives hu' ih =>
    obtain ⟨hb, hsize, hH⟩ := ih
    obtain ⟨hb', hheap⟩ := hb.gives hH hops hgives
    exact ⟨hb', (congrArg Arena.size hheap).trans hsize, fun o ho => hb'.not_lists o ho.2⟩

end MarkSweep

end Reclaim
