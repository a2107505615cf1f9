import Reclaim.Proofs.Counting.Courses
import Reclaim.Proofs.Poison

/-!
# The zero count table never stays full

A scan keeps in the table only what is parked and not counted, and no command parks more than two
values at once. So a table with room for three objects always has room again after a scan, however
many objects the stack and the globals hold, and no command ever reports that it is full. Neither
does a poisoned heap, nor one without room for any object.

Results:
* `Idles.run_clears`: a heap without room.
* `AtRest.run_ends`: one command.
* `answered_never_full`: all that a heap ever answers.
-/

namespace Reclaim

/-- The answers that a new heap gave to commands, the latest first. While the heap is in order, a
command may be given immediate values and references to any objects that are listed. A failure is an
answer too, and more commands may follow. -/
inductive Answered (c : Config) : Mutator → List (Except Failure (List Value)) → Prop where
  | start {u : Mutator} : c.Makes u → Answered c u []
  | step {u u' : Mutator} {as : List (Except Failure (List Value))}
      {a : Except Failure (List Value)} {cmd : Command} : Answered c u as →
      (u.poisoned = false → ∀ v ∈ cmd.operands, v.Within u.Lists) → attempt cmd.run u = .ok a u' →
        Answered c u' (a :: as)

/-- One more command that is carried out. -/
theorem Answered.next {c : Config} {u : Mutator} {as : List (Except Failure (List Value))}
    (h : Answered c u as) (cmd : Command) {vs : List Value}
    (hops : cmd.operands.all u.accepts = true) (hvs : cmd.values? u = some vs) :
    Answered c (cmd.after u) (.ok vs :: as) := by
  refine h.step (fun _ v hv => Mutator.within_lists_of_accepts (List.all_eq_true.mp hops v hv)) ?_
  rcases Command.gives_of_values hvs with hrun | ⟨f, hrun, -⟩
  · rw [attempt, hrun]
  · rw [Command.values?, hrun] at hvs
    cases hvs

/-- A poisoned heap refuses commands as poisoned, and stays so. -/
theorem Command.run_poisoned {u : Mutator} (hu : u.poisoned = true) (cmd : Command) :
    Ends cmd.run u (fun _ u' => u'.poisoned = true) fun e u' =>
    u'.poisoned = true ∧ ∀ f, e = .failed f → f = .poisoned := by
  refine ((Call.run_idle hu (.command cmd)).mono ?_).mono_error ?_
  · rintro vs u' rfl
    exact hu
  · rintro e u' ⟨rfl, he⟩
    exact ⟨hu, he⟩

namespace Counting

open MutatorM

variable {α β : Type} {cap : Nat} {c : Config} {u u' : Mutator} {m : Machine Counting}
  {ts : List Tile} {cmd : Command} {v : Value}
  {x : MutatorM α}

/-! ## Heaps without room -/

/-- The computation fails, but not because of a full table. -/
def Denies (x : MutatorM α) (u : Mutator) : Prop :=
  Ends x u (fun _ _ => False) fun e _ => NotTableFull e

theorem Denies.bind {k : α → MutatorM β} (hx : Denies x u) : Denies (x >>= k) u :=
  Ends.bind hx fun _ _ h => h.elim

theorem Denies.check (hu : u.poisoned = false) (hx : Denies x u) :
    Denies (MutatorM.check >>= fun _ => x) u := .step (check_run hu) hx

theorem Denies.keeping (hx : Denies x (parkedOn u v)) : Denies (MutatorM.keeping v x) u :=
  keeping_passes (fun _ => hx) (fun _ h => notTableFull_of_parking h) notTableFull_underflow

/-- A mutator in order, with a heap without room. -/
def Blocked (u : Mutator) : Prop := ∃ m, u.Counts m ∧ Barren m

namespace Blocked

theorem clean (hb : Blocked u) : u.poisoned = false := hb.elim fun _ hb => hb.1.clean

theorem parkedOn (hb : Blocked u) (hv : v.Within Nothing) : Blocked (MutatorM.parkedOn u v) := by
  obtain ⟨m, hu, hb⟩ := hb
  refine ⟨_, hu.withRoots _, hb.withRoots ?_⟩
  rw [hu.roots]
  exact hb.roots.push hv _

/-- No object fits. -/
theorem allocateWords_denies (hb : Blocked u) {n : Nat} (hn : 1 ≤ n) :
    Denies (allocateWords n) u := by
  obtain ⟨m, hu, hb⟩ := hb
  have hown : u.machine.own = .counting m.own := by rw [hu.machine]; rfl
  by_cases hcount : operations.Countable m n
  case neg =>
    have htrap : Collector.allocate n u.machine = .error .trap u.machine := by
      refine (hosts.allocate n hown).trans (Collector.run_within_error hown ?_)
      rw [hu.machine]
      exact hb.allocate_overflows hcount
    exact Ends.of_error (bind_error (operate_error hu.clean htrap (by simp)))
      fun _ he => by cases he
  have hx : Runs (Collector.allocate n) u.machine (fun _ _ => False) fun f _ =>
    f.isFatal = true ∧ ∀ k, f ≠ .zeroCountTableFull k := by
    refine Collector.Hosts.runs (hosts.allocate n hown) ?_
    rw [hu.machine]
    exact (hb.allocate_runs hn hcount).mono_fail fun _ _ h => h.1
  unfold allocateWords
  refine Denies.bind ((operate_fails (Q := fun _ _ => False) hu.clean hx
    fun _ _ h => h.1).mono_error ?_)
  rintro e u' ⟨-, f, rfl, -, hf⟩ k he
  exact hf k (Fault.failed.inj he)

theorem constructs_denies {y : MutatorM Value} {t : Tag} {aux : Word} {words : List Word}
    (hb : Blocked u) (hy : Constructs y t aux words) :
    Denies y u := by
  obtain ⟨k, rfl, -⟩ := hy.run
  exact (hb.allocateWords_denies (by omega)).bind

theorem cons_denies (hb : Blocked u) {a b : Value} (ha : a.Within Nothing)
    (hb' : b.Within Nothing) : Denies (cons a b) u :=
  .check hb.clean
    (.bind (.keeping (.keeping (((hb.parkedOn ha).parkedOn hb').allocateWords_denies (by decide)))))

theorem bindNew_denies (hb : Blocked u) (hv : v.Within Nothing) (bucket : Nat) (name : String) :
    Denies (bindNew bucket name v) u :=
  .bind (.keeping ((hb.parkedOn hv).constructs_denies
    (text_constructs (.inl rfl) (Text.encode name))))

end Blocked

/-- What the command reports is not a full table. -/
abbrev Clears (x : MutatorM α) (u : Mutator) : Prop :=
  Ends x u (fun _ _ => True) fun e _ => NotTableFull e

theorem Denies.clears (hx : Denies x u) : Clears x u := Ends.mono hx fun _ _ h => h.elim

theorem Clears.of_eq {a : α} (hx : x u = .ok a u') : Clears x u := Ends.of_eq hx trivial

theorem Clears.returns {f : α → β} (hx : Clears x u) : Clears (do return f (← x)) u :=
  Ends.bind hx fun _ _ _ => .pure trivial

/-- A fault that is not reported. -/
theorem clears_of_ne {e : Fault} (hx : x u = .error e u') (he : ∀ f, e ≠ .failed f) : Clears x u :=
  .of_error hx fun _ => he _

/-- An operation of the collector that succeeds. -/
theorem operate_clears {y : GcM Collector α} {z : GcM Counting α} {a : α} {m' : Machine Counting}
    (hu : u.Counts m) (hyz : ∀ {mc s}, mc.own = Collector.counting s →
      y mc = Collector.within Collector.counting s z mc) (hz : z m = .ok a m') :
    Clears (operate y) u := by
  obtain ⟨u', hrun, -⟩ := hu.guarded hyz hz
  exact .of_eq ((bind_ok (check_run hu.clean)).trans hrun)

namespace Idles

theorem blocked (hi : Idles u m) : Blocked u := ⟨m, hi.counts, hi.barren⟩

theorem setPairField_clears (hi : Idles u m) {pair : Value} (hp : pair.Within Nothing) (i : Nat) :
    Clears (setPairField i pair v) u := by
  refine .of_eq (setPairField_absent (barren_laws.hosted hosts) hi.noRoom hp ?_)
  rw [Arena.pairAt?, hp.ref_none]
  rfl

theorem define_clears (hi : Idles u m) (hv : v.Within Nothing) (name : String) :
    Clears (define name v) u := by
  refine define_ends ?_
  rw [defineAt_eq]
  refine .step (check_run hi.counts.clean) ?_
  rcases entryAt?_ends (barren_laws.hosted hosts) hi.noRoom
    (u.bucket name) name with ⟨-, r, -, hrun, hr⟩ | ⟨e, hne, hrun⟩
  · refine .step (gc_lift hrun) ?_
    cases r with
    | none => exact (hi.blocked.bindNew_denies hv _ name).clears
    | some entry => exact hi.setPairField_clears (hr entry rfl) 2
  · exact clears_of_ne (bind_error (gc_lift_error hrun)) hne

theorem push_clears (hi : Idles u m) (hv : v.Within Nothing) : Clears (MutatorM.push v) u := by
  cases hroom : Roots.parking m.roots.stack.size m.roots.capacity 1 with
  | ok =>
    obtain ⟨hcap, hlim⟩ := Roots.room_of_parking hroom
    exact operate_clears hi.counts (fun h => hosts.push v h) (Barren.push_run hv hcap hlim)
  | error e =>
    rw [← hi.counts.roots] at hroom
    have hfail := (barren_laws.hosted hosts).push_fails hi.noRoom (pushRoot_error (v := v) hroom)
    exact .of_error (operate_error hi.counts.clean hfail (Roots.not_fatal_of_parking hroom))
      (notTableFull_of_parking hroom)

theorem pop_clears (hi : Idles u m) : Clears MutatorM.pop u := by
  cases hv : m.roots.stack.back? with
  | none =>
    exact .of_error (pop_empty (barren_laws.hosted hosts) hi.noRoom hi.counts.clean
      (by rw [hi.counts.roots]; exact hv)) notTableFull_underflow
  | some v => exact operate_clears hi.counts (fun h => hosts.pop h) (hi.barren.pop_run hv)

theorem writeRoot_clears (hi : Idles u m) (hv : v.Within Nothing) (slot : RootSlot) :
    Clears (MutatorM.writeRoot slot v) u := by
  cases hs : m.roots.get? slot with
  | none =>
    obtain ⟨u', hrun⟩ := writeRoot_absent (barren_laws.hosted hosts) hi.noRoom hi.counts.clean
      (by rw [hi.counts.roots]; exact hs) hv
    exact clears_of_ne hrun (by simp)
  | some old =>
    exact operate_clears hi.counts (fun h => hosts.writeRoot slot v h)
      (hi.barren.writeRoot_run hs hv)

/-- One command. Whatever needs a new object is denied, and the rest does not use the table. -/
theorem run_clears (hi : Idles u m) (hops : ∀ v ∈ cmd.operands, v.Within Nothing) :
    Clears cmd.run u := by
  have hl := barren_laws.hosted hosts
  have hap := hl.apart hi.noRoom
  have hb := hi.blocked
  cases cmd with
  | allocate bytes => exact (hb.allocateWords_denies (by omega)).clears.returns
  | char c => exact (hb.constructs_denies (char_constructs c)).clears.returns
  | string s =>
    exact (hb.constructs_denies (text_constructs (.inl rfl) (Text.encode s))).clears.returns
  | symbol s =>
    exact (hb.constructs_denies (text_constructs (.inr rfl) (Text.encode s))).clears.returns
  | lambda entry params variadic =>
    exact (hb.constructs_denies (lambda_constructs entry params variadic)).clears.returns
  | cons a b =>
    exact (hb.cons_denies (hops a (by simp [Command.operands]))
      (hops b (by simp [Command.operands]))).clears.returns
  | duplicate v =>
    exact (Clears.of_eq (duplicate_immediate
      (hops v (by simp [Command.operands])).ref_none)).returns
  | setCar pair v =>
    exact (hi.setPairField_clears (hops pair (by simp [Command.operands])) 1).returns
  | setCdr pair v =>
    exact (hi.setPairField_clears (hops pair (by simp [Command.operands])) 2).returns
  | push v => exact (hi.push_clears (hops v (by simp [Command.operands]))).returns
  | pop => exact hi.pop_clears.returns
  | writeRoot slot v =>
    exact (hi.writeRoot_clears (hops v (by simp [Command.operands])) slot).returns
  | define name v => exact (hi.define_clears (hops v (by simp [Command.operands])) name).returns
  | collect =>
    obtain ⟨m', -, -, hrun, -⟩ := hi.barren.collect_run
    exact (operate_clears hi.counts (fun h => hosts.collect h) hrun).returns
  | collectFull =>
    obtain ⟨m', -, -, hrun, -⟩ := hi.barren.collect_run
    exact (operate_clears hi.counts (fun h => hosts.collectFull h) hrun).returns
  | setStress on => exact .of_eq rfl
  | peek depth => exact .of_eq rfl
  | car v =>
    exact (Clears.of_eq (MutatorM.read_lift
      (car?_run hap (hops v (by simp [Command.operands]))))).returns
  | cdr v =>
    exact (Clears.of_eq (MutatorM.read_lift
      (cdr?_run hap (hops v (by simp [Command.operands]))))).returns
  | lookup name =>
    have hrun := lookup?_eq name u
    refine Clears.returns (f := Option.toList) ?_
    rcases lookupAt?_ends hl hi.noRoom (u.bucket name) name with ⟨r, hr, -⟩ | ⟨e, hne, he⟩
    · exact .of_eq (gc_lift (hrun.trans hr))
    · exact clears_of_ne (gc_lift_error (hrun.trans he)) hne

end Idles

/-! ## All that a heap answers -/

/-- The heap is poisoned, or it is as it is between commands, with or without room. -/
def AtRest (c : Config) (u : Mutator) : Prop :=
  u.poisoned = true ∨ (∃ m ts, Tallies .deferred c.zeroCountCapacity u m ts) ∨ ∃ m, Idles u m

/-- One command, while the heap is in order. -/
theorem Tallies.run_ends (ht : Tallies .deferred c.zeroCountCapacity u m ts)
    (h3 : 3 ≤ c.zeroCountCapacity) (hops : ∀ v ∈ cmd.operands, v.Within u.Lists) :
    Ends cmd.run u (fun _ => AtRest c)
      fun e u' => (∀ f, e = .failed f → AtRest c u') ∧ NotTableFull e := by
  have hcalm : ∀ vs u', cmd.Gives u vs u' → AtRest c u' := by
    intro vs u' hg
    cases hclean : u'.poisoned with
    | true => exact .inl hclean
    | false =>
      obtain ⟨m', ts', ht', -⟩ := ht.step hops hg hclean
      exact .inr (.inl ⟨m', ts', ht'⟩)
  cases hrun : cmd.run u with
  | ok vs u' => exact .of_eq hrun (hcalm vs u' (.inl hrun))
  | error e u' =>
    have hsteps := steps ht.counts ht.balanced ht.parked cmd fun v hv =>
      (hops v hv).mono fun o ho => ht.lists_iff.mp ho
    refine .of_error hrun ⟨fun f hf => hcalm [] u' (.inr ⟨f, hf ▸ hrun, rfl⟩),
      (hsteps.error hrun).2 ?_⟩
    rw [ht.parked, ht.capacity]
    omega

theorem Idles.run_ends (hi : Idles u m) (hops : ∀ v ∈ cmd.operands, v.Within u.Lists) :
    Ends cmd.run u (fun _ => AtRest c)
      fun e u' => (∀ f, e = .failed f → AtRest c u') ∧ NotTableFull e := by
  have hcalm : ∀ vs u', cmd.Gives u vs u' → AtRest c u' := by
    intro vs u' hg
    cases hclean : u'.poisoned with
    | true => exact .inl hclean
    | false => exact .inr (.inr (hi.step hops hg hclean))
  cases hrun : cmd.run u with
  | ok vs u' => exact .of_eq hrun (hcalm vs u' (.inl hrun))
  | error e u' =>
    have hclears : Clears cmd.run u :=
      hi.run_clears fun v hv => (hops v hv).mono fun o ho => hi.not_lists ho
    exact .of_error hrun ⟨fun f hf => hcalm [] u' (.inr ⟨f, hf ▸ hrun, rfl⟩), hclears.error hrun⟩

/-- One command, whatever has become of the heap. -/
theorem AtRest.run_ends (hc : AtRest c u)
    (h3 : 3 ≤ c.zeroCountCapacity)
    (hops : u.poisoned = false → ∀ v ∈ cmd.operands, v.Within u.Lists) :
    Ends cmd.run u (fun _ => AtRest c)
      fun e u' => (∀ f, e = .failed f → AtRest c u') ∧ NotTableFull e := by
  rcases hc with hpo | ⟨m, ts, ht⟩ | ⟨m, hi⟩
  · refine ((cmd.run_poisoned hpo).mono fun _ _ h => .inl h).mono_error ?_
    rintro e u' ⟨hpo', he⟩
    exact ⟨fun _ _ => .inl hpo', fun k hk => by cases he _ hk⟩
  · exact ht.run_ends h3 (hops ht.counts.clean)
  · exact hi.run_ends (hops hi.counts.clean)

/-- One command more. -/
theorem AtRest.answer {a : Except Failure (List Value)} (hc : AtRest c u)
    (h3 : 3 ≤ c.zeroCountCapacity)
    (hops : u.poisoned = false → ∀ v ∈ cmd.operands, v.Within u.Lists)
    (ha : attempt cmd.run u = .ok a u') :
    AtRest c u' ∧ ∀ n, a ≠ .error (.zeroCountTableFull n) := by
  have hends := hc.run_ends h3 hops
  unfold attempt at ha
  cases hrun : cmd.run u with
  | ok vs u₁ =>
    rw [hrun] at ha
    cases ha
    exact ⟨hends.ok hrun, by simp⟩
  | error e u₁ =>
    rw [hrun] at ha
    cases e with
    | failed f =>
      cases ha
      obtain ⟨hcalm, hroomy⟩ := hends.error hrun
      exact ⟨hcalm f rfl, fun n he => hroomy n (by cases he; rfl)⟩
    | trap | endless => cases ha

theorem start_calm (hc : c.strategy = .deferredCounting) (hu : c.Makes u) : AtRest c u := by
  have hmode : c.strategy = CountMode.deferred.strategy := hc
  by_cases h2 : 2 ≤ c.heapWords
  · obtain ⟨m, ht⟩ := start_tallies hmode h2 hu
    exact .inr (.inl ⟨m, _, ht⟩)
  · exact .inr (.inr (course_idles (R := fun _ _ => True) hmode (by omega) (.start hu)))

/-- A heap with deferred counts whose table has room for three objects never answers that the table
is full, whatever commands it is given. -/
theorem answered_never_full {as : List (Except Failure (List Value))}
    (hc : c.strategy = .deferredCounting) (h3 : 3 ≤ c.zeroCountCapacity) (h : Answered c u as)
    (n : Nat) : .error (.zeroCountTableFull n) ∉ as := by
  have hall : AtRest c u ∧ .error (.zeroCountTableFull n) ∉ as := by
    induction h with
    | start hu => exact ⟨start_calm hc hu, by simp⟩
    | step _ hops ha ih =>
      obtain ⟨hcalm, hne⟩ := ih.1.answer h3 hops ha
      exact ⟨hcalm, fun hm => (List.mem_cons.mp hm).elim (fun he => hne n he.symm) ih.2⟩
  exact hall.2

/-- A table for three objects. Every allocation scans. -/
def threeEntryTable : Config := { deferredSample with
      stackCapacity := 8, zeroCountCapacity := 3, stress := true }

/-- Four pairs that nothing counts lie on the stack, and the table holds none of them but the
last. -/
theorem four_held : ∃ u as, Answered threeEntryTable u as ∧ u.depth = 4 ∧
    u.tabled = [21] ∧ ∀ n, .error (.zeroCountTableFull n) ∉ as := by
  let u0 := Mutator.ofConfig threeEntryTable
  let u1 := (Command.cons .nil .nil).after u0
  let u2 := (Command.push (.ofRef 3)).after u1
  let u3 := (Command.cons .nil .nil).after u2
  let u4 := (Command.push (.ofRef 9)).after u3
  let u5 := (Command.cons .nil .nil).after u4
  let u6 := (Command.push (.ofRef 15)).after u5
  let u7 := (Command.cons .nil .nil).after u6
  let u8 := (Command.push (.ofRef 21)).after u7
  have h0 : Answered threeEntryTable u0 [] := .start ⟨_, rfl⟩
  have h1 : Answered threeEntryTable u1 [.ok [.ofRef 3]] :=
    h0.next _ (by decide +kernel) (by decide +kernel)
  have h2 : Answered threeEntryTable u2 [.ok [], _] :=
    h1.next _ (by decide +kernel) (by decide +kernel)
  have h3 : Answered threeEntryTable u3 [.ok [.ofRef 9], _, _] :=
    h2.next _ (by decide +kernel) (by decide +kernel)
  have h4 : Answered threeEntryTable u4 [.ok [], _, _, _] :=
    h3.next _ (by decide +kernel) (by decide +kernel)
  have h5 : Answered threeEntryTable u5 [.ok [.ofRef 15], _, _, _, _] :=
    h4.next _ (by decide +kernel) (by decide +kernel)
  have h6 : Answered threeEntryTable u6 [.ok [], _, _, _, _, _] :=
    h5.next _ (by decide +kernel) (by decide +kernel)
  have h7 : Answered threeEntryTable u7 [.ok [.ofRef 21], _, _, _, _, _, _] :=
    h6.next _ (by decide +kernel) (by decide +kernel)
  have h8 : Answered threeEntryTable u8 [.ok [], _, _, _, _, _, _, _] :=
    h7.next _ (by decide +kernel) (by decide +kernel)
  exact ⟨u8, _, h8, by decide +kernel, by decide +kernel, answered_never_full rfl (by decide) h8⟩

end Counting

end Reclaim
