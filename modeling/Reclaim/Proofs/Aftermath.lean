import Reclaim.Proofs.Counting.Wreckage
import Reclaim.Proofs.Generational.Wreckage
import Reclaim.Proofs.MarkSweep.Barren
import Reclaim.Proofs.Poison
import Reclaim.Proofs.Reading
import Reclaim.Proofs.Spoils

/-!
# What can be read of a poisoned heap

A poisoned heap refuses what could change it, but a program may go on to read it, starting from what
it held on to when a call failed. Whatever failed left the heap legible (`Spoils`), so that all this
is there (`Wreck`), and it stays so however many calls follow (`Aftermath`).

Results:
* `Call.refused`: calls that a poisoned heap refuses.
* `Command.run_reads`: one command on a legible heap that is poisoned.
* `Session.governed`: the laws behind a session, and the one kind of heap that has none.
* `Aftermath.wreck`: whatever follows a session.
-/

namespace Reclaim

variable {I : Machine Collector → (Nat → Prop) → Prop} {N : Machine Collector → Nat → Nat → Prop}
  {S H H' : Nat → Prop} {u u' : Mutator} {v : Value} {hd : Nat}

/-! ## Calls -/

/-- The call is refused by a poisoned heap, before it reads anything. -/
def Call.IsGuarded : Call → Prop
  | command (.setCar _ _) | command (.setCdr _ _) | command (.setStress _) | command (.peek _)
  | command (.car _) | command (.cdr _)
  | command (.lookup _) => False
  | command (.duplicate v) => v.isRef = true
  | _ => True

theorem Call.refused (hu : u.poisoned = true) {call : Call} (hg : call.IsGuarded) :
    call.run u = .error (.failed .poisoned) u := by
  cases call with
  | store owner field v => exact bind_error (Refused.stop u hu)
  | command cmd =>
    cases cmd with
    | duplicate v =>
      obtain ⟨o, ho⟩ := Value.exists_ref? hg
      have hdup : MutatorM.duplicate v u = .error (.failed .poisoned) u := by
        rw [MutatorM.duplicate, ho]
        exact bind_error (check_poisoned hu)
      exact bind_error hdup
    | setCar pair v | setCdr pair v | setStress on | peek depth | car v | cdr v | lookup name =>
      exact hg.elim
    | _ => exact bind_error (Refused.stop u hu)

/-- What a call is given may be used, and is there. -/
def Call.Valid (u : Mutator) (H : Nat → Prop) : Call → Prop
  | command cmd => (∀ v ∈ cmd.operands, u.Allows H v) ∧ cmd.InRange u
  | store owner field v => u.Allows H v ∧ (field = owner + 1 ∨ field = owner + 2) ∧
      ∃ pair, u.Allows H pair ∧ pair.ref? = some owner ∧ u.machine.heap.tag owner = some .pair

/-- A store is what one of the two commands for it does. -/
theorem Call.Valid.store {owner field : Nat} (hap : Apart hd u.machine.heap S)
    (hallow : ∀ {v}, u.Allows H v → v.Within S) (hv : (Call.store owner field v).Valid u H) :
    ∃ pair, (∀ w ∈ [pair, v], u.Allows H w) ∧
      ((Command.setCar pair v).run u = (Call.store owner field v).run u ∨
        (Command.setCdr pair v).run u = (Call.store owner field v).run u) := by
  obtain ⟨hv, hfield, pair, hp, ho, htag⟩ := hv
  have hpair : pair? pair u.machine.heap = .ok (some owner) := by
    rw [pair?_run hap (hallow hp)]
    exact congrArg _ (Arena.pairAt?_eq_some.mpr ⟨ho, htag⟩)
  have hset : ∀ i, MutatorM.setPairField i pair v u = MutatorM.writeField owner (owner + i) v u :=
    fun i => bind_ok (MutatorM.read_lift hpair)
  have hsame : ∀ i, (do MutatorM.setPairField i pair v; return []) u =
      (Call.store owner (owner + i) v).run u := by
    intro i
    unfold Call.run
    simp only [bind, EStateM.bind, hset i]
  refine ⟨pair, by simp [hp, hv], ?_⟩
  rcases hfield with rfl | rfl
  · exact .inl (hsame 1)
  · exact .inr (hsame 2)

/-! ## Names -/

namespace MutatorM

/-- The search for an entry finds one that may be used, or none, or does not end. -/
theorem entryAt?_in_range (hap : Apart hd u.machine.heap S) (hr : u.machine.roots.Within S)
    {bucket : Nat} (hb : bucket < u.machine.roots.globals.size) (name : String) :
    (∃ head r, u.machine.roots.globals[bucket]? = some head ∧ entryAt? bucket name u.machine =
      .ok r u.machine ∧
      ∀ e, r = some e → e.Within S) ∨ entryAt? bucket name u.machine =
        .error .endless u.machine := by
  have hh := Array.getElem?_eq_getElem hb
  rcases entryFrom?_within hap name (u.machine.heap.size + 1) (hr (.global bucket) _ hh)
    with ⟨r, hrun, hrw⟩ | hrun
  · exact .inl ⟨_, r, hh, entryAt?_run hh hrun, hrw⟩
  · exact .inr (entryAt?_error hh hrun)

/-- Looking up a name finds a value that may be used, or none, or does not end. -/
theorem lookup?_in_range (hap : Apart hd u.machine.heap S) (hr : u.machine.roots.Within S)
    (hf : u.Framed) (name : String) :
    Ends (liftM (lookup? name) : MutatorM (Option Value)) u
      (fun r u' => u' = u ∧ ∀ w, r = some w → w.Within S) fun e _ => e = .endless := by
  have hrun := lookup?_eq name u
  rw [lookupAt?] at hrun
  rcases entryAt?_in_range hap hr (hf.bucket_lt (Text.encode name)) name
    with ⟨head, r, -, he, hrw⟩ | he
  · rw [Mutator.bucket, bind_ok he] at hrun
    cases r with
    | none => exact .of_eq (gc_lift hrun) ⟨rfl, by simp⟩
    | some entry =>
      have hread := cdr?_run hap (hrw entry rfl)
      refine .of_eq (gc_lift (hrun.trans (Reclaim.read_lift hread))) ⟨rfl, fun w hw => ?_⟩
      exact Arena.fieldAt?_within hap.closed (hrw entry rfl) (.inr rfl) hw
  · rw [Mutator.bucket, bind_error he] at hrun
    exact .of_error (gc_lift_error hrun) rfl

end MutatorM

/-! ## Reading -/

/-- An object behind a whole header can be described. -/
theorem Collector.describe_run (c : Collector) {h : Arena} {o : Nat} (hhead : c.headerWords ≤ o)
    (hin : o ≤ h.size) : ∃ info, c.describe o h = .ok info := by
  have hsize : ∀ {offset}, 1 ≤ offset → offset ≤ o →
      headerSize offset o h = .ok (h.word (o - offset)).toNat :=
    fun hpos hle => headerSize_run hle (by omega) rfl
  cases c with
  | semispace s => exact ⟨_, read_bind (hsize (by decide) hhead)⟩
  | markSweep s => exact ⟨_, read_bind (hsize (by decide) hhead)⟩
  | sliding s => exact ⟨_, read_bind (hsize (by decide) hhead)⟩
  | generational s =>
    have hoff : Generational.sizeOffset ≤ Generational.headerWords := by decide
    obtain ⟨info, hrun, -⟩ := Generational.describe_run hhead hin
      (hsize (by decide) (Nat.le_trans hoff hhead))
    exact ⟨info, hrun⟩
  | counting s =>
    have hpos := s.mode.header_pos
    change s.mode.headerWords ≤ o at hhead
    have hcount : Counting.count s.mode o h = .ok
        (h.word (o - Counting.countOffset s.mode)).toInt64.toInt := by
      have hoff : 1 ≤ Counting.countOffset s.mode ∧ Counting.countOffset s.mode ≤ o := by
        unfold Counting.countOffset
        cases hmode : s.mode <;> simp_all [CountMode.headerWords] <;> omega
      rw [Counting.count, read_bind (loadHeader_run hoff.2 (by omega))]
      rfl
    have hqueued : s.mode = .deferred → Counting.isQueued s.mode o h = .ok
        (h.word (o - Counting.queuedOffset) != 0) := by
      intro hmode
      rw [hmode] at hhead ⊢
      have hoff : Counting.queuedOffset ≤ o := Nat.le_trans (by decide) hhead
      rw [Counting.isQueued, read_bind (loadHeader_run hoff (by
        simp only [Counting.queuedOffset] at hoff ⊢
        omega))]
      rfl
    exact ⟨_, Counting.describe_run (hsize hpos hhead) hcount hqueued⟩

/-- The blocks and chunks of the heap can be listed, and every block described. -/
structure Mutator.Walkable (u : Mutator) : Prop where
  objects : ∃ listed, u.objects = .ok listed ∧ ∀ b ∈ listed, ∃ info, u.describe b.1 = .ok info
  chunks : ∃ chunks, u.view u.machine.own.freeChunks = .ok chunks

theorem Legible.walkable (h : Legible u.machine S) : u.Walkable := by
  obtain ⟨bs, hrun, hin⟩ := h.listed
  exact ⟨⟨bs, hrun, fun b hb => u.machine.own.describe_run (hin b hb).1 (hin b hb).2⟩, h.chunks⟩

/-- A command on a poisoned heap reads what is there, or is refused, or does not end. -/
theorem Command.run_reads (hleg : Legible u.machine S) (hu : u.poisoned = true) (hf : u.Framed)
    (cmd : Command) (hops : ∀ v ∈ cmd.operands, v.Within S) :
    Ends cmd.run u (fun vs _ => ∀ v ∈ vs, v.Within S) fun e _ => e ≠ .trap := by
  obtain ⟨hd, hap⟩ := hleg.apart
  have hrefused : (Call.command cmd).IsGuarded →
      Ends cmd.run u (fun vs _ => ∀ v ∈ vs, v.Within S) fun e _ => e ≠ .trap :=
    fun hg => .of_error (Call.refused hu hg) (by simp)
  have hread : ∀ {x : MutatorM (Option Value)} {r : Option Value}, x u = .ok r u →
      (∀ w, r = some w → w.Within S) →
      Ends (do return (← x).toList) u (fun vs _ => ∀ v ∈ vs, v.Within S) fun e _ => e ≠ .trap :=
    fun hx hr => .step hx (.pure fun w hw => hr w (Option.mem_toList.mp hw))
  have hset : ∀ {i : Nat} {pair v : Value}, pair.Within S →
      Ends (do MutatorM.setPairField i pair v; return ([] : List Value)) u
        (fun vs _ => ∀ v ∈ vs, v.Within S) fun e _ => e ≠ .trap := by
    intro i pair v hp
    have hpair := MutatorM.read_lift (u := u) (pair?_run hap hp)
    refine Ends.bind (R := fun _ _ => True) (.step hpair ?_) fun _ _ _ => .pure (by simp)
    cases u.machine.heap.pairAt? pair with
    | none => exact .pure trivial
    | some o => exact .of_error (bind_error (check_poisoned hu)) (by simp)
  cases cmd with
  | duplicate v =>
    cases hr : v.ref? with
    | none =>
      exact .step (MutatorM.duplicate_immediate hr)
        (.pure fun w hw => hops w (by simpa [operands] using hw))
    | some o => exact hrefused (Value.isRef_of_ref? hr)
  | setCar pair v | setCdr pair v => exact hset (hops pair (by simp [operands]))
  | setStress on => exact .of_eq (a := []) rfl (by simp)
  | peek depth =>
    refine .of_eq (a := (u.peek? depth).toList) (t := u) rfl fun w hw => ?_
    have hpeek : u.machine.roots.peek? depth = some w := Option.mem_toList.mp hw
    rw [Roots.peek?] at hpeek
    split at hpeek
    · exact hleg.roots (.stack _) w hpeek
    · cases hpeek
  | car v =>
    have hv := hops v (by simp [operands])
    exact hread (MutatorM.read_lift (car?_run hap hv)) fun w hw =>
      Arena.fieldAt?_within hap.closed hv (.inl rfl) hw
  | cdr v =>
    have hv := hops v (by simp [operands])
    exact hread (MutatorM.read_lift (cdr?_run hap hv)) fun w hw =>
      Arena.fieldAt?_within hap.closed hv (.inr rfl) hw
  | lookup name =>
    refine Ends.bind ((MutatorM.lookup?_in_range hap hleg.roots hf name).mono_error ?_) ?_
    · rintro e - rfl
      simp
    · rintro r u' ⟨-, hr⟩
      exact .pure fun w hw => hr w (Option.mem_toList.mp hw)
  | _ => exact hrefused trivial

/-! ## What follows a failure -/

/-- The heap `u'` and the objects `H'` that the program still holds on to, when a call on `u` has
poisoned the heap, and after the calls that followed. -/
inductive Aftermath (u : Mutator) (H : Nat → Prop) : Mutator → (Nat → Prop) → Prop where
  | failure {u' : Mutator} {call : Call} {f : Failure} : call.Valid u H →
      call.run u = .error (.failed f) u' → u'.poisoned = true →
      Aftermath u H u' (u.held u' H [])
  | result {u' u'' : Mutator} {H' : Nat → Prop} {call : Call} {vs : List Value} :
      Aftermath u H u' H' → call.Valid u' H' → call.run u' = .ok vs u'' →
      Aftermath u H u'' (u'.held u'' H' vs)
  | refusal {u' u'' : Mutator} {H' : Nat → Prop} {call : Call} {f : Failure} :
      Aftermath u H u' H' → call.run u' = .error (.failed f) u'' →
      Aftermath u H u'' (u'.held u'' H' [])

/-- The heap is poisoned, but what the program holds on to is there. -/
structure Wreck (u : Mutator) (H : Nat → Prop) : Prop where
  poisoned : u.poisoned = true
  framed : u.Framed
  legible : ∃ S, Legible u.machine S ∧ ∀ o, H o → S o

/-- What a call that returns `vs` leaves of it. -/
theorem Wreck.step {call : Call} {vs : List Value} (hw : Wreck u H)
    (hu' : u' = u.withStress (call.stressed u.machine.stress))
    (hvs : ∀ S, Legible u.machine S → (∀ o, H o → S o) → ∀ v ∈ vs, v.Within S) :
    Wreck u' (u.held u' H vs) := by
  obtain ⟨S, hleg, hH⟩ := hw.legible
  subst hu'
  refine ⟨hw.poisoned, hw.framed, S, ⟨hleg.apart, hleg.roots, hleg.listed, hleg.chunks⟩, ?_⟩
  rintro o ⟨⟨-, ho⟩ | ⟨v, hv, ho⟩, -⟩
  · exact hH o ho
  · exact (hvs S hleg hH v hv o ho).2

/-- A call that ends returns what is there. -/
theorem Wreck.result {call : Call} {vs : List Value} (hw : Wreck u H) (hv : call.Valid u H)
    (hrun : call.run u = .ok vs u') : Wreck u' (u.held u' H vs) := by
  refine hw.step ((call.run_idle hw.poisoned).ok hrun) fun S hleg hH => ?_
  obtain ⟨hd, hap⟩ := hleg.apart
  cases call with
  | store owner field v =>
    have hstop : (Call.store owner field v).run u = .error (.failed .poisoned) u :=
      Call.refused hw.poisoned trivial
    cases hstop.symm.trans hrun
  | command cmd =>
    exact (cmd.run_reads hleg hw.poisoned hw.framed fun v hv' =>
      (hv.1 v hv').within_closed hap.closed hleg.roots hH).ok hrun

theorem Wreck.refusal {call : Call} {f : Failure} (hw : Wreck u H)
    (hrun : call.run u = .error (.failed f) u') : Wreck u' (u.held u' H []) :=
  hw.step ((call.run_idle hw.poisoned).error hrun).1 (by simp)

/-! ## Sessions -/

/-- A failing command, on a heap that obeys the laws. -/
theorem Steady.wreck {cmd : Command} {f : Failure} (hl : Laws Collector.operations I N)
    (hb : Brittle Collector.operations id I) (hst : Steady I u H) (hf : u.Framed)
    (hops : ∀ v ∈ cmd.operands, u.Allows H v) (hrun : cmd.run u = .error (.failed f) u')
    (hp : u'.poisoned = true) : Wreck u' (u.held u' H []) := by
  obtain ⟨S, hi, hH⟩ := hst.good
  have hsp := cmd.run_spoils hl hb hi hst.clean hst.parked
    fun v hv => (hops v hv).within hl hi hH
  obtain ⟨S', k, hk, hw⟩ := hsp.error hrun hp
  refine ⟨hp, hf.congr ((cmd.run_orderly.ends u).error hrun).1, S', hw.legible, ?_⟩
  rintro o ⟨⟨hsame, ho⟩ | ⟨v, hv, -⟩, listed, n, hlist, hmem⟩
  · have hz := ofNat_eq_zero (by omega) (hw.cycles.symm.trans hsame)
    exact hw.kept hz o n (hH o ho) ⟨listed, hlist, hmem⟩
  · cases hv

namespace MarkSweep

theorem Barren.legible (hb : Barren u) : Legible u.machine Nothing := by
  refine ⟨⟨1, Barren.apart u⟩, hb.within, ⟨[], hb.objects, by simp⟩, [], ?_⟩
  obtain ⟨s, hb⟩ := hb
  rw [hb.own]
  exact FreeList.chunks_unlinked hb.unlinked

/-- A failing command, on a mark-sweep heap without room. -/
theorem Barren.wreck {cmd : Command} {f : Failure} (hb : Barren u) (hH : ∀ o, ¬ H o)
    (hf : u.Framed) (hops : ∀ v ∈ cmd.operands, u.Allows H v)
    (hrun : cmd.run u = .error (.failed f) u') (hp : u'.poisoned = true) :
    Wreck u' (u.held u' H []) := by
  have hb' := ((hb.run_ends cmd fun v hv => hb.allows hH (hops v hv)).error hrun f rfl).1
  exact ⟨hp, hf.congr ((cmd.run_orderly.ends u).error hrun).1, Nothing, hb'.legible,
    fun o ho => hb'.not_lists o ho.2⟩

end MarkSweep

/-- The heap and what the program holds on to are governed by the laws of a strategy. -/
def Governed (u : Mutator) (H : Nat → Prop) : Prop :=
  ∃ I N, Laws Collector.operations I N ∧ Brittle Collector.operations id I ∧ Steady I u H

/-- Every session is governed by laws, but for those on mark-sweep heaps without room. -/
theorem Session.governed {c : Config} (hs : Session c u H) :
    Governed u H ∨ c.strategy = .markSweep ∧ MarkSweep.Barren u ∧
      u.machine.heap.size = c.heapWords ∧ ∀ o, ¬ H o := by
  have hcounting : ∀ mode : CountMode, c.strategy = mode.strategy → Governed u H := by
    intro mode hc
    by_cases h2 : 2 ≤ c.heapWords
    · have hl := (Counting.laws mode c.zeroCountCapacity).hosted Counting.hosts
      exact ⟨_, _, hl, (Counting.brittle mode c.zeroCountCapacity).hosted Counting.hosts,
        hs.steady hl fun _ => Counting.start_kept hc h2⟩
    · have hl := Counting.barren_laws.hosted Counting.hosts
      exact ⟨_, _, hl, Counting.barren_brittle.hosted Counting.hosts,
        hs.steady hl fun _ hu => ⟨_, Counting.start_barren hc (by omega) hu⟩⟩
  cases hc : c.strategy with
  | copying =>
    have hl := Semispace.laws.hosted Semispace.hosts
    exact .inl ⟨_, _, hl, Semispace.brittle.hosted Semispace.hosts,
      hs.steady hl fun _ => Semispace.start_kept hc⟩
  | markSweep =>
    by_cases h2 : 2 ≤ c.heapWords
    · have hl := MarkSweep.laws.hosted MarkSweep.hosts
      exact .inl ⟨_, _, hl, MarkSweep.brittle.hosted MarkSweep.hosts,
        hs.steady hl fun _ => MarkSweep.start_kept hc h2⟩
    · exact .inr ⟨rfl, MarkSweep.session_barren hc (by omega) hs⟩
  | markCompact =>
    have hl := Sliding.laws.hosted Sliding.hosts
    exact .inl ⟨_, _, hl, Sliding.brittle.hosted Sliding.hosts,
      hs.steady hl fun _ => Sliding.start_kept hc⟩
  | generational =>
    have hl := Generational.laws.hosted Generational.hosts
    exact .inl ⟨_, _, hl, Generational.brittle.hosted Generational.hosts,
      hs.steady hl fun _ => Generational.start_intact hc⟩
  | counting => exact .inl (hcounting .eager hc)
  | deferredCounting => exact .inl (hcounting .deferred hc)

/-- A failing command of a session. -/
theorem Session.wreck {c : Config} {cmd : Command} {f : Failure} (hs : Session c u H)
    (hf : u.Framed) (hrun : cmd.run u = .error (.failed f) u') (hp : u'.poisoned = true)
    (hops : ∀ v ∈ cmd.operands, u.Allows H v) :
    Wreck u' (u.held u' H []) := by
  rcases hs.governed with ⟨I, N, hl, hb, hst⟩ | ⟨-, hb, -, hH⟩
  · exact hst.wreck hl hb hf hops hrun hp
  · exact hb.wreck hH hf hops hrun hp

/-- What a program may use in a session is there. -/
theorem Session.allows {c : Config} (hs : Session c u H) :
    ∃ S, Legible u.machine S ∧ ∀ {v}, u.Allows H v → v.Within S := by
  rcases hs.governed with ⟨I, N, hl, hb, hst⟩ | ⟨-, hb, -, hH⟩
  · obtain ⟨S, hi, hH⟩ := hst.good
    exact ⟨S, hb.legible hi, fun hv => hv.within hl hi hH⟩
  · exact ⟨Nothing, hb.legible, fun hv => hb.allows hH hv⟩

/-- Whatever follows when a session was poisoned, by induction on the calls. -/
theorem Aftermath.wreck {c : Config} (hs : Session c u H) (hf : u.Framed)
    (h : Aftermath u H u' H') : Wreck u' H' := by
  induction h with
  | @failure u' call f hv hrun hp =>
    cases call with
    | command cmd => exact hs.wreck hf hrun hp hv.1
    | store owner field v =>
      obtain ⟨S, hleg, hallow⟩ := hs.allows
      obtain ⟨hd, hap⟩ := hleg.apart
      obtain ⟨pair, hops, hcar | hcdr⟩ := hv.store hap hallow
      · exact hs.wreck hf (hcar.trans hrun) hp hops
      · exact hs.wreck hf (hcdr.trans hrun) hp hops
  | result _ hv hrun ih => exact ih.result hv hrun
  | refusal _ hrun ih => exact ih.refusal hrun

end Reclaim
