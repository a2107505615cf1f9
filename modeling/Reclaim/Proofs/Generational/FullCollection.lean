import Reclaim.Proofs.Generational.Remembered

/-!
# What a full collection reclaims

A full collection is a minor one and then a major one. The minor one takes every remembered object
for a live one, and copies what it refers to even when nothing reaches it any more; the major one
finds that out, but compacts tenured space alone. So tenured space holds what the roots reach and
nothing else, and garbage may be left in the nursery. `Reclaimed` says which: what a dead remembered
object still referred to. The next full collection takes it away.

Results:
* `collectFull_reclaims`: every full collection of a session.
* `garbage_kept`, `littered_collected`: a full collection that leaves garbage behind, and the next
  one.
-/

namespace Reclaim

/-- The collector lists what the roots reach, and nothing else. -/
def Mutator.OnlyReached (u : Mutator) : Prop :=
  ∃ listed, u.objects = .ok listed ∧ ∀ o, (∃ n, (o, n) ∈ listed) ↔ u.machine.Reachable o

namespace Generational

variable {m m' : Machine Generational} {young old : List (Nat × Nat)} {S : Nat → Prop}

/-- The block `b` of `m'` is that of a copy, in the nursery, of an object of `m` which the roots did
not reach but a remembered object did that they did not reach either. -/
structure Floating (m m' : Machine Generational) (before : List (Nat × Nat))
    (b : Nat × Nat) : Prop where
  young : m'.own.nursery.region.contains b.1 = true
  copy : ∃ o, (o, b.2) ∈ before ∧ m.own.nursery.region.contains o = true ∧ ¬ m.Reachable o ∧
    m'.heap.word b.1 = m.heap.word o ∧
    ∃ e ∈ m.own.remembered.toList, ¬ m.Reachable e ∧ Reach m.heap (· = e) o

/-- A full collection takes `m` to `m'`, and lists the objects of `after` where those of `before`
were listed. -/
structure Reclaimed (m m' : Machine Generational) (before after : List (Nat × Nat)) : Prop where
  /-- Whatever the roots reach is listed. -/
  listed : ∀ o, m'.Reachable o → ∃ n, (o, n) ∈ after
  /-- In tenured space nothing else is. -/
  tenured : ∀ b ∈ after, m'.own.tenured.region.contains b.1 = true → m'.Reachable b.1
  /-- No garbage is remembered. -/
  entries : ∀ e ∈ m'.own.remembered.toList, m'.Reachable e
  garbage : ∀ b ∈ after, ¬ m'.Reachable b.1 → Floating m m' before b

/-- If no garbage was remembered, none is left. -/
theorem Reclaimed.exact {before after : List (Nat × Nat)} (h : Reclaimed m m' before after)
    (he : ∀ e ∈ m.own.remembered.toList, m.Reachable e) : ∀ o, (∃ n, (o, n) ∈ after) ↔
    m'.Reachable o := by
  refine fun o => ⟨fun ⟨n, hn⟩ => Classical.not_not.mp fun hdead => ?_, h.listed o⟩
  obtain ⟨-, -, -, -, -, -, e, hmem, hne, -⟩ := h.garbage _ hn hdead
  exact hne (he e hmem)

/-- A live nursery object that the roots do not reach is alive by the remembered set alone. -/
theorem Live.remembered {o : Nat} (ho : Live m o) (hdead : ¬ m.Reachable o) :
    ∃ e ∈ m.own.remembered.toList, ¬ m.Reachable e ∧ Reach m.heap (· = e) o := by
  obtain h | ⟨e, he, hr⟩ := Reach.of_or ho
  · exact absurd h hdead
  · exact ⟨e, he, fun hre => hdead (hr.trans fun _ hx => hx ▸ hre), hr⟩

/-- A minor collection, and then a major one. -/
theorem Evacuated.reclaimed {m₁ : Machine Generational} {survivors promoted : List (Nat × Nat)}
    {threshold : Nat} {ρ : Nat → Nat} {ms : List Nat} (hg : Good m young old S)
    (he : Evacuated m m₁ young old survivors promoted threshold S ρ)
    (hc : Compacted m₁ m' survivors (old ++ promoted) ms) :
    Reclaimed m m' (young ++ old)
    (survivors ++ (moves m₁ (old ++ promoted) ms).map Copy.block) := by
  obtain ⟨hg₁, hmv₁⟩ := he.moved hg
  obtain ⟨hg', hmv⟩ := hc.moved hg₁
  have hold : ∀ b ∈ (moves m₁ (old ++ promoted) ms).map Copy.block, m'.Reachable b.1 := fun b hb =>
    hc.tenured_reachable hg₁ hb
  refine ⟨fun o ho => ?_, fun b hb ht => ?_, fun e hmem => ?_, fun b hb hdead => ?_⟩
  · obtain ⟨n, hn, -⟩ := hg'.inv.placed o (ho.mem hg'.closed hg'.inv.roots)
    exact ⟨n, List.mem_append.mpr hn⟩
  · rcases List.mem_append.mp hb with hb | hb
    · rw [hg'.inv.not_contains_young hb] at ht
      cases ht
    · exact hold b hb
  · obtain ⟨n, hn⟩ := hg'.inv.entries_old e hmem
    exact hold _ hn
  · rcases List.mem_append.mp hb with hb | hb
    · refine ⟨hg'.inv.contains_young hb, ?_⟩
      obtain ⟨o, ho, hlive, hnew⟩ := he.origin b (.inl hb)
      have hkept : KeptByMinor m old S o := .inl hlive
      have hdead' : ¬ m.Reachable o := fun hr => hdead ((Moved.reachable_iff hmv hg'.inv.named).mpr
        ⟨b.1, (Moved.reachable_iff hmv₁ hg₁.inv.named).mpr ⟨o, hr, hnew.symm⟩,
          (hc.stays b hb).symm⟩)
      refine ⟨o, List.mem_append_left _ ho, hg.inv.contains_young ho, hdead', ?_,
        hlive.remembered hdead'⟩
      rw [hc.young_head hg₁.inv hb, ← hnew]
      exact he.renamed.word o 0 hkept
        (Arena.payload_pos (hg.known _ (hg.inv.live_mem hlive))) (by omega)
    · exact absurd (hold b hb) hdead

/-- A full collection leaves a good state, and little garbage. -/
theorem collectFull_reclaimed (hg : Good m young old S) :
    Runs collectFull m (fun _ m' => ∃ young' old' S',
    Good m' young' old' S' ∧ Reclaimed m m' (young ++ old) (young' ++ old')) Fatal := by
  unfold collectFull collectMinor
  rw [bind_assoc]
  refine Runs.step GcM.run_own (Runs.bind ((evacuate_runs hg.inv).mono_fail fun _ _ hf => hf.1) ?_)
  rintro - m₁ ⟨survivors, promoted, ρ, he⟩
  obtain ⟨hg₁, -⟩ := he.moved hg
  refine ((collectMajor_runs hg₁.inv).mono ?_).mono_fail fun _ _ hf => hf.fatal
  rintro - m' ⟨ms, hc⟩
  exact ⟨_, _, _, (hc.moved hg₁).1, he.reclaimed hg hc⟩

/-! ## Sessions -/

variable {c : Config} {u u' : Mutator} {H : Nat → Prop}

/-- The full collection that took the heap `u` to `u'`, and what it reclaimed. -/
structure Collected (u u' : Mutator) (g g' : Generational)
    (before after : List (Nat × Nat)) : Prop where
  own : u.machine.own = .generational g
  own' : u'.machine.own = .generational g'
  objects : u.objects = .ok before
  objects' : u'.objects = .ok after
  reclaimed : Reclaimed (u.machine.withOwn g) (u'.machine.withOwn g') before after

theorem Collected.exact {g g' : Generational} {before after : List (Nat × Nat)}
    (h : Collected u u' g g' before after) (he : ∀ e ∈ g.remembered.toList, u.machine.Reachable e) :
    u'.OnlyReached := ⟨after, h.objects', h.reclaimed.exact he⟩

theorem collected_of_intact (hi : Collector.Hosted .generational Intact u.machine S)
    (hu : u.poisoned = false) (hrun : MutatorM.collectFull u = .ok () u') : u'.poisoned = false ∧
    (∃ S', Collector.Hosted .generational Intact u'.machine S') ∧
      ∃ g g' before after, Collected u u' g g' before after := by
  obtain ⟨g, hown, young, old, hg⟩ := hi
  have hends := MutatorM.operate_ends (x := Collector.collectFull) (E := fun _ _ => True)
    (Q := fun _ u' => u'.poisoned = false ∧
      (∃ S', Collector.Hosted .generational Intact u'.machine S') ∧
      ∃ g g' before after, Collected u u' g g' before after) hu
    (Collector.Hosts.runs (hosts.collectFull hown) ((collectFull_reclaimed hg).mono ?_))
      fun _ _ _ => trivial
  · exact hends.ok hrun
  · rintro - m' ⟨young', old', S', hg', hrec⟩
    refine ⟨hu, ⟨S', m'.own, rfl, young', old', hg'⟩, g, m'.own, _, _, hown, rfl, ?_,
      hg'.inv.objects, hrec⟩
    rw [Mutator.objects, Mutator.view, hown]
    exact hg.inv.objects

/-- After a full collection of any session tenured space holds what the roots reach and nothing
else; what is left of garbage is what a remembered object referred to that was garbage itself. If
there was none, or after one more full collection, nothing but what the roots reach is left. -/
theorem collectFull_reclaims (hc : c.strategy = .generational) (hs : Session c u H)
    (hrun : MutatorM.collectFull u = .ok () u') :
    (∃ g g' before after, Collected u u' g g' before after ∧
      ((∀ e ∈ g.remembered.toList, u.machine.Reachable e) → u'.OnlyReached)) ∧
    ∀ u'', MutatorM.collectFull u' = .ok () u'' → u''.OnlyReached := by
  have hst := hs.steady (laws.hosted hosts) fun _ hu => start_intact hc hu
  obtain ⟨S, hi, -⟩ := hst.good
  obtain ⟨hu', ⟨S', hi'⟩, g, g', before, after, hcol⟩ := collected_of_intact hi hst.clean hrun
  refine ⟨⟨g, g', before, after, hcol, hcol.exact⟩, fun u'' hrun' => ?_⟩
  obtain ⟨-, -, g₁, g₂, before', after', hcol'⟩ := collected_of_intact hi' hu' hrun'
  cases hcol.own'.symm.trans hcol'.own
  exact hcol'.exact hcol.reclaimed.entries

/-! ## A full collection that leaves garbage -/

/-- A small heap that promotes what survives twice. -/
def patient : Config :=
  { strategy := .generational, heapSize := 512, stackCapacity := 4, globalTableSize := 1,
    tenuringThreshold := 2 }

/-- A pair is promoted, made to refer to a new one, and dropped. -/
def dropped : Mutator :=
  Command.pop.after ((Command.setCar (.ofRef 27) (.ofRef 3)).after
    ((Command.cons (.int 2) .nil).after (Command.collect.after
    (Command.collect.after ((Command.push (.ofRef 3)).after
      ((Command.cons (.int 1) .nil).after (Mutator.ofConfig patient)))))))

theorem session_dropped : ∃ H, Session patient dropped H := by
  let u0 := Mutator.ofConfig patient
  let u1 := (Command.cons (.int 1) .nil).after u0
  let u2 := (Command.push (.ofRef 3)).after u1
  let u3 := Command.collect.after u2
  let u4 := Command.collect.after u3
  let u5 := (Command.cons (.int 2) .nil).after u4
  let u6 := (Command.setCar (.ofRef 27) (.ofRef 3)).after u5
  have h0 : Session patient u0 _ := .start ⟨_, rfl⟩
  have h1 := h0.plain (.cons (.int 1) .nil) [.ofRef 3] (by decide +kernel)
    (by decide +kernel) (by decide)
  have h2 := h1.next (.push (.ofRef 3)) [] (by decide +kernel) (by decide +kernel) (by
    simp only [Command.operands, List.mem_singleton, forall_eq]
    exact Mutator.allows_returned (n := 6) (by decide) (by decide)
      (show u1.objects.toOption = some [(3, 6)] by decide +kernel) (by simp))
  have h3 := h2.plain .collect [] (by decide +kernel) (by decide +kernel) (by decide)
  have h4 := h3.plain .collect [] (by decide +kernel) (by decide +kernel) (by decide)
  have h5 := h4.plain (.cons (.int 2) .nil) [.ofRef 3] (by decide +kernel)
    (by decide +kernel) (by decide)
  have h6 := h5.next (.setCar (.ofRef 27) (.ofRef 3)) [] (by decide +kernel) (by decide +kernel) (by
    intro v hv
    simp only [Command.operands, List.mem_cons, List.not_mem_nil, or_false] at hv
    rcases hv with rfl | rfl
    · exact Mutator.allows_root (.stack 0) (by decide) (by decide) (by decide +kernel)
    · exact Mutator.allows_returned (n := 6) (by decide) (by decide)
        (show u5.objects.toOption = some [(3, 6), (27, 6)] by decide +kernel)
        (by simp))
  exact ⟨_, h6.plain .pop [.ofRef 27] (by decide +kernel) (by decide +kernel) (by decide)⟩

theorem collectFull_ok (h : (Command.collectFull.values? u).isSome = true) :
    MutatorM.collectFull u = .ok () (Command.collectFull.after u) := by
  cases hrun : MutatorM.collectFull u with
  | ok a u' =>
    rw [Command.after, Command.run, bind_ok hrun]
    rfl
  | error e u' =>
    rw [Command.values?, Command.run, bind_error hrun] at h
    cases h

/-- The heap after a full collection of `dropped`. -/
def littered : Mutator := Command.collectFull.after dropped

/-- One more full collection leaves nothing that the roots do not reach. -/
theorem littered_collected : (∃ g g' before after, Collected dropped littered g g' before after) ∧
    (Command.collectFull.after littered).OnlyReached := by
  obtain ⟨H, hs⟩ := session_dropped
  obtain ⟨⟨g, g', before, after, hcol, -⟩, hnext⟩ :=
    collectFull_reclaims rfl hs (collectFull_ok (by decide +kernel))
  exact ⟨⟨g, g', before, after, hcol⟩, hnext _ (collectFull_ok (by decide +kernel))⟩

/-- The first pair is reclaimed, and the second one left: nothing refers to it. -/
theorem garbage_kept : ∃ H, Session patient dropped H ∧
    MutatorM.collectFull dropped = .ok () littered ∧
    littered.objects = .ok [(15, 6)] ∧ (∀ o, ¬ littered.machine.Reachable o) ∧
    ¬ littered.OnlyReached := by
  obtain ⟨H, hs⟩ := session_dropped
  have hstack : littered.machine.roots.stack = #[] := by decide +kernel
  have hglobals : littered.machine.roots.globals = #[.undef] := by decide +kernel
  have hobj : littered.objects = .ok [(15, 6)] := eq_ok_of_toOption (by decide +kernel)
  have hnone : ∀ o, ¬ littered.machine.Reachable o := fun o ho => by
    refine ho.mem_of_linked (S := fun _ => False) (fun _ _ h => h.elim) fun x hx => ?_
    have hw : littered.machine.roots.Within fun _ => False :=
      Roots.within_of_values (by simp [hstack]) (by simpa [hglobals] using .of_not_ref rfl)
    exact hw.refers hx
  refine ⟨H, hs, ?_, hobj, hnone, fun ⟨listed, hl, hexact⟩ => ?_⟩
  · exact collectFull_ok (by decide +kernel)
  · cases hobj.symm.trans hl
    exact hnone 15 ((hexact 15).mp ⟨6, by simp⟩)

end Generational

end Reclaim
