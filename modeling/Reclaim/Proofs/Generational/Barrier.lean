import Reclaim.Proofs.Generational.Allocation
import Reclaim.Proofs.Handles
import Reclaim.Proofs.Reports

/-!
# What the write barrier leaves in place

The write barrier remembers an object, and drops entries of the remembered set before that if the
set is full. Either way it writes flags of objects and nothing else into the heap, also when it
fails because every entry has to be kept. The sizes of the blocks stay, so the objects listed do.

Results:
* `remember_anyhow`: adding to the remembered set changes flags alone.
* `gentle`: a generational heap leaves objects in place as long as nothing is allocated.
-/

namespace Reclaim.Generational

variable {m m' : Machine Generational} {young old : List (Nat × Nat)} {S : Nat → Prop}
  {es : List Nat} {r : Region} {o : Nat}

/-- A reader keeps whatever there is to see. -/
theorem keeps_read {κ α : Type} {obs : Machine Generational → κ} (x : ReadM α) :
    Keeps obs (fun _ => True) (liftM x : GcM Generational α) := by
  refine ⟨fun m => (Ends.mono (read_anyhow x m) fun _ _ h => ?_).mono_error
    fun _ _ h => ⟨?_, fun _ _ => trivial⟩⟩ <;> rw [h]

/-- What there is to see of a machine apart from its roots and the flags of `es`. -/
def outline (es : List Nat) (m : Machine Generational) : Bump × Bump × Nat × (Nat → Word) × Stats :=
  (m.own.nursery, m.own.tenured, m.heap.size,
    fun a => if a + 1 ∈ es then 0 else m.heap.word a, m.stats)

theorem setFlag_anyhow (flag : Word) (on : Bool) (o : Nat) (h : Arena) :
    Anyhow (setFlag flag on o) h fun h' => h'.size = h.size ∧ ∀ a, a + 1 ≠ o →
      h'.word a = h.word a := by
  by_cases hin : 1 ≤ o ∧ o - 1 < h.size
  · refine .of_eq (setFlag_run hin.1 hin.2) ⟨by simp, fun a ha => Arena.word_put_ne _ (by omega)⟩
  · have hflags : flags o h = .error .trap := by
      change (back o 1 >>= load) h = _
      by_cases ho : 1 ≤ o
      · rw [read_bind (back_run ho), load, Array.getElem?_eq_none
          (Nat.not_lt.mp fun hlt => hin ⟨ho, hlt⟩)]
      · rw [back, if_neg ho]
        rfl
    have hread : (liftM (flags o) : HeapM Word) h = .error .trap h := by rw [read_heap_eq, hflags]
    exact .of_error (bind_error hread) ⟨rfl, fun _ _ => rfl⟩

/-- A flag of `es` may be set or taken off. -/
theorem setFlag_keeps (flag : Word) (on : Bool) (ho : o ∈ es) :
    Keeps (outline es) (fun _ => True) (liftM (setFlag flag on o) : GcM Generational Unit) := by
  refine ⟨fun m => ?_⟩
  have hout : ∀ h' : Arena, h'.size = m.heap.size → (∀ a, a + 1 ≠ o → h'.word a = m.heap.word a) →
      outline es (m.withHeap h') = outline es m := by
    intro h' hs hw
    simp only [outline, Machine.withHeap_own, Machine.withHeap_heap,
      Machine.withHeap_stats, hs, Prod.mk.injEq, true_and, and_true]
    funext a
    split
    · rfl
    · rename_i ha
      exact hw a fun he => ha (he ▸ ho)
  have hrun := setFlag_anyhow flag on o m.heap
  cases hx : setFlag flag on o m.heap with
  | ok a h' =>
    obtain ⟨h1, h2⟩ := Ends.ok hrun hx
    exact .of_eq (heap_lift hx) (hout h' h1 h2)
  | error e h' =>
    obtain ⟨h1, h2⟩ := Ends.error hrun hx
    exact .of_error (heap_lift_error hx) ⟨hout h' h1 h2, fun _ _ => trivial⟩

theorem keepYoung_keeps {entries : List Nat} (hsub : ∀ e ∈ entries, e ∈ es) :
    Keeps (outline es) (fun _ => True) (keepYoung r entries) := by
  induction entries with
  | nil => exact inferInstanceAs (Keeps _ _ (pure ([], none)))
  | cons e rest ih =>
    have ih := ih fun x hx => hsub x (by simp [hx])
    have hflag := setFlag_keeps rememberedFlag false (hsub e (by simp))
    have hread : Keeps (outline es) (fun _ => True)
      (liftM (pointsInto r e) : GcM Generational Bool) := keeps_read _
    have htry : Keeps (outline es) (fun _ => True)
        (attempt (liftM (pointsInto r e) : GcM Generational Bool)) :=
      ⟨fun m => (hread.attempt_ends m).mono fun _ _ h => h.1⟩
    unfold keepYoung
    refine Keeps.bind fun result => ?_
    split <;> infer_instance

/-- Adding to the remembered set changes flags alone. -/
theorem remember_anyhow (ho : o ∈ es) (hsub : ∀ e ∈ m.own.remembered.toList, e ∈ es) :
    Anyhow (remember r o) m fun m' => outline es m' = outline es m := by
  have hentries : ∀ f : Generational → Generational,
    (∀ g, (f g).nursery = g.nursery ∧ (f g).tenured = g.tenured) →
      Keeps (outline es) (fun _ => True) (GcM.modifyOwn f) := by
    refine fun f hf => ⟨fun m => .of_eq rfl ?_⟩
    obtain ⟨hn, ht⟩ := hf m.own
    simp only [outline, hn, ht]
  have hfail : ∀ {α : Type} (f : Failure), Keeps (outline es) (fun _ => True)
    (GcM.fail f : GcM Generational α) := fun f => Keeps.fail trivial
  have hown : Keeps (outline es) (fun _ => True) (GcM.own : GcM Generational Generational) :=
    ⟨fun _ => .of_eq rfl rfl⟩
  have hadd : Keeps (outline es) (fun _ => True) (addRemembered o) := by
    have hins := hentries (fun g => { g with remembered := g.remembered.insert o })
      fun _ => ⟨rfl, rfl⟩
    unfold addRemembered
    refine Keeps.bind fun g => ?_
    dsimp only
    split <;> infer_instance
  have hflag := setFlag_keeps rememberedFlag true ho
  have hrest : Keeps (outline es) (fun _ => True)
    (do addRemembered o; setFlag rememberedFlag true o : GcM Generational Unit) := inferInstance
  have hany : ∀ {α : Type} {x : GcM Generational α}, Keeps (outline es) (fun _ => True) x → ∀ m,
      Anyhow x m fun m' => outline es m' = outline es m :=
    fun hx m => (hx.ends m).mono_error fun _ _ h => h.1
  have hclean : Anyhow (cleanRemembered r) m fun m' => outline es m' = outline es m := by
    unfold cleanRemembered
    refine .step GcM.run_own (hany ?_ m)
    have hkeep := keepYoung_keeps (r := r) hsub
    refine Keeps.bind fun x => ?_
    have hset := hentries (fun g => { g with remembered := g.remembered.withEntries x.1 })
      fun _ => ⟨rfl, rfl⟩
    refine Keeps.bind fun _ => ?_
    split <;> infer_instance
  unfold remember
  refine .step GcM.run_own ?_
  cases m.own.remembered.isFull with
  | true =>
    simp only [if_true]
    refine Ends.bind (R := fun _ m' => outline es m' = outline es m) hclean fun _ m₁ h₁ => ?_
    exact (hany hrest m₁).mono fun _ h => h.trans h₁
  | false =>
    simp only [Bool.false_eq_true, if_false]
    exact hany hrest m

/-- The outline of a machine after a store shows the same blocks. -/
theorem Good.objects_of_outline {field n : Nat} {v : Value} (hg : Good m young old S)
    (hb : (o, n) ∈ young ∨ (o, n) ∈ old) (hf : o ≤ field ∧ field + 3 < o + n)
    (hes : ∀ e ∈ es, ∃ k, (e, k) ∈ young ∨ (e, k) ∈ old)
    (hout : outline es m' = outline es (m.withHeap (m.heap.put field v.bits))) :
    objects m'.own m'.heap = .ok (young ++ old) ∧ m'.stats = m.stats := by
  have hi := hg.inv
  simp only [outline, Machine.withHeap_own, Machine.withHeap_heap,
    Machine.withHeap_stats, Arena.size_put, Prod.mk.injEq] at hout
  obtain ⟨hn, ht, hsize, hword, hstats⟩ := hout
  refine ⟨hi.objects_of hn ht hsize fun b hbm => ?_, hstats⟩
  have hbin := hi.block_inside hbm
  -- the size of a block is neither a flag of an entry nor the field
  have hflag : b.1 - 2 + 1 ∉ es := by
    intro he
    obtain ⟨k, hk⟩ := hes _ he
    have hkin := hi.block_inside hk
    rcases hi.block_apart hbm hk with h | h | h
    · have h1 := congrArg Prod.fst h
      simp only at h1
      omega
    · simp only at h hkin; omega
    · simp only at h hkin; omega
  have hne : b.1 - 2 ≠ field := by
    have hoin := hi.block_inside hb
    rcases hi.block_apart hbm hb with h | h | h
    · have h1 := congrArg Prod.fst h
      simp only at h1
      omega
    · simp only at h hoin; omega
    · simp only at h hoin; omega
  have hw := congrFun hword (b.1 - 2)
  simp only [if_neg hflag] at hw
  rw [hw, Arena.word_put_ne _ hne]

/-- A store leaves every object in place, also one that finds no room in the remembered set. -/
theorem Good.writeField_lasting {field : Nat} {v : Value} (hg : Good m young old S) (ho : S o)
    (ht : m.heap.tag o = some .pair) (hf : field = o + 1 ∨ field = o + 2) :
    Anyhow (writeField o field v) m (Lasting operations True m) := by
  have hi := hg.inv
  obtain ⟨n, hb, hfit⟩ := hi.placed o ho
  have hp3 := Arena.payload_of_pair ht
  have hin := hg.objects_apart.inside o ho
  let es := o :: m.own.remembered.toList
  have hes : ∀ e ∈ es, ∃ k, (e, k) ∈ young ∨ (e, k) ∈ old := by
    intro e he
    rcases List.mem_cons.mp he with rfl | he
    · exact ⟨n, hb⟩
    · obtain ⟨k, hk⟩ := hi.entries_old e he
      exact ⟨k, .inr hk⟩
  have hself : o ∈ es := by simp [es]
  have hsub : ∀ e ∈ (m.withHeap (m.heap.put field v.bits)).own.remembered.toList, e ∈ es :=
    fun e he => List.mem_cons_of_mem o he
  have hlast : ∀ m', outline es m' = outline es (m.withHeap (m.heap.put field v.bits)) →
      Lasting operations True m m' := by
    intro m' hout
    obtain ⟨hobj, hstats⟩ := hg.objects_of_outline hb (by omega) hes hout
    have hobj' : operations.objects m'.own m'.heap = operations.objects m.own m.heap :=
      hobj.trans hi.objects.symm
    exact laws.lasting ⟨young, old, hg⟩ hobj' hstats
  unfold writeField
  refine .step (heap_lift (storeValue_run (by omega))) ?_
  have hrest : ∀ w : Word, Anyhow (do
      let young := (← GcM.own).nursery.region
      if w &&& tenuredFlag != 0 && w &&& rememberedFlag == 0 &&
        v.ref?.any young.contains then remember young o : GcM Generational Unit)
      (m.withHeap (m.heap.put field v.bits)) (Lasting operations True m) := by
    intro w
    refine .step GcM.run_own ?_
    dsimp only
    split
    · exact (remember_anyhow hself hsub).mono hlast
    · exact .pure (hlast _ rfl)
  exact (read_anyhow _ _).bind_same (hlast _ rfl) hrest

/-- A generational heap leaves objects in place as long as nothing is allocated. -/
theorem gentle : Gentle operations Intact fun _ => True := by
  refine .of_plain laws ?_
  rintro m S o field v ⟨young, old, hg⟩ ho ht hf -
  exact hg.writeField_lasting ho ht hf

end Reclaim.Generational
