import Reclaim.Proofs.Graph

/-!
# Visiting roots and fields

Rules for the loops of a collector: over a list, over the reference fields of one object, and over
the roots. A visitor that keeps an invariant `I` with a growing ghost `g`, and answers each
reference with an image that stays the image while `g` grows, leaves every root replaced by its
image (`traceRoots_runs`). How the ghost grows may depend on the references that are visited, and on
their order (`Visits.next`).
-/

namespace Reclaim

variable {σ α γ : Type}

/-! ## Loops -/

/-- A loop over a list: `J xs s` is what holds in `s` when the items `xs` are still to come. -/
theorem forM_runs {f : α → EStateM Fault σ Unit} {J : List α → σ → Prop} {E : Failure → σ → Prop}
    (step : ∀ x xs s, J (x :: xs) s → Runs (f x) s (fun _ s' => J xs s') E) {xs : List α}
    {s : σ} (h : J xs s) :
    Runs (xs.forM f) s (fun _ s' => J [] s') E := by
  induction xs generalizing s with
  | nil => exact Runs.pure h
  | cons x xs ih => exact (step x xs s h).bind fun _ s' hs => ih hs

variable {visit : Value → GcM σ Value} {m : Machine σ} {E : Failure → Machine σ → Prop}

theorem visitField_runs {a : Nat} {Q : Unit → Machine σ → Prop} (ha : a < m.heap.size)
    (hv : Runs (visit (m.heap.value a)) m
      (fun v' m' => a < m'.heap.size ∧ Q () (m'.withHeap (m'.heap.put a v'.bits))) E) :
    Runs (visitField visit a) m Q E := by
  refine Runs.step (read_lift (loadValue_run ha)) ?_
  refine Runs.bind hv ?_
  rintro v' m' ⟨ha', hq⟩
  exact Runs.of_eq (heap_lift (storeValue_run ha')) hq

/-- Visiting an object: `J fs m` is what holds when the fields `fs` are still to be visited. -/
theorem Arena.Traceable.traceObject_runs {o : Nat} {J : List Nat → Machine σ → Prop}
    (hb : m.heap.Traceable o) (h0 : J (m.heap.fields o) m)
    (step : ∀ a fs m, J (a :: fs) m → a < m.heap.size ∧ Runs (visit (m.heap.value a)) m
      (fun v' m' => a < m'.heap.size ∧ J fs (m'.withHeap (m'.heap.put a v'.bits))) E) :
    Runs (traceObject visit o) m (fun _ m' => J [] m') E := by
  refine Runs.step (read_lift hb.pointerFields_run) ?_
  exact forM_runs (fun a fs m hJ => visitField_runs (step a fs m hJ).1 (step a fs m hJ).2) h0

/-- The same for an object that lies inside the arena with all its words. -/
theorem traceObject_runs {o : Nat} {J : List Nat → Machine σ → Prop} (ht : m.heap.tag o ≠ none)
    (hs : o + m.heap.payload o ≤ m.heap.size) (h0 : J (m.heap.fields o) m)
    (step : ∀ a fs m, J (a :: fs) m → a < m.heap.size ∧ Runs (visit (m.heap.value a)) m
      (fun v' m' => a < m'.heap.size ∧ J fs (m'.withHeap (m'.heap.put a v'.bits))) E) :
    Runs (traceObject visit o) m (fun _ m' => J [] m') E :=
  (Arena.Traceable.of_payload ht hs).traceObject_runs h0 step

/-- An object that is none cannot be visited. -/
theorem traceObject_fails {o : Nat} {Q : Unit → Machine σ → Prop} (ht : m.heap.tag o = none)
    (hs : o < m.heap.size) (he : E (.corruptObject o (m.heap.word o).toUInt8) m) :
    Runs (traceObject visit o) m Q E := by
  have hfields : pointerFields o m.heap = .error
      (.failed (.corruptObject o (m.heap.word o).toUInt8)) := by
    rw [pointerFields, read_bind_error (tagOf_fails hs ht)]
  exact .stop (read_lift_error hfields) he

/-! ## Roots -/

namespace Roots

/-- The roots with `v` in `slot`. -/
def set (r : Roots) : RootSlot → Value → Roots
  | .stack i, v => { r with stack := r.stack.setIfInBounds i v }
  | .global i, v => { r with globals := r.globals.setIfInBounds i v }

variable {r r' : Roots} {slot slot' : RootSlot} {v w : Value} {S : Nat → Prop}

theorem get?_set_self (hv : r.get? slot = some v) : (r.set slot w).get? slot = some w := by
  cases slot with
  | stack i | global i =>
    simp only [get?, Array.getElem?_eq_some_iff] at hv
    obtain ⟨hi, -⟩ := hv
    simp [set, get?, hi]

theorem get?_set_of_ne (hne : slot' ≠ slot) : (r.set slot w).get? slot' = r.get? slot' := by
  cases slot with
  | stack i =>
    cases slot' with
    | stack j => exact Array.getElem?_setIfInBounds_ne fun hij => hne (by rw [hij])
    | global j => rfl
  | global i =>
    cases slot' with
    | stack j => rfl
    | global j => exact Array.getElem?_setIfInBounds_ne fun hij => hne (by rw [hij])

/-- Writing a value over itself. -/
theorem set_self (hv : r.get? slot = some v) : r.set slot v = r := by
  cases slot with
  | stack i | global i =>
    simp only [get?, Array.getElem?_eq_some_iff] at hv
    obtain ⟨hi, rfl⟩ := hv
    simp [set, Array.setIfInBounds, hi]

@[simp] theorem set_stack_size : (r.set slot w).stack.size = r.stack.size := by
  cases slot <;> simp [set]
@[simp] theorem set_globals_size : (r.set slot w).globals.size = r.globals.size := by
  cases slot <;> simp [set]
@[simp] theorem set_capacity : (r.set slot w).capacity = r.capacity := by cases slot <;> rfl
@[simp] theorem set_parked : (r.set slot w).parked = r.parked := by cases slot <;> rfl
@[simp] theorem set_hash : (r.set slot w).hash = r.hash := by cases slot <;> rfl

theorem Within.mono {T : Nat → Prop} (hr : r.Within S) (hT : ∀ o, S o → T o) : r.Within T :=
  fun slot v hv => (hr slot v hv).mono hT

theorem Within.set (hr : r.Within S) (hv : v.Within S) (slot : RootSlot) :
    (r.set slot v).Within S := by
  intro s w hw
  by_cases hs : s = slot
  · subst hs
    have hw' : w = v := by
      cases s with
      | stack i | global i =>
        simp only [get?, Roots.set, Array.getElem?_setIfInBounds] at hw
        split at hw
        · split at hw
          · cases hw; rfl
          · cases hw
        · rename_i hne
          exact absurd trivial hne
    rw [hw']
    exact hv
  · rw [get?_set_of_ne hs] at hw
    exact hr s w hw

/-- The roots with one more value on the stack. -/
theorem Within.push (hr : r.Within S) (hv : v.Within S) (parked : Nat) :
    Within { r with stack := r.stack.push v, parked := parked } S := by
  intro s w hw
  cases s with
  | stack i =>
    rw [get?, Array.getElem?_push] at hw
    split at hw
    · cases hw
      exact hv
    · exact hr (.stack i) w hw
  | global i => exact hr (.global i) w hw

theorem Within.pop (hr : r.Within S) (parked : Nat) : Within { r with
      stack := r.stack.pop, parked := parked } S := by
  intro s w hw
  cases s with
  | stack i =>
    rw [get?, Array.getElem?_pop] at hw
    split at hw
    · exact hr (.stack i) w hw
    · cases hw
  | global i => exact hr (.global i) w hw

/-- `r'` has the slots of `r`, each value `v` replaced by some `v'` with `f v v'`. -/
structure Mapped (f : Value → Value → Prop) (r r' : Roots) : Prop where
  depth : r'.stack.size = r.stack.size
  table : r'.globals.size = r.globals.size
  capacity : r'.capacity = r.capacity
  parked : r'.parked = r.parked
  hash : r'.hash = r.hash
  slot : ∀ slot v, r.get? slot = some v → ∃ v', r'.get? slot = some v' ∧ f v v'

/-- A slot of the new roots is one of the old ones. -/
theorem Mapped.of_slot {f : Value → Value → Prop} (hm : r.Mapped f r')
    (hw : r'.get? slot = some w) :
    ∃ v, r.get? slot = some v ∧ f v w := by
  have hv : ∃ v, r.get? slot = some v := by
    cases slot with
    | stack i =>
      obtain ⟨hi, -⟩ := Array.getElem?_eq_some_iff.mp hw
      have hd := hm.depth
      exact ⟨_, Array.getElem?_eq_getElem (by omega)⟩
    | global i =>
      obtain ⟨hi, -⟩ := Array.getElem?_eq_some_iff.mp hw
      have ht := hm.table
      exact ⟨_, Array.getElem?_eq_getElem (by omega)⟩
  obtain ⟨v, hv⟩ := hv
  obtain ⟨v', hv', hf⟩ := hm.slot slot v hv
  rw [hw] at hv'
  cases hv'
  exact ⟨v, hv, hf⟩

theorem mem_slots (hv : r.get? slot = some v) : slot ∈ r.slots := by
  cases slot with
  | stack i | global i =>
    simp only [get?, Array.getElem?_eq_some_iff] at hv
    obtain ⟨hi, -⟩ := hv
    simp [slots, depth, tableSize, hi]

theorem nodup_slots : r.slots.Nodup := by
  unfold slots
  refine List.nodup_append.mpr ⟨?_, ?_, ?_⟩
  · refine List.Pairwise.map _ (fun a b hab he => hab ?_)
      (List.pairwise_reverse.mpr (List.nodup_range.imp Ne.symm))
    cases he
    rfl
  · refine List.Pairwise.map _ (fun a b hab he => hab ?_) List.nodup_range
    cases he
    rfl
  · intro a ha b hb hab
    subst hab
    obtain ⟨i, -, rfl⟩ := List.mem_map.mp ha
    obtain ⟨j, -, hj⟩ := List.mem_map.mp hb
    cases hj

theorem mem_references : slot ∈ r.references ↔ ∃ v, r.get? slot = some v ∧ v.isRef = true := by
  rw [references_eq, List.mem_filter]
  constructor
  · rintro ⟨-, hh⟩
    simpa [holdsRef, Option.any_eq_true] using hh
  · rintro ⟨v, hv, hr⟩
    exact ⟨mem_slots hv, by simp [holdsRef, hv, hr]⟩

theorem nodup_references : r.references.Nodup := by
  rw [references_eq]
  exact nodup_slots.filter _

/-- The references in the slots, in the order in which they are visited. -/
def referring (r : Roots) : List Value := r.references.filterMap r.get?

end Roots

theorem getRoot_run {r : Roots} {slot : RootSlot} {v : Value} (hv : r.get? slot = some v) :
    getRoot slot r = .ok v r := by simp [getRoot, hv]

theorem setRoot_run {r : Roots} {slot : RootSlot} {v w : Value} (hv : r.get? slot = some v) :
    setRoot slot w r = .ok () (r.set slot w) := by
  cases slot with
  | stack i | global i =>
    simp only [Roots.get?, Array.getElem?_eq_some_iff] at hv
    obtain ⟨hi, -⟩ := hv
    simp [setRoot, Roots.set, hi]

/-- A visitor that keeps `I` while its ghost grows, and answers a reference with its image. The
ghost `g` becomes one with `next g vs` when the references `vs` are visited one after the other. -/
structure Visits (visit : Value → GcM σ Value) (I : Machine σ → γ → Prop)
    (next : γ → List Value → γ → Prop) (Im : γ → Value → Value → Prop) (V : Value → Prop)
    (E : Failure → Machine σ → Prop) : Prop where
  refl : ∀ g, next g [] g
  trans : ∀ {g g' g'' vs ws}, next g vs g' → next g' ws g'' → next g (vs ++ ws) g''
  mono : ∀ {g g' vs v v'}, next g vs g' → Im g v v' → Im g' v v'
  /-- A slot may take the image of what it holds. -/
  roots : ∀ {m g slot v v'}, I m g → m.roots.get? slot = some v → v.isRef = true → Im g v v' →
    I (m.withRoots (m.roots.set slot v')) g
  run : ∀ m g v, I m g → v.isRef = true → V v →
    Runs (visit v) m (fun v' m' => ∃ g', next g [v] g' ∧ I m' g' ∧ Im g' v v' ∧
      m'.roots = m.roots) E

/-- The image of any value: a value that is no reference is its own. -/
def Image (Im : Value → Value → Prop) (v v' : Value) : Prop :=
  (v.isRef = true ∧ Im v v') ∨ (v.isRef = false ∧ v' = v)

/-- Visiting the roots replaces each reference by its image. -/
theorem traceRoots_runs {I : Machine σ → γ → Prop} {next : γ → List Value → γ → Prop}
    {Im : γ → Value → Value → Prop} {V : Value → Prop} (hvis : Visits visit I next Im V E) {g : γ}
    (hI : I m g) (hV : ∀ slot v, m.roots.get? slot = some v → v.isRef = true → V v) :
    Runs (traceRoots visit) m
      (fun _ m' => ∃ g', next g m.roots.referring g' ∧ I m' g' ∧
        m.roots.Mapped (Image (Im g')) m'.roots) E := by
  refine Runs.step GcM.run_roots ?_
  -- the references `vs` are visited; the slots of `todo` are as at the start, and all others hold
  -- images
  let J : List RootSlot → Machine σ → Prop := fun todo m' => ∃ g' vs, next g vs g' ∧
    vs ++ todo.filterMap m.roots.get? = m.roots.referring ∧ I m' g' ∧ todo.Nodup ∧
    (∀ slot ∈ todo, ∃ v, m.roots.get? slot = some v ∧ m'.roots.get? slot =
      some v ∧ v.isRef = true) ∧
    m.roots.Mapped (fun v v' => Image (Im g') v v' ∨ v' = v) m'.roots ∧
    (∀ slot v, slot ∉ todo → m.roots.get? slot = some v → ∃ v', m'.roots.get? slot = some v' ∧
      Image (Im g') v v')
  have hstart : J m.roots.references m := by
    refine ⟨g, [], hvis.refl g, rfl, hI, Roots.nodup_references, ?_,
      ⟨rfl, rfl, rfl, rfl, rfl, ?_⟩, ?_⟩
    · intro slot hs
      obtain ⟨v, hv, hr⟩ := Roots.mem_references.mp hs
      exact ⟨v, hv, hv, hr⟩
    · intro slot v hv
      exact ⟨v, hv, .inr rfl⟩
    · intro slot v hs hv
      refine ⟨v, hv, .inr ⟨?_, rfl⟩⟩
      have hn := fun hr => hs (Roots.mem_references.mpr ⟨v, hv, hr⟩)
      simpa using hn
  refine (forM_runs (J := J) ?_ hstart).mono ?_
  · rintro slot todo m1 ⟨g1, vs, hle1, hvs, hI1, hnd, hkeep, hmap, hdone⟩
    obtain ⟨v, hv0, hv1, hr⟩ := hkeep slot (by simp)
    refine Runs.step (roots_lift (getRoot_run hv1)) ?_
    refine Runs.bind (hvis.run _ g1 v (by simpa using hI1) hr (hV slot v hv0 hr)) ?_
    rintro v' m2 ⟨g2, hle2, hI2, him, hroots⟩
    simp only [Machine.withRoots_self] at hroots
    have hget : m2.roots.get? slot = some v := by rw [hroots]; exact hv1
    refine Runs.of_eq (roots_lift (setRoot_run hget)) ?_
    have hslot : slot ∉ todo := (List.nodup_cons.mp hnd).1
    have himg : Image (Im g2) v v' := .inl ⟨hr, him⟩
    have hup : ∀ {u u'}, Image (Im g1) u u' → Image (Im g2) u u' := by
      rintro u u' (⟨h1, h2⟩ | hu)
      · exact .inl ⟨h1, hvis.mono hle2 h2⟩
      · exact .inr hu
    have hvs2 : (vs ++ [v]) ++ todo.filterMap m.roots.get? = m.roots.referring := by
      rw [← hvs, List.filterMap_cons, hv0, List.append_assoc]
      rfl
    refine ⟨g2, vs ++ [v], hvis.trans hle1 hle2, hvs2, hvis.roots hI2 hget hr him,
      (List.nodup_cons.mp hnd).2, ?_, ⟨?_, ?_, ?_, ?_, ?_, ?_⟩, ?_⟩
    · intro s hs
      obtain ⟨u, hu0, hu1, hur⟩ := hkeep s (by simp [hs])
      have hne : s ≠ slot := fun he => hslot (he ▸ hs)
      exact ⟨u, hu0, by simpa [Roots.get?_set_of_ne hne, hroots] using hu1, hur⟩
    · simpa [hroots] using hmap.depth
    · simpa [hroots] using hmap.table
    · simpa [hroots] using hmap.capacity
    · simpa [hroots] using hmap.parked
    · simpa [hroots] using hmap.hash
    · intro s u hu
      by_cases hs : s = slot
      · subst hs
        rw [hv0] at hu
        cases hu
        exact ⟨v', Roots.get?_set_self hget, .inl himg⟩
      · obtain ⟨u', hu', hc⟩ := hmap.slot s u hu
        exact ⟨u', by simpa [Roots.get?_set_of_ne hs, hroots] using hu', hc.imp hup id⟩
    · intro s u hs hu
      by_cases hss : s = slot
      · subst hss
        rw [hv0] at hu
        cases hu
        exact ⟨v', Roots.get?_set_self hget, himg⟩
      · obtain ⟨u', hu', hc⟩ := hdone s u (by simp [hss, hs]) hu
        exact ⟨u', by simpa [Roots.get?_set_of_ne hss, hroots] using hu', hup hc⟩
  · rintro - m' ⟨g', vs, hle, hvs, hI', -, -, hmap, hdone⟩
    rw [List.filterMap_nil, List.append_nil] at hvs
    exact ⟨g', hvs ▸ hle, hI', hmap.depth, hmap.table, hmap.capacity, hmap.parked, hmap.hash,
      fun slot v hv => hdone slot v (by simp) hv⟩

end Reclaim
