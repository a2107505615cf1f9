import Reclaim.Machine

/-!
# What a computation does from a given state

`Runs x s Q E` says that `x`, run from `s`, ends with a result and a state that satisfy `Q`, or
stops with a reported failure that satisfies `E`. A trap and an endless walk satisfy neither, so
`Runs` always includes that there is none. Collectors only report failures that are fatal (`Fatal`).

Heap and root computations are lifted into larger machines; the laws of the last section say that
the rest of the machine stays as it is.
-/

namespace Reclaim

variable {σ τ α β : Type}

/-- `x` ends in `Q`, or reports a failure in `E`. -/
def Runs (x : EStateM Fault σ α) (s : σ) (Q : α → σ → Prop) (E : Failure → σ → Prop) : Prop :=
  match x s with
  | .ok a s' => Q a s'
  | .error (.failed f) s' => E f s'
  | .error _ _ => False

/-- The failure leaves the heap unusable. -/
def Fatal (f : Failure) (_ : σ) : Prop := f.isFatal = true

theorem bind_ok {x : EStateM Fault σ α} {f : α → EStateM Fault σ β} {s s' : σ} {a : α}
    (hx : x s = .ok a s') : (x >>= f) s = f a s' := by
  simp [bind, EStateM.bind, hx]

theorem bind_error {x : EStateM Fault σ α} {f : α → EStateM Fault σ β} {s s' : σ} {e : Fault}
    (hx : x s = .error e s') : (x >>= f) s = .error e s' := by
  simp [bind, EStateM.bind, hx]

/-- A test that changes nothing picks some of a list. -/
theorem filterM_ok {p : α → EStateM Fault σ Bool} {q : α → Bool} {xs : List α} {s : σ}
    (hp : ∀ x ∈ xs, p x s = .ok (q x) s) :
    xs.filterM p s = .ok (xs.filter q) s := by
  have haux : ∀ acc, List.filterAuxM p xs acc s = .ok ((xs.filter q).reverse ++ acc) s := by
    induction xs with
    | nil => exact fun acc => rfl
    | cons x xs ih =>
      intro acc
      rw [List.filterAuxM, bind_ok (hp x (by simp)), ih fun y hy => hp y (by simp [hy])]
      cases hq : q x <;> simp [hq]
  rw [List.filterM, bind_ok (haux [])]
  simp
  rfl

namespace Runs

variable {x : EStateM Fault σ α} {f : α → EStateM Fault σ β} {s s' : σ} {a : α}
variable {Q R : α → σ → Prop} {P : β → σ → Prop} {E F : Failure → σ → Prop}

theorem of_eq (hx : x s = .ok a s') (hq : Q a s') : Runs x s Q E := by
  simpa [Runs, hx] using hq

theorem pure (hq : Q a s) : Runs (Pure.pure a) s Q E := of_eq rfl hq

theorem fail {g : Failure} (he : E g s) : Runs (throw (.failed g) : EStateM Fault σ α) s Q E := he

/-- A computation that stops at its first step. -/
theorem stop {g : Failure} (hx : x s = .error (.failed g) s') (he : E g s') :
    Runs (x >>= f) s P E := by
  simpa [Runs, bind_error hx] using he

theorem bind (hx : Runs x s R E) (hf : ∀ a s', R a s' → Runs (f a) s' P E) :
    Runs (x >>= f) s P E := by
  cases h : x s with
  | ok a s' =>
    unfold Runs at hx ⊢
    rw [h] at hx
    rw [bind_ok h]
    exact hf a s' hx
  | error e s' =>
    unfold Runs at hx ⊢
    rw [h] at hx
    rw [bind_error h]
    cases e <;> exact hx

/-- A first step whose outcome is known. -/
theorem step (hx : x s = .ok a s') (hf : Runs (f a) s' P E) : Runs (x >>= f) s P E := by
  unfold Runs
  rw [bind_ok hx]
  exact hf

theorem mono (hx : Runs x s R E) (hq : ∀ a s', R a s' → Q a s') : Runs x s Q E := by
  unfold Runs at hx ⊢
  split at hx
  · exact hq _ _ hx
  · exact hx
  · exact hx

theorem mono_fail (hx : Runs x s Q E) (he : ∀ f s', E f s' → F f s') : Runs x s Q F := by
  unfold Runs at hx ⊢
  split at hx
  · exact hx
  · exact he _ _ hx
  · exact hx

/-- Two things that are known of `x`. -/
theorem and (hx : Runs x s Q E) (hx' : Runs x s R F) :
    Runs x s (fun a s' => Q a s' ∧ R a s') fun f s' => E f s' ∧ F f s' := by
  unfold Runs at hx hx' ⊢
  split at hx
  · rename_i h
    rw [h] at hx'
    exact ⟨hx, hx'⟩
  · rename_i h
    rw [h] at hx'
    exact ⟨hx, hx'⟩
  · exact hx

/-- What is known of the results, and what is known of the failures. -/
theorem failing (hx : Runs x s Q E) (hx' : Runs x s R F) : Runs x s Q F :=
  ((hx.and hx').mono fun _ _ h => h.1).mono_fail fun _ _ h => h.2

/-- A result is that of the run. -/
theorem ran (hx : Runs x s Q E) : Runs x s (fun a s' => Q a s' ∧ x s = .ok a s') E := by
  unfold Runs at hx ⊢
  split at hx
  · rename_i h
    exact ⟨hx, h⟩
  · exact hx
  · exact hx

/-- What is known of every outcome is known of a result. -/
theorem ok (hx : Runs x s Q E) (h : x s = .ok a s') : Q a s' := by
  simpa [Runs, h] using hx

/-- What is known of every outcome is known of a failure. -/
theorem error {e : Fault} (hx : Runs x s Q E) (h : x s = .error e s') : ∃ f,
    e = .failed f ∧ E f s' := by
  unfold Runs at hx
  rw [h] at hx
  cases e with
  | failed f => exact ⟨f, rfl, hx⟩
  | trap | endless => exact absurd hx id

/-- What cannot fail has a result. -/
theorem exists_ok (hx : Runs x s Q fun _ _ => False) : ∃ a s', x s = .ok a s' ∧ Q a s' := by
  unfold Runs at hx
  split at hx
  · exact ⟨_, _, ‹_›, hx⟩
  · cases hx
  · cases hx

end Runs

/-! ## Parts of a machine -/

namespace Machine

/-- The same machine with another heap. -/
def withHeap (m : Machine σ) (h : Arena) : Machine σ := { m with heap := h }

/-- The same machine with other roots. -/
def withRoots (m : Machine σ) (r : Roots) : Machine σ := { m with roots := r }

variable (m : Machine σ) (h h' : Arena) (r r' : Roots) (o : τ)

@[simp] theorem withHeap_heap : (m.withHeap h).heap = h := rfl
@[simp] theorem withHeap_roots : (m.withHeap h).roots = m.roots := rfl
@[simp] theorem withHeap_own : (m.withHeap h).own = m.own := rfl
@[simp] theorem withHeap_stress : (m.withHeap h).stress = m.stress := rfl
@[simp] theorem withHeap_stats : (m.withHeap h).stats = m.stats := rfl
@[simp] theorem withHeap_withHeap : (m.withHeap h).withHeap h' = m.withHeap h' := rfl
@[simp] theorem withHeap_self : m.withHeap m.heap = m := rfl
@[simp] theorem withRoots_heap : (m.withRoots r).heap = m.heap := rfl
@[simp] theorem withRoots_roots : (m.withRoots r).roots = r := rfl
@[simp] theorem withRoots_own : (m.withRoots r).own = m.own := rfl
@[simp] theorem withRoots_stress : (m.withRoots r).stress = m.stress := rfl
@[simp] theorem withRoots_stats : (m.withRoots r).stats = m.stats := rfl
@[simp] theorem withRoots_withRoots : (m.withRoots r).withRoots r' = m.withRoots r' := rfl
@[simp] theorem withRoots_self : m.withRoots m.roots = m := rfl
@[simp] theorem withOwn_heap : (m.withOwn o).heap = m.heap := rfl
@[simp] theorem withOwn_roots : (m.withOwn o).roots = m.roots := rfl
@[simp] theorem withOwn_own : (m.withOwn o).own = o := rfl
@[simp] theorem withOwn_stress : (m.withOwn o).stress = m.stress := rfl
@[simp] theorem withOwn_stats : (m.withOwn o).stats = m.stats := rfl

end Machine

/-! ## Lifted computations -/

section Lift

variable {m : Machine σ} {a : α} {h : Arena} {r : Roots}

theorem read_heap_eq (x : ReadM α) (h : Arena) : (liftM x : HeapM α) h = match x h with
    | .ok a => .ok a h
    | .error e => .error e h := rfl

theorem heap_lift_eq (x : HeapM α) (m : Machine σ) : (liftM x : GcM σ α) m = match x m.heap with
    | .ok a heap => .ok a (m.withHeap heap)
    | .error e heap => .error e (m.withHeap heap) := rfl

theorem roots_lift_eq (x : RootsM α) (m : Machine σ) : (liftM x : GcM σ α) m = match x m.roots with
    | .ok a roots => .ok a (m.withRoots roots)
    | .error e roots => .error e (m.withRoots roots) := rfl

theorem read_heap {x : ReadM α} {h : Arena} (hx : x h = .ok a) :
    (liftM x : HeapM α) h = .ok a h := by
  rw [read_heap_eq, hx]

theorem heap_lift {x : HeapM α} (hx : x m.heap = .ok a h) :
    (liftM x : GcM σ α) m = .ok a (m.withHeap h) := by
  rw [heap_lift_eq, hx]

theorem heap_lift_error {x : HeapM α} {e : Fault} (hx : x m.heap = .error e h) :
    (liftM x : GcM σ α) m = .error e (m.withHeap h) := by
  rw [heap_lift_eq, hx]

theorem roots_lift {x : RootsM α} (hx : x m.roots = .ok a r) :
    (liftM x : GcM σ α) m = .ok a (m.withRoots r) := by
  rw [roots_lift_eq, hx]

theorem roots_lift_error {x : RootsM α} {e : Fault} (hx : x m.roots = .error e r) :
    (liftM x : GcM σ α) m = .error e (m.withRoots r) := by
  rw [roots_lift_eq, hx]

theorem read_lift {x : ReadM α} (hx : x m.heap = .ok a) : (liftM x : GcM σ α) m = .ok a m :=
  heap_lift (read_heap hx)

theorem read_lift_error {x : ReadM α} {e : Fault} (hx : x m.heap = .error e) :
    (liftM x : GcM σ α) m = .error e m := by
  have hh : (liftM x : HeapM α) m.heap = .error e m.heap := by rw [read_heap_eq, hx]
  exact heap_lift_error hh

end Lift

/-! ## State of one cycle -/

namespace GcM

variable {m : Machine σ} {t : τ}

@[simp] theorem run_own : GcM.own m = .ok m.own m := rfl
@[simp] theorem run_roots : GcM.roots m = .ok m.roots m := rfl
@[simp] theorem run_heapSize : GcM.heapSize m = .ok m.heap.size m := rfl
@[simp] theorem run_stressed : GcM.stressed m = .ok m.stress m := rfl
@[simp] theorem run_modifyOwn (f : σ → σ) : GcM.modifyOwn f m = .ok () (m.withOwn (f m.own)) := rfl
@[simp] theorem run_recordCycle (kind : CycleKind) (reclaimed live : Nat) :
    GcM.recordCycle kind reclaimed live m = .ok () { m with
      stats := m.stats.recordCycle kind reclaimed live } := rfl
@[simp] theorem run_bytes {n : Nat} (h : n * wordBytes < wordValues) :
    (GcM.bytes n : GcM σ UInt64) m = .ok (byteCount n) m := by
  rw [GcM.bytes, if_pos h]
  rfl

@[simp] theorem run_scratch {m : Machine (σ × τ)} : GcM.scratch m = .ok m.own.2 m := rfl
@[simp] theorem run_setScratch {m : Machine (σ × τ)} :
    GcM.setScratch t m = .ok () (m.withOwn (m.own.1, t)) := rfl
@[simp] theorem run_modifyScratch {m : Machine (σ × τ)} (f : τ → τ) :
    GcM.modifyScratch f m = .ok () (m.withOwn (m.own.1, f m.own.2)) := rfl

/-- No word counts so many bytes. -/
theorem bytes_trap {n : Nat} (h : wordValues ≤ n * wordBytes) :
    (GcM.bytes n : GcM σ UInt64) m = .error .trap m := by
  rw [GcM.bytes, if_neg (Nat.not_lt.mpr h)]
  rfl

theorem run_exhausted {s : Strategy} {size : Nat} (h : size * wordBytes < wordValues) :
    (GcM.exhausted s size : GcM σ α) m = .error
    (.failed (.heapExhausted s (byteCount size))) m := by
  rw [GcM.exhausted, bind_ok (run_bytes h)]
  rfl

theorem run_tooLarge {size limit : Nat} (h : size * wordBytes < wordValues) (hlim : limit < size) :
    (GcM.tooLarge size limit : GcM σ α) m = .error
    (.failed (.objectTooLarge (byteCount size) (byteCount limit))) m := by
  have hlimit : limit * wordBytes < wordValues :=
    Nat.lt_of_le_of_lt (Nat.mul_le_mul_right wordBytes (Nat.le_of_lt hlim)) h
  rw [GcM.tooLarge, bind_ok (run_bytes h), bind_ok (run_bytes hlimit)]
  rfl

theorem tooLarge_trap {size limit : Nat} (h : wordValues ≤ size * wordBytes) :
    (GcM.tooLarge size limit : GcM σ α) m = .error .trap m := by
  rw [GcM.tooLarge, bind_error (bytes_trap h)]

theorem runs_exhausted {s : Strategy} {size : Nat} {Q : α → Machine σ → Prop}
    {E : Failure → Machine σ → Prop} (h : size * wordBytes < wordValues)
    (he : E (.heapExhausted s (byteCount size)) m) : Runs (GcM.exhausted s size) m Q E := by
  unfold Runs
  rwa [run_exhausted h]

/-- A cycle with a state `t` of its own. -/
theorem runs_withScratch {x : GcM (σ × τ) α} {Q : α × τ → Machine σ → Prop}
    {E : Failure → Machine σ → Prop}
    (hx : Runs x (m.withOwn (m.own, t)) (fun a m' => Q (a, m'.own.2) (m'.withOwn m'.own.1))
      fun f m' => E f (m'.withOwn m'.own.1)) :
    Runs (GcM.withScratch t x) m Q E := by
  unfold Runs GcM.withScratch at *
  cases h : x (m.withOwn (m.own, t)) with
  | ok a m' => rw [h] at hx; exact hx
  | error e m' => rw [h] at hx; cases e <;> exact hx

/-- What is left of a cycle's state, if its failures do not depend on it. -/
theorem runs_cycle {x : GcM (σ × τ) α} {Q : α → Machine (σ × τ) → Prop}
    {E : Failure → Machine σ → Prop}
    (hx : Runs x (m.withOwn (m.own, t)) Q fun f m' => E f (m'.withOwn m'.own.1)) :
    Runs (GcM.withScratch t x) m
      (fun a m' => ∃ m₁, Q a.1 m₁ ∧ a.2 = m₁.own.2 ∧ m' = m₁.withOwn m₁.own.1) E := by
  refine runs_withScratch ((hx.mono fun a m₁ hq => ?_).mono_fail fun _ _ hf => hf)
  exact ⟨m₁, hq, rfl, rfl⟩

theorem embed_eq (x : GcM σ α) (m : Machine (σ × τ)) :
    (liftM x : GcM (σ × τ) α) m = match x (m.withOwn m.own.1) with
    | .ok a m' => .ok a (m'.withOwn (m'.own, m.own.2))
    | .error e m' => .error e (m'.withOwn (m'.own, m.own.2)) := rfl

/-- What does not know of the cycle's state leaves it alone. -/
theorem runs_lift {x : GcM σ α} {m : Machine (σ × τ)} {Q : α → Machine (σ × τ) → Prop}
    {E : Failure → Machine (σ × τ) → Prop}
    (hx : Runs x (m.withOwn m.own.1) (fun a m' => Q a (m'.withOwn (m'.own, m.own.2)))
      fun f m' => E f (m'.withOwn (m'.own, m.own.2))) :
    Runs (liftM x : GcM (σ × τ) α) m Q E := by
  unfold Runs at hx ⊢
  rw [embed_eq]
  cases h : x (m.withOwn m.own.1) with
  | ok a m' => rw [h] at hx; exact hx
  | error e m' => rw [h] at hx; cases e <;> exact hx

theorem run_embed {x : GcM σ α} {m : Machine (σ × τ)} {a : α} {m₁ : Machine σ}
    (hx : x (m.withOwn m.own.1) = .ok a m₁) :
    (liftM x : GcM (σ × τ) α) m = .ok a (m₁.withOwn (m₁.own, m.own.2)) := by
  rw [embed_eq, hx]

end GcM

end Reclaim
