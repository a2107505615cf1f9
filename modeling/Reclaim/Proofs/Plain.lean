import Reclaim.Proofs.Laws

/-!
# Strategies that trace

A strategy that finds the live objects by tracing has nothing to do when a root changes, when a new
object is filled or when one is copied: these are plain stores, pushes and pops. `Plain` lists what
is left to prove for such a strategy, and `Plain.laws` derives all laws from it.
-/

namespace Reclaim

variable {σ : Type}

/-! ## Changing roots -/

/-- New roots refer to nothing. -/
theorem Roots.empty_within (capacity tableSize : Nat) (hash : List UInt8 → UInt64)
    (S : Nat → Prop) : (Roots.empty capacity tableSize hash).Within S := by
  intro slot v hv
  cases slot with
  | stack i => simp [Roots.empty, Roots.get?] at hv
  | global i =>
    simp only [Roots.empty, Roots.get?, Array.getElem?_replicate] at hv
    split at hv
    · cases hv
      exact .of_not_ref rfl
    · cases hv

theorem pushRoot_run {r : Roots} {v : Value} (hcap : r.stack.size < r.capacity)
    (hlim : r.stack.size + 1 < tableLimit) :
    pushRoot v r = .ok () { r with stack := r.stack.push v } := by
  rw [pushRoot, if_pos hcap, if_pos hlim]

theorem popRoot_run {r : Roots} {v : Value} (hv : r.stack.back? = some v) :
    popRoot r = .ok v { r with stack := r.stack.pop } := by
  rw [popRoot, hv]

theorem setRoot_trap {r : Roots} {slot : RootSlot} {v : Value} (hs : r.get? slot = none) :
    setRoot slot v r = .error .trap r := by
  cases slot with
  | stack i | global i =>
    rw [setRoot]
    exact if_neg (Nat.not_lt.mpr (Array.getElem?_eq_none_iff.mp hs))

/-! ## Plain strategies -/

/-- The operations of a strategy that has nothing of its own to do when roots change or new objects
are filled. -/
def Operations.plain (allocate : Nat → GcM σ Nat) (collect collectFull : GcM σ Unit)
    (writeField : Nat → Nat → Value → GcM σ Unit) (objects : σ → ReadM (List (Nat × Nat)))
    (header : Nat) : Operations σ where
  allocate := allocate
  collect := collect
  collectFull := collectFull
  writeField := writeField
  writeRoot slot v := setRoot slot v
  initField field v := storeValue field v
  push v := pushRoot v
  pop := popRoot
  noteCopy _ := pure ()
  objects := objects
  headerWords _ := header

/-- What a tracing strategy proves. -/
structure Plain (ops : Operations σ) (I : Machine σ → (Nat → Prop) → Prop)
    (N : Machine σ → Nat → Nat → Prop) : Prop where
  small : ∀ {m S}, I m S → m.heap.size < 0x1000000000000000
  objects : ∀ {m S}, I m S → ∃ bs, ops.objects m.own m.heap = .ok bs ∧ ∀ o, S o → ∃ n, (o, n) ∈ bs
  apart : ∀ {m S}, I m S → Apart 1 m.heap S
  roots : ∀ {m S}, I m S → m.roots.Within S
  /-- Only heap, roots and the collector's own state matter. -/
  congr : ∀ {m m' S}, I m S → m'.heap = m.heap → m'.roots.Within S → m'.own = m.own → I m' S
  new_congr : ∀ {m m' o n}, N m o n → m'.heap = m.heap → m'.own = m.own → N m' o n
  new_inside : ∀ {m S o n}, I m S → S o → N m o n → o + n ≤ m.heap.size
  new_apart : ∀ {m S o n x}, I m S → S o → N m o n → S x → x ≠ o →
    x + m.heap.payload x ≤ o ∨ o + n ≤ x
  allocate : ∀ {m S n}, I m S → 1 ≤ n → ops.Countable m n →
    Runs (ops.allocate n) m (fun o m' => ∃ ρ S' k, k ≤ 3 ∧
    Moved I m m' S S' ρ k ∧ S' o ∧ N m' o n ∧ (∀ i, i < n → m'.heap.word (o + i) = 0) ∧ ∀ x,
      m.Reachable x → ρ x ≠ o) Fatal
  overflow : ∀ {m S n}, I m S → 1 ≤ n → ¬ ops.Countable m n → ops.allocate n m = .error .trap m
  collect : ∀ {m S}, I m S →
    Runs ops.collect m (fun _ m' => ∃ ρ S' k, k ≤ 3 ∧ Moved I m m' S S' ρ k) Fatal
  collectFull : ∀ {m S}, I m S →
    Runs ops.collectFull m (fun _ m' => ∃ ρ S' k, k ≤ 3 ∧ Moved I m m' S S' ρ k) Fatal
  /-- A new object may be filled with any words that are well-formed. -/
  rewrite : ∀ {m S o n h'}, I m S → S o → N m o n → h'.size = m.heap.size →
    (∀ a, a < o ∨ o + n ≤ a → h'.word a = m.heap.word a) → Closed h' S → h'.payload o ≤ n →
    I (m.withHeap h') S ∧ N (m.withHeap h') o n
  writeField : ∀ {m S o field v}, I m S → S o → m.heap.tag o = some .pair → field = o + 1 ∨
    field = o + 2 → v.Within S →
    Runs (ops.writeField o field v) m
      (fun _ m' => ∃ S', Left ops I m m' S S' ∧ Stored S' field v.bits m.heap m'.heap ∧
      m'.roots = m.roots) Fatal

namespace Plain

variable {allocate : Nat → GcM σ Nat} {collect collectFull : GcM σ Unit}
  {writeField : Nat → Nat → Value → GcM σ Unit}
  {objects : σ → ReadM (List (Nat × Nat))} {header : Nat} {I : Machine σ → (Nat → Prop) → Prop}
  {N : Machine σ → Nat → Nat → Prop}

/-- Another machine with the same heap, after the roots have changed. -/
theorem left {ops : Operations σ} (hp : Plain ops I N) {m : Machine σ} {S : Nat → Prop} {r : Roots}
    (hi : I m S) (hr : r.Within S) :
    Left ops I m (m.withRoots r) S S :=
  ⟨hp.congr hi rfl hr rfl, fun _ ho => ho, fun _ _ ho _ => ho, rfl, 0, by omega, by simp⟩

/-- All laws of a tracing strategy. -/
theorem laws (hp : Plain (.plain allocate collect collectFull writeField objects header) I N) :
    Laws (.plain allocate collect collectFull writeField objects header) I N where
  small := hp.small
  objects := hp.objects
  apart := hp.apart
  roots := hp.roots
  congr hi hheap hroots hown := hp.congr hi hheap (by rw [hroots]; exact hp.roots hi) hown
  new_congr := hp.new_congr
  new_inside := hp.new_inside
  new_apart := hp.new_apart
  allocate := hp.allocate
  overflow := hp.overflow
  collect := hp.collect
  collectFull := hp.collectFull
  overwrite := by
    intro m S o n h' hi ho hN _ hsize hout htag hpay hsucc
    have hrw : Rewritten S o m.heap h' :=
      rewritten_of_outside hout fun x hx hne => hp.new_apart hi ho hN hx hne
    refine hp.rewrite hi ho hN hsize hout (hrw.closed (hp.apart hi).closed htag fun ht => ?_) hpay
    obtain ⟨h1, h2⟩ := Arena.fields_of_succ_nil hsucc ht
    exact ⟨.of_not_ref h1, .of_not_ref h2⟩
  initField := by
    intro m S o n field v hi ho hN hn ht hf _ hv
    have hap := hp.apart hi
    obtain ⟨i, hlt, -, rfl⟩ := field_offset ht hf
    have hin := hap.inside o ho
    have hst : Stored S (o + i) v.bits m.heap (m.heap.put (o + i) v.bits) := stored_put (by omega)
    have hrun : storeValue (o + i) v m.heap = .ok () (m.heap.put (o + i) v.bits) :=
      storeValue_run (by omega)
    refine ⟨m.withHeap (m.heap.put (o + i) v.bits), heap_lift hrun, ?_⟩
    have hhead := hst.head hap ho ht hf ho
    have hp3 := Arena.payload_of_pair ht
    obtain ⟨hi', hN'⟩ := hp.rewrite hi ho hN
      (show (m.heap.put (o + i) v.bits).size = m.heap.size by simp)
      (fun a ha => Arena.word_put_ne _ (by omega)) (hst.closed hap ho ht hf hv) (by
        rw [Arena.payload_congr hhead]
        omega)
    exact ⟨hi', hN', hst, rfl, rfl, rfl⟩
  noteCopy := by
    intro m S o n src hi ho hN _ hsrc hne hpay
    have hc := (hp.apart hi).copy hsrc hpay (hp.new_inside hi ho hN) fun x hx hne =>
      hp.new_apart hi ho hN hx hne
    obtain ⟨hi', hN'⟩ := hp.rewrite hi ho hN (by simp) hc.outer hc.closed (Nat.le_of_eq hc.payload)
    exact ⟨_, rfl, hi', hN', fun x i hx hxo hlt =>
      hc.rewritten x i hx hxo hlt, hc.inner, rfl, rfl, rfl⟩
  writeField hi _ := hp.writeField hi
  writeRoot := by
    intro m S slot old v hi _ hold hv
    exact Runs.of_eq (roots_lift (setRoot_run hold))
      ⟨S, hp.left hi ((hp.roots hi).set hv slot), .refl S m.heap, rfl⟩
  writeRoot_absent := by
    intro m S slot v _ _ hnone
    exact ⟨_, roots_lift_error (setRoot_trap hnone)⟩
  push := by
    intro m S v hi _ hv hcap hlim
    exact ⟨_, roots_lift (pushRoot_run hcap hlim),
      hp.congr hi rfl ((hp.roots hi).push hv _) rfl, .refl S m.heap, rfl, rfl,
      rfl, rfl⟩
  push_fails _ hfail := roots_lift_error hfail
  pop := by
    intro m S v hi _ hv
    exact Runs.of_eq (roots_lift (popRoot_run hv))
      ⟨rfl, S, hp.left hi ((hp.roots hi).pop _), .refl S m.heap, rfl⟩
  pop_fails _ hfail := roots_lift_error hfail
  park hi hv _ := hp.congr hi rfl ((hp.roots hi).push hv _) rfl
  unpark hi _ _ := hp.congr hi rfl ((hp.roots hi).pop _) rfl

end Plain

end Reclaim
