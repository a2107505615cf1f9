import Reclaim.Proofs.Generational.State

/-!
# Adding to the remembered set

An object is added at the end of the set. If the set is full, the entries that no longer refer into
the nursery are dropped first, and their flags are taken off. `Recalled` says all that changes: the
entries and the flag words of the object and of the dropped entries. If the set stays full, nothing
but its entries and their flag words has changed (`Relisted`).

Results:
* `keepYoung_run`: which entries are kept, and the heap with the flags of the others taken off.
* `remember_runs`: adding ends in `Recalled`, or fails because the set is full of entries to keep.
-/

namespace Reclaim.Generational

/-- Does a field of the object at `o` refer into `r`? -/
def pointsInto? (h : Arena) (r : Region) (o : Nat) : Bool := (h.succ o).any r.contains

theorem pointsInto?_iff {h : Arena} {r : Region} {o : Nat} : pointsInto? h r o = true ↔
    PointsInto h r o :=
  List.any_eq_true

/-- The object at `o` can be read, header included. -/
structure ReadableAt (h : Arena) (o : Nat) : Prop where
  pos : 1 ≤ o
  known : h.tag o ≠ none
  inside : o + h.payload o ≤ h.size

theorem pointsInto_run {h : Arena} {r : Region} {o : Nat} (ho : ReadableAt h o) :
    pointsInto r o h = .ok (pointsInto? h r o) := anyChild_run _ ho.known ho.inside

/-- The flag word of each of `es` with the bit `flag` taken off. -/
def unset (flag : Word) (h : Arena) : List Nat → Arena
  | [] => h
  | e :: es => unset flag (h.put (e - 1) (h.word (e - 1) &&& ~~~flag)) es

section Unset

variable {flag : Word} {h : Arena} {es : List Nat}

@[simp] theorem size_unset (flag : Word) (h : Arena) (es : List Nat) :
    (unset flag h es).size = h.size := by
  induction es generalizing h with
  | nil => rfl
  | cons e es ih => rw [unset, ih, Arena.size_put]

theorem unset_snoc (e : Nat) :
    unset flag h (es ++ [e]) = (unset flag h es).put (e - 1)
    ((unset flag h es).word (e - 1) &&& ~~~flag) := by
  induction es generalizing h with
  | nil => rfl
  | cons x es ih => exact ih

theorem word_unset {a : Nat} (hs : a < h.size) :
    (unset flag h es).word a = if a ∈ es.map (· - 1) then h.word a &&& ~~~flag else h.word a := by
  induction es generalizing h with
  | nil => rfl
  | cons e es ih =>
    rw [unset, ih (by simpa using hs)]
    by_cases he : e - 1 = a
    · subst he
      simp [Arena.word_put_self _ hs, and_not_and_not_self]
    · simp [Arena.word_put_ne _ (Ne.symm he), Ne.symm he]

theorem word_unset_self {e : Nat} (he : e ∈ es) (hs : e - 1 < h.size) :
    (unset flag h es).word (e - 1) = h.word (e - 1) &&& ~~~flag := by
  rw [word_unset hs, if_pos (List.mem_map_of_mem he)]

theorem word_unset_of_ne {a : Nat} (ha : ∀ e ∈ es, e ≠ a + 1) (hpos : ∀ e ∈ es, 1 ≤ e) :
    (unset flag h es).word a = h.word a := by
  induction es generalizing h with
  | nil => rfl
  | cons e es ih =>
    rw [unset, ih (fun x hx => ha x (by simp [hx])) fun x hx => hpos x (by simp [hx])]
    have he := ha e (by simp)
    have hp := hpos e (by simp)
    exact Arena.word_put_ne _ (by omega)

end Unset

/-! ## Making room -/

section Keep

variable {m : Machine Generational} {r : Region}

/-- Flag words of `es` lie outside the objects of `es`. -/
def FlagsApart (h : Arena) (es : List Nat) : Prop := ∀ e ∈ es, ∀ o ∈ es, e ≤ o ∨ o + h.payload o < e

/-- Objects and flags of `es` stay the same when the flag of one of them changes. -/
theorem readable_put {h : Arena} {es : List Nat} {e o : Nat} (hes : FlagsApart h es) (he : e ∈ es)
    (ho : o ∈ es) (hr : ReadableAt h o) (hp : 1 ≤ e) (w : Word) :
    (h.put (e - 1) w).word o = h.word o ∧
      (h.put (e - 1) w).succ o = h.succ o := by
  have hap := hes e he o ho
  have hpos := hr.pos
  have h1 := Arena.payload_pos hr.known
  have hw0 : (h.put (e - 1) w).word o = h.word o := Arena.word_put_ne _ (by omega)
  refine ⟨hw0, Arena.succ_congr hw0 fun ht => ?_⟩
  rw [Arena.payload_of_pair ht] at hap
  exact ⟨Arena.word_put_ne _ (by omega), Arena.word_put_ne _ (by omega)⟩

/-- The entries that refer into `r` are kept, the flags of the others are taken off. -/
theorem keepYoung_run {es : List Nat} (hr : ∀ e ∈ es, ReadableAt m.heap e)
    (hap : FlagsApart m.heap es) :
    keepYoung r es m = .ok (es.filter (pointsInto? m.heap r), none)
      (m.withHeap (unset rememberedFlag m.heap (es.filter fun e => !pointsInto? m.heap r e))) := by
  induction es generalizing m with
  | nil => rfl
  | cons e es ih =>
    have he := hr e (by simp)
    have hes : ∀ x ∈ es, ReadableAt m.heap x := fun x hx => hr x (by simp [hx])
    have hapes : FlagsApart m.heap es := fun x hx y hy => hap x (by simp [hx]) y (by simp [hy])
    have hread : attempt (liftM (pointsInto r e) : GcM Generational Bool) m
        = .ok (.ok (pointsInto? m.heap r e)) m := by
      rw [attempt, read_lift (pointsInto_run he)]
    rw [keepYoung, bind_ok hread]
    by_cases hp : pointsInto? m.heap r e = true
    · rw [hp]
      dsimp only
      rw [bind_ok (ih hes hapes)]
      simp [hp]
      rfl
    · have hp : pointsInto? m.heap r e = false := by simpa using hp
      have hpay := Arena.payload_pos he.known
      have hpos := he.pos
      have hin := he.inside
      have hset : setFlag rememberedFlag false e m.heap
          = .ok () (m.heap.put (e - 1) (m.heap.word (e - 1) &&& ~~~rememberedFlag)) :=
        setFlag_run (by omega) (by omega)
      rw [hp]
      dsimp only
      rw [bind_ok (heap_lift hset)]
      -- the other entries are read as before
      have hsame := fun x (hx : x ∈ es) =>
        readable_put hap (o := x) (e := e) (by simp) (by simp [hx]) (hes x hx)
        hpos (m.heap.word (e - 1) &&& ~~~rememberedFlag)
      have hpts : ∀ x ∈ es, pointsInto?
        (m.heap.put (e - 1) (m.heap.word (e - 1) &&& ~~~rememberedFlag)) r x
          = pointsInto? m.heap r x := fun x hx => by rw [pointsInto?, pointsInto?, (hsame x hx).2]
      rw [ih]
      · simp only [Machine.withHeap_heap, Machine.withHeap_withHeap]
        simp [hp, unset, List.filter_congr hpts, List.filter_congr
          fun x hx => congrArg not (hpts x hx)]
      · intro x hx
        refine ⟨(hes x hx).pos, ?_, ?_⟩
        · simp only [Machine.withHeap_heap, Arena.tag_congr (hsame x hx).1]
          exact (hes x hx).known
        · simp only [Machine.withHeap_heap, Arena.payload_congr (hsame x hx).1, Arena.size_put]
          exact (hes x hx).inside
      · intro x hx y hy
        simp only [Machine.withHeap_heap, Arena.payload_congr (hsame y hy).1]
        exact hapes x hx y hy

end Keep

/-! ## Adding an object -/

/-- `m'` is `m` after `o` was added to its remembered set, of which the entries `kept` were kept. -/
structure Recalled (r : Region) (o : Nat) (m m' : Machine Generational)
    (kept : List Nat) : Prop where
  own : m'.own = remembering m.own (kept ++ [o])
  roots : m'.roots = m.roots
  stress : m'.stress = m.stress
  stats : m'.stats = m.stats
  sublist : kept.Sublist m.own.remembered.toList
  dropped : ∀ e ∈ m.own.remembered.toList, e ∉ kept → ¬ PointsInto m.heap r e
  room : kept.length < m.own.remembered.capacity
  size_eq : m'.heap.size = m.heap.size
  flag_self : m'.heap.word (o - 1) = m.heap.word (o - 1) ||| rememberedFlag
  flag_dropped : ∀ e ∈ m.own.remembered.toList, e ∉ kept →
    m'.heap.word (e - 1) = m.heap.word (e - 1) &&& ~~~rememberedFlag
  other : ∀ a, a + 1 ≠ o → (a + 1 ∈ m.own.remembered.toList → a + 1 ∈ kept) →
    m'.heap.word a = m.heap.word a

/-- `m'` is `m` but for its remembered set and the flag words of the entries and of `o`. -/
structure Relisted (o : Nat) (m m' : Machine Generational) : Prop where
  own : m'.own = remembering m.own m'.own.remembered.toList
  roots : m'.roots = m.roots
  stats : m'.stats = m.stats
  size_eq : m'.heap.size = m.heap.size
  other : ∀ a, a + 1 ≠ o → a + 1 ∉ m.own.remembered.toList → m'.heap.word a = m.heap.word a

theorem Recalled.relisted {r : Region} {o : Nat} {m m' : Machine Generational} {kept : List Nat}
    (hr : Recalled r o m m' kept) : Relisted o m m' := by
  refine ⟨?_, hr.roots, hr.stats, hr.size_eq, fun a ha he => hr.other a ha fun h => absurd h he⟩
  rw [hr.own, remembering_toList]

variable {m : Machine Generational} {r : Region} {o : Nat}

theorem isFull_iff (s : RememberedSet) : s.isFull = true ↔ s.capacity ≤ s.toList.length := by
  rw [RememberedSet.toList, Array.length_toList]
  exact decide_eq_true_iff

theorem addRemembered_run (hroom : m.own.remembered.toList.length < m.own.remembered.capacity) :
    addRemembered o m = .ok ()
    (m.withOwn (remembering m.own (m.own.remembered.toList ++ [o]))) := by
  have hins : { m.own with remembered := m.own.remembered.insert o }
      = remembering m.own (m.own.remembered.toList ++ [o]) := by
    simp only [remembering, RememberedSet.insert, RememberedSet.withEntries, RememberedSet.toList]
    congr 2
    exact Array.toList_inj.mp (by simp)
  have hfull : m.own.remembered.isFull = false := by
    refine Bool.eq_false_iff.mpr fun hf => ?_
    have hle := (isFull_iff _).mp hf
    omega
  rw [addRemembered, bind_ok GcM.run_own]
  simp only [hfull, Bool.false_eq_true, if_false]
  rw [GcM.run_modifyOwn, hins]

theorem addRemembered_runs : Runs (addRemembered o) m
    (fun _ m' => m.own.remembered.toList.length < m.own.remembered.capacity ∧
      m' = m.withOwn (remembering m.own (m.own.remembered.toList ++ [o])))
        (fun f m' => f = m.own.remembered.full ∧ m' = m) := by
  by_cases hroom : m.own.remembered.toList.length < m.own.remembered.capacity
  · exact Runs.of_eq (addRemembered_run hroom) ⟨hroom, rfl⟩
  · have hfull : m.own.remembered.isFull = true := (isFull_iff _).mpr (by omega)
    unfold addRemembered
    refine Runs.step GcM.run_own ?_
    simp only [hfull, if_true]
    exact Runs.fail ⟨rfl, rfl⟩

/-- Adding an object that is not in the set. -/
theorem remember_runs (hr : ∀ e ∈ m.own.remembered.toList, ReadableAt m.heap e)
    (hap : FlagsApart m.heap m.own.remembered.toList) (ho : ReadableAt m.heap o)
    (hnew : o ∉ m.own.remembered.toList) :
    Runs (remember r o) m (fun _ m' => ∃ kept, Recalled r o m m' kept)
    (fun f m' => f = m.own.remembered.full ∧ Relisted o m m') := by
  have hpos := ho.pos
  have hpay := Arena.payload_pos ho.known
  have hin := ho.inside
  -- what is left to do once there is room
  have hadd : ∀ kept h, kept.Sublist m.own.remembered.toList → h.size = m.heap.size →
      (∀ e ∈ m.own.remembered.toList, e ∉ kept → ¬ PointsInto m.heap r e) →
      (∀ e ∈ m.own.remembered.toList, e ∉ kept → h.word (e - 1) = m.heap.word (e - 1) &&&
        ~~~rememberedFlag) →
      (∀ a, (a + 1 ∈ m.own.remembered.toList → a + 1 ∈ kept) → h.word a = m.heap.word a) →
      Runs (addRemembered o >>= fun _ => setFlag rememberedFlag true o)
        ((m.withHeap h).withOwn (remembering m.own kept))
        (fun _ m' => ∃ kept, Recalled r o m m' kept)
        (fun f m' => f = m.own.remembered.full ∧ Relisted o m m') := by
    intro kept h hsub hsize hdrop hflag hother
    refine (addRemembered_runs.mono_fail ?_).bind ?_
    · rintro f m' ⟨rfl, rfl⟩
      refine ⟨rfl, ⟨?_, rfl, rfl, hsize, fun a _ he => hother a fun h => absurd h he⟩⟩
      simp only [Machine.withOwn_own, remembering_toList]
    rintro - m' ⟨hroom, rfl⟩
    have hset : setFlag rememberedFlag true o h = .ok ()
        (h.put (o - 1) (h.word (o - 1) ||| rememberedFlag)) :=
      setFlag_run hpos (by omega)
    refine Runs.of_eq (heap_lift hset) ⟨kept, ?_⟩
    simp only [Machine.withOwn_own, remembering_toList, remembering_capacity] at hroom
    refine ⟨?_, rfl, rfl, rfl, hsub, hdrop, hroom, ?_, ?_, ?_, ?_⟩
    · simp [remembering, RememberedSet.withEntries, RememberedSet.toList]
    · simpa using hsize
    · simp only [Machine.withHeap_heap]
      rw [Arena.word_put_self _ (by omega), hother (o - 1)
        fun hm => absurd hm (by rwa [Nat.sub_add_cancel hpos])]
    · intro e he hk
      have hne : e ≠ o := fun hc => hnew (hc ▸ he)
      have hep := (hr e he).pos
      simp only [Machine.withHeap_heap]
      rw [Arena.word_put_ne _ (by omega)]
      exact hflag e he hk
    · intro a ha hk
      simp only [Machine.withHeap_heap]
      rw [Arena.word_put_ne _ (by omega)]
      exact hother a hk
  unfold remember
  refine Runs.step GcM.run_own ?_
  cases hf : m.own.remembered.isFull with
  | true =>
    simp only [if_true]
    have hclean : cleanRemembered r m
        = .ok ()
          ((m.withHeap (unset rememberedFlag m.heap
            (m.own.remembered.toList.filter fun e => !pointsInto? m.heap r e))).withOwn
          (remembering m.own (m.own.remembered.toList.filter (pointsInto? m.heap r)))) := by
      rw [cleanRemembered, bind_ok GcM.run_own, bind_ok (keepYoung_run hr hap)]
      rfl
    refine Runs.step hclean ?_
    refine hadd _ _ List.filter_sublist (size_unset _ _ _) ?_ ?_ ?_
    · intro e he hk hp
      exact hk (List.mem_filter.mpr ⟨he, pointsInto?_iff.mpr hp⟩)
    · intro e he hk
      have hre := hr e he
      have h1 := hre.pos
      have h2 := hre.inside
      have h3 := Arena.payload_pos hre.known
      refine word_unset_self (List.mem_filter.mpr ⟨he, ?_⟩) (by omega)
      simpa [he] using hk
    · intro a hk
      refine word_unset_of_ne ?_ fun e he => (hr e (List.mem_filter.mp he).1).pos
      rintro e he rfl
      obtain ⟨he, hp⟩ := List.mem_filter.mp he
      have hq := (List.mem_filter.mp (hk he)).2
      simp [hq] at hp
  | false =>
    simp only [Bool.false_eq_true, if_false]
    have h := hadd _ m.heap (List.Sublist.refl _) rfl (fun e he hk => absurd he hk)
      (fun e he hk => absurd he hk)
      fun a _ => rfl
    rw [remembering_self] at h
    exact h

end Reclaim.Generational
