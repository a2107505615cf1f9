import Reclaim.Mutator.Inspect
import Reclaim.Proofs.Marking
import Reclaim.Proofs.Session

/-!
# The walk from the roots

The mutator lists what its roots reach by a walk in depth: objects wait on a stack, possibly more
than once, and each is looked at when it comes up for the first time. The tests take this list for
the truth about a heap, so it is shown to be exactly what the graph says, and to depend on nothing
in the arena but the tags of objects and the fields of pairs.

Results:
* `reachFrom_run`: the walk ends, and is complete.
* `reachFrom_congr`: what it reads.
* `reachable_lists_exactly`: both, from the roots.
-/

namespace Reclaim

variable {h h' : Arena} {S : Nat → Prop} {v : Value}

/-- The marks are those of the objects of `found`, in an arena that the map covers. -/
structure Seen (h : Arena) (seen : MarkBitmap) (found : List Nat) : Prop where
  covers : h.size ≤ seen.marks.size
  marked : ∀ o, o < h.size → (seen.isMarked o = true ↔ o ∈ found)
  nodup : found.Nodup
  inside : ∀ o ∈ found, o < h.size

theorem Seen.empty (h : Arena) : Seen h (MarkBitmap.empty h.size) [] := by
  refine ⟨?_, by simp, .nil, by simp⟩
  simp only [MarkBitmap.empty, Array.size_replicate]
  omega

theorem Seen.mark {seen : MarkBitmap} {found : List Nat} {o : Nat} (hs : Seen h seen found)
    (hin : o < h.size) (hnew : o ∉ found) :
    Seen h (seen.mark o) (o :: found) := by
  have hcov := hs.covers
  refine ⟨?_, fun a ha => ?_, List.nodup_cons.mpr ⟨hnew, hs.nodup⟩, ?_⟩
  · rw [MarkBitmap.mark, Array.size_setIfInBounds]
    exact hcov
  · rw [MarkBitmap.isMarked_mark, Bool.or_eq_true, hs.marked a ha, List.mem_cons]
    simp only [Bool.and_eq_true, beq_iff_eq, decide_eq_true_eq]
    constructor
    · rintro (h | ⟨rfl, -⟩)
      · exact .inr h
      · exact .inl rfl
    · rintro (rfl | h)
      · exact .inr ⟨rfl, by omega⟩
      · exact .inl h
  · intro a ha
    rcases List.mem_cons.mp ha with rfl | ha
    · exact hin
    · exact hs.inside a ha

/-- The walk from `pending` lists what is reached from there, but for what was `found` before. Each
object that it finds leaves one mark fewer to be set, and adds at most two objects to those that
wait. -/
theorem reachFrom_run (hk : ∀ o, S o → h.Traceable o) (hc : ∀ o c, S o → c ∈ h.succ o → S c)
    {n : Nat} {pending found : List Nat} {seen : MarkBitmap} (hs : Seen h seen found)
    (hp : ∀ o ∈ pending, S o) (hn : pending.length + 2 * (h.size - found.length) < n) :
    ∃ rs, reachFrom n pending seen h = .ok rs ∧ (found ++ rs).Nodup ∧
    (∀ o ∈ rs, Reach h (· ∈ pending) o) ∧
      (∀ o ∈ pending, o ∈ found ++ rs) ∧ ∀ o ∈ rs, ∀ c ∈ h.succ o, c ∈ found ++ rs := by
  induction n generalizing pending found seen with
  | zero => omega
  | succ n ih =>
    cases pending with
    | nil => exact ⟨[], rfl, by simpa using hs.nodup, by simp, by simp, by simp⟩
    | cons obj pending =>
      have hS := hp obj (by simp)
      have hlt := (hk obj hS).inside
      rw [List.length_cons] at hn
      cases hm : seen.isMarked obj with
      | true =>
        have hold := (hs.marked obj hlt).mp hm
        have hrest : ∀ o ∈ pending, S o := fun o ho => hp o (by simp [ho])
        obtain ⟨rs, hrun, hnd, hreach, hall, hsucc⟩ := ih hs hrest (by omega)
        refine ⟨rs, ?_, hnd, fun o ho =>
          (hreach o ho).mono fun _ => List.mem_cons_of_mem _, fun o ho => ?_, hsucc⟩
        · rw [reachFrom, if_pos hm]
          exact hrun
        · rcases List.mem_cons.mp ho with rfl | ho
          · exact List.mem_append_left _ hold
          · exact hall o ho
      | false =>
        have hnew : obj ∉ found := fun hmem => by simp [(hs.marked obj hlt).mpr hmem] at hm
        have hroom := length_le_of_nodup (hs.mark hlt hnew).nodup (hs.mark hlt hnew).inside
        have htwo := h.length_succ_le obj
        have hnext : ∀ o ∈ (h.succ obj).reverse ++ pending, S o := by
          intro o ho
          rcases List.mem_append.mp ho with ho | ho
          · exact hc obj o hS (List.mem_reverse.mp ho)
          · exact hp o (by simp [ho])
        obtain ⟨rs, hrun, hnd, hreach, hall, hsucc⟩ := ih (hs.mark hlt hnew) hnext (by
          simp only [List.length_append, List.length_reverse, List.length_cons] at hroom ⊢
          omega)
        -- what was found is split differently
        have hmem : ∀ c, c ∈ obj :: found ++ rs ↔ c ∈ found ++ obj :: rs :=
          fun c => by simp [or_left_comm]
        refine ⟨obj :: rs, ?_, ?_, ?_, ?_, ?_⟩
        · rw [reachFrom, hm, if_neg (by decide), read_bind (hk obj hS).children_run, read_bind hrun]
          rfl
        · exact (List.perm_middle.nodup_iff).mpr hnd
        · intro o ho
          rcases List.mem_cons.mp ho with rfl | ho
          · exact .root (by simp)
          · refine (hreach o ho).trans fun e he => ?_
            rcases List.mem_append.mp he with he | he
            · exact .step (.root (List.mem_cons_self ..)) (List.mem_reverse.mp he)
            · exact .root (List.mem_cons_of_mem _ he)
        · intro o ho
          rcases List.mem_cons.mp ho with rfl | ho
          · simp
          · exact (hmem o).mp (hall o (by simp [ho]))
        · intro o ho c hc
          rcases List.mem_cons.mp ho with rfl | ho
          · exact (hmem c).mp (hall c (by simp [hc]))
          · exact (hmem c).mp (hsucc o ho c hc)

/-- At the objects of `S` the arenas have the same tags, and pairs with the same fields. Any other
word may differ, also those of texts, characters and lambdas. -/
structure SameGraph (S : Nat → Prop) (h h' : Arena) : Prop where
  size : h'.size = h.size
  head : ∀ o, S o → h'.word o = h.word o
  pair : ∀ o, S o → h.tag o = some .pair → h'.word (o + 1) = h.word (o + 1) ∧
    h'.word (o + 2) = h.word (o + 2)

theorem SameGraph.children_eq (hg : SameGraph S h h') {o : Nat} (ho : S o) (hb : h.Traceable o) :
    children o h' = children o h := by
  have htag := Arena.tag_congr (hg.head o ho)
  have hb' : h'.Traceable o :=
    ⟨by rw [htag]; exact hb.known, by rw [hg.size]; exact hb.inside, by
      rw [htag, hg.size]; exact hb.fields⟩
  rw [hb.children_run, hb'.children_run, Arena.succ_congr (hg.head o ho) (hg.pair o ho)]

/-- The walk reads nothing else. -/
theorem reachFrom_congr (hk : ∀ o, S o → h.Traceable o) (hc : ∀ o c, S o → c ∈ h.succ o → S c)
    (hg : SameGraph S h h') (n : Nat) {pending : List Nat} (hp : ∀ o ∈ pending, S o)
    (seen : MarkBitmap) : reachFrom n pending seen h' = reachFrom n pending seen h := by
  induction n generalizing pending seen with
  | zero => rfl
  | succ n ih =>
    cases pending with
    | nil => rfl
    | cons obj pending =>
      have hS := hp obj (List.mem_cons_self ..)
      have hrest : ∀ o ∈ pending, S o := fun o ho => hp o (List.mem_cons_of_mem _ ho)
      rw [reachFrom]
      split
      · exact ih hrest seen
      · have hnext : ∀ o ∈ (h.succ obj).reverse ++ pending, S o := by
          intro o ho
          rcases List.mem_append.mp ho with ho | ho
          · exact hc obj o hS (List.mem_reverse.mp ho)
          · exact hrest o ho
        have hrun := (hk obj hS).children_run
        have hmore := ih hnext (seen.mark obj)
        rw [read_bind ((hg.children_eq hS (hk obj hS)).trans hrun), read_bind hrun]
        cases hwalk : reachFrom n ((h.succ obj).reverse ++ pending) (seen.mark obj) h with
        | ok rs => rw [read_bind hwalk, read_bind (hmore.trans hwalk)]; rfl
        | error e => rw [read_bind_error hwalk, read_bind_error (hmore.trans hwalk)]

/-! ## From the roots -/

theorem Roots.mem_slotsUpward {r : Roots} {slot : RootSlot} (hs : r.get? slot = some v) :
    slot ∈ r.slotsUpward := by
  rw [slotsUpward, List.mem_append]
  cases slot with
  | stack i =>
    obtain ⟨hi, -⟩ := Array.getElem?_eq_some_iff.mp hs
    exact .inl (List.mem_map_of_mem (List.mem_range.mpr hi))
  | global i =>
    obtain ⟨hi, -⟩ := Array.getElem?_eq_some_iff.mp hs
    exact .inr (List.mem_map_of_mem (List.mem_range.mpr hi))

theorem Mutator.mem_rootObjects {u : Mutator} {o : Nat} : o ∈ u.rootObjects ↔
    u.machine.roots.Refers o := by
  rw [rootObjects, List.mem_reverse, List.mem_filterMap]
  constructor
  · rintro ⟨slot, -, ho⟩
    obtain ⟨v, hv, hr⟩ := Option.bind_eq_some_iff.mp ho
    exact ⟨slot, v, hv, hr⟩
  · rintro ⟨slot, v, hv, hr⟩
    exact ⟨slot, Roots.mem_slotsUpward hv, by rw [hv]; exact hr⟩

/-- The objects reachable from the roots are listed, each once, if they can be traced. -/
theorem Mutator.reachable_run {u : Mutator}
    (hk : ∀ o, u.machine.Reachable o → u.machine.heap.Traceable o) :
    ∃ rs, u.reachable = .ok rs ∧ rs.Nodup ∧ ∀ o, o ∈ rs ↔ u.machine.Reachable o := by
  have hpending : ∀ o ∈ u.rootObjects, u.machine.Reachable o :=
    fun o ho => .root (mem_rootObjects.mp ho)
  obtain ⟨rs, hrun, hnd, hreach, hall, hsucc⟩ :=
    reachFrom_run (n := u.rootObjects.length + 2 * u.machine.heap.size + 1) hk
    (fun _ _ ho hc => ho.step hc) (.empty u.machine.heap) hpending (by simp)
  refine ⟨rs, hrun, by simpa using hnd,
    fun o => ⟨fun ho => (hreach o ho).mono fun _ => mem_rootObjects.mp, fun ho => ?_⟩⟩
  induction ho with
  | root ho => simpa using hall _ (mem_rootObjects.mpr ho)
  | step _ hc ih => simpa using hsucc _ ih _ hc

/-- The walk from the roots ends whenever it meets known tags only. It lists the objects that
references in pairs lead to from the stack and the globals, each once, and nothing else in the arena
has a say in that. -/
theorem Mutator.reachable_lists_exactly {u : Mutator}
    (hk : ∀ o, u.machine.Reachable o → u.machine.heap.Traceable o) :
    ∃ rs, u.reachable = .ok rs ∧ rs.Nodup ∧ (∀ o, o ∈ rs ↔ u.machine.Reachable o) ∧
      ∀ heap', SameGraph u.machine.Reachable u.machine.heap heap' →
      (u.withHeap heap').reachable = .ok rs := by
  obtain ⟨rs, hrun, hnd, hmem⟩ := reachable_run hk
  refine ⟨rs, hrun, hnd, hmem, fun heap' hg => ?_⟩
  rw [← hrun]
  have hpending : ∀ o ∈ u.rootObjects, u.machine.Reachable o :=
    fun o ho => .root (mem_rootObjects.mp ho)
  change reachFrom (u.rootObjects.length + 2 * heap'.size + 1) u.rootObjects
    (MarkBitmap.empty heap'.size) heap' = _
  rw [hg.size]
  exact reachFrom_congr hk (fun _ _ ho hc => ho.step hc) hg _ hpending _

/-- A small heap. -/
def sharedPairs : Config :=
  { strategy := .copying, heapSize := 512, stackCapacity := 4, globalTableSize := 1 }

/-- A pair that nothing refers to, a text that looks like a reference to it, a pair of that text and
itself, and a root with two references to this pair. -/
def sharedPairsHeap : Mutator :=
  (Command.push (.ofRef 16)).after
    ((Command.cons (.ofRef 11) (.ofRef 11)).after ((Command.setCdr (.ofRef 11) (.ofRef 11)).after
    ((Command.cons (.ofRef 7) .nil).after
      ((Command.string "\x10").after
        ((Command.cons (.int 1) .nil).after (Mutator.ofConfig sharedPairs))))))

/-- The shared pair and its text are listed, the pair that the text looks like is not. -/
theorem sharedPairs_listed :
    (∀ o, sharedPairsHeap.machine.Reachable o → sharedPairsHeap.machine.heap.Traceable o) ∧
    sharedPairsHeap.machine.heap.word 8 = (Value.ofRef 2).bits ∧
    ∃ rs, sharedPairsHeap.reachable = .ok rs ∧ rs.Nodup ∧ 7 ∈ rs ∧ 2 ∉ rs := by
  have hroots : sharedPairsHeap.rootObjects = [16] := by decide +kernel
  have hclosed : ∀ o ∈ [16, 11, 7], ∀ c ∈ sharedPairsHeap.machine.heap.succ o,
    c ∈ [16, 11, 7] := by decide +kernel
  have hmem : ∀ o, sharedPairsHeap.machine.Reachable o → o ∈ [16, 11, 7] := by
    intro o ho
    induction ho with
    | root hr =>
      have hin := Mutator.mem_rootObjects.mpr hr
      rw [hroots, List.mem_singleton] at hin
      simp [hin]
    | step _ hc ih => exact hclosed _ ih _ hc
  have htraced : ∀ o ∈ [16, 11, 7], sharedPairsHeap.machine.heap.tag o ≠ none ∧
    o < sharedPairsHeap.machine.heap.size ∧
      (sharedPairsHeap.machine.heap.tag o = some .pair →
        o + 2 < sharedPairsHeap.machine.heap.size) := by decide +kernel
  have hk : ∀ o, sharedPairsHeap.machine.Reachable o →
      sharedPairsHeap.machine.heap.Traceable o := fun o ho =>
    ⟨(htraced o (hmem o ho)).1, (htraced o (hmem o ho)).2.1, (htraced o (hmem o ho)).2.2⟩
  have hroot : sharedPairsHeap.machine.Reachable 16 :=
    .root (Mutator.mem_rootObjects.mp (by rw [hroots]; exact List.mem_singleton_self _))
  have hshared : sharedPairsHeap.machine.Reachable 11 := hroot.step (by decide +kernel)
  obtain ⟨rs, hrun, hnd, hall, -⟩ := Mutator.reachable_lists_exactly hk
  refine ⟨hk, by decide +kernel, rs, hrun, hnd,
    (hall 7).mpr (hshared.step (by decide +kernel)), fun h2 => ?_⟩
  exact absurd (hmem 2 ((hall 2).mp h2)) (by decide)

end Reclaim
