import Reclaim.Marking
import Reclaim.Proofs.Visiting

/-!
# The mark phase

Marking finds exactly what the roots reach. The proof does not know how a collector marks: `Claims`
is all it asks of `claim`, with the list of the marked objects as a ghost. An object is marked when
it is claimed and then waits on the stack, so the marked objects that are no longer on it have only
marked fields; when the stack is empty, the marked objects are closed. Of the visitor that follows a
reference the walk needs even less (`Shades`), and of the marks that the graph can be read while
they are set (`Readable`).

Results:
* `phase_runs`: what any such visitor does on a walk from the roots, with the stack left in view.
* `mark_runs`: marking ends, overflows its stack or meets an object that is none; when it ends, an
  object is marked if and only if it is reachable from the roots. In either case the roots are as
  they were, and there are marks and nothing else.
* `Flags.claims`: marks in the words before the objects are as the mark phase needs them.
-/

namespace Reclaim

/-- Distinct numbers below `n` are at most `n` many. -/
theorem length_le_of_nodup {n : Nat} {xs : List Nat} (hd : xs.Nodup) (hlt : ∀ x ∈ xs, x < n) :
    xs.length ≤ n := by
  have hle := hd.length_le_of_subset fun x hx => List.mem_range.mpr (hlt x hx)
  rwa [List.length_range] at hle

theorem Arena.put_value_self {h : Arena} {a : Nat} : h.put a (h.value a).bits = h := h.put_word a

namespace Marking

variable {σ : Type}

/-- `claim` marks one object of `V` and tells whether it was unmarked. `I m ms` holds while exactly
`ms` are marked. -/
def Claiming (claim : Nat → GcM σ Bool) (V : Nat → Prop) (I : Machine σ → List Nat → Prop) : Prop :=
  ∀ m ms o, I m ms → V o → ∃ b m', claim o m = .ok b m' ∧ m'.roots = m.roots ∧
    ((b = true ∧ o ∉ ms ∧ I m' (o :: ms)) ∨ (b = false ∧ o ∈ ms ∧ I m' ms))

/-- How a collector marks the objects of `V` in the heap `h₀`. -/
structure Claims (claim : Nat → GcM σ Bool) (h₀ : Arena) (V : Nat → Prop)
    (I : Machine σ → List Nat → Prop) : Prop where
  run : Claiming claim V I
  roots : ∀ {m ms} r, I m ms → I (m.withRoots r) ms
  size_eq : ∀ {m ms}, I m ms → m.heap.size = h₀.size
  /-- Marks lie outside the objects. -/
  word : ∀ {m ms}, I m ms → ∀ o i, V o → i < h₀.extent o → m.heap.word (o + i) = h₀.word (o + i)
  inside : ∀ o, V o → o + h₀.extent o ≤ h₀.size
  linked : Linked h₀ V

/-- Whichever of the objects of `V` are marked, the heap shows their graph as it is in `h₀`, and it
leads to no others. -/
structure Readable (h₀ : Arena) (V : Nat → Prop) (I : Machine σ → List Nat → Prop) : Prop where
  size_eq : ∀ {m ms}, I m ms → m.heap.size = h₀.size
  head : ∀ {m ms}, I m ms → ∀ o, V o → m.heap.word o = h₀.word o
  pair : ∀ {m ms}, I m ms → ∀ o, V o → h₀.tag o = some .pair →
    m.heap.word (o + 1) = h₀.word (o + 1) ∧ m.heap.word (o + 2) = h₀.word (o + 2)
  inside : ∀ o, V o → o < h₀.size ∧ (h₀.tag o = some .pair → o + 2 < h₀.size)
  succ : ∀ {o c}, V o → c ∈ h₀.succ o → V c

/-- Why the mark phase fails: its stack overflows, or the roots `R` reach something that is no
object. -/
def MarkStops (capacity : Nat) (h₀ : Arena) (R : Nat → Prop) (f : Failure) (_ : σ) : Prop :=
  f = .markStackOverflow capacity ∨ ∃ o, Reach h₀ R o ∧ h₀.tag o = none ∧ f = .corruptObject o
    (h₀.word o).toUInt8

theorem MarkStops.fatal {capacity : Nat} {h₀ : Arena} {R : Nat → Prop} {f : Failure} {s : σ}
    (hf : MarkStops capacity h₀ R f s) : Fatal f s := by
  rcases hf with rfl | ⟨o, -, -, rfl⟩
  · rfl
  · rfl

/-- Among objects the mark phase fails only when its stack overflows. -/
def Overflows (capacity : Nat) (f : Failure) (_ : σ) : Prop := f = .markStackOverflow capacity

/-- How the mark phase fails: some objects are marked by then, and the roots are the `r` it began
with. -/
structure Halts (capacity : Nat) (h₀ : Arena) (I : Machine σ → List Nat → Prop) (r : Roots)
    (f : Failure) (m : Machine σ) : Prop where
  reason : MarkStops capacity h₀ r.Refers f m
  roots : m.roots = r
  marked : ∃ ms, I m ms

/-- The same while there is still a stack beside the machine. -/
def Halting (capacity : Nat) (h₀ : Arena) (I : Machine σ → List Nat → Prop) (r : Roots)
    (f : Failure) (m : Machine (σ × MarkStack)) :
    Prop := Halts capacity h₀ I r f (m.withOwn m.own.1)

/-- The objects `ms` are marked, those of them that wait are on the stack, and the roots are `r`. -/
structure Shaded (capacity : Nat) (V : Nat → Prop) (r : Roots) (h₀ : Arena)
    (I : Machine σ → List Nat → Prop) (m : Machine (σ × MarkStack)) (ms : List Nat) : Prop where
  capacity : m.own.2.capacity = capacity
  inv : I (m.withOwn m.own.1) ms
  nodup : ms.Nodup
  valid : ∀ o ∈ ms, V o
  waiting : ∀ o ∈ m.own.2.items.toList, o ∈ ms
  /-- No more objects wait than are marked. -/
  height : m.own.2.items.size ≤ ms.length
  reach : ∀ o ∈ ms, Reach h₀ r.Refers o
  roots : m.roots = r

variable {capacity : Nat} {claim : Nat → GcM σ Bool} {h₀ : Arena} {V : Nat → Prop} {r : Roots}
  {I : Machine σ → List Nat → Prop}
  {m : Machine (σ × MarkStack)} {ms : List Nat}

theorem Shaded.halting {f : Failure} (hm : Shaded capacity V r h₀ I m ms)
    (hf : MarkStops capacity h₀ r.Refers f (m.withOwn m.own.1)) :
    Halting capacity h₀ I r f m := ⟨hf, hm.roots, ms, hm.inv⟩

theorem Claims.readable (hc : Claims claim h₀ V I) : Readable h₀ V I where
  size_eq := hc.size_eq
  head hI o ho := hc.word hI o 0 ho h₀.extent_pos
  pair hI o ho ht := by
    have hp := Arena.extent_of_pair ht
    exact ⟨hc.word hI o 1 ho (by omega), hc.word hI o 2 ho (by omega)⟩
  inside o ho := by
    have hin := hc.inside o ho
    have hpos := h₀.extent_pos (o := o)
    refine ⟨by omega, fun ht => ?_⟩
    rw [Arena.extent_of_pair ht] at hin
    omega
  succ := hc.linked.succ

theorem Readable.length_le (hr : Readable h₀ V I) (hm : Shaded capacity V r h₀ I m ms) :
    ms.length ≤ h₀.size :=
  length_le_of_nodup hm.nodup fun o ho => (hr.inside o (hm.valid o ho)).1

/-- What following references does: the objects `new` are marked one after the other, and wait in
that order. -/
def Grown (m m' : Machine (σ × MarkStack)) (ms ms' : List Nat) : Prop :=
  ∃ new : List Nat, m'.own.2.items.toList = m.own.2.items.toList ++ new ∧ ms' = new.reverse ++ ms

namespace Grown

variable {m' m'' : Machine (σ × MarkStack)} {ms' ms'' : List Nat}

theorem refl (m : Machine (σ × MarkStack)) (ms : List Nat) : Grown m m ms ms := ⟨[], by simp, rfl⟩

theorem trans (h : Grown m m' ms ms') (h' : Grown m' m'' ms' ms'') : Grown m m'' ms ms'' := by
  obtain ⟨new, hs, rfl⟩ := h
  obtain ⟨new', hs', rfl⟩ := h'
  exact ⟨new ++ new', by rw [hs', hs, List.append_assoc], by
    rw [List.reverse_append, List.append_assoc]⟩

theorem subset (h : Grown m m' ms ms') : ∀ x ∈ ms, x ∈ ms' := by
  obtain ⟨new, -, rfl⟩ := h
  exact fun x hx => List.mem_append_right _ hx

theorem fresh (h : Grown m m' ms ms') : ∀ x ∈ ms', x ∈ ms ∨ x ∈ m'.own.2.items.toList := by
  obtain ⟨new, hs, rfl⟩ := h
  intro x hx
  rw [hs]
  rcases List.mem_append.mp hx with hx | hx
  · exact .inr (List.mem_append_right _ (List.mem_reverse.mp hx))
  · exact .inl hx

theorem stack (h : Grown m m' ms ms') : ∀ x ∈ m.own.2.items.toList, x ∈ m'.own.2.items.toList := by
  obtain ⟨new, hs, -⟩ := h
  intro x hx
  rw [hs]
  exact List.mem_append_left _ hx

theorem count (h : Grown m m' ms ms') :
    ms'.length + m.own.2.items.size = ms.length + m'.own.2.items.size := by
  obtain ⟨new, hs, rfl⟩ := h
  have hlen := congrArg List.length hs
  simp only [List.length_append, List.length_reverse, Array.length_toList] at hlen ⊢
  omega

end Grown

/-! ## Following one reference -/

/-- The stack, which is `stack`, had no room for an object that was just marked: more objects are
marked than it holds. -/
structure Spilled (capacity : Nat) (h₀ : Arena) (I : Machine σ → List Nat → Prop) (r : Roots)
    (stack : MarkStack) (f : Failure) (m : Machine (σ × MarkStack)) : Prop where
  overflow : f = .markStackOverflow capacity
  stack : m.own.2 = stack
  roots : m.roots = r
  marked : ∃ ms, I (m.withOwn m.own.1) ms ∧ ms.Nodup ∧ (∀ o ∈ ms, Reach h₀ r.Refers o) ∧
    capacity < ms.length

/-- Following a reference marks the object it leads to, which then waits on the stack unless it was
marked before. -/
theorem shade_runs (hc : Claiming claim V I) (hm : Shaded capacity V r h₀ I m ms) {v : Value}
    {o : Nat} (hv : v.ref? = some o) (hV : V o) (hR : Reach h₀ r.Refers o) :
    Runs (shade claim v) m (fun v' m' => v' = v ∧
      ∃ ms', Shaded capacity V r h₀ I m' ms' ∧ Grown m m' ms ms' ∧ o ∈ ms')
        (Spilled capacity h₀ I r m.own.2) := by
  rw [shade, hv]
  obtain ⟨b, m1, hrun, hroots, hcase⟩ := hc _ ms o hm.inv hV
  refine Runs.step (GcM.run_embed hrun) ?_
  rcases hcase with ⟨rfl, hnew, hI⟩ | ⟨rfl, hold, hI⟩
  · simp only [if_true]
    have hnodup : (o :: ms).Nodup := List.nodup_cons.mpr ⟨hnew, hm.nodup⟩
    have hreach : ∀ x ∈ o :: ms, Reach h₀ r.Refers x := by
      intro x hx
      rcases List.mem_cons.mp hx with rfl | hx
      · exact hR
      · exact hm.reach x hx
    have hheight := hm.height
    refine Runs.step GcM.run_scratch ?_
    cases hfull : m.own.2.isFull with
    | true =>
      simp only [Machine.withOwn_own, hfull, if_true]
      refine Runs.fail ⟨by rw [MarkStack.overflow, hm.capacity], rfl,
        hroots.trans hm.roots, o :: ms, hI, hnodup, hreach, ?_⟩
      -- what waits is marked, and fills the stack without the new object
      have hle : m.own.2.capacity ≤ m.own.2.items.size := of_decide_eq_true hfull
      rw [hm.capacity] at hle
      rw [List.length_cons]
      omega
    | false =>
      simp only [Machine.withOwn_own, hfull, Bool.false_eq_true, if_false]
      refine Runs.step (GcM.run_modifyScratch _) ?_
      refine Runs.pure ⟨rfl, o :: ms,
        ⟨hm.capacity, hI, hnodup, ?_, ?_, ?_, hreach, hroots.trans hm.roots⟩,
        ⟨[o], by simp [MarkStack.push], rfl⟩, List.mem_cons_self⟩
      · intro x hx
        rcases List.mem_cons.mp hx with rfl | hx
        · exact hV
        · exact hm.valid x hx
      · intro x hx
        simp only [Machine.withOwn_own, MarkStack.push, Array.toList_push, List.mem_append,
          List.mem_singleton] at hx
        rcases hx with hx | rfl
        · exact List.mem_cons_of_mem _ (hm.waiting x hx)
        · exact List.mem_cons_self
      · simp only [Machine.withOwn_own, MarkStack.push, Array.size_push, List.length_cons]
        omega
  · simp only [Bool.false_eq_true, if_false]
    exact Runs.pure ⟨rfl, ms,
      ⟨hm.capacity, hI, hm.nodup, hm.valid, hm.waiting, hm.height, hm.reach, hroots.trans hm.roots⟩,
      .refl _ _, hold⟩

/-- A visitor that follows references as the mark phase does: what it is led to is marked and waits
on the stack. It fails in `E`, and `E` is also what becomes of a walk that meets something that is
no object. -/
structure Shades (visit : Value → GcM (σ × MarkStack) Value) (capacity : Nat) (V : Nat → Prop)
    (r : Roots) (h₀ : Arena) (I : Machine σ → List Nat → Prop)
    (E : Failure → Machine (σ × MarkStack) → Prop) : Prop where
  run : ∀ {m ms v o}, Shaded capacity V r h₀ I m ms → v.ref? = some o → V o → Reach h₀ r.Refers o →
    Runs (visit v) m (fun v' m' => v' = v ∧ ∃ ms', Shaded capacity V r h₀ I m' ms' ∧
      Grown m m' ms ms' ∧ o ∈ ms') E
  stop : ∀ {m ms o}, Shaded capacity V r h₀ I m ms → Reach h₀ r.Refers o → h₀.tag o = none →
    E (.corruptObject o (h₀.word o).toUInt8) m

theorem Claims.shades (hc : Claims claim h₀ V I) :
    Shades (shade claim) capacity V r h₀ I (Halting capacity h₀ I r) where
  run hm hv hV hR := (shade_runs hc.run hm hv hV hR).mono_fail fun _ _ hs =>
    ⟨.inl hs.overflow, hs.roots, hs.marked.imp fun _ h => h.1⟩
  stop hm hR hk := hm.halting (.inr ⟨_, hR, hk, rfl⟩)

/-! ## The walk -/

variable {visit : Value → GcM (σ × MarkStack) Value} {E : Failure → Machine (σ × MarkStack) → Prop}

/-- Visiting an object marks what it refers to. -/
theorem traceObject_runs (hr : Readable h₀ V I) (hs : Shades visit capacity V r h₀ I E)
    (hm : Shaded capacity V r h₀ I m ms) {o : Nat} (ho : V o) (hR : Reach h₀ r.Refers o) :
    Runs (traceObject visit o) m (fun _ m' => h₀.tag o ≠ none ∧
      ∃ ms', Shaded capacity V r h₀ I m' ms' ∧ Grown m m' ms ms' ∧ ∀ c ∈ h₀.succ o, c ∈ ms') E := by
  obtain ⟨hin, hpair⟩ := hr.inside o ho
  -- the words of the object stay as they are
  have hhead : ∀ {m' : Machine (σ × MarkStack)} {ms'}, Shaded capacity V r h₀ I m' ms' →
      m'.heap.word o = h₀.word o :=
    fun hm' => hr.head hm'.inv o ho
  have hval : ∀ {m' : Machine (σ × MarkStack)} {ms'}, Shaded capacity V r h₀ I m' ms' →
    ∀ a ∈ h₀.fields o,
      m'.heap.value a = h₀.value a := by
    intro m' ms' hm' a ha
    obtain ⟨ht, ha, -⟩ := Arena.mem_fields.mp ha
    obtain ⟨h1, h2⟩ := hr.pair hm'.inv o ho ht
    refine Arena.value_congr ?_
    rcases ha with rfl | rfl
    · exact h1
    · exact h2
  have htag : m.heap.tag o = h₀.tag o := Arena.tag_congr (hhead hm)
  have hsize : m.heap.size = h₀.size := hr.size_eq hm.inv
  have hfields : m.heap.fields o = h₀.fields o := by
    unfold Arena.fields
    rw [htag]
    split
    · rename_i ht
      obtain ⟨h1, h2⟩ := hr.pair hm.inv o ho ht
      have h1 : m.heap.value (o + 1) = h₀.value (o + 1) := Arena.value_congr h1
      have h2 : m.heap.value (o + 2) = h₀.value (o + 2) := Arena.value_congr h2
      simp [List.filter_cons, h1, h2]
    · rfl
  by_cases hk : h₀.tag o = none
  · refine Reclaim.traceObject_fails (by rw [htag]; exact hk) (by omega) ?_
    rw [hhead hm]
    exact hs.stop hm hR hk
  have hb : m.heap.Traceable o := ⟨by rw [htag]; exact hk, by omega, fun ht => by
    rw [hsize]
    exact hpair (htag ▸ ht)⟩
  let J : List Nat → Machine (σ × MarkStack) → Prop :=
    fun fs m' => (∀ a ∈ fs, a ∈ h₀.fields o) ∧ ∃ ms', Shaded capacity V r h₀ I m' ms' ∧
      Grown m m' ms ms' ∧
      ∀ a ∈ h₀.fields o, a ∉ fs → ∀ c, (h₀.value a).ref? = some c → c ∈ ms'
  refine (hb.traceObject_runs (J := J) ?_ ?_).mono ?_
  · rw [hfields]
    exact ⟨fun a ha => ha, ms, hm, .refl m ms, fun a ha hn => absurd ha hn⟩
  · rintro a fs m1 ⟨hsub, ms1, hm1, hg1, hdone⟩
    have ha := hsub a (by simp)
    obtain ⟨ht, hao, href⟩ := Arena.mem_fields.mp ha
    obtain ⟨c, hcv⟩ := Value.exists_ref? href
    have hsucc : c ∈ h₀.succ o := by
      rw [Arena.succ, List.mem_filterMap]
      exact ⟨a, ha, hcv⟩
    have hsize : m1.heap.size = h₀.size := hr.size_eq hm1.inv
    have hp := hpair ht
    refine ⟨by omega, ?_⟩
    rw [hval hm1 a ha]
    refine (hs.run hm1 hcv (hr.succ ho hsucc) (hR.step hsucc)).mono ?_
    rintro v' m2 ⟨rfl, ms2, hm2, hg2, hmem⟩
    have hsize2 : m2.heap.size = h₀.size := hr.size_eq hm2.inv
    refine ⟨by omega, ?_⟩
    rw [← hval hm2 a ha, Arena.put_value_self, Machine.withHeap_self]
    refine ⟨fun x hx => hsub x (by simp [hx]), ms2, hm2, hg1.trans hg2, fun x hx hn d hd => ?_⟩
    by_cases hxa : x = a
    · subst hxa
      rw [hcv] at hd
      cases hd
      exact hmem
    · exact hg2.subset d (hdone x hx (by simp [hxa, hn]) d hd)
  · rintro - m' ⟨-, ms', hm', hg, hdone⟩
    refine ⟨hk, ms', hm', hg, fun c hcs => ?_⟩
    obtain ⟨a, ha, hca⟩ := List.mem_filterMap.mp hcs
    exact hdone a ha (by simp) c hca

/-- Visiting the roots marks what they refer to. -/
theorem traceRoots_runs (hs : Shades visit capacity V m.roots h₀ I E)
    (hI : I (m.withOwn m.own.1) []) (hempty : m.own.2 = MarkStack.empty capacity)
    (hV : ∀ o, m.roots.Refers o → V o) :
    Runs (traceRoots visit) m (fun _ m' => ∃ ms, Shaded capacity V m.roots h₀ I m' ms ∧
      (∀ x ∈ ms, x ∈ m'.own.2.items.toList) ∧ ms.length = m'.own.2.items.size ∧
      ∀ o, m.roots.Refers o → o ∈ ms) E := by
  have hvis : Visits visit
      (fun (m' : Machine (σ × MarkStack)) ms => Shaded capacity V m.roots h₀ I m' ms ∧
        (∀ x ∈ ms, x ∈ m'.own.2.items.toList) ∧ ms.length = m'.own.2.items.size)
      (fun ms _ ms' => ∀ x ∈ ms, x ∈ ms') (fun ms v v' => v' = v ∧ ∀ o, v.ref? = some o → o ∈ ms)
      (fun v => ∀ o, v.ref? = some o → m.roots.Refers o) E := by
    refine ⟨fun _ _ hx => hx, fun h h' x hx => h' x (h x hx),
      fun h him => ⟨him.1, fun o ho => h o (him.2 o ho)⟩, ?_, ?_⟩
    · rintro m' ms slot v v' hm' hv - ⟨rfl, -⟩
      rw [Roots.set_self hv]
      exact hm'
    · rintro m' ms v ⟨hm', h1, h2⟩ hr hw
      obtain ⟨o, ho⟩ := Value.exists_ref? hr
      have hRo := hw o ho
      refine (hs.run hm' ho (hV o hRo) (.root hRo)).mono ?_
      rintro v' m1 ⟨rfl, ms1, hm1, hg, hmem⟩
      have hcount := hg.count
      refine ⟨ms1, hg.subset, ⟨hm1, fun x hx => ?_, by omega⟩, ⟨rfl, fun o' ho' => ?_⟩,
        hm1.roots.trans hm'.roots.symm⟩
      · exact (hg.fresh x hx).elim (fun hx => hg.stack x (h1 x hx)) id
      · rw [ho] at ho'
        cases ho'
        exact hmem
  have hstart : Shaded capacity V m.roots h₀ I m [] :=
    ⟨by simp [hempty, MarkStack.empty], hI, .nil, fun _ hx => absurd hx List.not_mem_nil,
      by simp [hempty, MarkStack.empty], by simp [hempty,
        MarkStack.empty], fun _ hx => absurd hx List.not_mem_nil, rfl⟩
  refine (Reclaim.traceRoots_runs hvis (g := [])
    ⟨hstart, fun _ hx => absurd hx List.not_mem_nil, by simp [hempty, MarkStack.empty]⟩ ?_).mono ?_
  · exact fun slot v hv _ o ho => ⟨slot, v, hv, ho⟩
  · rintro - m' ⟨ms, -, ⟨hm', h1, h2⟩, hmap⟩
    refine ⟨ms, hm', h1, h2, ?_⟩
    rintro o ⟨slot, v, hv, ho⟩
    obtain ⟨v', -, him⟩ := hmap.slot slot v hv
    rcases him with ⟨-, -, hmem⟩ | ⟨hn, -⟩
    · exact hmem o ho
    · rw [Value.ref?_eq_none hn] at ho
      cases ho

/-- Visiting what waits, until nothing does. -/
theorem drain_runs (hr : Readable h₀ V I) (hs : Shades visit capacity V r h₀ I E) {n : Nat}
    (hm : Shaded capacity V r h₀ I m ms)
    (hblack : ∀ o ∈ ms, o ∉ m.own.2.items.toList → h₀.tag o ≠ none ∧ ∀ c ∈ h₀.succ o, c ∈ ms)
    (hn : h₀.size + m.own.2.items.size < n + ms.length) :
    Runs (drain visit n) m (fun _ m' => m'.own.2.items = #[] ∧
      ∃ ms', Shaded capacity V r h₀ I m' ms' ∧ (∀ x ∈ ms, x ∈ ms') ∧ ∀ o ∈ ms', h₀.tag o ≠ none ∧
        ∀ c ∈ h₀.succ o, c ∈ ms') E := by
  induction n generalizing m ms with
  | zero =>
    have hlen := hr.length_le hm
    omega
  | succ n ih =>
    rw [drain]
    cases hitems : m.own.2.items.back? with
    | none =>
      have hnext : next? m = .ok none m := by
        rw [next?, bind_ok GcM.run_scratch, MarkStack.top?, hitems]
        rfl
      have hempty : m.own.2.items = #[] := Array.back?_eq_none_iff.mp hitems
      refine Runs.step hnext (Runs.pure
        ⟨hempty, ms, hm, fun _ hx => hx, fun o ho => hblack o ho ?_⟩)
      rw [hempty]
      simp
    | some o =>
      have hnext : next? m = .ok (some o) (m.withOwn (m.own.1, m.own.2.pop)) := by
        rw [next?, bind_ok GcM.run_scratch, MarkStack.top?, hitems]
        rfl
      obtain ⟨rest, hpush⟩ : ∃ rest : Array Nat, m.own.2.items = rest.push o := by
        have hne : m.own.2.items.size ≠ 0 := by
          intro hz
          rw [Array.eq_empty_of_size_eq_zero hz] at hitems
          cases hitems
        obtain ⟨rest, x, hx⟩ := Array.eq_push_of_size_ne_zero hne
        rw [hx, Array.back?_push] at hitems
        cases hitems
        exact ⟨rest, hx⟩
      have hpop : (m.own.2.pop).items = rest := by simp [MarkStack.pop, hpush]
      have hsize : m.own.2.items.size = rest.size + 1 := by simp [hpush]
      have ho : o ∈ ms := hm.waiting o (by simp [hpush])
      refine Runs.step hnext ?_
      have hm1 : Shaded capacity V r h₀ I (m.withOwn (m.own.1, m.own.2.pop)) ms := by
        have hheight := hm.height
        refine ⟨hm.capacity, hm.inv, hm.nodup, hm.valid,
          fun x hx => hm.waiting x ?_, ?_, hm.reach, hm.roots⟩
        · simp only [Machine.withOwn_own, hpop] at hx
          simp [hpush, hx]
        · simp only [Machine.withOwn_own, hpop]
          omega
      refine (traceObject_runs hr hs hm1 (hm.valid o ho) (hm.reach o ho)).bind ?_
      rintro - m2 ⟨hk, ms2, hm2, hg2, hsucc⟩
      have hcount := hg2.count
      simp only [Machine.withOwn_own, hpop] at hcount
      refine (ih hm2 ?_ (by omega)).mono ?_
      · intro x hx hnw
        rcases hg2.fresh x hx with hx | hx
        · by_cases hxo : x = o
          · subst hxo
            exact ⟨hk, hsucc⟩
          · obtain ⟨hkx, hsub⟩ := hblack x hx fun hw => hnw (hg2.stack x (by
              simp only [hpush, Array.toList_push, List.mem_append,
                List.mem_singleton, hxo, or_false] at hw
              simpa only [Machine.withOwn_own, hpop] using hw))
            exact ⟨hkx, fun c hcx => hg2.subset c (hsub c hcx)⟩
        · exact absurd hx hnw
      · rintro - m3 ⟨hempty, ms3, hm3, hsub3, hclosed⟩
        exact ⟨hempty, ms3, hm3, fun x hx => hsub3 x (hg2.subset x hx), hclosed⟩

/-- The mark phase with its stack left in view, for any way to follow a reference. -/
def phase (visit : Value → GcM (σ × MarkStack) Value) : GcM (σ × MarkStack) Unit := do
  let size ← GcM.heapSize
  traceRoots visit
  drain visit (size + 1)

theorem mark_eq (capacity : Nat) (claim : Nat → GcM σ Bool) (m : Machine σ) :
    mark capacity claim m = match phase (shade claim) (m.withOwn (m.own, .empty capacity)) with
      | .ok _ m' => .ok () (m'.withOwn m'.own.1)
      | .error e m' => .error e (m'.withOwn m'.own.1) := by
  rw [mark, bind_ok GcM.run_heapSize]
  change (GcM.withScratch (MarkStack.empty capacity) (phase (shade claim)) >>=
    fun _ => pure ()) m = _
  simp only [bind, EStateM.bind, GcM.withScratch]
  cases phase (shade claim) (m.withOwn (m.own, .empty capacity)) with
  | ok a m' => rfl
  | error e m' => rfl

/-- The walk from the roots marks what they reach and finds that these are objects; then nothing
waits any more. -/
theorem phase_runs (hr : Readable h₀ V I) (hs : Shades visit capacity V m.roots h₀ I E)
    (hI : I (m.withOwn m.own.1) []) (hempty : m.own.2 = MarkStack.empty capacity)
    (hV : ∀ o, m.roots.Refers o → V o) :
    Runs (phase visit) m (fun _ m' => m'.own.2.items = #[] ∧ ∃ ms,
      Shaded capacity V m.roots h₀ I m' ms ∧
      (∀ o, o ∈ ms ↔ Reach h₀ m.roots.Refers o) ∧ ∀ o ∈ ms, h₀.tag o ≠ none) E := by
  have hsize : m.heap.size = h₀.size := hr.size_eq hI
  refine Runs.step GcM.run_heapSize ((traceRoots_runs hs hI hempty hV).bind ?_)
  rintro - m1 ⟨ms1, hm1, hgray, hlen, hmarked⟩
  refine (drain_runs hr hs (n := m.heap.size + 1) hm1
    (fun o ho hn => absurd (hgray o ho) hn) (by omega)).mono ?_
  rintro - m2 ⟨hnone, ms2, hm2, hsub, hclosed⟩
  refine ⟨hnone, ms2, hm2, fun o => ⟨hm2.reach o, fun hR => ?_⟩, fun o ho => (hclosed o ho).1⟩
  induction hR with
  | root hroot => exact hsub _ (hmarked _ hroot)
  | step _ hcs ih => exact (hclosed _ ih).2 _ hcs

/-- Marking marks exactly what the roots reach, and finds that these are objects; where it fails it
has moved nothing. -/
theorem mark_runs (hc : Claims claim h₀ V I) {m : Machine σ} (hI : I m []) (hV : m.roots.Within V) :
    Runs (mark capacity claim) m (fun _ m' => m'.roots = m.roots ∧
      ∃ ms, I m' ms ∧ ms.Nodup ∧ (∀ o, o ∈ ms ↔ Reach h₀ m.roots.Refers o) ∧ ∀ o ∈ ms,
        h₀.tag o ≠ none)
      (Halts capacity h₀ I m.roots) := by
  have hphase := phase_runs (m := m.withOwn (m.own, MarkStack.empty capacity)) hc.readable hc.shades
    hI rfl fun _ ho => hV.refers ho
  unfold Runs at hphase ⊢
  rw [mark_eq]
  cases hrun : phase (shade claim) (m.withOwn (m.own, .empty capacity)) with
  | ok a m' =>
    rw [hrun] at hphase
    obtain ⟨-, ms, hm, hms, hknown⟩ := hphase
    exact ⟨hm.roots, ms, hm.inv, hm.nodup, hms, hknown⟩
  | error e m' =>
    rw [hrun] at hphase
    cases e <;> exact hphase

/-! ## Marks in the headers -/

/-- Exactly the objects `ms` are marked, each in the word before it, and nothing else has changed
since `m₀`. -/
structure InHeaders (mark : Word → Word) (m₀ : Machine σ) (V : Nat → Prop) (m : Machine σ)
    (ms : List Nat) : Prop where
  rest : m = (m₀.withHeap m.heap).withRoots m.roots
  size_eq : m.heap.size = m₀.heap.size
  valid : ∀ o ∈ ms, V o
  flag : ∀ o ∈ ms, m.heap.word (o - 1) = mark (m₀.heap.word (o - 1))
  other : ∀ a, a + 1 ∉ ms → m.heap.word a = m₀.heap.word a

/-- Nothing has changed between `m` and `m'` but the bits of `mask` in the words before the objects
of `bs`. -/
structure Unmoved (mask : Word) (bs : List (Nat × Nat)) (m m' : Machine σ) : Prop where
  rest : m' = m.withHeap m'.heap
  size_eq : m'.heap.size = m.heap.size
  word : ∀ a, (∀ b ∈ bs, a + 1 ≠ b.1) → m'.heap.word a = m.heap.word a
  flags : ∀ b ∈ bs, m'.heap.word (b.1 - 1) &&& ~~~mask = m.heap.word (b.1 - 1) &&& ~~~mask

/-- The word before an object tells by `test` whether it is marked, and `mark` marks it. -/
structure Flags (claim : Nat → GcM σ Bool) (test : Word → Bool) (mark : Word → Word) : Prop where
  test_mark : ∀ w, test (mark w) = true
  seen : ∀ m o, 1 ≤ o → o - 1 < m.heap.size → test (m.heap.word (o - 1)) = true →
    claim o m = .ok false m
  fresh : ∀ m o, 1 ≤ o → o - 1 < m.heap.size → test (m.heap.word (o - 1)) = false →
    claim o m = .ok true (m.withHeap (m.heap.put (o - 1) (mark (m.heap.word (o - 1)))))

section Headers

variable {test : Word → Bool} {mark : Word → Word} {m₀ m : Machine σ}

theorem InHeaders.start (mark : Word → Word) (m₀ : Machine σ) (V : Nat → Prop) :
    InHeaders mark m₀ V m₀ [] :=
  ⟨rfl, rfl, fun _ h => absurd h List.not_mem_nil,
    fun _ h => absurd h List.not_mem_nil, fun _ _ => rfl⟩

/-- One more object is marked. -/
theorem InHeaders.add {o : Nat} (hm : InHeaders mark m₀ V m ms) (ho : V o) (hnew : o ∉ ms)
    (hV : ∀ o, V o → 1 ≤ o) (hs : o - 1 < m.heap.size) :
    InHeaders mark m₀ V (m.withHeap (m.heap.put (o - 1) (mark (m.heap.word (o - 1)))))
    (o :: ms) := by
  have ho1 := hV o ho
  have hw : m.heap.word (o - 1) = m₀.heap.word (o - 1) :=
    hm.other _ (by rw [Nat.sub_add_cancel ho1]; exact hnew)
  refine ⟨?_, by simpa using hm.size_eq, ?_, ?_, ?_⟩
  · rw [hm.rest]
    rfl
  · intro x hx
    rcases List.mem_cons.mp hx with rfl | hx
    · exact ho
    · exact hm.valid x hx
  · intro x hx
    simp only [Machine.withHeap_heap]
    by_cases hxo : x = o
    · subst hxo
      rw [Arena.word_put_self _ hs, hw]
    · have hxm : x ∈ ms := by simpa [hxo] using hx
      have hx1 := hV x (hm.valid x hxm)
      rw [Arena.word_put_ne _ (by omega)]
      exact hm.flag x hxm
  · intro a ha
    simp only [List.mem_cons, not_or] at ha
    simp only [Machine.withHeap_heap]
    rw [Arena.word_put_ne _ (by omega)]
    exact hm.other a ha.2

/-- Marks are bits of the words before the objects. -/
theorem InHeaders.unmoved {mask : Word} {bs : List (Nat × Nat)} (hm : InHeaders mark m₀ V m ms)
    (hroots : m.roots = m₀.roots) (hV : ∀ o, V o → ∃ n, (o, n) ∈ bs) (hpos : ∀ b ∈ bs, 1 ≤ b.1)
    (hmark : ∀ w, mark w &&& ~~~mask = w &&& ~~~mask) :
    Unmoved mask bs m₀ m := by
  refine ⟨by rw [hm.rest, hroots]; rfl, hm.size_eq,
    fun a ha => hm.other a fun hmem => ?_, fun b hb => ?_⟩
  · obtain ⟨n, hb⟩ := hV _ (hm.valid _ hmem)
    exact ha _ hb rfl
  · by_cases hmem : b.1 ∈ ms
    · rw [hm.flag _ hmem, hmark]
    · rw [hm.other _ (by rw [Nat.sub_add_cancel (hpos b hb)]; exact hmem)]

/-- Objects with a word before them can be marked there. -/
theorem Flags.claiming (hf : Flags claim test mark)
    (hhead : ∀ o, V o → 1 ≤ o ∧ o - 1 < m₀.heap.size)
    (hclean : ∀ o, V o → test (m₀.heap.word (o - 1)) = false) :
    Claiming claim V (InHeaders mark m₀ V) := by
  intro m ms o hm ho
  obtain ⟨h1, hs⟩ := hhead o ho
  rw [← hm.size_eq] at hs
  by_cases hmem : o ∈ ms
  · refine ⟨false, m, hf.seen m o h1 hs ?_, rfl, .inr ⟨rfl, hmem, hm⟩⟩
    rw [hm.flag o hmem]
    exact hf.test_mark _
  · refine ⟨true, _, hf.fresh m o h1 hs ?_, rfl,
      .inl ⟨rfl, hmem, hm.add ho hmem (fun o ho => (hhead o ho).1) hs⟩⟩
    rw [hm.other _ (by rw [Nat.sub_add_cancel h1]; exact hmem)]
    exact hclean o ho

/-- The objects of `V` lie in the blocks of `B`. These lie inside the arena and apart from each
other, with headers of three words. -/
structure Spaced (h : Arena) (V : Nat → Prop) (B : Nat × Nat → Prop) : Prop where
  inside : ∀ {b}, B b → 3 ≤ b.1 ∧ b.1 + b.2 ≤ h.size + 3 ∧ 3 < b.2
  apart : ∀ {b c}, B b → B c → b = c ∨ b.1 + b.2 ≤ c.1 ∨ c.1 + c.2 ≤ b.1
  placed : ∀ o, V o → ∃ n, B (o, n) ∧ 3 + h.payload o ≤ n

namespace Spaced

variable {h : Arena} {W : Nat → Prop} {B : Nat × Nat → Prop} {o n : Nat}

theorem mono (hb : Spaced h W B) (hVW : ∀ o, V o → W o) : Spaced h V B :=
  ⟨hb.inside, hb.apart, fun o ho => hb.placed o (hVW o ho)⟩

/-- An object fits into its block, behind the header. -/
theorem extent_le (hb : Spaced h V B) (ho : B (o, n)) (hfit : 3 + h.payload o ≤ n) :
    h.extent o + 3 ≤ n := by
  have hin := hb.inside ho
  simp only at hin
  unfold Arena.extent
  omega

theorem object_inside (hb : Spaced h V B) (ho : V o) : 3 ≤ o ∧ o + h.extent o ≤ h.size := by
  obtain ⟨n, hn, hfit⟩ := hb.placed o ho
  have hin := hb.inside hn
  have hle := hb.extent_le hn hfit
  simp only at hin
  omega

/-- No object begins inside a block but the one that the block holds. -/
theorem object_apart (hb : Spaced h V B) (ho : B (o, n)) {o' : Nat} (ho' : V o') : o' ≤ o ∨
    o + n ≤ o' := by
  obtain ⟨n', hn', -⟩ := hb.placed o' ho'
  rcases hb.apart ho hn' with h | h | h
  · exact .inl (Nat.le_of_eq (congrArg Prod.fst h).symm)
  · exact .inr h
  · exact .inl (Nat.le_trans (Nat.le_add_right ..) h)

end Spaced

/-- Marks in the headers of objects in blocks obey the laws of the mark phase. -/
theorem Flags.claims {B : Nat × Nat → Prop} (hf : Flags claim test mark) (hb : Spaced m₀.heap V B)
    (hlink : Linked m₀.heap V) (hclean : ∀ b, B b → test (m₀.heap.word (b.1 - 1)) = false) :
    Claims claim m₀.heap V (InHeaders mark m₀ V) where
  run := by
    refine hf.claiming (fun o ho => ?_) fun o ho => ?_
    · have hin := hb.object_inside ho
      have hpos := m₀.heap.extent_pos (o := o)
      omega
    · obtain ⟨n, hn, -⟩ := hb.placed o ho
      exact hclean _ hn
  roots r hm := ⟨by rw [hm.rest]; rfl, hm.size_eq, hm.valid, hm.flag, hm.other⟩
  size_eq hm := hm.size_eq
  word hm o i ho hlt := by
    obtain ⟨n, hn, hfit⟩ := hb.placed o ho
    have hle := hb.extent_le hn hfit
    refine hm.other _ fun hmem => ?_
    rcases hb.object_apart hn (hm.valid _ hmem) with h | h <;> omega
  inside o ho := (hb.object_inside ho).2
  linked := hlink

/-- The mark of an object that may be marked. -/
theorem InHeaders.test_eq (hf : Flags claim test mark) (hm : InHeaders mark m₀ V m ms) {o : Nat}
    (h1 : 1 ≤ o) (hclean : test (m₀.heap.word (o - 1)) = false) :
    test (m.heap.word (o - 1)) = decide (o ∈ ms) := by
  by_cases hmem : o ∈ ms
  · rw [hm.flag o hmem, hf.test_mark, decide_eq_true hmem]
  · rw [hm.other _ (by rw [Nat.sub_add_cancel h1]; exact hmem), hclean, decide_eq_false hmem]

end Headers

end Marking

end Reclaim
