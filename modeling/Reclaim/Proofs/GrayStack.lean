import Mathlib.Data.Set.Card
import Reclaim.Proofs.Laws
import Reclaim.Proofs.Unmoved

/-!
# The gray stack

The stack of the mark phase is bounded, and a phase that finds it full fails. What was ever put on
it no state of the machine shows, since objects are taken off again. So the phase is run with a
record beside the stack (`recorded`): after each reference that was followed, what has come to lie
on the stack is written down. The record has no influence on the run (`phase_records`). It lists the
marked objects in the order in which they were marked, all but the one that there was no room for.
As no object is marked twice, none is put on the stack twice; and what waits is marked and
reachable, so a stack that overflows holds fewer objects than are reachable.

Results:
* `mark_eq_record`: the run with the record is the mark phase.
* `Claiming.bounded`: the bound, for any way of marking that leaves the graph readable.
* `mark_phases_bounded`: the bound for the marks in a bitmap, in a header word and in a flag.
-/

namespace Reclaim.Marking

variable {σ α β : Type}

/-! ## A record of what is put on the stack -/

/-- The machine without its record. -/
def unlogged (m : Machine ((σ × List Nat) × MarkStack)) : Machine (σ × MarkStack) :=
  m.withOwn (m.own.1.1, m.own.2)

/-- A step that began in `m` has led to `m'`: what lies above the old top of the stack is added to
the record. -/
def logged (m : Machine ((σ × List Nat) × MarkStack)) (m' : Machine (σ × MarkStack)) :
    Machine ((σ × List Nat) × MarkStack) :=
  m'.withOwn ((m'.own.1, m.own.1.2 ++ m'.own.2.items.toList.drop m.own.2.items.size), m'.own.2)

/-- `visit`, with a record of what it puts on the stack. A visitor of the mark phase takes nothing
off, so what lies above the old top is all that it put there. -/
def recorded (visit : Value → GcM (σ × MarkStack) Value) (v : Value) :
    GcM ((σ × List Nat) × MarkStack) Value := fun m =>
  match visit v (unlogged m) with
  | .ok v' m' => .ok v' (logged m m')
  | .error e m' => .error e (logged m m')

/-- `x` does what `y` does, with a record beside it. -/
def Records (x : GcM ((σ × List Nat) × MarkStack) α) (y : GcM (σ × MarkStack) α) : Prop :=
  ∀ m, y (unlogged m) = match x m with
    | .ok a m' => .ok a (unlogged m')
    | .error e m' => .error e (unlogged m')

namespace Records

variable {x : GcM ((σ × List Nat) × MarkStack) α} {y : GcM (σ × MarkStack) α}
  {f : α → GcM ((σ × List Nat) × MarkStack) β} {g : α → GcM (σ × MarkStack) β}

theorem pure (a : α) : Records (σ := σ) (Pure.pure a) (Pure.pure a) := fun _ => rfl

theorem throw (e : Fault) :
    Records (σ := σ) (α := α) (MonadExcept.throw e) (MonadExcept.throw e) := fun _ => rfl

theorem bind (hx : Records x y) (hf : ∀ a, Records (f a) (g a)) : Records (x >>= f) (y >>= g) := by
  intro m
  have hm := hx m
  cases hrun : x m with
  | ok a m' =>
    rw [hrun] at hm
    rw [bind_ok hm, bind_ok hrun]
    exact hf a m'
  | error e m' =>
    rw [hrun] at hm
    rw [bind_error hm, bind_error hrun]

/-- Heap and roots lie outside the record. -/
theorem heap (z : HeapM α) : Records (σ := σ) (liftM z) (liftM z) := by
  intro m
  rw [heap_lift_eq, heap_lift_eq, show (unlogged m).heap = m.heap from rfl]
  cases z m.heap <;> rfl

theorem roots (z : RootsM α) : Records (σ := σ) (liftM z) (liftM z) := by
  intro m
  rw [roots_lift_eq, roots_lift_eq, show (unlogged m).roots = m.roots from rfl]
  cases z m.roots <;> rfl

theorem forM {γ : Type} {f : γ → GcM ((σ × List Nat) × MarkStack) Unit}
    {g : γ → GcM (σ × MarkStack) Unit} (hf : ∀ a, Records (f a) (g a)) (as : List γ) :
    Records (as.forM f) (as.forM g) := by
  induction as with
  | nil => exact pure ()
  | cons a as ih => exact (hf a).bind fun _ => ih

end Records

variable {visit : Value → GcM (σ × MarkStack) Value}

theorem recorded_records (v : Value) : Records (recorded visit v) (visit v) := by
  intro m
  rw [recorded]
  cases visit v (unlogged m) <;> rfl

theorem traceObject_records (o : Nat) :
    Records (traceObject (recorded visit) o) (traceObject visit o) := by
  refine (Records.heap _).bind fun fields => .forM (fun a => ?_) fields
  exact (Records.heap _).bind fun v => (recorded_records v).bind fun _ => .heap _

theorem traceRoots_records : Records (traceRoots (recorded visit)) (traceRoots visit) := by
  have hroots : Records (σ := σ) GcM.roots GcM.roots := fun _ => rfl
  refine hroots.bind fun r => .forM (fun slot => ?_) r.references
  exact (Records.roots _).bind fun v => (recorded_records v).bind fun _ => .roots _

theorem next?_records : Records (σ := σ) next? next? := by
  intro m
  have htop : (unlogged m).own.2.top? = m.own.2.top? := rfl
  rw [next?, next?, bind_ok GcM.run_scratch, bind_ok GcM.run_scratch, htop]
  cases m.own.2.top? <;> rfl

theorem drain_records (n : Nat) : Records (drain (recorded visit) n) (drain visit n) := by
  induction n with
  | zero => exact .throw .endless
  | succ n ih =>
    refine next?_records.bind fun next => ?_
    cases next with
    | none => exact .pure ()
    | some o => exact (traceObject_records o).bind fun _ => ih

/-- The mark phase is the same with the record and without it. -/
theorem phase_records (visit : Value → GcM (σ × MarkStack) Value) :
    Records (phase (recorded visit)) (phase visit) := by
  have hsize : Records (σ := σ) GcM.heapSize GcM.heapSize := fun _ => rfl
  exact hsize.bind fun n => traceRoots_records.bind fun _ => drain_records (n + 1)

/-! ## The recorded mark phase -/

/-- The machine in which the mark phase begins: nothing is on the stack, and nothing was. -/
def opened (capacity : Nat) (m : Machine σ) : Machine ((σ × List Nat) × MarkStack) :=
  m.withOwn ((m.own, []), .empty capacity)

/-- The mark phase from `m`, with its stack and its record left in view. -/
def record (capacity : Nat) (claim : Nat → GcM σ Bool) (m : Machine σ) :
    EStateM.Result Fault (Machine ((σ × List Nat) × MarkStack)) Unit :=
  phase (recorded (shade claim)) (opened capacity m)

/-- Where a mark phase has ended or failed, without stack and record. -/
def closed : EStateM.Result Fault (Machine ((σ × List Nat) × MarkStack)) Unit →
    EStateM.Result Fault (Machine σ) Unit
  | .ok _ m => .ok () (m.withOwn m.own.1.1)
  | .error e m => .error e (m.withOwn m.own.1.1)

/-- Whether a mark phase has ended. -/
def hasEnded : EStateM.Result Fault (Machine σ) Unit → Bool
  | .ok _ _ => true
  | .error _ _ => false

/-- The objects that the mark phase from `m` puts on its stack, in their order, whether it ends or
fails. -/
def pushed (capacity : Nat) (claim : Nat → GcM σ Bool) (m : Machine σ) : List Nat :=
  match record capacity claim m with
  | .ok _ m' | .error _ m' => m'.own.1.2

/-- The objects that are on the stack when the mark phase from `m` ends or fails. -/
def waiting (capacity : Nat) (claim : Nat → GcM σ Bool) (m : Machine σ) : Array Nat :=
  match record capacity claim m with
  | .ok _ m' | .error _ m' => m'.own.2.items

theorem mark_eq_record (capacity : Nat) (claim : Nat → GcM σ Bool) (m : Machine σ) :
    mark capacity claim m = closed (record capacity claim m) := by
  have hrec := phase_records (shade claim) (opened capacity m)
  rw [mark_eq, record, show m.withOwn (m.own, MarkStack.empty capacity) = unlogged
    (opened capacity m) from rfl, hrec]
  cases phase (recorded (shade claim)) (opened capacity m) <;> rfl

/-! ## The bound -/

/-- From `m` to `m'` exactly the reachable objects came to be `marked`. The objects are given by
`os`: at `o` there is one of `n` words. Roots and objects are as they were; whatever has changed
stands right before a reachable object. -/
structure Painted (marked : Machine σ → Nat → Prop) (os : Nat → Nat → Prop)
    (m m' : Machine σ) : Prop where
  marked_iff : ∀ o n, os o n → (marked m' o ↔ m.Reachable o)
  roots : m'.roots = m.roots
  payload : ∀ o n i, os o n → i < n → m'.heap.word (o + i) = m.heap.word (o + i)
  rest : ∀ a, ¬ m.Reachable (a + 1) → m'.heap.word a = m.heap.word a

/-- The mark phase from `m` as a search with a bounded stack. -/
structure Bounded (capacity : Nat) (claim : Nat → GcM σ Bool) (marked : Machine σ → Nat → Prop)
    (os : Nat → Nat → Prop) (m : Machine σ) : Prop where
  /-- It ends; it fails only if the stack holds fewer objects than are reachable. -/
  ends : Runs (mark capacity claim) m (fun _ m' => Painted marked os m m')
    fun f _ => f = .markStackOverflow capacity ∧ capacity < {o | m.Reachable o}.ncard
  /-- What is written down is this run. -/
  recorded : mark capacity claim m = closed (record capacity claim m)
  /-- No object is put on the stack twice, and none that is not reachable. -/
  once : (pushed capacity claim m).Nodup ∧ ∀ o ∈ pushed capacity claim m, m.Reachable o
  /-- When it ends, every reachable object was on the stack, and none is left there. -/
  drained : ∀ {m'}, mark capacity claim m = .ok () m' →
    (∀ o, m.Reachable o → o ∈ pushed capacity claim m) ∧ waiting capacity claim m = #[]

variable {claim : Nat → GcM σ Bool} {h₀ : Arena} {V : Nat → Prop} {r : Roots}
  {I : Machine σ → List Nat → Prop} {capacity : Nat}

/-- The record holds the marked objects in the order in which they were marked. -/
def RecordsOrder (I : Machine σ → List Nat → Prop) (m : Machine (σ × List Nat)) (ms : List Nat) :
    Prop :=
  I (m.withOwn m.own.1) ms ∧ m.own.2 = ms.reverse

/-- How the recorded phase fails: more objects are reachable than the stack holds, and none was put
on it twice. -/
structure Overran (capacity : Nat) (h₀ : Arena) (r : Roots) (f : Failure)
    (m : Machine ((σ × List Nat) × MarkStack)) : Prop where
  overflow : f = .markStackOverflow capacity
  many : capacity < {o | Reach h₀ r.Refers o}.ncard
  nodup : m.own.1.2.Nodup
  reach : ∀ o ∈ m.own.1.2, Reach h₀ r.Refers o

/-- A finite set has as many members as any list of them has entries, if none is listed twice. -/
theorem length_le_ncard {s : Set Nat} (hs : s.Finite) {ms : List Nat} (hd : ms.Nodup)
    (hmem : ∀ o ∈ ms, o ∈ s) : ms.length ≤ s.ncard := by
  rw [← List.toFinset_card_of_nodup hd, ← Set.ncard_coe_finset]
  exact Set.ncard_le_ncard (fun o ho => hmem o (by simpa using ho)) hs

theorem Readable.recordsOrder (hr : Readable h₀ V I) : Readable h₀ V (RecordsOrder I) where
  size_eq hI := hr.size_eq hI.1
  head hI := hr.head hI.1
  pair hI := hr.pair hI.1
  inside := hr.inside
  succ := hr.succ

/-- Following a reference adds to the record what it adds to the marked objects. -/
theorem recorded_shades (hr : Readable h₀ V I) (hc : Claiming claim V I)
    (hreach : ∀ o, Reach h₀ r.Refers o → V o) (hk : ∀ o, Reach h₀ r.Refers o → h₀.tag o ≠ none) :
    Shades (recorded (shade claim)) capacity V r h₀ (RecordsOrder I) (Overran capacity h₀ r) where
  run {m ms v o} hm hv hV hR := by
    have hplain : Shaded capacity V r h₀ I (unlogged m) ms :=
      ⟨hm.capacity, hm.inv.1, hm.nodup, hm.valid, hm.waiting, hm.height, hm.reach, hm.roots⟩
    have hlog : m.own.1.2 = ms.reverse := hm.inv.2
    have hrun := shade_runs hc hplain hv hV hR
    unfold Runs at hrun ⊢
    rw [recorded]
    cases hs : shade claim v (unlogged m) with
    | ok v' m' =>
      rw [hs] at hrun
      obtain ⟨rfl, ms', hm', ⟨new, hstack, rfl⟩, ho⟩ := hrun
      have hnew : m'.own.2.items.toList.drop m.own.2.items.size = new := by
        rw [hstack, ← Array.length_toList]
        exact List.drop_left
      refine ⟨rfl, new.reverse ++ ms,
        ⟨hm'.capacity, ⟨hm'.inv, ?_⟩, hm'.nodup, hm'.valid, hm'.waiting, hm'.height, hm'.reach,
        hm'.roots⟩, ⟨new, hstack, rfl⟩, ho⟩
      change m.own.1.2 ++ m'.own.2.items.toList.drop m.own.2.items.size = _
      rw [hnew, hlog, List.reverse_append, List.reverse_reverse]
    | error e m' =>
      rw [hs] at hrun
      cases e with
      | failed f =>
        obtain ⟨hf, hstack, -, os, -, hnodup, hos, hlt⟩ := hrun
        have hfinite : {o | Reach h₀ r.Refers o}.Finite :=
          (Set.finite_lt_nat h₀.size).subset fun o ho => (hr.inside o (hreach o ho)).1
        -- the object that did not fit is marked, but not on the stack
        have hsame : (logged m m').own.1.2 = ms.reverse := by
          change m.own.1.2 ++ m'.own.2.items.toList.drop m.own.2.items.size = _
          rw [hstack, show (unlogged m).own.2 = m.own.2 from rfl, ← Array.length_toList,
            List.drop_length, List.append_nil, hlog]
        refine ⟨hf, Nat.lt_of_lt_of_le hlt (length_le_ncard hfinite hnodup hos), ?_, ?_⟩
        · rw [hsame]
          exact List.nodup_reverse.mpr hm.nodup
        · rw [hsame]
          exact fun o ho => hm.reach o (List.mem_reverse.mp ho)
      | trap | endless => exact hrun
  stop _ hR hn := absurd hn (hk _ hR)

/-- Marking what is reachable is a search with a bounded stack, if the graph can be read while it is
marked. -/
theorem Claiming.bounded {m : Machine σ} {marked : Machine σ → Nat → Prop} {os : Nat → Nat → Prop}
    (hc : Claiming claim m.Reachable I) (hr : Readable m.heap m.Reachable I)
    (hk : ∀ o, m.Reachable o → m.heap.tag o ≠ none) (hI : I m [])
    (hpaint : ∀ m' ms, I m' ms → (∀ o, o ∈ ms ↔ m.Reachable o) → m'.roots = m.roots →
      Painted marked os m m') :
    Bounded capacity claim marked os m := by
  have hphase := phase_runs (m := opened capacity m) hr.recordsOrder
    (recorded_shades hr hc (fun _ h => h) hk) ⟨hI, rfl⟩ rfl fun _ ho => .root ho
  have hrec := mark_eq_record capacity claim m
  have hrun : record capacity claim m = phase (recorded (shade claim)) (opened capacity m) := rfl
  unfold Runs at hphase
  rw [← hrun] at hphase
  cases hres : record capacity claim m with
  | ok a m' =>
    rw [hres] at hphase hrec
    obtain ⟨hempty, ms, hm, hms, -⟩ := hphase
    have hlog : pushed capacity claim m = ms.reverse := by
      rw [pushed, hres]
      exact hm.inv.2
    refine ⟨?_, mark_eq_record capacity claim m, ?_, fun {m₁} _ => ⟨fun o ho => ?_, ?_⟩⟩
    · exact Runs.of_eq hrec (hpaint _ ms hm.inv.1 hms hm.roots)
    · rw [hlog]
      exact ⟨List.nodup_reverse.mpr hm.nodup, fun o ho => hm.reach o (List.mem_reverse.mp ho)⟩
    · rw [hlog]
      exact List.mem_reverse.mpr ((hms o).mpr ho)
    · rw [waiting, hres]
      exact hempty
  | error e m' =>
    rw [hres] at hphase hrec
    cases e with
    | failed f =>
      refine ⟨?_, mark_eq_record capacity claim m, ?_, fun hok => ?_⟩
      · unfold Runs
        rw [hrec]
        exact ⟨hphase.overflow, hphase.many⟩
      · rw [pushed, hres]
        exact ⟨hphase.nodup, hphase.reach⟩
      · rw [hrec] at hok
        cases hok
    | trap | endless => exact absurd hphase id

/-- What is known of a phase that is seen to end. -/
theorem Bounded.exists_ok {m : Machine σ} {marked : Machine σ → Nat → Prop} {os : Nat → Nat → Prop}
    (hb : Bounded capacity claim marked os m) (hok : hasEnded (mark capacity claim m) = true) :
    ∃ m', mark capacity claim m = .ok () m' ∧ Painted marked os m m' := by
  cases hrun : mark capacity claim m with
  | ok a m' => exact ⟨m', rfl, hb.ends.ok hrun⟩
  | error e m' =>
    rw [hrun] at hok
    cases hok

/-! ## Marks in header words -/

/-- A heap that can be marked. The objects of `os` are unmarked; what is reachable is among them and
can be traced, and the word before it, where its mark is, belongs to none of them. -/
structure Markable (marked : Machine σ → Nat → Prop) (os : Nat → Nat → Prop)
    (m : Machine σ) : Prop where
  known : ∀ o, m.Reachable o → m.heap.Traceable o
  among : ∀ o, m.Reachable o → ∃ n, os o n ∧ m.heap.extent o ≤ n
  header : ∀ o n, os o n → 1 ≤ o
  unmarked : ∀ o n, os o n → ¬ marked m o
  apart : ∀ o n o', os o n → m.Reachable o' → o' ≤ o ∨ o + n < o'

/-- Blocks that lie apart can be marked. The object in a block has all its words behind the header
of three. -/
theorem Spaced.markable {marked : Machine σ → Nat → Prop} {m : Machine σ} {B : Nat × Nat → Prop}
    (hb : Spaced m.heap m.Reachable B) (hunmarked : ∀ b, B b → ¬ marked m b.1)
    (hk : ∀ o, m.Reachable o → m.heap.tag o ≠ none) :
    Markable marked (fun o n => B (o, n + 3)) m where
  known o ho := by
    have hin := (hb.object_inside ho).2
    rw [Arena.extent_eq (hk o ho)] at hin
    exact .of_payload (hk o ho) hin
  among o ho := by
    obtain ⟨n, hn, hfit⟩ := hb.placed o ho
    have hle := hb.extent_le hn hfit
    refine ⟨n - 3, ?_, by omega⟩
    rwa [Nat.sub_add_cancel (by omega)]
  header o n hn := Nat.le_trans (by decide) (hb.inside hn).1
  unmarked o n hn := hunmarked _ hn
  apart o n o' hn ho' := (hb.object_apart hn ho').imp id fun h => by omega

section Headers

variable {test : Word → Bool} {mark : Word → Word} {marked : Machine σ → Nat → Prop}
  {os : Nat → Nat → Prop} {m m' : Machine σ}
  {ms : List Nat}

/-- Marks lie in no object. -/
theorem InHeaders.word_eq (hI : InHeaders mark m m.Reachable m' ms) (hm : Markable marked os m)
    {o n i : Nat} (ho : os o n) (hi : i < n) :
    m'.heap.word (o + i) = m.heap.word (o + i) := by
  refine hI.other _ fun hmem => ?_
  rcases hm.apart o n (o + i + 1) ho (hI.valid _ hmem) with h | h <;> omega

theorem Markable.readable (hm : Markable marked os m) :
    Readable m.heap m.Reachable (InHeaders mark m m.Reachable) where
  size_eq hI := hI.size_eq
  head hI o ho := by
    obtain ⟨n, hn, hfit⟩ := hm.among o ho
    exact hI.word_eq hm hn (Nat.lt_of_lt_of_le m.heap.extent_pos hfit)
  pair hI o ho ht := by
    obtain ⟨n, hn, hfit⟩ := hm.among o ho
    rw [Arena.extent_of_pair ht] at hfit
    exact ⟨hI.word_eq hm hn (by omega), hI.word_eq hm hn (by omega)⟩
  inside o ho := ⟨(hm.known o ho).inside, (hm.known o ho).fields⟩
  succ ho hc := ho.step hc

/-- Marks in the words before the objects. -/
theorem Flags.bounded (hf : Flags claim test mark)
    (htest : ∀ m o, marked m o ↔ test (m.heap.word (o - 1)) = true) (hm : Markable marked os m) :
    Bounded capacity claim marked os m := by
  have hclear : ∀ o n, os o n → test (m.heap.word (o - 1)) = false := fun o n ho =>
    Bool.eq_false_iff.mpr fun h => hm.unmarked o n ho ((htest m o).mpr h)
  have hhead : ∀ o, m.Reachable o → 1 ≤ o ∧ o - 1 < m.heap.size := by
    intro o ho
    obtain ⟨n, hn, -⟩ := hm.among o ho
    have hin := (hm.known o ho).inside
    have hpos := hm.header o n hn
    omega
  have hclean : ∀ o, m.Reachable o → test (m.heap.word (o - 1)) = false := by
    intro o ho
    obtain ⟨n, hn, -⟩ := hm.among o ho
    exact hclear o n hn
  refine (hf.claiming hhead hclean).bounded hm.readable (fun o ho => (hm.known o ho).known)
    (.start mark m m.Reachable) ?_
  intro m' ms hI hms hroots
  refine ⟨fun o n ho => ?_, hroots, fun o n i ho hi => hI.word_eq hm ho hi,
    fun a ha => hI.other a fun hmem => ha ((hms _).mp hmem)⟩
  rw [htest, hI.test_eq hf (hm.header o n ho) (hclear o n ho), decide_eq_true_iff]
  exact hms o

end Headers

end Reclaim.Marking

namespace Reclaim

/-! ## The three collectors -/

theorem MarkSweep.Filled.traceable {m : Machine MarkSweep} {ts : List Tile} {S : Nat → Prop}
    (hi : Filled m ts S) (hk : ∀ o, m.Reachable o → m.heap.tag o ≠ none) (o : Nat)
    (ho : m.Reachable o) : m.heap.Traceable o := by
  have hin := (hi.inside (ho.mem_of_linked hi.linked fun _ hr => hi.roots.refers hr)).2
  rw [Arena.extent_eq (hk o ho)] at hin
  exact .of_payload (hk o ho) hin

/-- The bit of `o` is set. -/
def MarkSweep.HasMark (m : Machine (MarkSweep × MarkBitmap)) (o : Nat) : Prop :=
  m.own.2.isMarked o = true

/-- The mark word of `o` is set. -/
def Sliding.HasMark (m : Machine Sliding) (o : Nat) : Prop := m.heap.word (o - markOffset) ≠ 0

/-- The mark is among the flags of `o`. -/
def Generational.HasMark (m : Machine Generational) (o : Nat) : Prop :=
  m.heap.word (o - flagsOffset) &&& markedFlag ≠ 0

theorem Sliding.Filled.markable {m : Machine Sliding} {blocks : List (Nat × Nat)} {S : Nat → Prop}
    (hi : Filled m blocks S) (hk : ∀ o, m.Reachable o → m.heap.tag o ≠ none) :
    Marking.Markable HasMark (fun o n => (o, n + 3) ∈ blocks) m :=
  (hi.spaced.mono fun _ ho => ho.mem_of_linked hi.linked fun _ hr => hi.roots.refers hr).markable
    (fun b hb hm => hm (hi.unmarked b hb)) hk

theorem Generational.Filled.markable {m : Machine Generational} {young old : List (Nat × Nat)}
    {S : Nat → Prop} (hi : Filled m young old S) (hk : ∀ o, m.Reachable o → m.heap.tag o ≠ none) :
    Marking.Markable HasMark (fun o n => (o, n + 3) ∈ young ∨ (o, n + 3) ∈ old) m :=
  (hi.spaced.mono fun _ ho => ho.mem_of_linked hi.linked fun _ hr => hi.roots.refers hr).markable
    (fun b hb hm => hm (hi.no_mark b hb)) hk

/-- A bitmap without marks that covers the arena. -/
theorem MarkSweep.bounded {m : Machine (MarkSweep × MarkBitmap)} {capacity : Nat}
    (hk : ∀ o, m.Reachable o → m.heap.Traceable o) (hbits : m.heap.size ≤ m.own.2.marks.size)
    (hclean : ∀ o, ¬ HasMark m o) :
    Marking.Bounded capacity claim HasMark (fun _ _ => True) m := by
  have hr : Marking.Readable m.heap m.Reachable (InBitmap m) := {
    size_eq := fun hI => by rw [hI.heap_eq]
    head := fun hI _ _ => by rw [hI.heap_eq]
    pair := fun hI _ _ _ => by
      rw [hI.heap_eq]
      exact ⟨rfl, rfl⟩
    inside := fun o ho => ⟨(hk o ho).inside, (hk o ho).fields⟩
    succ := fun ho hc => ho.step hc }
  have hstart : InBitmap m m [] := .unmarked fun a => Bool.eq_false_iff.mpr (hclean a)
  refine (claim_claiming fun o ho => Nat.lt_of_lt_of_le (hk o ho).inside hbits).bounded hr
    (fun o ho => (hk o ho).known) hstart ?_
  intro m' ms hI hms hroots
  refine ⟨fun o _ _ => ?_, hroots, fun o _ i _ _ => by rw [hI.heap_eq],
    fun a _ => by rw [hI.heap_eq]⟩
  rw [HasMark, hI.mark o, decide_eq_true_iff]
  exact hms o

/-- The mark phase of each collector that marks, from any heap without marks in which the reachable
objects have known tags, however they refer to each other: it ends, puts no object on the stack
twice, fails only if the stack holds fewer objects than are reachable, and otherwise leaves exactly
the reachable objects marked, the stack empty, and roots and objects as they were. -/
theorem mark_phases_bounded :
    (∀ {m : Machine (MarkSweep × MarkBitmap)} (capacity : Nat),
      (∀ o, m.Reachable o → m.heap.Traceable o) →
      m.heap.size ≤ m.own.2.marks.size → (∀ o, ¬ MarkSweep.HasMark m o) →
      Marking.Bounded capacity MarkSweep.claim MarkSweep.HasMark (fun _ _ => True) m) ∧
    (∀ {m : Machine Sliding} {os : Nat → Nat → Prop} (capacity : Nat),
      Marking.Markable Sliding.HasMark os m →
      Marking.Bounded capacity Sliding.claim Sliding.HasMark os m) ∧
    ∀ {m : Machine Generational} {os : Nat → Nat → Prop} (capacity : Nat),
    Marking.Markable Generational.HasMark os m →
      Marking.Bounded capacity Generational.claim Generational.HasMark os m := by
  refine ⟨fun capacity hk hbits hclean => MarkSweep.bounded hk hbits hclean, fun capacity hm => ?_,
    fun capacity hm => ?_⟩
  · exact Sliding.claim_flags.bounded (fun m o => bne_iff_ne.symm) hm
  · exact Generational.claim_flags.bounded (fun m o => bne_iff_ne.symm) hm

/-- A pair that refers to itself; two pairs that refer to each other, below them a dead one, with
room for one object on the stack and with room for none; and a nursery pair and a tenured one that
refer to each other. The first three phases put each object on the stack once. The last one fails,
and indeed there is something reachable. -/
theorem rings_marked :
    (∃ m', Marking.mark 1 MarkSweep.claim (MarkSweep.begun MarkSweep.patchy) = .ok () m' ∧
      Marking.Painted MarkSweep.HasMark (fun _ _ => True) (MarkSweep.begun MarkSweep.patchy) m' ∧
      Marking.pushed 1 MarkSweep.claim (MarkSweep.begun MarkSweep.patchy) = [8]) ∧
    (∃ m', Marking.mark 1 Sliding.claim Sliding.loop = .ok () m' ∧
      Marking.Painted Sliding.HasMark (fun o n => (o, n + 3) ∈ [(3, 6), (9, 6), (15, 6)])
        Sliding.loop m' ∧
      Marking.pushed 1 Sliding.claim Sliding.loop = [15, 9]) ∧
    (∃ m', Marking.mark 1 Generational.claim crammed = .ok () m' ∧
      Marking.Painted Generational.HasMark
        (fun o n => (o, n + 3) ∈ [(3, 6)] ∨ (o, n + 3) ∈ [(15, 6)]) crammed m' ∧
      Marking.pushed 1 Generational.claim crammed = [15, 3]) ∧
    ∃ m', Marking.mark 0 Sliding.claim Sliding.loop = .error (.failed (.markStackOverflow 0)) m' ∧
      0 < {o | Sliding.loop.Reachable o}.ncard := by
  obtain ⟨hsweep, hslide, hmajor⟩ := mark_phases_bounded
  have hpatchy := MarkSweep.patchy_inv.filled
  have hself : ∀ o, MarkSweep.patchy.Reachable o → MarkSweep.patchy.heap.tag o ≠ none := by
    intro o ho
    obtain rfl := ho.mem_of_linked hpatchy.linked fun _ hr => hpatchy.roots.refers hr
    decide
  have hloop := Sliding.loop_inv.filled
  have hpair : ∀ o, Sliding.loop.Reachable o → Sliding.loop.heap.tag o ≠ none := by
    intro o ho
    rcases ho.mem_of_linked hloop.linked fun _ hr => hloop.roots.refers hr with rfl | rfl <;> decide
  have hcrossed : ∀ o, crammed.Reachable o → crammed.heap.tag o ≠ none := by
    intro o ho
    rcases ho.mem_of_linked crammed_filled.linked fun _ hr =>
      crammed_filled.roots.refers hr with rfl | rfl <;> decide
  have hbitmap := hsweep (m := MarkSweep.begun MarkSweep.patchy) 1
      (hpatchy.traceable hself) hpatchy.bits fun o hm =>
    absurd hm (by rw [MarkSweep.HasMark, MarkSweep.begun, Machine.withOwn_own,
      MarkBitmap.isMarked_empty]; decide)
  obtain ⟨m₁, hrun₁, hm₁⟩ := hbitmap.exists_ok (by decide +kernel)
  obtain ⟨m₂, hrun₂, hm₂⟩ := (hslide 1 (hloop.markable hpair)).exists_ok (by decide +kernel)
  obtain ⟨m₃, hrun₃, hm₃⟩ := (hmajor 1 (crammed_filled.markable hcrossed)).exists_ok
    (by decide +kernel)
  have hfull : Marking.hasEnded (Marking.mark 0 Sliding.claim Sliding.loop) =
    false := by decide +kernel
  refine ⟨⟨m₁, hrun₁, hm₁, by decide +kernel⟩, ⟨m₂, hrun₂, hm₂, by decide +kernel⟩,
    ⟨m₃, hrun₃, hm₃, by decide +kernel⟩, ?_⟩
  cases hrun : Marking.mark 0 Sliding.claim Sliding.loop with
  | ok a m' =>
    rw [hrun] at hfull
    cases hfull
  | error e m' =>
    obtain ⟨f, rfl, rfl, hlt⟩ := (hslide 0 (hloop.markable hpair)).ends.error hrun
    exact ⟨m', rfl, hlt⟩

end Reclaim
