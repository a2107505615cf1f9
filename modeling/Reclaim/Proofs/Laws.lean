import Reclaim.Collector
import Reclaim.Proofs.Stores

/-!
# What a mutator relies on

The operations of a strategy (`Operations`) and the laws they obey (`Laws`), with respect to an
invariant `I m S` that each strategy chooses for itself: the machine `m` is in a good state, and `S`
are the objects that a program may still use. An operation either may collect, and then what the
roots reach is carried along (`Moved`), or it leaves every object in place and drops some of them at
most (`Left`).

A strategy proves its laws about its own state; `Laws.hosted` takes them to the machine whose
collector may be any.

Results:
* `Moved.refl`, `Moved.trans`: doing nothing, and one such operation after the other.
* `Laws.hosted`: the laws of a strategy are laws of the collector that selects it.
-/

namespace Reclaim

variable {σ : Type}

/-- The objects that the roots reach. -/
def Machine.Reachable (m : Machine σ) : Nat → Prop := Reach m.heap m.roots.Refers

/-- The objects that the roots or the values `vs` reach. -/
def Machine.Live (m : Machine σ) (vs : List Value) : Nat → Prop :=
  Reach m.heap fun o => m.roots.Refers o ∨ ∃ v ∈ vs, v.ref? = some o

/-- What a strategy does on behalf of the mutator. -/
structure Operations (σ : Type) where
  allocate : Nat → GcM σ Nat
  collect : GcM σ Unit
  collectFull : GcM σ Unit
  /-- Stores into a field of an owner. -/
  writeField : Nat → Nat → Value → GcM σ Unit
  writeRoot : RootSlot → Value → GcM σ Unit
  initField : Nat → Value → GcM σ Unit
  push : Value → GcM σ Unit
  pop : GcM σ Value
  noteCopy : Nat → GcM σ Unit
  objects : σ → ReadM (List (Nat × Nat))
  /-- The words of an object's header. -/
  headerWords : σ → Nat

/-- The collector lists the object `o` with a block of `n` words. -/
def Operations.Lists (ops : Operations σ) (m : Machine σ) (o n : Nat) : Prop :=
  ∃ bs, ops.objects m.own m.heap = .ok bs ∧ (o, n) ∈ bs

/-- The bytes of a block for `n` words, those of the header included, can be counted in one word. -/
def Operations.Countable (ops : Operations σ) (m : Machine σ) (n : Nat) : Prop :=
  (n + ops.headerWords m.own) * wordBytes < wordValues

/-! ## Outcomes -/

/-- After some collections, `k` in number: the objects of `L`, which are those that the roots reach
and maybe more, have the new addresses `ρ`. Without any collection, nothing that could be used
before is lost. -/
structure Carried (I : Machine σ → (Nat → Prop) → Prop) (L : Nat → Prop) (m m' : Machine σ)
    (S S' : Nat → Prop) (ρ : Nat → Nat) (k : Nat) : Prop where
  closed : Closed m.heap L
  live : m.roots.Within L
  inv : I m' S'
  renamed : Renamed ρ L m.heap m'.heap
  kept : ∀ o, L o → S' (ρ o)
  roots : m.roots.Mapped (fun v v' => v' = v.rename ρ) m'.roots
  stress : m'.stress = m.stress
  cycles : m'.stats.collections = m.stats.collections + UInt64.ofNat k
  quiet : k = 0 → ∀ o, S o → ρ o = o ∧ S' o

/-- What the roots reach is carried along. -/
abbrev Moved (I : Machine σ → (Nat → Prop) → Prop) (m m' : Machine σ) (S S' : Nat → Prop)
    (ρ : Nat → Nat) (k : Nat) : Prop :=
  Carried I m.Reachable m m' S S' ρ k

/-- After an operation that leaves objects in place: those of `S'` are left, and no other is still
listed. -/
structure Left (ops : Operations σ) (I : Machine σ → (Nat → Prop) → Prop) (m m' : Machine σ)
    (S S' : Nat → Prop) :
    Prop where
  inv : I m' S'
  subset : ∀ o, S' o → S o
  listed : ∀ o n, S o → ops.Lists m' o n → S' o
  stress : m'.stress = m.stress
  cycles : ∃ k, k ≤ 1 ∧ m'.stats.collections = m.stats.collections + UInt64.ofNat k

section Reachable

variable {m m' : Machine σ} {S S' S'' : Nat → Prop} {ρ τ : Nat → Nat}

theorem Machine.closed_reachable (hS : Closed m.heap S) (hr : m.roots.Within S) :
    Closed m.heap m.Reachable :=
  hS.reach fun _ ho => hr.refers ho

theorem Machine.roots_reachable (hr : m.roots.Within S) : m.roots.Within m.Reachable :=
  fun slot v hv c hc => ⟨(hr slot v hv c hc).1, .root ⟨slot, v, hv, hc⟩⟩

theorem Machine.Reachable.mem (hS : Closed m.heap S) (hr : m.roots.Within S) {o : Nat}
    (ho : m.Reachable o) : S o :=
  ho.mem_of_closed hS fun _ h => hr.refers h

theorem Machine.Reachable.live {vs : List Value} {o : Nat} (ho : m.Reachable o) : m.Live vs o :=
  ho.mono fun _ => .inl

theorem Machine.Live.mem {vs : List Value} (hS : Closed m.heap S) (hr : m.roots.Within S)
    (hvs : ∀ v ∈ vs, v.Within S) {o : Nat} (ho : m.Live vs o) : S o := by
  refine ho.mem_of_closed hS ?_
  rintro o (h | ⟨v, hv, h⟩)
  · exact hr.refers h
  · exact (hvs v hv o h).2

theorem Machine.closed_live {vs : List Value} (hS : Closed m.heap S) (hr : m.roots.Within S)
    (hvs : ∀ v ∈ vs, v.Within S) :
    Closed m.heap (m.Live vs) :=
  hS.reach fun _ ho => Live.mem hS hr hvs (.root ho)

theorem Machine.within_live {vs : List Value} {v : Value} (hv : v ∈ vs) (hw : v.Within S) :
    v.Within (m.Live vs) :=
  fun c hc => ⟨(hw c hc).1, .root (.inr ⟨v, hv, hc⟩)⟩

theorem Machine.roots_live {vs : List Value} (hr : m.roots.Within S) : m.roots.Within (m.Live vs) :=
  fun slot v hv c hc => ⟨(hr slot v hv c hc).1, .root (.inl ⟨slot, v, hv, hc⟩)⟩

theorem Value.Named.image (hn : Named S') {V : Nat → Prop} (hρ : ∀ o, V o → S' (ρ o)) :
    Named fun o' => ∃ o, V o ∧ o' = ρ o := by
  rintro o' ⟨o, ho, rfl⟩
  exact hn _ (hρ o ho)

/-- What the roots refer to afterwards. -/
theorem Roots.Mapped.refers {r r' : Roots} (hm : r.Mapped (fun v v' => v' = v.rename ρ) r')
    (hr : r.Within S) (hn : Value.Named fun o' => ∃ o, S o ∧ o' = ρ o) {o' : Nat} :
    r'.Refers o' ↔ ∃ o, r.Refers o ∧ o' = ρ o := by
  constructor
  · rintro ⟨slot, v', hv', ho'⟩
    obtain ⟨v, hv, rfl⟩ := hm.of_slot hv'
    rw [Value.ref?_rename (hr slot v hv) hn] at ho'
    obtain ⟨o, ho, rfl⟩ := Option.map_eq_some_iff.mp ho'
    exact ⟨o, ⟨slot, v, hv, ho⟩, rfl⟩
  · rintro ⟨o, ⟨slot, v, hv, ho⟩, rfl⟩
    obtain ⟨v', hv', rfl⟩ := hm.slot slot v hv
    refine ⟨slot, _, hv', ?_⟩
    rw [Value.ref?_rename (hr slot v hv) hn, ho]
    rfl

/-- What the roots reach afterwards is what they reached before, renamed. -/
theorem Renamed.reachable (hren : Renamed ρ m.Reachable m.heap m'.heap)
    (hcl : Closed m.heap m.Reachable) (hw : m.roots.Within m.Reachable)
    (hn : Value.Named fun o' => ∃ o, m.Reachable o ∧ o' = ρ o)
    (hmap : m.roots.Mapped (fun v v' => v' = v.rename ρ) m'.roots) {o' : Nat} :
    m'.Reachable o' ↔ ∃ o, m.Reachable o ∧ o' = ρ o := by
  have hroots : m'.roots.Refers = fun o' => ∃ o, m.roots.Refers o ∧ o' = ρ o :=
    funext fun o' => propext (hmap.refers hw hn)
  have hreach : ∀ a, Reach m'.heap (fun o' => ∃ o, m.roots.Refers o ∧ o' = ρ o) a ↔ ∃ o,
      m.Reachable o ∧ a = ρ o := fun _ =>
    hren.reach hcl hn fun _ ho => .root ho
  rw [← hroots] at hreach
  exact hreach o'

end Reachable

section Moved

variable {I : Machine σ → (Nat → Prop) → Prop} {m m' m'' : Machine σ} {S S' S'' : Nat → Prop}
  {ρ τ : Nat → Nat} {k l : Nat}

theorem Moved.intro (hS : Closed m.heap S) (hr : m.roots.Within S) (hi : I m' S')
    (hren : Renamed ρ m.Reachable m.heap m'.heap) (hkept : ∀ o, m.Reachable o → S' (ρ o))
    (hroots : m.roots.Mapped (fun v v' => v' = v.rename ρ) m'.roots)
    (hstress : m'.stress = m.stress)
    (hcycles : m'.stats.collections = m.stats.collections + UInt64.ofNat k)
    (hquiet : k = 0 → ∀ o, S o → ρ o = o ∧ S' o) : Moved I m m' S S' ρ k :=
  ⟨Machine.closed_reachable hS hr,
    Machine.roots_reachable hr, hi, hren, hkept, hroots, hstress, hcycles, hquiet⟩

/-- Objects that keep their words keep their addresses. -/
theorem Same.renamed {h h' : Arena} (hs : Same S h h') (hS : Closed h S) : Renamed id S h h' := by
  refine ⟨fun _ _ _ _ h => h, fun o i ho hlt _ => hs o i ho hlt, fun o i ho ht hio => ?_⟩
  have hp := Arena.payload_of_pair ht
  rw [(hS.field o (o + i) ho ht (by omega)).rename_self (ρ := id) fun _ _ => rfl]
  exact Arena.value_congr (hs o i ho (by omega))

theorem Roots.Within.mapped_id {r : Roots} (hr : r.Within S) :
    r.Mapped (fun v v' => v' = v.rename id) r :=
  ⟨rfl, rfl, rfl, rfl, rfl,
    fun slot v hv => ⟨v, hv, ((hr slot v hv).rename_self fun _ _ => rfl).symm⟩⟩

/-- The objects stay where they are. -/
theorem Moved.of_same (hS : Closed m.heap S) (hr : m.roots.Within S) (hi : I m' S')
    (hsame : Same S m.heap m'.heap) (hsub : ∀ o, S o → S' o) (hroots : m'.roots = m.roots)
    (hstress : m'.stress = m.stress) (hcycles : m'.stats.collections = m.stats.collections) :
    Moved I m m' S S' id 0 := by
  have hmem : ∀ o, m.Reachable o → S o := fun o ho => ho.mem hS hr
  refine .intro hS hr hi ((hsame.mono hmem).renamed (Machine.closed_reachable hS hr))
    (fun o ho => hsub o (hmem o ho)) ?_ hstress
    (by rw [hcycles]; simp) fun _ o ho => ⟨rfl, hsub o ho⟩
  rw [hroots]
  exact hr.mapped_id

theorem Moved.refl (hi : I m S) (hS : Closed m.heap S) (hr : m.roots.Within S) :
    Moved I m m S S id 0 :=
  .of_same hS hr hi (.refl S m.heap) (fun _ ho => ho) rfl rfl rfl

/-- One after the other. -/
theorem Carried.trans {L L' : Nat → Prop} (h : Carried I L m m' S S' ρ k)
    (h' : Carried I L' m' m'' S' S'' τ l) (hL : ∀ o, L o → L' (ρ o)) (hn : Value.Named S') :
    Carried I L m m'' S S'' (τ ∘ ρ) (k + l) := by
  have hn' := hn.image h.kept
  refine ⟨h.closed, h.live, h'.inv, h.renamed.trans h'.renamed h.closed hn' hL,
    fun o ho => h'.kept _ (hL o ho), ?_, ?_, ?_, ?_⟩
  · refine ⟨h'.roots.depth.trans h.roots.depth, h'.roots.table.trans h.roots.table,
      h'.roots.capacity.trans h.roots.capacity,
      h'.roots.parked.trans h.roots.parked, h'.roots.hash.trans h.roots.hash, fun slot v hv => ?_⟩
    obtain ⟨v', hv', rfl⟩ := h.roots.slot slot v hv
    obtain ⟨v'', hv'', rfl⟩ := h'.roots.slot slot _ hv'
    exact ⟨_, hv'', Value.rename_rename (h.live slot v hv) hn'⟩
  · rw [h'.stress, h.stress]
  · rw [h'.cycles, h.cycles, UInt64.ofNat_add, UInt64.add_assoc]
  · intro hkl o ho
    obtain ⟨h1, h2⟩ := h.quiet (by omega) o ho
    obtain ⟨h3, h4⟩ := h'.quiet (by omega) o h2
    exact ⟨by rw [Function.comp_apply, h1, h3], h4⟩

/-- The roots reach afterwards what they reached before. -/
theorem Moved.reachable_iff (h : Moved I m m' S S' ρ k) (hn : Value.Named S') {o' : Nat} :
    m'.Reachable o' ↔ ∃ o, m.Reachable o ∧ o' = ρ o :=
  h.renamed.reachable h.closed h.live (hn.image h.kept) h.roots

theorem Moved.trans (h : Moved I m m' S S' ρ k) (h' : Moved I m' m'' S' S'' τ l)
    (hn : Value.Named S') :
    Moved I m m'' S S'' (τ ∘ ρ) (k + l) :=
  Carried.trans h h' (fun o ho => (h.reachable_iff hn).mpr ⟨o, ho, rfl⟩) hn

end Moved

/-! ## Laws -/

/-- The laws of a strategy. `N m o n` says that the object `o` is the one allocated last, in a block
with room for `n` words. -/
structure Laws (ops : Operations σ) (I : Machine σ → (Nat → Prop) → Prop)
    (N : Machine σ → Nat → Nat → Prop) : Prop where
  small : ∀ {m S}, I m S → m.heap.size < 0x1000000000000000
  objects : ∀ {m S}, I m S → ∃ bs, ops.objects m.own m.heap = .ok bs ∧ ∀ o, S o → ∃ n, (o, n) ∈ bs
  apart : ∀ {m S}, I m S → Apart 1 m.heap S
  roots : ∀ {m S}, I m S → m.roots.Within S
  congr : ∀ {m m' S}, I m S → m'.heap = m.heap → m'.roots = m.roots → m'.own = m.own → I m' S
  new_congr : ∀ {m m' o n}, N m o n → m'.heap = m.heap → m'.own = m.own → N m' o n
  new_inside : ∀ {m S o n}, I m S → S o → N m o n → o + n ≤ m.heap.size
  new_apart : ∀ {m S o n x}, I m S → S o → N m o n → S x → x ≠ o →
    x + m.heap.payload x ≤ o ∨ o + n ≤ x
  allocate : ∀ {m S n}, I m S → 1 ≤ n → ops.Countable m n →
    Runs (ops.allocate n) m (fun o m' => ∃ ρ S' k, k ≤ 3 ∧
    Moved I m m' S S' ρ k ∧ S' o ∧ N m' o n ∧ (∀ i, i < n → m'.heap.word (o + i) = 0) ∧ ∀ x,
      m.Reachable x → ρ x ≠ o) Fatal
  /-- A request that cannot be told in bytes ends in the attempt to refuse it. -/
  overflow : ∀ {m S n}, I m S → 1 ≤ n → ¬ ops.Countable m n → ops.allocate n m = .error .trap m
  collect : ∀ {m S}, I m S →
    Runs ops.collect m (fun _ m' => ∃ ρ S' k, k ≤ 3 ∧ Moved I m m' S S' ρ k) Fatal
  collectFull : ∀ {m S}, I m S →
    Runs ops.collectFull m (fun _ m' => ∃ ρ S' k, k ≤ 3 ∧ Moved I m m' S S' ρ k) Fatal
  /-- Words without references may be written into a new object. -/
  overwrite : ∀ {m S o n h'}, I m S → S o → N m o n → m.heap.succ o = [] → h'.size = m.heap.size →
    (∀ a, a < o ∨ o + n ≤ a → h'.word a = m.heap.word a) → h'.tag o ≠ none → h'.payload o ≤ n →
      h'.succ o = [] →
    I (m.withHeap h') S ∧ N (m.withHeap h') o n
  initField : ∀ {m S o n field v}, I m S → S o → N m o n → 3 ≤ n → m.heap.tag o = some .pair →
    field = o + 1 ∨ field = o + 2 →
    (m.heap.value field).isRef = false → v.Within S → ∃ m', ops.initField field v m = .ok () m' ∧
      I m' S ∧ N m' o n ∧
      Stored S field v.bits m.heap m'.heap ∧ m'.roots = m.roots ∧ m'.stats = m.stats ∧
        m'.stress = m.stress
  noteCopy : ∀ {m S o n src}, I m S → S o → N m o n → m.heap.succ o = [] → S src → src ≠ o →
    m.heap.payload src = n →
    ∃ m', ops.noteCopy o (m.withHeap (m.heap.copy src o n)) = .ok () m' ∧ I m' S ∧ N m' o n ∧
      (∀ x i, S x → x ≠ o → i < m.heap.payload x → m'.heap.word (x + i) = m.heap.word (x + i)) ∧
      (∀ i, i < n → m'.heap.word (o + i) = m.heap.word (src + i)) ∧
      m'.roots = m.roots ∧ m'.stats = m.stats ∧ m'.stress = m.stress
  writeField : ∀ {m S o field v}, I m S → m.roots.parked = 0 → S o → m.heap.tag o = some .pair →
    field = o + 1 ∨ field = o + 2 →
    v.Within S → Runs (ops.writeField o field v) m
      (fun _ m' => ∃ S', Left ops I m m' S S' ∧ Stored S' field v.bits m.heap m'.heap ∧
      m'.roots = m.roots) Fatal
  writeRoot : ∀ {m S slot old v}, I m S → m.roots.parked = 0 →
    m.roots.get? slot = some old → v.Within S →
    Runs (ops.writeRoot slot v) m (fun _ m' => ∃ S', Left ops I m m' S S' ∧ Same S' m.heap m'.heap ∧
      m'.roots = m.roots.set slot v) Fatal
  writeRoot_absent : ∀ {m S slot v}, I m S → v.Within S →
    m.roots.get? slot = none → ∃ m', ops.writeRoot slot v m = .error .trap m'
  push : ∀ {m S v}, I m S → m.roots.parked = 0 → v.Within S →
    m.roots.stack.size < m.roots.capacity →
    m.roots.stack.size + 1 < tableLimit → ∃ m', ops.push v m = .ok () m' ∧ I m' S ∧
      Same S m.heap m'.heap ∧
      m'.roots = { m.roots with stack := m.roots.stack.push v } ∧ m'.stats = m.stats ∧
        m'.stress = m.stress ∧
      m'.heap.size = m.heap.size
  push_fails : ∀ {m S v e}, I m S → pushRoot v m.roots = .error e m.roots →
    ops.push v m = .error e m
  pop : ∀ {m S v}, I m S → m.roots.parked = 0 → m.roots.stack.back? = some v →
    Runs ops.pop m (fun v' m' => v' = v ∧ ∃ S', Left ops I m m' S S' ∧ Same S' m.heap m'.heap ∧
      m'.roots = { m.roots with stack := m.roots.stack.pop }) Fatal
  pop_fails : ∀ {m S e}, I m S → popRoot m.roots = .error e m.roots → ops.pop m = .error e m
  park : ∀ {m S v}, I m S → v.Within S → m.roots.stack.size + 1 < tableLimit →
    I (m.withRoots { m.roots with stack := m.roots.stack.push v, parked := m.roots.parked + 1 }) S
  unpark : ∀ {m S}, I m S → 1 ≤ m.roots.parked → 1 ≤ m.roots.stack.size →
    I (m.withRoots { m.roots with stack := m.roots.stack.pop, parked := m.roots.parked - 1 }) S

/-- What was allocated has bytes that can be counted. -/
theorem Laws.countable {ops : Operations σ} {I : Machine σ → (Nat → Prop) → Prop}
    {N : Machine σ → Nat → Nat → Prop} {m m' : Machine σ} {S : Nat → Prop} {n o : Nat}
    (hl : Laws ops I N) (hi : I m S) (hn : 1 ≤ n) (hrun : ops.allocate n m = .ok o m') :
    ops.Countable m n :=
  Classical.byContradiction fun hcount => by
    rw [hl.overflow hi hn hcount] at hrun
    cases hrun

/-! ## Collectors -/

namespace Collector

/-- The operations of a collector, whichever its strategy is. -/
def operations : Operations Collector :=
  ⟨allocate, collect, collectFull, writeField, writeRoot, initField, push, pop, noteCopy, objects,
    headerWords⟩

theorem headerWords_le (c : Collector) : c.headerWords ≤ 3 := by
  cases c with
  | counting s => cases hm : s.mode <;> simp [headerWords, CountMode.headerWords, hm]
  | _ =>
    simp [headerWords, Semispace.headerWords, MarkSweep.headerWords, Sliding.headerWords,
      Generational.headerWords]

/-- No block that fits into memory has more bytes than can be counted. -/
theorem countable_of_lt {m : Machine Collector} {n : Nat} (h : n < tableLimit) :
    operations.Countable m n := by
  have hheader := m.own.headerWords_le
  unfold tableLimit at h
  unfold Operations.Countable
  simp only [operations, wordBytes, wordValues]
  omega

/-- The collector uses the operations `ops` for the states that `wrap` makes. -/
structure Hosts (wrap : σ → Collector) (ops : Operations σ) : Prop where
  injective : ∀ s t, wrap s = wrap t → s = t
  allocate : ∀ {m s} n, m.own = wrap s → Collector.allocate n m = within wrap s (ops.allocate n) m
  collect : ∀ {m s}, m.own = wrap s → Collector.collect m = within wrap s ops.collect m
  collectFull : ∀ {m s}, m.own = wrap s → Collector.collectFull m = within wrap s ops.collectFull m
  writeField : ∀ {m s} o a v, m.own = wrap s →
    Collector.writeField o a v m = within wrap s (ops.writeField o a v) m
  writeRoot : ∀ {m s} r v, m.own = wrap s →
    Collector.writeRoot r v m = within wrap s (ops.writeRoot r v) m
  initField : ∀ {m s} a v, m.own = wrap s →
    Collector.initField a v m = within wrap s (ops.initField a v) m
  push : ∀ {m s} v, m.own = wrap s → Collector.push v m = within wrap s (ops.push v) m
  pop : ∀ {m s}, m.own = wrap s → Collector.pop m = within wrap s ops.pop m
  noteCopy : ∀ {m s} o, m.own = wrap s → Collector.noteCopy o m = within wrap s (ops.noteCopy o) m
  objects : ∀ s, Collector.objects (wrap s) = ops.objects s
  headerWords : ∀ s, Collector.headerWords (wrap s) = ops.headerWords s

/-- The invariant of a strategy, for a machine whose collector follows it. -/
def Hosted (wrap : σ → Collector) (I : Machine σ → (Nat → Prop) → Prop) (m : Machine Collector)
    (S : Nat → Prop) : Prop :=
  ∃ s, m.own = wrap s ∧ I (m.withOwn s) S

def HostedNew (wrap : σ → Collector) (N : Machine σ → Nat → Nat → Prop) (m : Machine Collector)
    (o n : Nat) : Prop :=
  ∃ s, m.own = wrap s ∧ N (m.withOwn s) o n

section Within

variable {α : Type} {wrap : σ → Collector} {x : GcM σ α} {m : Machine Collector} {s : σ}

theorem runs_within {Q : α → Machine Collector → Prop} {E : Failure → Machine Collector → Prop}
    (hx : Runs x (m.withOwn s) (fun a m' => Q a (m'.withOwn (wrap m'.own)))
      fun f m' => E f (m'.withOwn (wrap m'.own))) :
    Runs (within wrap s x) m Q E := by
  unfold Runs within at *
  cases h : x (m.withOwn s) with
  | ok a m' => rw [h] at hx; exact hx
  | error e m' => rw [h] at hx; cases e <;> exact hx

/-- What is done by a strategy is known from it. -/
theorem Hosts.runs {y : GcM Collector α} {Q : α → Machine Collector → Prop}
    {E : Failure → Machine Collector → Prop} (he : y m = within wrap s x m)
    (hx : Runs x (m.withOwn s) (fun a m' => Q a (m'.withOwn (wrap m'.own)))
      fun f m' => E f (m'.withOwn (wrap m'.own))) :
    Runs y m Q E := by
  have hw : Runs (within wrap s x) m Q E := runs_within hx
  unfold Runs at hw ⊢
  rwa [he]

theorem run_within {a : α} {m' : Machine σ} (hx : x (m.withOwn s) = .ok a m') :
    within wrap s x m = .ok a (m'.withOwn (wrap m'.own)) := by
  rw [within, hx]

theorem run_within_error {e : Fault} (hs : m.own = wrap s)
    (hx : x (m.withOwn s) = .error e (m.withOwn s)) :
    within wrap s x m = .error e m := by
  rw [within, hx]
  cases m with
  | mk heap roots stress stats own =>
    cases hs
    rfl

/-- What the strategy has nothing to do with is done without it. -/
theorem within_roots {y : RootsM α} (hs : m.own = wrap s) :
    within wrap s (liftM y : GcM σ α) m = (liftM y : GcM Collector α) m := by
  cases m with
  | mk heap roots stress stats own =>
    cases hs
    rw [within, roots_lift_eq, roots_lift_eq, Machine.withOwn_roots]
    cases y roots <;> rfl

theorem within_heap {y : HeapM α} (hs : m.own = wrap s) :
    within wrap s (liftM y : GcM σ α) m = (liftM y : GcM Collector α) m := by
  cases m with
  | mk heap roots stress stats own =>
    cases hs
    rw [within, heap_lift_eq, heap_lift_eq, Machine.withOwn_heap]
    cases y heap <;> rfl

theorem within_pure {a : α} (hs : m.own = wrap s) :
    within wrap s (pure a : GcM σ α) m = (pure a : GcM Collector α) m := by
  cases m with
  | mk heap roots stress stats own =>
    cases hs
    rfl

end Within

end Collector

section Hosted

open Collector

variable {ops : Operations σ} {I : Machine σ → (Nat → Prop) → Prop}
  {N : Machine σ → Nat → Nat → Prop} {wrap : σ → Collector}
  {m : Machine Collector} {m' : Machine σ} {s : σ} {S S' : Nat → Prop}

theorem Moved.hosted {ρ : Nat → Nat} {k : Nat} (h : Moved I (m.withOwn s) m' S S' ρ k) :
    Moved (Hosted wrap I) m (m'.withOwn (wrap m'.own)) S S' ρ k :=
  ⟨h.closed, h.live, ⟨m'.own, rfl, h.inv⟩, h.renamed, h.kept, h.roots, h.stress, h.cycles, h.quiet⟩

theorem Left.hosted (hh : Hosts wrap ops) (h : Left ops I (m.withOwn s) m' S S') :
    Left Collector.operations (Hosted wrap I) m (m'.withOwn (wrap m'.own)) S S' := by
  refine ⟨⟨m'.own, rfl, h.inv⟩, h.subset, ?_, h.stress, h.cycles⟩
  rintro o n ho ⟨bs, hbs, hmem⟩
  refine h.listed o n ho ⟨bs, ?_, hmem⟩
  rw [← hh.objects]
  exact hbs

theorem Collector.Hosts.countable (hh : Hosts wrap ops) (hs : m.own = wrap s) {n : Nat} :
    Collector.operations.Countable m n ↔ ops.Countable (m.withOwn s) n := by
  unfold Operations.Countable
  rw [show Collector.operations.headerWords m.own = ops.headerWords s from (congrArg _ hs).trans
    (hh.headerWords s), Machine.withOwn_own]

/-- The laws of a strategy hold of the collector that follows it. -/
theorem Laws.hosted (hl : Laws ops I N) (hh : Hosts wrap ops) :
    Laws Collector.operations (Hosted wrap I) (HostedNew wrap N) where
  small := by
    rintro m S ⟨s, -, hi⟩
    exact hl.small hi
  objects := by
    rintro m S ⟨s, hs, hi⟩
    obtain ⟨bs, hbs, hmem⟩ := hl.objects hi
    have hobj : m.own.objects m.heap = .ok bs := by
      rw [hs, hh.objects]
      exact hbs
    exact ⟨bs, hobj, hmem⟩
  apart := by
    rintro m S ⟨s, -, hi⟩
    exact hl.apart hi
  roots := by
    rintro m S ⟨s, -, hi⟩
    exact hl.roots hi
  congr := by
    rintro m m' S ⟨s, hs, hi⟩ hheap hroots hown
    exact ⟨s, hown.trans hs, hl.congr hi hheap hroots rfl⟩
  new_congr := by
    rintro m m' o n ⟨s, hs, hN⟩ hheap hown
    exact ⟨s, hown.trans hs, hl.new_congr hN hheap rfl⟩
  new_inside := by
    rintro m S o n ⟨s, hs, hi⟩ ho ⟨t, ht, hN⟩
    cases hh.injective s t (hs.symm.trans ht)
    exact hl.new_inside hi ho hN
  new_apart := by
    rintro m S o n x ⟨s, hs, hi⟩ ho ⟨t, ht, hN⟩ hx hne
    cases hh.injective s t (hs.symm.trans ht)
    have hap := hl.new_apart hi ho hN hx hne
    rwa [Machine.withOwn_heap] at hap
  allocate := by
    rintro m S n ⟨s, hs, hi⟩ hn hcount
    refine Hosts.runs (hh.allocate n hs) ((hl.allocate hi hn ((hh.countable hs).mp hcount)).mono ?_)
    rintro o m' ⟨ρ, S', k, hk, hmv, ho, hN, hz, hne⟩
    exact ⟨ρ, S', k, hk, hmv.hosted, ho, ⟨m'.own, rfl, hN⟩, hz, hne⟩
  overflow := by
    rintro m S n ⟨s, hs, hi⟩ hn hcount
    exact (hh.allocate n hs).trans
      (run_within_error hs (hl.overflow hi hn fun h => hcount ((hh.countable hs).mpr h)))
  collect := by
    rintro m S ⟨s, hs, hi⟩
    refine Hosts.runs (hh.collect hs) ((hl.collect hi).mono ?_)
    rintro - m' ⟨ρ, S', k, hk, hmv⟩
    exact ⟨ρ, S', k, hk, hmv.hosted⟩
  collectFull := by
    rintro m S ⟨s, hs, hi⟩
    refine Hosts.runs (hh.collectFull hs) ((hl.collectFull hi).mono ?_)
    rintro - m' ⟨ρ, S', k, hk, hmv⟩
    exact ⟨ρ, S', k, hk, hmv.hosted⟩
  overwrite := by
    rintro m S o n h' ⟨s, hs, hi⟩ ho ⟨t, ht, hN⟩ hsucc hsize hout htag hpay hsucc'
    cases hh.injective s t (hs.symm.trans ht)
    obtain ⟨hi', hN'⟩ := hl.overwrite hi ho hN hsucc hsize hout htag hpay hsucc'
    exact ⟨⟨s, hs, hi'⟩, ⟨s, hs, hN'⟩⟩
  initField := by
    rintro m S o n field v ⟨s, hs, hi⟩ ho ⟨t, ht, hN⟩ hn htag hf hnr hv
    cases hh.injective s t (hs.symm.trans ht)
    obtain ⟨m', hrun, hi', hN', hrest⟩ := hl.initField hi ho hN hn htag hf hnr hv
    exact ⟨m'.withOwn (wrap m'.own), (hh.initField field v hs).trans (run_within hrun),
      ⟨m'.own, rfl, hi'⟩,
      ⟨m'.own, rfl, hN'⟩, hrest⟩
  noteCopy := by
    rintro m S o n src ⟨s, hs, hi⟩ ho ⟨t, ht, hN⟩ hsucc hsrc hne hpay
    cases hh.injective s t (hs.symm.trans ht)
    obtain ⟨m', hrun, hi', hN', hrest⟩ := hl.noteCopy hi ho hN hsucc hsrc hne hpay
    have hs' : (m.withHeap (m.heap.copy src o n)).own = wrap s := hs
    exact ⟨m'.withOwn (wrap m'.own), (hh.noteCopy o hs').trans (run_within hrun),
      ⟨m'.own, rfl, hi'⟩,
      ⟨m'.own, rfl, hN'⟩, hrest⟩
  writeField := by
    rintro m S o field v ⟨s, hs, hi⟩ hpark ho htag hf hv
    refine Hosts.runs (hh.writeField o field v hs) ((hl.writeField hi hpark ho htag hf hv).mono ?_)
    rintro - m' ⟨S', hleft, hst, hroots⟩
    exact ⟨S', hleft.hosted hh, hst, hroots⟩
  writeRoot := by
    rintro m S slot old v ⟨s, hs, hi⟩ hpark hold hv
    refine Hosts.runs (hh.writeRoot slot v hs) ((hl.writeRoot hi hpark hold hv).mono ?_)
    rintro - m' ⟨S', hleft, hsame, hroots⟩
    exact ⟨S', hleft.hosted hh, hsame, hroots⟩
  writeRoot_absent := by
    rintro m S slot v ⟨s, hs, hi⟩ hv hnone
    obtain ⟨m', hrun⟩ := hl.writeRoot_absent hi hv hnone
    refine ⟨m'.withOwn (wrap m'.own), (hh.writeRoot slot v hs).trans ?_⟩
    rw [within, hrun]
  push := by
    rintro m S v ⟨s, hs, hi⟩ hpark hv hcap hlim
    obtain ⟨m', hrun, hi', hrest⟩ := hl.push hi hpark hv hcap hlim
    exact ⟨m'.withOwn (wrap m'.own), (hh.push v hs).trans (run_within hrun),
      ⟨m'.own, rfl, hi'⟩, hrest⟩
  push_fails := by
    rintro m S v e ⟨s, hs, hi⟩ hfail
    exact (hh.push v hs).trans (run_within_error hs (hl.push_fails hi hfail))
  pop := by
    rintro m S v ⟨s, hs, hi⟩ hpark hv
    refine Hosts.runs (hh.pop hs) ((hl.pop hi hpark hv).mono ?_)
    rintro v' m' ⟨rfl, S', hleft, hsame, hroots⟩
    exact ⟨rfl, S', hleft.hosted hh, hsame, hroots⟩
  pop_fails := by
    rintro m S e ⟨s, hs, hi⟩ hfail
    exact (hh.pop hs).trans (run_within_error hs (hl.pop_fails hi hfail))
  park := by
    rintro m S v ⟨s, hs, hi⟩ hv hlim
    exact ⟨s, hs, hl.park hi hv hlim⟩
  unpark := by
    rintro m S ⟨s, hs, hi⟩ hpark hsize
    exact ⟨s, hs, hl.unpark hi hpark hsize⟩

end Hosted

end Reclaim
