import Reclaim.Proofs.Accounts
import Reclaim.Proofs.Plain
import Reclaim.Proofs.Upkeep

/-!
# Audits

What a strategy shows about its books (`Audited`): it knows how many words the listed objects take,
a collection records what it takes out of use and what it leaves, an allocation takes one block
more, and stores and pops do no more than to run some cycles. Then the measurements are those of a
history throughout a session.

Results:
* `Audited.plain`: a tracing strategy.
* `Audited.upkeep`: the collector that follows an audited strategy keeps its books sound.
* `Audited.session`: so they are after every session.
-/

namespace Reclaim

variable {σ : Type}

/-- The operations of a strategy keep books of the words in use, which `used` tells from its state.
An object has `header` words in front, and its block may have `slack` words too many. -/
structure Audited (ops : Operations σ) (I : Machine σ → (Nat → Prop) → Prop) (used header : σ → Nat)
    (slack : Nat) : Prop where
  listed : ∀ {m S}, I m S → ∃ bs, ops.objects m.own m.heap = .ok bs ∧
    Mutator.wordsOf bs = used m.own
  allocate : ∀ {m S n}, I m S → 1 ≤ n → ops.Countable m n → Runs (ops.allocate n) m
    (fun _ m' => Books.Issues slack (n + header m'.own) (m.books used) (m'.books used))
      fun _ _ => True
  collect : ∀ {m S}, I m S → Runs ops.collect m
    (fun _ m' => Relation.TransGen Books.Cycled (m.books used) (m'.books used)) fun _ _ => True
  collectFull : ∀ {m S}, I m S → Runs ops.collectFull m
    (fun _ m' => Relation.TransGen Books.Cycled (m.books used) (m'.books used)) fun _ _ => True
  writeField : ∀ {m S o field v}, I m S → m.roots.parked = 0 → S o → m.heap.tag o = some .pair →
    field = o + 1 ∨ field = o + 2 →
    v.Within S → Runs (ops.writeField o field v) m
      (fun _ m' => Books.Turns (m.books used) (m'.books used)) fun _ _ => True
  writeRoot : ∀ {m m' S slot old v}, I m S → m.roots.parked = 0 →
    m.roots.get? slot = some old → v.Within S →
    ops.writeRoot slot v m = .ok () m' → Books.Turns (m.books used) (m'.books used)
  pop : ∀ {m m' S v}, I m S → m.roots.parked = 0 → ops.pop m = .ok v m' →
    Books.Turns (m.books used) (m'.books used)
  push : ∀ {m m' v}, ops.push v m = .ok () m' → m'.books used = m.books used
  initField : ∀ {m m' field v}, ops.initField field v m = .ok () m' → m'.books used = m.books used
  noteCopy : ∀ {m m' o}, ops.noteCopy o m = .ok () m' → m'.books used = m.books used

section Quiet

variable {α : Type} {used : σ → Nat} {m m' : Machine σ} {a : α}

/-- The books know nothing of the roots. -/
theorem books_of_roots_lift {x : RootsM α} (hx : (liftM x : GcM σ α) m = .ok a m') :
    m'.books used = m.books used := by
  rw [roots_lift_eq] at hx
  split at hx
  · cases hx
    rfl
  · cases hx

/-- Nor of the heap. -/
theorem books_of_heap_lift {x : HeapM α} (hx : (liftM x : GcM σ α) m = .ok a m') :
    m'.books used = m.books used := by
  rw [heap_lift_eq] at hx
  split at hx
  · cases hx
    rfl
  · cases hx

end Quiet

theorem Books.Turns.of_eq {b b' : Books} (h : b' = b) : Books.Turns b b' := by
  rw [h]

namespace Audited

open Collector

variable {ops : Operations σ} {I : Machine σ → (Nat → Prop) → Prop}
  {N : Machine σ → Nat → Nat → Prop} {used header : σ → Nat}
  {slack : Nat} {wrap : σ → Collector}

/-- A tracing strategy: only collections, allocations and stores into fields are its own. -/
theorem plain {allocate : Nat → GcM σ Nat} {collect collectFull : GcM σ Unit}
    {writeField : Nat → Nat → Value → GcM σ Unit} {objects : σ → ReadM (List (Nat × Nat))}
    {front : Nat} (hlisted : ∀ {m S}, I m S → ∃ bs, objects m.own m.heap = .ok bs ∧
      Mutator.wordsOf bs = used m.own)
      (hallocate : ∀ {m S n}, I m S → 1 ≤ n → (n + front) * wordBytes < wordValues →
        Runs (allocate n) m (fun _ m' => Books.Issues slack (n + header m'.own) (m.books used)
          (m'.books used)) fun _ _ => True)
            (hcollect : ∀ {m S}, I m S →
              Runs collect m (fun _ m' => Relation.TransGen Books.Cycled (m.books used)
                (m'.books used)) fun _ _ => True)
                  (hfull : ∀ {m S}, I m S →
                    Runs collectFull m (fun _ m' => Relation.TransGen Books.Cycled (m.books used)
                      (m'.books used)) fun _ _ => True)
                        (hstore : ∀ {m S o field v}, I m S → S o → m.heap.tag o = some .pair →
                          field = o + 1 ∨ field = o + 2 → v.Within S → Runs (writeField o field v) m
                          (fun _ m' => m'.books used = m.books used) fun _ _ => True) :
    Audited (.plain allocate collect collectFull writeField objects front) I used header slack where
  listed := hlisted
  allocate := hallocate
  collect := hcollect
  collectFull := hfull
  writeField hi _ ho ht hf hv := (hstore hi ho ht hf hv).mono fun _ _ h => .of_eq h
  writeRoot _ _ _ _ h := .of_eq (books_of_roots_lift h)
  pop _ _ h := .of_eq (books_of_roots_lift h)
  push h := books_of_roots_lift h
  initField h := books_of_heap_lift h
  noteCopy h := by
    cases h
    rfl

/-- The books of a collector that follows the strategy are sound. -/
def Balances (wrap : σ → Collector) (used : σ → Nat) (slack : Nat) (m : Machine Collector) : Prop :=
  ∃ s, m.own = wrap s ∧ Books.Accounted slack ⟨m.stats, used s⟩

/-- What the collector did was done by its strategy. -/
theorem of_within {α : Type} {x : GcM σ α} {m m' : Machine Collector} {s : σ} {a : α}
    (hx : within wrap s x m = .ok a m') :
    ∃ m₁, x (m.withOwn s) = .ok a m₁ ∧ m' = m₁.withOwn (wrap m₁.own) := by
  unfold within at hx
  split at hx
  · cases hx
    exact ⟨_, ‹_›, rfl⟩
  · cases hx

variable {m m' : Machine Collector} {S : Nat → Prop} {s : σ}

/-- An operation that runs some cycles at most. -/
theorem Balances.turns {α : Type} {x : GcM σ α} {y : GcM Collector α} {a : α} (hh : Hosts wrap ops)
    (hs : m.own = wrap s) (hb : Balances wrap used slack m) (hyx : y m = within wrap s x m)
    (hy : y m = .ok a m') (hx : ∀ m₁, x (m.withOwn s) = .ok a m₁ →
      Books.Turns ((m.withOwn s).books used) (m₁.books used)) : Balances wrap used slack m' := by
  obtain ⟨t, ht, hsound⟩ := hb
  cases hh.injective s t (hs.symm.trans ht)
  rw [hyx] at hy
  obtain ⟨m₁, hrun, rfl⟩ := of_within hy
  exact ⟨m₁.own, rfl, Books.Accounted.turns (b := (m.withOwn s).books used) hsound (hx m₁ hrun)⟩

/-- The collector keeps the books of its strategy sound. -/
theorem upkeep (ha : Audited ops I used header slack) (hl : Laws ops I N) (hh : Hosts wrap ops)
    (hheader : ∀ s, (wrap s).headerWords = header s) :
    Upkeep (Hosted wrap I) (Balances wrap used slack) where
  congr := by
    rintro m m' ⟨s, hs, hb⟩ hstats hown
    exact ⟨s, hown.trans hs, by rw [hstats]; exact hb⟩
  allocate := by
    rintro m m' S n o ⟨s, hs, hi⟩ ⟨t, ht, hb⟩ hn hrun
    cases hh.injective s t (hs.symm.trans ht)
    rw [hh.allocate n hs] at hrun
    obtain ⟨m₁, hrun₁, rfl⟩ := of_within hrun
    refine ⟨m₁.own, rfl, ?_⟩
    have hsound := Books.Accounted.issues (b := (m.withOwn s).books used) hb
      ((ha.allocate hi hn (hl.countable hi hn hrun₁)).ok hrun₁)
    rw [← hheader] at hsound
    exact hsound
  collect := by
    rintro m m' S ⟨s, hs, hi⟩ hb hrun
    exact hb.turns hh hs (hh.collect hs) hrun fun m₁ h => ((ha.collect hi).ok h).to_reflTransGen
  collectFull := by
    rintro m m' S ⟨s, hs, hi⟩ hb hrun
    exact hb.turns hh hs (hh.collectFull hs) hrun fun m₁ h =>
      ((ha.collectFull hi).ok h).to_reflTransGen
  writeField := by
    rintro m m' S o field v ⟨s, hs, hi⟩ hb hpark ho ht hf hv hrun
    exact hb.turns hh hs (hh.writeField o field v hs) hrun fun m₁ h =>
      (ha.writeField hi hpark ho ht hf hv).ok h
  writeRoot := by
    rintro m m' S slot old v ⟨s, hs, hi⟩ hb hpark hold hv hrun
    exact hb.turns hh hs (hh.writeRoot slot v hs) hrun fun m₁ h => ha.writeRoot hi hpark hold hv h
  pop := by
    rintro m m' S v ⟨s, hs, hi⟩ hb hpark hrun
    exact hb.turns hh hs (hh.pop hs) hrun fun m₁ h => ha.pop hi hpark h
  push := by
    rintro m m' v ⟨s, hs, hb⟩ hrun
    exact Balances.turns hh hs ⟨s, hs, hb⟩ (hh.push v hs) hrun fun m₁ h => .of_eq (ha.push h)
  initField := by
    rintro m m' field v ⟨s, hs, hb⟩ hrun
    exact Balances.turns hh hs ⟨s, hs, hb⟩ (hh.initField field v hs) hrun fun m₁ h =>
      .of_eq (ha.initField h)
  noteCopy := by
    rintro m m' o ⟨s, hs, hb⟩ hrun
    exact Balances.turns hh hs ⟨s, hs, hb⟩ (hh.noteCopy o hs) hrun fun m₁ h =>
      .of_eq (ha.noteCopy h)

/-! ## Sessions -/

variable {c : Config} {u u' : Mutator} {H : Nat → Prop}

/-- What the collector lists takes the words that its strategy counts. -/
theorem objects (ha : Audited ops I used header slack) (hh : Hosts wrap ops)
    (hi : Hosted wrap I u.machine S) (hs : u.machine.own = wrap s) : ∃ listed,
    u.objects = .ok listed ∧ Mutator.wordsOf listed = used s := by
  obtain ⟨t, ht, hi⟩ := hi
  cases hh.injective s t (hs.symm.trans ht)
  obtain ⟨bs, hbs, hw⟩ := ha.listed hi
  refine ⟨bs, ?_, hw⟩
  rw [Mutator.objects, Mutator.view, hs, hh.objects]
  exact hbs

/-- A new heap has measured nothing, and nothing is in use. -/
theorem balances_start (hc : c.Makes u) (hs : u.machine.own = wrap s) (hused : used s = 0) :
    Balances wrap used slack u.machine := by
  obtain ⟨hash, rfl, -⟩ := hc.eq
  refine ⟨s, hs, ?_⟩
  rw [hused]
  exact .start

/-- After every session, the measurements are those of a history that has left in use what the
collector lists. -/
theorem session (ha : Audited ops I used header slack) (hl : Laws ops I N) (hh : Hosts wrap ops)
    (hheader : ∀ s, (wrap s).headerWords = header s)
    (hstart : ∀ u, c.Makes u → (∃ S, Hosted wrap I u.machine S) ∧
      Balances wrap used slack u.machine) (hs : Session c u H) : ∃ listed, u.objects = .ok listed ∧
      Books.Accounted slack ⟨u.machine.stats, Mutator.wordsOf listed⟩ := by
  obtain ⟨S, hi, -⟩ := (hs.steady (hl.hosted hh) fun u hc => (hstart u hc).1).good
  obtain ⟨s, hown, hb⟩ := hs.upholds (hl.hosted hh) (ha.upkeep hl hh hheader) hstart
  obtain ⟨listed, hobj, hw⟩ := ha.objects hh hi hown
  exact ⟨listed, hobj, by rw [hw]; exact hb⟩

end Audited

end Reclaim
