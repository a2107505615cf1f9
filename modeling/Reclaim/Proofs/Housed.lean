import Reclaim.Proofs.Plain

/-!
# Objects in blocks

A strategy with a single space lists exactly the objects that a program may still use. `Housed hd h
blocks` says that these objects are well-formed and lie in their blocks, behind headers of `hd`
words; what else a strategy keeps in its headers and beside the heap is its own affair (`Layout`).
Where that does not depend on what the objects hold (`Layout.Free`), whatever only changes the words
of one object keeps the state, and a tracing strategy is left with its collections and its way of
finding room.

Results:
* `Housed.rewrite`, `Housed.add`: the words of one object change, one more object is added.
* `Layout.Free.plain`: the laws of a tracing strategy, from what its collections and its allocations
  do.
-/

namespace Reclaim

/-- The object `o` has one of the blocks. -/
def Held (blocks : List (Nat × Nat)) (o : Nat) : Prop := ∃ n, (o, n) ∈ blocks

theorem not_held_nil {o : Nat} : ¬ Held [] o := fun ⟨_, hb⟩ => List.not_mem_nil hb

theorem closed_nil (h : Arena) : Closed h (Held []) :=
  ⟨fun _ ho => absurd ho not_held_nil, fun _ _ ho => absurd ho not_held_nil⟩

/-- The word at `a` belongs to no object, whatever the objects in the blocks are. -/
def Outside (hd : Nat) (blocks : List (Nat × Nat)) (a : Nat) : Prop := ∀ b ∈ blocks, a < b.1 ∨
    b.1 + b.2 ≤ a + hd

/-- Well-formed objects, one in each block, that refer to each other alone. -/
structure Housed (hd : Nat) (h : Arena) (blocks : List (Nat × Nat)) : Prop where
  small : h.size < 0x1000000000000000
  inside : ∀ b ∈ blocks, hd ≤ b.1 ∧ b.1 + b.2 ≤ h.size + hd
  apart : ∀ b ∈ blocks, ∀ c ∈ blocks, b = c ∨ b.1 + b.2 ≤ c.1 ∨ c.1 + c.2 ≤ b.1
  fits : ∀ b ∈ blocks, hd + h.payload b.1 ≤ b.2
  closed : Closed h (Held blocks)

namespace Housed

variable {hd o k n : Nat} {h h' : Arena} {blocks blocks' : List (Nat × Nat)}

theorem fit (hh : Housed hd h blocks) (hb : (o, n) ∈ blocks) : hd + h.payload o ≤ n :=
  hh.fits (o, n) hb

theorem room (hh : Housed hd h blocks) {b : Nat × Nat} (hb : b ∈ blocks) : hd < b.2 := by
  have hfit := hh.fits b hb
  have hpos := Arena.payload_pos (hh.closed.known b.1 ⟨b.2, hb⟩)
  omega

/-- Fewer objects. -/
theorem sub (hh : Housed hd h blocks) (hsub : blocks' ⊆ blocks) (hcl : Closed h (Held blocks')) :
    Housed hd h blocks' :=
  ⟨hh.small, fun b hb => hh.inside b (hsub hb), fun b hb c hc => hh.apart b (hsub hb) c (hsub hc),
    fun b hb => hh.fits b (hsub hb), hcl⟩

/-- A block is known by its object. -/
theorem eq_of_fst (hh : Housed hd h blocks) {b c : Nat × Nat} (hb : b ∈ blocks) (hc : c ∈ blocks)
    (he : b.1 = c.1) : b = c := by
  have h1 := hh.room hb
  have h2 := hh.room hc
  rcases hh.apart b hb c hc with hap | hap | hap
  · exact hap
  · omega
  · omega

theorem objects_apart (hh : Housed hd h blocks) : Apart hd h (Held blocks) := by
  refine ⟨hh.closed, ?_, ?_⟩
  · rintro o ⟨n, hb⟩
    have hin := hh.inside _ hb
    have hfit := hh.fits _ hb
    simp only at hin hfit
    omega
  · rintro o o' ⟨n, hb⟩ ⟨n', hb'⟩
    have hfit := hh.fits _ hb
    have hfit' := hh.fits _ hb'
    simp only at hfit hfit'
    rcases hh.apart _ hb _ hb' with hap | hap | hap
    · exact .inl (congrArg Prod.fst hap)
    · exact .inr (.inl (by simp only at hap; omega))
    · exact .inr (.inr (by simp only at hap; omega))

theorem named (hh : Housed hd h blocks) (hpos : 1 ≤ hd) : Value.Named (Held blocks) := by
  rintro o ⟨n, hb⟩
  have hin := hh.inside _ hb
  have hroom := hh.room hb
  have hsmall := hh.small
  simp only at hin hroom
  omega

/-- The words of one object may change, if it stays well-formed. -/
theorem rewrite (hh : Housed hd h blocks) (hb : (o, k) ∈ blocks) (hsize : h'.size = h.size)
    (hout : ∀ a, a < o ∨ o + k ≤ a + hd → h'.word a = h.word a) (hcl : Closed h' (Held blocks))
    (hfit : hd + h'.payload o ≤ k) :
    Housed hd h' blocks := by
  refine ⟨by rw [hsize]; exact hh.small, by
    rw [hsize]; exact hh.inside, hh.apart, fun c hc => ?_, hcl⟩
  by_cases hne : c.1 = o
  · obtain rfl := hh.eq_of_fst hc hb hne
    exact hfit
  · have hroom := hh.room hc
    have hroom' := hh.room hb
    have hword : h'.word c.1 = h.word c.1 := by
      refine hout _ ?_
      rcases hh.apart c hc _ hb with rfl | hap | hap
      · exact absurd rfl hne
      · simp only at hap; omega
      · simp only at hap; omega
    rw [Arena.payload_congr hword]
    exact hh.fits c hc

/-- One more object, whose words are zero. -/
theorem add (hh : Housed hd h blocks) (hsize : h'.size = h.size) (hsame : Same (Held blocks) h h')
    (hmem : ∀ c, c ∈ blocks' ↔ c ∈ blocks ∨ c = (o, k)) (hin : hd ≤ o ∧ o + k ≤ h.size + hd)
    (hk : hd < k) (hap : ∀ c ∈ blocks, c.1 + c.2 ≤ o ∨ o + k ≤ c.1) (hz : h'.word o = 0) :
    Housed hd h' blocks' := by
  have hheld : Held blocks' = fun x => Held blocks x ∨ x = o := by
    funext x
    simp only [Held, hmem, Prod.mk.injEq, eq_iff_iff]
    constructor
    · rintro ⟨n, hb | ⟨rfl, rfl⟩⟩
      · exact .inl ⟨n, hb⟩
      · exact .inr rfl
    · rintro (⟨n, hb⟩ | rfl)
      · exact ⟨n, .inl hb⟩
      · exact ⟨k, .inr ⟨rfl, rfl⟩⟩
  refine ⟨by rw [hsize]; exact hh.small, fun c hc => ?_, fun c hc d hd' => ?_, fun c hc => ?_, ?_⟩
  · rw [hsize]
    rcases (hmem c).mp hc with hc | rfl
    · exact hh.inside c hc
    · exact hin
  · rcases (hmem c).mp hc with hc | rfl <;> rcases (hmem d).mp hd' with hd' | rfl
    · exact hh.apart c hc d hd'
    · exact .inr (hap c hc)
    · exact .inr (hap d hd').symm
    · exact .inl rfl
  · rcases (hmem c).mp hc with hc | rfl
    · rw [hsame.payload (hh.closed.known c.1 ⟨c.2, hc⟩) ⟨c.2, hc⟩]
      exact hh.fits c hc
    · rw [Arena.payload_of_zero hz]
      simp only
      omega
  · have hcl := hsame.closed hh.closed
    rw [hheld]
    refine ⟨?_, ?_⟩
    · rintro x (hx | rfl)
      · exact hcl.known x hx
      · rw [Arena.tag_of_zero hz]
        decide
    · rintro x a (hx | rfl) ht ha
      · exact (hcl.field x a hx ht ha).mono fun _ => .inl
      · rw [Arena.tag_of_zero hz] at ht
        cases ht

end Housed

/-! ## Layouts -/

variable {σ : Type}

/-- The invariant of whole runs: the objects that may be used are those that have blocks. -/
def Kept (J : Machine σ → List (Nat × Nat) → Prop) (m : Machine σ) (S : Nat → Prop) :
    Prop := ∃ blocks, J m blocks ∧ S = Held blocks

/-- The object `o` is listed with a block that has room for `n` words behind a header of `hd`
words. -/
def Operations.Roomy (ops : Operations σ) (hd : Nat) (m : Machine σ) (o n : Nat) : Prop :=
  ∃ blocks k, ops.objects m.own m.heap = .ok blocks ∧ (o, k) ∈ blocks ∧ hd + n ≤ k

/-- A way to lay out blocks: `J m blocks` says that `m` has these blocks, in good order. -/
structure Layout (ops : Operations σ) (hd : Nat)
    (J : Machine σ → List (Nat × Nat) → Prop) : Prop where
  header : 1 ≤ hd
  housed : ∀ {m blocks}, J m blocks → Housed hd m.heap blocks
  roots : ∀ {m blocks}, J m blocks → m.roots.Within (Held blocks)
  objects : ∀ {m blocks}, J m blocks → ops.objects m.own m.heap = .ok blocks

/-- A layout that does not depend on what the objects and the roots hold. -/
structure Layout.Free (ops : Operations σ) (hd : Nat) (J : Machine σ → List (Nat × Nat) → Prop) :
    Prop extends Layout ops hd J where
  /-- The words of objects and the roots may change. -/
  update : ∀ {m m' blocks}, J m blocks → m'.own = m.own → m'.heap.size = m.heap.size →
    (∀ a, Outside hd blocks a → m'.heap.word a = m.heap.word a) → Housed hd m'.heap blocks →
      m'.roots.Within (Held blocks) →
    J m' blocks

/-- A new object `o` of `words` zeroed words, beside the ones that were there. -/
def Grows (hd : Nat) (J : Machine σ → List (Nat × Nat) → Prop) (m : Machine σ)
    (blocks : List (Nat × Nat)) (words o : Nat) (m' : Machine σ) : Prop :=
  ∃ blocks' k, J m' blocks' ∧ (∀ c, c ∈ blocks' ↔ c ∈ blocks ∨ c = (o, k)) ∧ hd + words ≤ k ∧
    ¬ Held blocks o ∧
    (∀ i, i < words → m'.heap.word (o + i) = 0) ∧ Same (Held blocks) m.heap m'.heap ∧
      m'.roots = m.roots ∧
    m'.stress = m.stress ∧ m'.stats = m.stats

namespace Layout

variable {ops : Operations σ} {hd : Nat} {J : Machine σ → List (Nat × Nat) → Prop}
  {m m' : Machine σ}
  {blocks : List (Nat × Nat)} {o n : Nat}

/-- The block of a new object. -/
theorem block (hL : Layout ops hd J) (hJ : J m blocks) (hN : ops.Roomy hd m o n) : ∃ k,
    (o, k) ∈ blocks ∧ hd + n ≤ k := by
  obtain ⟨bs, k, hobj, hb, hroom⟩ := hN
  rw [hL.objects hJ] at hobj
  cases hobj
  exact ⟨k, hb, hroom⟩

theorem roomy (hL : Layout ops hd J) (hJ : J m blocks) {k : Nat} (hb : (o, k) ∈ blocks)
    (hroom : hd + n ≤ k) : ops.Roomy hd m o n :=
  ⟨blocks, k, hL.objects hJ, hb, hroom⟩

theorem apart (hL : Layout ops hd J) (hJ : J m blocks) : Apart 1 m.heap (Held blocks) :=
  (hL.housed hJ).objects_apart.weaken hL.header

theorem new_inside (hL : Layout ops hd J) (hJ : J m blocks) (hN : ops.Roomy hd m o n) :
    o + n ≤ m.heap.size := by
  obtain ⟨k, hb, hroom⟩ := hL.block hJ hN
  have hin := (hL.housed hJ).inside _ hb
  simp only at hin
  omega

theorem new_apart (hL : Layout ops hd J) (hJ : J m blocks) (hN : ops.Roomy hd m o n) {x : Nat}
    (hx : Held blocks x) (hne : x ≠ o) :
    x + m.heap.payload x ≤ o ∨ o + n ≤ x := by
  obtain ⟨k, hb, hroom⟩ := hL.block hJ hN
  obtain ⟨n', hbx⟩ := hx
  have hfit := (hL.housed hJ).fits _ hbx
  simp only at hfit
  rcases (hL.housed hJ).apart _ hbx _ hb with hap | hap | hap
  · exact absurd (congrArg Prod.fst hap) hne
  · simp only at hap; omega
  · simp only at hap; omega

/-- The words of one object may change. -/
theorem Free.rewrite (hL : Layout.Free ops hd J) (hJ : J m blocks) {k : Nat} {h' : Arena}
    (hb : (o, k) ∈ blocks) (hsize : h'.size = m.heap.size)
    (hout : ∀ a, a < o ∨ o + k ≤ a + hd → h'.word a = m.heap.word a) (hcl : Closed h' (Held blocks))
    (hfit : hd + h'.payload o ≤ k) :
    J (m.withHeap h') blocks :=
  hL.update hJ rfl hsize (fun a ha => hout a (ha _ hb))
    ((hL.housed hJ).rewrite hb hsize hout hcl hfit)
    (hL.roots (m := m) hJ)

/-- A store into a field of a pair. -/
theorem Free.store {field : Nat} {v : Value} (hL : Layout.Free ops hd J) (hJ : J m blocks)
    (ho : Held blocks o) (ht : m.heap.tag o = some .pair) (hf : field = o + 1 ∨ field = o + 2)
    (hv : v.Within (Held blocks)) :
    storeValue field v m.heap = .ok () (m.heap.put field v.bits) ∧
    J (m.withHeap (m.heap.put field v.bits)) blocks := by
  have hap := hL.apart hJ
  obtain ⟨i, hlt, -, rfl⟩ := field_offset ht hf
  obtain ⟨k, hb⟩ := ho
  have hin := hap.inside o ⟨k, hb⟩
  have hfit := (hL.housed hJ).fits _ hb
  simp only at hfit
  have hst : Stored (Held blocks) (o + i) v.bits m.heap (m.heap.put (o + i) v.bits) :=
    stored_put (by omega)
  refine ⟨storeValue_run (by omega), ?_⟩
  refine hL.rewrite hJ hb (by simp) (fun a ha => Arena.word_put_ne _ (by omega))
    (hst.closed hap ⟨k, hb⟩ ht hf hv) ?_
  rw [Arena.payload_congr (hst.head hap ⟨k, hb⟩ ht hf ⟨k, hb⟩)]
  exact hfit

/-- After some collections, a new object is handed out. -/
theorem allocated {words : Nat} {x : GcM σ Nat} {m₁ m₂ : Machine σ} {S : Nat → Prop} {ρ : Nat → Nat}
    {k : Nat} (hL : Layout ops hd J) (hk : k ≤ 3) (hmv : Moved (Kept J) m m₁ S (Held blocks) ρ k)
    (hJ : J m₁ blocks) (hx : Runs x m₂ (Grows hd J m₁ blocks words) Fatal) :
    Runs x m₂ (fun o m' => ∃ ρ S' k, k ≤ 3 ∧ Moved (Kept J) m m' S S' ρ k ∧ S' o ∧
      ops.Roomy hd m' o words ∧
      (∀ i, i < words → m'.heap.word (o + i) = 0) ∧ ∀ x, m.Reachable x → ρ x ≠ o) Fatal := by
  refine hx.mono ?_
  rintro o m' ⟨blocks', n, hJ', hmem, hroom, hnew, hz, hsame, hroots, hstress, hstats⟩
  have hsub : ∀ x, Held blocks x → Held blocks' x := fun x ⟨i, hb⟩ => ⟨i, (hmem _).mpr (.inl hb)⟩
  have hmv' : Moved (Kept J) m₁ m' (Held blocks) (Held blocks') id 0 :=
    .of_same (hL.housed hJ).closed (hL.roots hJ) ⟨blocks', hJ', rfl⟩ hsame hsub hroots hstress
      (by rw [hstats])
  refine ⟨id ∘ ρ, Held blocks', k + 0, hk, Moved.trans hmv hmv' ((hL.housed hJ).named hL.header),
    ⟨n, (hmem _).mpr (.inr rfl)⟩,
    ⟨blocks', n, hL.objects hJ', (hmem _).mpr (.inr rfl), hroom⟩, hz, fun x hx he => hnew ?_⟩
  rw [← show ρ x = o from he]
  exact hmv.kept x hx

section Plain

variable {allocate : Nat → GcM σ Nat} {collect collectFull : GcM σ Unit}
  {objects : σ → ReadM (List (Nat × Nat))}

/-- The laws of a tracing strategy without a write barrier. -/
theorem Free.plain (hL : Layout.Free
      (.plain allocate collect collectFull (fun _ field v => storeValue field v) objects hd) hd J)
      (halloc : ∀ {m blocks}, J m blocks → ∀ {words}, 1 ≤ words → (words + hd) * wordBytes <
        wordValues → Runs (allocate words) m
        (fun o m' => ∃ ρ S' k, k ≤ 3 ∧ Moved (Kept J) m m' (Held blocks) S' ρ k ∧ S' o ∧
          Operations.Roomy (.plain allocate collect collectFull
            (fun _ field v => storeValue field v) objects hd) hd m' o words ∧
            (∀ i, i < words → m'.heap.word (o + i) = 0) ∧ ∀ x, m.Reachable x → ρ x ≠ o) Fatal)
            (hover : ∀ {m blocks}, J m blocks → ∀ {words}, 1 ≤ words → wordValues ≤ (words + hd) *
              wordBytes → allocate words m = .error .trap m)
              (hcollect : ∀ {m blocks}, J m blocks →
                Runs collect m (fun _ m' => ∃ ρ S' k, k ≤ 3 ∧ Moved (Kept J) m m'
                  (Held blocks) S' ρ k) Fatal)
                  (hfull : ∀ {m blocks}, J m blocks →
                    Runs collectFull m (fun _ m' => ∃ ρ S' k, k ≤ 3 ∧ Moved (Kept J) m m'
                      (Held blocks) S' ρ k) Fatal) :
    Plain (.plain allocate collect collectFull
      (fun _ field v => storeValue field v) objects hd) (Kept J)
      (Operations.Roomy (.plain allocate collect collectFull
        (fun _ field v => storeValue field v) objects hd) hd) where
  small := by
    rintro m S ⟨blocks, hJ, rfl⟩
    exact (hL.housed hJ).small
  objects := by
    rintro m S ⟨blocks, hJ, rfl⟩
    exact ⟨blocks, hL.objects hJ, fun _ ho => ho⟩
  apart := by
    rintro m S ⟨blocks, hJ, rfl⟩
    exact hL.apart hJ
  roots := by
    rintro m S ⟨blocks, hJ, rfl⟩
    exact hL.roots hJ
  congr := by
    rintro m m' S ⟨blocks, hJ, rfl⟩ hheap hroots hown
    exact ⟨blocks, hL.update hJ hown (by rw [hheap]) (fun a _ => by rw [hheap])
      (by rw [hheap]; exact hL.housed hJ) hroots, rfl⟩
  new_congr := by
    rintro m m' o n hN hheap hown
    rw [Operations.Roomy, hheap, hown]
    exact hN
  new_inside := by
    rintro m S o n ⟨blocks, hJ, rfl⟩ - hN
    exact hL.new_inside hJ hN
  new_apart := by
    rintro m S o n x ⟨blocks, hJ, rfl⟩ - hN hx hne
    exact hL.new_apart hJ hN hx hne
  allocate := by
    rintro m S n ⟨blocks, hJ, rfl⟩ hn hcount
    exact halloc hJ hn hcount
  overflow := by
    rintro m S n ⟨blocks, hJ, rfl⟩ hn hcount
    exact hover hJ hn (Nat.not_lt.mp hcount)
  collect := by
    rintro m S ⟨blocks, hJ, rfl⟩
    exact hcollect hJ
  collectFull := by
    rintro m S ⟨blocks, hJ, rfl⟩
    exact hfull hJ
  rewrite := by
    rintro m S o n h' ⟨blocks, hJ, rfl⟩ - hN hsize hout hcl hpay
    obtain ⟨k, hb, hroom⟩ := hL.block hJ hN
    have hJ' : J (m.withHeap h') blocks :=
      hL.rewrite hJ hb hsize (fun a ha => hout a (by omega)) hcl (by omega)
    exact ⟨⟨blocks, hJ', rfl⟩, hL.roomy hJ' hb hroom⟩
  writeField := by
    rintro m S o field v ⟨blocks, hJ, rfl⟩ ho ht hf hv
    have hin := (hL.apart hJ).inside o ho
    have hp3 := Arena.payload_of_pair ht
    have hst : Stored (Held blocks) field v.bits m.heap (m.heap.put field v.bits) :=
      stored_put (by omega)
    obtain ⟨hrun, hJ'⟩ := hL.store hJ ho ht hf hv
    exact Runs.of_eq (heap_lift hrun)
      ⟨Held blocks, ⟨⟨blocks, hJ', rfl⟩, fun _ h => h, fun _ _ h _ => h, rfl, 0, by omega, by simp⟩,
      hst, rfl⟩

end Plain

end Layout

end Reclaim
