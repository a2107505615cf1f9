import Reclaim.Proofs.Evacuation
import Reclaim.Proofs.Renaming

/-!
# Compacting a space

A compaction gives the live objects of a space new addresses, one block behind the other from the
bottom of the space. It has three steps, and this module has the laws of each: the new addresses are
noted in the headers (`noted`), the references are redirected to them (`Redirected`), and the blocks
are moved down (`Slid`), in the order of their addresses, so that a block is never overwritten
before it is moved.

Results:
* `target_address`: a block moves to the sum of the sizes of those below it.
* `assign_noted`: handing out new addresses notes them.
* `slides_targets`: the new places of some of the blocks that fill a space lie at or below the old
  ones.
* `redirectRoots_runs`, `redirectObjects_runs`: redirecting renames the roots and the fields.
* `Shifted.step`: moving the next block keeps what is known of the blocks moved before and those to
  come.
-/

namespace Reclaim

/-- The marked ones of some blocks. -/
def marked (ms : List Nat) (bs : List (Nat × Nat)) : List (Nat × Nat) :=
  bs.filter fun b => decide (b.1 ∈ ms)

theorem mem_marked {ms : List Nat} {bs : List (Nat × Nat)} {b : Nat × Nat} : b ∈ marked ms bs ↔
    b ∈ bs ∧ b.1 ∈ ms := by
  simp [marked]

theorem mem_of_marked {ms : List Nat} {bs : List (Nat × Nat)} {o : Nat}
    (ho : o ∈ (marked ms bs).map Prod.fst) : o ∈ ms := by
  obtain ⟨b, hb, rfl⟩ := List.mem_map.mp ho
  exact (mem_marked.mp hb).2

/-! ## New addresses -/

/-- The blocks of `bs` one behind the other from `top` on. -/
def targets (hd : Nat) : Nat → List (Nat × Nat) → List Copy
  | _, [] => []
  | top, (o, n) :: bs => ⟨o, top + hd, n⟩ :: targets hd (top + n) bs

/-- The words of the blocks of `bs` that lie below `o`. -/
def wordsBelow (bs : List (Nat × Nat)) (o : Nat) : Nat :=
  ((bs.filter fun b => decide (b.1 < o)).map Prod.snd).sum

/-- Blocks that move down to the words from `lo` up to `hi`, in the order of their addresses; the
first of them lies at `src` or above. -/
def Slides (hd : Nat) : Nat → Nat → List Copy → Nat → Prop
  | lo, _, [], hi => lo = hi
  | lo, src, p :: ps, hi => p.new = lo + hd ∧ hd < p.size ∧ lo ≤ src ∧ src + hd ≤ p.old ∧
      Slides hd (lo + p.size) (p.old - hd + p.size) ps hi

section Targets

variable {hd lo src hi top : Nat} {bs live : List (Nat × Nat)} {ps : List Copy}

theorem targets_old (hd top : Nat) (bs : List (Nat × Nat)) :
    (targets hd top bs).map (fun p => (p.old, p.size)) = bs := by
  induction bs generalizing top with
  | nil => rfl
  | cons b bs ih =>
    simp only [targets, List.map_cons, ih]

theorem mem_targets {p : Copy} (hp : p ∈ targets hd top bs) : (p.old, p.size) ∈ bs := by
  rw [← targets_old hd top bs]
  exact List.mem_map.mpr ⟨p, hp, rfl⟩

theorem exists_target {o n : Nat} (hb : (o, n) ∈ bs) : ∃ p ∈ targets hd top bs, p.old = o ∧
    p.size = n := by
  rw [← targets_old hd top bs] at hb
  obtain ⟨p, hp, he⟩ := List.mem_map.mp hb
  cases he
  exact ⟨p, hp, rfl, rfl⟩

/-- A block has one new place. -/
theorem target_unique {p q : Copy} (hnd : (bs.map Prod.fst).Nodup) (hp : p ∈ targets hd top bs)
    (hq : q ∈ targets hd top bs) (he : q.old = p.old) : q = p := by
  induction bs generalizing top with
  | nil => cases hp
  | cons b bs ih =>
    obtain ⟨hn, hnd'⟩ := List.nodup_cons.mp hnd
    have hfst : ∀ x ∈ targets hd (top + b.2) bs, x.old ≠ b.1 := by
      intro x hx hxb
      exact hn (hxb ▸ List.mem_map_of_mem (mem_targets hx))
    rcases List.mem_cons.mp hp with rfl | hp' <;> rcases List.mem_cons.mp hq with rfl | hq'
    · rfl
    · exact absurd he (hfst q hq')
    · exact absurd he.symm (hfst p hp')
    · exact ih hnd' hp' hq'

/-- A block moves to where the blocks below it end. -/
theorem target_address {p : Copy} (hs : bs.Pairwise fun b c => b.1 < c.1)
    (hp : p ∈ targets hd top bs) :
    p.new = top + wordsBelow bs p.old + hd := by
  induction bs generalizing top with
  | nil => cases hp
  | cons b bs ih =>
    obtain ⟨hb, hs'⟩ := List.pairwise_cons.mp hs
    rcases List.mem_cons.mp hp with rfl | hp'
    · have hnone : (b :: bs).filter (fun c => decide (c.1 < b.1)) = [] := by
        refine List.filter_eq_nil_iff.mpr fun c hc => ?_
        rcases List.mem_cons.mp hc with rfl | hc
        · simp
        · have hlt := hb c hc
          simp only [decide_eq_true_eq]
          omega
      simp [wordsBelow, hnone]
    · have hlt : b.1 < p.old := hb _ (mem_targets hp')
      rw [ih hs' hp']
      simp only [wordsBelow, List.filter_cons, hlt, decide_true, if_true, List.map_cons,
        List.sum_cons]
      omega

theorem targets_block (hs : bs.Pairwise fun b c => b.1 < c.1) :
    (targets hd top bs).map Copy.block = bs.map fun b => (top + wordsBelow bs b.1 + hd, b.2) := by
  have hmap : (targets hd top bs).map Copy.block
      = (targets hd top bs).map fun p => (top + wordsBelow bs p.old + hd, p.size) := by
    refine List.map_congr_left fun p hp => ?_
    rw [Copy.block, target_address hs hp]
  have hold := congrArg (List.map fun b : Nat × Nat => (top + wordsBelow bs b.1 + hd, b.2))
    (targets_old hd top bs)
  rw [List.map_map] at hold
  exact hmap.trans hold

/-- A later start of the sources. -/
theorem Slides.mono {src' : Nat} (h : Slides hd lo src ps hi) (hsrc : lo ≤ src')
    (hle : src' ≤ src) :
    Slides hd lo src' ps hi := by
  cases ps with
  | nil => exact h
  | cons p ps =>
    obtain ⟨h1, h2, h3, h4, h5⟩ := h
    exact ⟨h1, h2, hsrc, by omega, h5⟩

/-- Some of the blocks that fill a space, moved down to its bottom. -/
theorem slides_targets (hb : Stacked hd src bs hi) (hs : live.Sublist bs) (hlo : lo ≤ src) :
    ∃ top, Slides hd lo src (targets hd lo live) top ∧ top ≤ hi := by
  induction hs generalizing lo src with
  | slnil =>
    cases hb
    exact ⟨lo, rfl, hlo⟩
  | @cons l bs b _ ih =>
    obtain ⟨-, hn, hrest⟩ := (show b.1 = src + hd ∧ hd < b.2 ∧ Stacked hd (src + b.2) bs hi from hb)
    obtain ⟨top, hsl, htop⟩ := ih hrest (show lo ≤ src + b.2 by omega)
    exact ⟨top, hsl.mono hlo (by omega), htop⟩
  | @cons_cons l bs b _ ih =>
    obtain ⟨h1, hn, hrest⟩ :=
      (show b.1 = src + hd ∧ hd < b.2 ∧ Stacked hd (src + b.2) bs hi from hb)
    obtain ⟨top, hsl, htop⟩ := ih hrest (show lo + b.2 ≤ src + b.2 by omega)
    refine ⟨top, ⟨rfl, hn, hlo, by simp only; omega, ?_⟩, htop⟩
    have he : b.1 - hd + b.2 = src + b.2 := by omega
    simp only [he]
    exact hsl

/-- The new places are filled without a gap. -/
theorem Slides.stacked (h : Slides hd lo src ps hi) : Stacked hd lo (ps.map Copy.block) hi := by
  induction ps generalizing lo src with
  | nil => exact h
  | cons p ps ih =>
    obtain ⟨h1, h2, -, -, h5⟩ := h
    exact ⟨h1, h2, ih h5⟩

theorem Slides.mem {p : Copy} (h : Slides hd lo src ps hi) (hp : p ∈ ps) :
    lo + hd ≤ p.new ∧ src + hd ≤ p.old ∧ p.new ≤ p.old ∧ hd < p.size ∧
    p.new + p.size ≤ hi + hd := by
  induction ps generalizing lo src with
  | nil => cases hp
  | cons q ps ih =>
    have hle := h.stacked.bounds (List.mem_map_of_mem hp)
    obtain ⟨h1, h2, h3, h4, h5⟩ := h
    rcases List.mem_cons.mp hp with rfl | hp
    · exact ⟨by omega, by omega, by omega, h2, hle.2.1⟩
    · have hq := ih h5 hp
      omega

/-- Blocks that move to one place are the same. -/
theorem Slides.eq_of_new {p q : Copy} (h : Slides hd lo src ps hi) (hp : p ∈ ps) (hq : q ∈ ps)
    (he : p.new = q.new) :
    p = q := by
  induction ps generalizing lo src with
  | nil => cases hp
  | cons r ps ih =>
    obtain ⟨h1, h2, -, -, h5⟩ := h
    rcases List.mem_cons.mp hp with rfl | hp' <;> rcases List.mem_cons.mp hq with rfl | hq'
    · rfl
    · have hb := h5.mem hq'
      omega
    · have hb := h5.mem hp'
      omega
    · exact ih h5 hp' hq'

end Targets

/-! ## Noting them -/

/-- The new address of each copy noted `offset` words before the old one. -/
def noted (offset : Nat) (h : Arena) : List Copy → Arena
  | [] => h
  | p :: ps => noted offset (h.put (p.old - offset) (UInt64.ofNat p.new)) ps

section Noted

variable {offset : Nat} {h : Arena} {ps : List Copy} {a : Nat}

@[simp] theorem size_noted (offset : Nat) (h : Arena) (ps : List Copy) :
    (noted offset h ps).size = h.size := by
  induction ps generalizing h with
  | nil => rfl
  | cons p ps ih => rw [noted, ih, Arena.size_put]

theorem word_noted_of_ne (ha : ∀ p ∈ ps, p.old - offset ≠ a) :
    (noted offset h ps).word a = h.word a := by
  induction ps generalizing h with
  | nil => rfl
  | cons p ps ih =>
    rw [noted, ih fun q hq => ha q (by simp [hq])]
    exact Arena.word_put_ne _ (Ne.symm (ha p (by simp)))

theorem word_noted {p : Copy} (hp : p ∈ ps) (hs : p.old - offset < h.size)
    (hd : ∀ q ∈ ps, q.old - offset = p.old - offset → q = p) :
    (noted offset h ps).word (p.old - offset) = UInt64.ofNat p.new := by
  induction ps generalizing h with
  | nil => cases hp
  | cons q ps ih =>
    rw [noted]
    by_cases hps : p ∈ ps
    · exact ih hps (by simpa using hs) fun q hq => hd q (by simp [hq])
    · obtain rfl : p = q := by simpa [hps] using hp
      have hne : ∀ x ∈ ps, x.old - offset ≠ p.old - offset :=
        fun x hx hxe => hps (hd x (by simp [hx]) hxe ▸ hx)
      rw [word_noted_of_ne hne, Arena.word_put_self _ hs]

/-- Handing out new addresses, block by block from `top` on, notes them in the headers. -/
theorem assign_noted {L : Header} {assign : Nat → List Nat → HeapM Nat}
    (hnil : ∀ top h, assign top [] h = .ok top h)
    (hcons : ∀ top o os (h : Arena), L.words ≤ o → o ≤ h.size → assign top (o :: os) h = assign
      (top + ((h.put (o - L.forward) (UInt64.ofNat (top + L.words))).word (o - L.size)).toNat) os
      (h.put (o - L.forward) (UInt64.ofNat (top + L.words)))) {bs : List (Nat × Nat)} (top : Nat)
      (hz : Sized L.size h bs) (hin : ∀ b ∈ bs, L.words ≤ b.1 ∧ b.1 ≤ h.size ∧ L.words < b.2)
      (hap : ∀ b ∈ bs, ∀ c ∈ bs, c.1 - L.size ≠ b.1 - L.forward) :
    ∃ top', assign top (bs.map Prod.fst) h = .ok top' (noted L.forward h (targets L.words top bs)) ∧
      Stacked L.words top ((targets L.words top bs).map Copy.block) top' := by
  induction bs generalizing h top with
  | nil => exact ⟨top, hnil top h, rfl⟩
  | cons b bs ih =>
    obtain ⟨h1, h2, h3⟩ := hin b (by simp)
    have hkeep : ∀ c ∈ b :: bs,
      (h.put (b.1 - L.forward) (UInt64.ofNat (top + L.words))).word (c.1 - L.size)
        = h.word (c.1 - L.size) := fun c hc => Arena.word_put_ne _ (hap b (by simp) c hc)
    obtain ⟨top', hrun, hst⟩ :=
      ih (h := h.put (b.1 - L.forward) (UInt64.ofNat (top + L.words))) (top + b.2)
      (fun c hc => by rw [hkeep c (by simp [hc])]; exact hz c (by simp [hc]))
      (fun c hc => by rw [Arena.size_put]; exact hin c (by simp [hc]))
      fun c hc d hd => hap c (by simp [hc]) d (by simp [hd])
    refine ⟨top', ?_, rfl, h3, hst⟩
    rw [List.map_cons, hcons top b.1 _ h h1 h2, hkeep b (by simp), hz b (by simp), hrun]
    rfl

end Noted

/-! ## Redirecting references -/

variable {σ : Type}

/-- The new address that the header of an object holds, or its old one. -/
def redirection (offset : Nat) (h : Arena) (o : Nat) : Nat :=
  if (h.word (o - offset)).toNat = 0 then o else (h.word (o - offset)).toNat

theorem redirectAt_run {offset : Nat} {h : Arena} {V : Nat → Prop} {ρ : Nat → Nat} {v : Value}
    (hv : v.Within V) (hin : ∀ o, V o → offset ≤ o ∧ o - offset < h.size)
    (hρ : ∀ o, V o → redirection offset h o = ρ o) :
    redirectAt offset v h = .ok (v.rename ρ) := by
  unfold redirectAt
  cases hr : v.ref? with
  | none =>
    rw [Value.rename, hr]
    rfl
  | some o =>
    obtain ⟨he, ho⟩ := hv o hr
    dsimp only
    rw [read_bind (forwardingAt_run (hin o ho).1 (hin o ho).2),
      Value.rename_of_ref hr, ← hρ o ho, redirection]
    split
    · rw [← he]
      rfl
    · rfl

/-- The objects of `V` in the heap `h₁`, with the words in front of them. -/
structure Apart (hd : Nat) (h₁ : Arena) (V : Nat → Prop) : Prop where
  closed : Closed h₁ V
  inside : ∀ o, V o → hd ≤ o ∧ o + h₁.payload o ≤ h₁.size
  apart : ∀ o o', V o → V o' → o = o' ∨ o + h₁.payload o + hd ≤ o' ∨ o' + h₁.payload o' + hd ≤ o

/-- The objects of a well-formed heap can be traced. -/
theorem Apart.traceable {hd o : Nat} {h : Arena} {S : Nat → Prop} (hap : Apart hd h S) (ho : S o) :
    h.Traceable o :=
  .of_payload (hap.closed.known o ho) (hap.inside o ho).2

/-- The fields of the objects of `os` are redirected, and nothing else is changed. -/
structure Redirected (h₁ : Arena) (ρ : Nat → Nat) (h : Arena) (os : List Nat) : Prop where
  size_eq : h.size = h₁.size
  field : ∀ o ∈ os, h₁.tag o = some .pair → ∀ i, i = 1 ∨ i = 2 →
    h.value (o + i) = (h₁.value (o + i)).rename ρ
  other : ∀ a, (∀ o ∈ os, h₁.tag o = some .pair → a ≠ o + 1 ∧ a ≠ o + 2) → h.word a = h₁.word a

theorem Redirected.refl (h₁ : Arena) (ρ : Nat → Nat) : Redirected h₁ ρ h₁ [] :=
  ⟨rfl, fun _ ho => absurd ho List.not_mem_nil, fun _ _ => rfl⟩

section Redirect

variable {hd offset : Nat} {h₁ : Arena} {V : Nat → Prop} {m : Machine σ} {os : List Nat}
  {ρ : Nat → Nat}
  {E : Failure → Machine σ → Prop}

/-- A word in front of an object is not redirected. -/
theorem Redirected.header {h : Arena} (hr : Redirected h₁ ρ h os) (hap : Apart hd h₁ V)
    (hos : ∀ o ∈ os, V o) {o a : Nat} (ho : V o) (h1 : o ≤ a + hd) (h2 : a ≤ o) :
    h.word a = h₁.word a := by
  refine hr.other a fun x hx ht => ?_
  have hp := Arena.payload_of_pair ht
  have hin := hap.inside o ho
  have hp' := Arena.payload_pos (hap.closed.known o ho)
  rcases hap.apart x o (hos x hx) ho with rfl | h | h <;> omega

theorem Redirected.congr {h : Arena} {os' : List Nat} (hr : Redirected h₁ ρ h os)
    (hos : ∀ o, o ∈ os ↔ o ∈ os') :
    Redirected h₁ ρ h os' :=
  ⟨hr.size_eq, fun o ho => hr.field o ((hos o).mpr ho),
    fun a ha => hr.other a fun o ho => ha o ((hos o).mp ho)⟩

/-- A word in front of an object may change in the meantime. -/
theorem Redirected.put {h : Arena} (hr : Redirected h₁ ρ h os) {a : Nat}
    (ha : ∀ o ∈ os, a ≠ o ∧ (h₁.tag o = some .pair → a ≠ o + 1 ∧ a ≠ o + 2)) (w : Word) :
    Redirected (h₁.put a w) ρ (h.put a w) os := by
  have htag : ∀ o ∈ os, (h₁.put a w).tag o = h₁.tag o := fun o ho =>
    Arena.tag_congr (Arena.word_put_ne _ (Ne.symm (ha o ho).1))
  refine ⟨by simpa using hr.size_eq, ?_, ?_⟩
  · intro o ho ht i hi
    rw [htag o ho] at ht
    have hne := (ha o ho).2 ht
    have hi' : o + i ≠ a := by omega
    rw [Arena.value_congr (Arena.word_put_ne _ hi'), Arena.value_congr (h := h₁)
      (Arena.word_put_ne _ hi')]
    exact hr.field o ho ht i hi
  · intro b hb
    have hword := hr.other b fun o ho ht => hb o ho (by rw [htag o ho]; exact ht)
    by_cases hba : b = a
    · subst hba
      by_cases hs : b < h.size
      · rw [Arena.word_put_self _ hs, Arena.word_put_self _ (by rw [← hr.size_eq]; exact hs)]
      · have hs₁ : ¬ b < h₁.size := by rw [← hr.size_eq]; exact hs
        rw [Arena.word_put, Arena.word_put, if_neg (fun hc => hs hc.2),
          if_neg (fun hc => hs₁ hc.2), hword]
    · rw [Arena.word_put_ne _ hba, Arena.word_put_ne _ hba]
      exact hword

/-- What the objects are made of stays the same when other words change. -/
theorem Apart.congr {h : Arena} (hap : Apart hd h₁ V) (hsize : h.size = h₁.size)
    (hw : ∀ o i, V o → i < h₁.payload o → h.word (o + i) = h₁.word (o + i)) : Apart hd h V := by
  have hhead : ∀ o, V o → h.word o = h₁.word o :=
    fun o ho => hw o 0 ho (Arena.payload_pos (hap.closed.known o ho))
  have hpay : ∀ o, V o → h.payload o = h₁.payload o := fun o ho => Arena.payload_congr (hhead o ho)
  refine ⟨⟨fun o ho => ?_, fun o a ho ht ha => ?_⟩, fun o ho => ?_, fun o o' ho ho' => ?_⟩
  · rw [Arena.tag_congr (hhead o ho)]
    exact hap.closed.known o ho
  · rw [Arena.tag_congr (hhead o ho)] at ht
    have hp := Arena.payload_of_pair ht
    have hval : h.value a = h₁.value a := by
      refine Arena.value_congr ?_
      rcases ha with rfl | rfl
      · exact hw o 1 ho (by omega)
      · exact hw o 2 ho (by omega)
    rw [hval]
    exact hap.closed.field o a ho ht ha
  · rw [hpay o ho, hsize]
    exact hap.inside o ho
  · rw [hpay o ho, hpay o' ho']
    exact hap.apart o o' ho ho'

/-- The roots are redirected. -/
theorem redirectRoots_runs (hap : Apart hd h₁ V) (hoff : offset ≤ hd) (hpos : 1 ≤ offset)
    (hρ : ∀ o, V o → redirection offset m.heap o = ρ o) (hh : m.heap = h₁)
    (hroots : m.roots.Within V) :
    Runs (traceRoots (fun v => (liftM (redirectAt offset v) : GcM σ Value))) m
      (fun _ m' => m' = m.withRoots m'.roots ∧
        m.roots.Mapped (fun v v' => v' = v.rename ρ) m'.roots) E := by
  have hvis : Visits (fun v => (liftM (redirectAt offset v) : GcM σ Value))
      (fun (m' : Machine σ) (_ : Unit) => m' = m.withRoots m'.roots) (fun _ _ _ => True)
      (fun _ v v' => v' = v.rename ρ) (fun v => v.Within V) E := by
    refine ⟨fun _ => trivial, fun _ _ => trivial, fun _ h => h, ?_, ?_⟩
    · intro m' g slot v v' hm' hv hr him
      rw [hm']
      rfl
    · intro m' g v hm' hr hv
      have hheap : m'.heap = h₁ := by
        rw [hm']
        exact hh
      have hrun : redirectAt offset v m'.heap = .ok (v.rename ρ) := by
        refine redirectAt_run hv (fun o ho => ?_) fun o ho => by rw [hheap, ← hh]; exact hρ o ho
        have hin := hap.inside o ho
        have hp := Arena.payload_pos (hap.closed.known o ho)
        rw [hheap]
        omega
      exact Runs.of_eq (read_lift hrun) ⟨(), trivial, hm', rfl, rfl⟩
  refine (traceRoots_runs hvis (g := ()) rfl fun slot v hv _ => hroots slot v hv).mono ?_
  rintro - m' ⟨-, -, hm', hmap⟩
  refine ⟨hm', hmap.depth, hmap.table, hmap.capacity, hmap.parked, hmap.hash, fun slot v hv => ?_⟩
  obtain ⟨v', hv', him⟩ := hmap.slot slot v hv
  refine ⟨v', hv', ?_⟩
  rcases him with ⟨-, h⟩ | ⟨hn, h⟩
  · exact h
  · rw [h, Value.rename_of_not_ref hn]

/-- The heap `h` while the fields of the object at `o` are redirected, which began in `h₂`; `fs` are
the fields that are still to come. -/
structure Redirecting (h₁ : Arena) (ρ : Nat → Nat) (o : Nat) (h₂ : Arena) (fs : List Nat)
    (h : Arena) : Prop where
  size_eq : h.size = h₂.size
  nodup : fs.Nodup
  pending : ∀ a ∈ fs, h₁.tag o = some .pair ∧ (a = o + 1 ∨ a = o + 2) ∧ h.word a = h₁.word a
  field : ∀ i, i = 1 ∨ i = 2 → h₁.tag o = some .pair → o + i ∉ fs →
    h.value (o + i) = (h₁.value (o + i)).rename ρ
  other : ∀ a, (h₁.tag o = some .pair → a ≠ o + 1 ∧ a ≠ o + 2) → h.word a = h₂.word a

/-- The fields of an object that was not visited are as they were. -/
theorem Redirected.field_plain {h : Arena} (hr : Redirected h₁ ρ h os) (hap : Apart hd h₁ V)
    (hos : ∀ o ∈ os, V o) {o : Nat} (ho : V o) (hn : o ∉ os) (ht : h₁.tag o = some .pair) {i : Nat}
    (hi : i = 1 ∨ i = 2) :
    h.word (o + i) = h₁.word (o + i) := by
  refine hr.other _ fun x hx hxt => ?_
  have hxp := Arena.payload_of_pair hxt
  have hop := Arena.payload_of_pair ht
  rcases hap.apart x o (hos x hx) ho with rfl | h | h
  · exact absurd hx hn
  · omega
  · omega

/-- Only fields that refer to something are to come, and for the others nothing is to be done. -/
theorem Redirected.start {h : Arena} (hr : Redirected h₁ ρ h os) (hap : Apart hd h₁ V)
    (hos : ∀ o ∈ os, V o) {o : Nat} (ho : V o) (hn : o ∉ os) :
    Redirecting h₁ ρ o h (h.fields o) h := by
  have hfields : ∀ a, a ∈ h.fields o ↔ h₁.tag o = some .pair ∧ (a = o + 1 ∨ a = o + 2) ∧
      (h.value a).isRef = true := by
    intro a
    rw [Arena.mem_fields, Arena.tag_congr (hr.header hap hos ho (by omega) (Nat.le_refl o))]
  have hplain : h₁.tag o = some .pair → ∀ i, i = 1 ∨ i = 2 → h.word (o + i) = h₁.word (o + i) :=
    fun ht _ hi => hr.field_plain hap hos ho hn ht hi
  refine ⟨rfl, ?_, fun a ha => ?_, fun i hi ht hni => ?_, fun _ _ => rfl⟩
  · unfold Arena.fields
    split
    · exact List.Nodup.sublist List.filter_sublist (by simp)
    · exact .nil
  · obtain ⟨ht, ha, -⟩ := (hfields a).mp ha
    refine ⟨ht, ha, ?_⟩
    rcases ha with rfl | rfl
    · exact hplain ht 1 (.inl rfl)
    · exact hplain ht 2 (.inr rfl)
  · have hv : h.value (o + i) = h₁.value (o + i) := Arena.value_congr (hplain ht i hi)
    have hnr : (h₁.value (o + i)).isRef = false := by
      rw [← hv]
      cases hrf : (h.value (o + i)).isRef with
      | false => rfl
      | true => exact absurd ((hfields _).mpr ⟨ht, by omega, hrf⟩) hni
    rw [hv, Value.rename_of_not_ref hnr]

namespace Redirecting

variable {h h₂ : Arena} {o a : Nat} {fs : List Nat}

theorem inside (hr : Redirecting h₁ ρ o h₂ (a :: fs) h) (hap : Apart hd h₁ V) (ho : V o)
    (hs : h₂.size = h₁.size) :
    a < h.size := by
  obtain ⟨ht, ha, -⟩ := hr.pending a (by simp)
  have hin := hap.inside o ho
  have hp := Arena.payload_of_pair ht
  have hsz := hr.size_eq
  omega

/-- What the next field is redirected to: the headers tell the same as before. -/
theorem redirectAt_run (hr : Redirecting h₁ ρ o h₂ (a :: fs) h) (hap : Apart hd h₁ V)
    (hoff : offset ≤ hd) (hpos : 1 ≤ offset) (hρ : ∀ o, V o → redirection offset h₁ o = ρ o)
    (h2 : Redirected h₁ ρ h₂ os) (hos : ∀ o ∈ os, V o) (ho : V o) :
    redirectAt offset (h.value a) h = .ok ((h₁.value a).rename ρ) := by
  obtain ⟨ht, ha, hw⟩ := hr.pending a (by simp)
  have hop := Arena.payload_of_pair ht
  have hsz := hr.size_eq.trans h2.size_eq
  rw [Arena.value_congr hw]
  refine Reclaim.redirectAt_run (hap.closed.field o a ho ht ha) (fun c hc => ?_) fun c hc => ?_
  · have hcin := hap.inside c hc
    have hcp := Arena.payload_pos (hap.closed.known c hc)
    omega
  · rw [← hρ c hc, redirection, redirection, hr.other _ fun _ => ?_, h2.header hap hos hc
      (by omega) (by omega)]
    have hcin := hap.inside c hc
    have hcp := Arena.payload_pos (hap.closed.known c hc)
    rcases hap.apart o c ho hc with rfl | h | h <;> omega

/-- Storing the next field. -/
theorem store (hr : Redirecting h₁ ρ o h₂ (a :: fs) h) (ha : a < h.size) :
    Redirecting h₁ ρ o h₂ fs (h.put a ((h₁.value a).rename ρ).bits) where
  size_eq := by simpa using hr.size_eq
  nodup := (List.nodup_cons.mp hr.nodup).2
  pending b hb := by
    obtain ⟨ht, hbo, hw⟩ := hr.pending b (by simp [hb])
    have hne : b ≠ a := fun hba => (List.nodup_cons.mp hr.nodup).1 (hba ▸ hb)
    exact ⟨ht, hbo, by rw [Arena.word_put_ne _ hne, hw]⟩
  field i hi ht hni := by
    by_cases hia : o + i = a
    · rw [hia, Arena.value_put_self ha]
    · rw [Arena.value_congr (Arena.word_put_ne _ hia)]
      exact hr.field i hi ht (by simp [hia, hni])
  other b hb := by
    obtain ⟨ht, hao, -⟩ := hr.pending a (by simp)
    have hb' := hb ht
    rw [Arena.word_put_ne _ (by omega)]
    exact hr.other b hb

/-- When no field is to come, one more object is redirected. -/
theorem redirected (hr : Redirecting h₁ ρ o h₂ [] h) (hap : Apart hd h₁ V)
    (h2 : Redirected h₁ ρ h₂ os) (hos : ∀ o ∈ os, V o) (ho : V o) (hn : o ∉ os) :
    Redirected h₁ ρ h (o :: os) where
  size_eq := hr.size_eq.trans h2.size_eq
  field x hx ht i hi := by
    rcases List.mem_cons.mp hx with rfl | hxs
    · exact hr.field i hi ht (by simp)
    · rw [← h2.field x hxs ht i hi]
      refine Arena.value_congr (hr.other _ fun hot => ?_)
      have hxp := Arena.payload_of_pair ht
      have hop := Arena.payload_of_pair hot
      rcases hap.apart x o (hos x hxs) ho with rfl | h | h
      · exact absurd hxs hn
      · omega
      · omega
  other a ha := by
    rw [hr.other a fun ht => ha o (by simp) ht]
    exact h2.other a fun x hx => ha x (by simp [hx])

end Redirecting

/-- The fields of one more object are redirected. -/
theorem redirectObject_runs (hap : Apart hd h₁ V) (hoff : offset ≤ hd) (hpos : 1 ≤ offset)
    (hρ : ∀ o, V o → redirection offset h₁ o = ρ o) (hr : Redirected h₁ ρ m.heap os)
    (hos : ∀ o ∈ os, V o) {o : Nat} (ho : V o) (hn : o ∉ os) :
    Runs (traceObject (fun v => (liftM (redirectAt offset v) : GcM σ Value)) o) m
      (fun _ m' => m' = m.withHeap m'.heap ∧ Redirected h₁ ρ m'.heap (o :: os)) E := by
  have hhead : m.heap.word o = h₁.word o := hr.header hap hos ho (by omega) (Nat.le_refl o)
  refine (traceObject_runs (J := fun fs m' => m' = m.withHeap m'.heap ∧
    Redirecting h₁ ρ o m.heap fs m'.heap) ?_ ?_
    ⟨rfl, hr.start hap hos ho hn⟩ ?_).mono ?_
  · rw [Arena.tag_congr hhead]
    exact hap.closed.known o ho
  · rw [Arena.payload_congr hhead, hr.size_eq]
    exact (hap.inside o ho).2
  · rintro a fs m1 ⟨hm1, hfs⟩
    have ha := hfs.inside hap ho hr.size_eq
    exact ⟨ha, Runs.of_eq (read_lift (hfs.redirectAt_run hap hoff hpos hρ hr hos ho))
      ⟨ha, by rw [hm1]; rfl, hfs.store ha⟩⟩
  · rintro - m' ⟨hm', hfs⟩
    exact ⟨hm', hfs.redirected hap hr hos ho hn⟩

/-- The fields of a list of objects are redirected. -/
theorem redirectObjects_runs (hap : Apart hd h₁ V) (hoff : offset ≤ hd) (hpos : 1 ≤ offset)
    (hρ : ∀ o, V o → redirection offset h₁ o = ρ o) (hh : m.heap = h₁) (hos : ∀ o ∈ os, V o)
    (hnd : os.Nodup) :
    Runs (os.forM (traceObject (fun v => (liftM (redirectAt offset v) : GcM σ Value)))) m
      (fun _ m' => m' = m.withHeap m'.heap ∧ Redirected h₁ ρ m'.heap os) E := by
  -- `todo` are the objects still to come
  let J : List Nat → Machine σ → Prop := fun todo m' => m' = m.withHeap m'.heap ∧ ∃ done,
    os = done.reverse ++ todo ∧ Redirected h₁ ρ m'.heap done
  refine (forM_runs (J := J) ?_ ⟨rfl, [], rfl, by rw [hh]; exact .refl h₁ ρ⟩).mono ?_
  · rintro o todo m1 ⟨hm1, done, rfl, hr⟩
    have hn : o ∉ done := by
      intro hd
      have hdis := (List.nodup_append.mp hnd).2.2 o (List.mem_reverse.mpr hd) o (by simp)
      exact hdis rfl
    refine (redirectObject_runs hap hoff hpos hρ hr (fun x hx => hos x (by simp [hx]))
      (hos o (by simp)) hn).mono ?_
    rintro - m2 ⟨hm2, hr2⟩
    exact ⟨by rw [hm2, hm1]; rfl, o :: done, by simp, hr2⟩
  · rintro - m' ⟨hm', done, hd, hr⟩
    exact ⟨hm', hr.congr fun o => by simp [hd]⟩

end Redirect

/-! ## Moving the blocks -/

/-- `h'` is `h` with one block moved down; `clean` is what becomes of the word in front of its
object. -/
structure Slid (L : Header) (clean : Word → Word) (h h' : Arena) (p : Copy) : Prop where
  size_eq : h'.size = h.size
  outside : ∀ a, ¬ (p.new ≤ a + L.words ∧ a + L.words < p.new + p.size) → h'.word a = h.word a
  payload : ∀ i, i + L.words < p.size → h'.word (p.new + i) = h.word (p.old + i)
  size : h'.word (p.new - L.size) = h.word (p.old - L.size)
  forward : h'.word (p.new - L.forward) = 0
  flags : h'.word (p.new - 1) = clean (h.word (p.old - 1))

/-- The blocks of `done` have been moved, those of `todo` are still in place; the new places of the
former end at `lo`, and the latter begin at `src` or above. -/
structure Shifted (L : Header) (clean : Word → Word) (h₁ h : Arena) (done todo : List Copy)
    (first lo src hi : Nat) :
    Prop where
  size_eq : h.size = h₁.size
  slides : Slides L.words lo src todo hi
  below : lo ≤ src
  done_stacked : Stacked L.words first (done.map Copy.block) lo
  payload : ∀ p ∈ done, ∀ i, i + L.words < p.size → h.word (p.new + i) = h₁.word (p.old + i)
  size : ∀ p ∈ done, h.word (p.new - L.size) = h₁.word (p.old - L.size)
  forward : ∀ p ∈ done, h.word (p.new - L.forward) = 0
  flags : ∀ p ∈ done, h.word (p.new - 1) = clean (h₁.word (p.old - 1))
  /-- Nothing below the space or from the next block on has changed. -/
  other : ∀ a, a < first ∨ src ≤ a → h.word a = h₁.word a

namespace Shifted

variable {L : Header} {clean : Word → Word} {h₁ h h' : Arena} {done todo : List Copy}
  {first lo src hi : Nat} {p : Copy}

theorem start (hs : Slides L.words first first todo hi) :
    Shifted L clean h₁ h₁ [] todo first first first hi :=
  ⟨rfl, hs, Nat.le_refl _, rfl, fun _ hp => absurd hp List.not_mem_nil,
    fun _ hp => absurd hp List.not_mem_nil,
    fun _ hp => absurd hp List.not_mem_nil, fun _ hp => absurd hp List.not_mem_nil, fun _ _ => rfl⟩

/-- The next block to move is still in place. -/
theorem next (hs : Shifted L clean h₁ h done (p :: todo) first lo src hi) {a : Nat}
    (ha : p.old ≤ a + L.words) :
    h.word a = h₁.word a := by
  obtain ⟨-, -, -, h4, -⟩ := hs.slides
  exact hs.other a (.inr (by omega))

/-- Moving the next block. -/
theorem step (hL : L.Distinct) (hs : Shifted L clean h₁ h done (p :: todo) first lo src hi)
    (hm : Slid L clean h h' p) :
    Shifted L clean h₁ h' (done ++ [p]) todo first (lo + p.size) (p.old - L.words + p.size) hi := by
  obtain ⟨h1, h2, h3, h4, h5⟩ := id hs.slides
  have hf := hs.done_stacked.le
  have hs1 := hL.size_le
  have hs2 := hL.size_pos
  have hs3 := hL.forward_le
  have hs4 := hL.forward_pos
  -- a block that was moved before lies below the new place
  have hkeep : ∀ q ∈ done, ∀ a, a + L.words < q.new + q.size → h'.word a = h.word a := by
    intro q hq a ha
    have hb := hs.done_stacked.bounds (List.mem_map_of_mem hq)
    exact hm.outside a (by omega)
  have hcases : ∀ {q}, q ∈ done ++ [p] → q ∈ done ∨ q = p := by
    intro q hq
    simpa using hq
  refine ⟨hm.size_eq.trans hs.size_eq, h5, by omega, ?_, ?_, ?_, ?_, ?_, ?_⟩
  · rw [List.map_append]
    have hsn := hs.done_stacked.snoc (n := p.size) h2
    rw [← h1] at hsn
    exact hsn
  · intro q hq i hi
    rcases hcases hq with hq | rfl
    · rw [hkeep q hq _ (by omega)]
      exact hs.payload q hq i hi
    · rw [hm.payload i hi]
      exact hs.next (by omega)
  · intro q hq
    rcases hcases hq with hq | rfl
    · have hb := hs.done_stacked.bounds (List.mem_map_of_mem hq)
      rw [hkeep q hq _ (by omega)]
      exact hs.size q hq
    · rw [hm.size]
      exact hs.next (by omega)
  · intro q hq
    rcases hcases hq with hq | rfl
    · have hb := hs.done_stacked.bounds (List.mem_map_of_mem hq)
      rw [hkeep q hq _ (by omega)]
      exact hs.forward q hq
    · exact hm.forward
  · intro q hq
    rcases hcases hq with hq | rfl
    · have hb := hs.done_stacked.bounds (List.mem_map_of_mem hq)
      rw [hkeep q hq _ (by omega)]
      exact hs.flags q hq
    · rw [hm.flags]
      congr 1
      exact hs.next (by omega)
  · intro a ha
    rw [hm.outside a (by omega)]
    exact hs.other a (by omega)

end Shifted

end Reclaim
