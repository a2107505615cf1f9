import Reclaim.Proofs.Blocks
import Reclaim.Proofs.Renaming

/-!
# Evacuating a space

A copying collection leaves the blocks of its source space in place, apart from the forwarding words
in their headers, and builds an image of every object it finds: a copy, or the object itself if it
is not to be moved. The words of an image are those of the original until its fields are visited; a
visited field refers to the image of what it referred to.

`Evac L h₀ h src P done` is this state between two steps: `h₀` is the heap at the start, `h` the
heap now, `src` the blocks of the source space, `P` the images made so far, and `done` the fields
visited so far.

Results:
* `Evac.add`: copying one more object keeps the state.
* `Evac.visit`: so does storing an image into a field.
* `Evac.word_visited`: an image whose fields are visited is the object renamed.
* `Evacuates.traceObject_runs`: visiting an image visits all of its fields.
-/

namespace Reclaim

/-- The layout of a header of `words` words: the size and the new address of a block are kept `size`
and `forward` words before the object. -/
structure Header where
  words : Nat
  size : Nat
  forward : Nat

/-- The words of a header do not coincide. -/
structure Header.Distinct (L : Header) : Prop where
  size_pos : 1 ≤ L.size
  size_le : L.size ≤ L.words
  forward_pos : 1 ≤ L.forward
  forward_le : L.forward ≤ L.words
  ne : L.size ≠ L.forward

/-- An object and its image. -/
structure Copy where
  old : Nat
  new : Nat
  size : Nat
  deriving DecidableEq

/-- The block of an image. -/
def Copy.block (p : Copy) : Nat × Nat := (p.new, p.size)

/-- The address of the image of `o`, or `o` itself if it has none. -/
def relocate (ps : List Copy) (o : Nat) : Nat :=
  match ps.find? fun p => p.old == o with
  | some p => p.new
  | none => o

theorem relocate_of_mem {ps : List Copy} {p : Copy} (hp : p ∈ ps)
    (hd : ∀ q ∈ ps, q.old = p.old → q = p) :
    relocate ps p.old = p.new := by
  unfold relocate
  cases hf : ps.find? fun q => q.old == p.old with
  | some q =>
    have ho : q.old = p.old := by simpa using List.find?_some hf
    rw [hd q (List.mem_of_find?_eq_some hf) ho]
  | none =>
    have hne := List.find?_eq_none.mp hf p hp
    simp at hne

theorem relocate_of_not_mem {ps : List Copy} {o : Nat} (ho : ∀ p ∈ ps, p.old ≠ o) :
    relocate ps o = o := by
  unfold relocate
  rw [List.find?_eq_none.mpr]
  intro p hp
  simpa using ho p hp

/-- `a` is the field of an image whose original holds a reference. -/
def Copy.IsField (h₀ : Arena) (p : Copy) (a : Nat) : Prop :=
  h₀.tag p.old = some .pair ∧ ∃ i, (i = 1 ∨ i = 2) ∧ a = p.new + i ∧
    (h₀.value (p.old + i)).isRef = true

/-- `v'` refers to the image of what `v` refers to. -/
def ImageIn (P : Copy → Prop) (v v' : Value) : Prop := ∃ p, P p ∧ v.ref? = some p.old ∧
    v' = .ofRef p.new

structure Evac (L : Header) (h₀ h : Arena) (src : List (Nat × Nat)) (P : Copy → Prop)
    (done : List Nat) : Prop where
  size_eq : h.size = h₀.size
  /-- The source space is as it was, but for its forwarding words. -/
  source : ∀ b ∈ src, ∀ a, b.1 ≤ a + L.words → a + L.words < b.1 + b.2 → a + L.forward ≠ b.1 →
    h.word a = h₀.word a
  pending : ∀ b ∈ src, (∀ p, P p → p.old ≠ b.1) → h.word (b.1 - L.forward) = 0
  moved : ∀ b ∈ src, ∀ p, P p → p.old = b.1 → p.size = b.2 ∧
    (h.word (b.1 - L.forward)).toNat = p.new
  plain : ∀ p, P p → ∀ i, i + L.words < p.size → p.new + i ∉ done →
    h.word (p.new + i) = h₀.word (p.old + i)
  visited : ∀ p, P p → ∀ i, i + L.words < p.size → p.new + i ∈ done →
    ImageIn P (h₀.value (p.old + i)) (h.value (p.new + i))
  field : ∀ a ∈ done, ∃ p, P p ∧ p.IsField h₀ a ∧ a + L.words < p.new + p.size
  new_size : ∀ p, P p → (h.word (p.new - L.size)).toNat = p.size
  new_forward : ∀ p, P p → h.word (p.new - L.forward) = 0
  /-- No two images overlap. -/
  apart : ∀ p q, P p → P q → p = q ∨ p.new + p.size ≤ q.new ∨ q.new + q.size ≤ p.new
  /-- An object has one image. -/
  single : ∀ p q, P p → P q → p.old = q.old → p = q
  /-- No image lies in the source space. -/
  clear : ∀ p, P p → ∀ b ∈ src, p.new + p.size ≤ b.1 ∨ b.1 + b.2 ≤ p.new
  inside : ∀ p, P p → L.words ≤ p.new ∧ p.new + p.size ≤ h₀.size + L.words ∧ L.words < p.size
  source_inside : ∀ b ∈ src, L.words ≤ b.1 ∧ b.1 + b.2 ≤ h₀.size + L.words ∧ L.words < b.2
  source_apart : ∀ b ∈ src, ∀ c ∈ src, b = c ∨ b.1 + b.2 ≤ c.1 ∨ c.1 + c.2 ≤ b.1

/-- `h'` is `h` with the block of the object at `o`, `n` words long, copied to `dst` and its new
address noted. -/
structure Relocated (L : Header) (h h' : Arena) (o dst n : Nat) : Prop where
  size_eq : h'.size = h.size
  outside : ∀ a, ¬ (dst ≤ a ∧ a < dst + n) → a + L.forward ≠ o → h'.word a = h.word a
  payload : ∀ i, i + L.words < n → h'.word (dst + L.words + i) = h.word (o + i)
  forward : (h'.word (o - L.forward)).toNat = dst + L.words
  new_size : h'.word (dst + L.words - L.size) = h.word (o - L.size)
  new_forward : h'.word (dst + L.words - L.forward) = 0

namespace ImageIn

variable {P Q : Copy → Prop} {v v' : Value}

theorem mono (hPQ : ∀ p, P p → Q p) (hv : ImageIn P v v') : ImageIn Q v v' := by
  obtain ⟨p, hp, ho, hn⟩ := hv
  exact ⟨p, hPQ p hp, ho, hn⟩

/-- An image of a value is the value renamed. -/
theorem eq_rename {ρ : Nat → Nat} (hρ : ∀ p, P p → ρ p.old = p.new) (him : Image (ImageIn P) v v') :
    v' = v.rename ρ := by
  rcases him with ⟨hr, p, hp, ho, rfl⟩ | ⟨hr, rfl⟩
  · rw [Value.rename_of_ref ho, hρ p hp]
  · rw [Value.rename_of_not_ref hr]

end ImageIn

namespace Evac

variable {L : Header} {h₀ h h' : Arena} {src : List (Nat × Nat)} {P Q : Copy → Prop}
  {done : List Nat}

/-- A visited field belongs to the image that it lies in. -/
theorem isField_of_done (he : Evac L h₀ h src P done) {p : Copy} (hp : P p) {i : Nat}
    (hi : i + L.words < p.size) (hd : p.new + i ∈ done) : p.IsField h₀ (p.new + i) := by
  obtain ⟨q, hq, hf, hb⟩ := he.field _ hd
  obtain ⟨-, j, hj, ha, -⟩ := id hf
  have hpi := he.inside p hp
  have hqi := he.inside q hq
  rcases he.apart p q hp hq with rfl | hap | hap
  · exact hf
  · omega
  · omega

/-- The first word of an image is never visited. -/
theorem head (he : Evac L h₀ h src P done) {p : Copy} (hp : P p) :
    h.word p.new = h₀.word p.old := by
  have hpi := he.inside p hp
  refine he.plain p hp 0 (by omega) fun hd => ?_
  obtain ⟨-, i, hi, ha, -⟩ := he.isField_of_done hp (by omega) hd
  omega

theorem tag (he : Evac L h₀ h src P done) {p : Copy} (hp : P p) : h.tag p.new = h₀.tag p.old :=
  Arena.tag_congr (he.head hp)

/-- The fields of an image before any of them is visited. -/
theorem mem_fields (he : Evac L h₀ h src P done) {p : Copy} (hp : P p)
    (hs : L.words + h₀.payload p.old ≤ p.size) (hd : ∀ a ∈ done, ¬ p.IsField h₀ a) (a : Nat) :
    a ∈ h.fields p.new ↔ p.IsField h₀ a := by
  have hw : h₀.tag p.old = some .pair → ∀ i, i = 1 ∨ i = 2 →
      h.value (p.new + i) = h₀.value (p.old + i) := by
    intro ht i hi
    rw [Arena.payload_of_pair ht] at hs
    rw [Arena.value, Arena.value, he.plain p hp i (by omega)]
    intro hmem
    exact hd _ hmem (he.isField_of_done hp (by omega) hmem)
  rw [Arena.mem_fields, he.tag hp]
  constructor
  · rintro ⟨ht, rfl | rfl, hr⟩
    · exact ⟨ht, 1, .inl rfl, rfl, by rw [← hw ht 1 (.inl rfl)]; exact hr⟩
    · exact ⟨ht, 2, .inr rfl, rfl, by rw [← hw ht 2 (.inr rfl)]; exact hr⟩
  · rintro ⟨ht, i, hi, rfl, hr⟩
    refine ⟨ht, by omega, ?_⟩
    rw [hw ht i hi]
    exact hr

/-- The references in an image before any of its fields is visited. -/
theorem referring (he : Evac L h₀ h src P done) {p : Copy} (hp : P p)
    (hs : L.words + h₀.payload p.old ≤ p.size) (hd : ∀ a ∈ done, ¬ p.IsField h₀ a) :
    (h.fields p.new).map h.value = h₀.referring p.old := by
  rw [Arena.referring, Arena.fields, Arena.fields, he.tag hp]
  split
  · rename_i ht
    have hw : ∀ i, i = 1 ∨ i = 2 → h.value (p.new + i) = h₀.value (p.old + i) := by
      intro i hi
      rw [Arena.payload_of_pair ht] at hs
      exact Arena.value_congr (he.plain p hp i (by omega)
        fun hmem => hd _ hmem (he.isField_of_done hp (by omega) hmem))
    have h1 := hw 1 (.inl rfl)
    have h2 := hw 2 (.inr rfl)
    by_cases hr1 : (h₀.value (p.old + 1)).isRef = true <;> by_cases hr2 :
      (h₀.value (p.old + 2)).isRef = true <;>
      simp [h1, h2, hr1, hr2]
  · rfl

/-- Blocks of images do not overlap: a word of two is a word of one. -/
theorem eq_of_word (he : Evac L h₀ h src P done) {p q : Copy} (hp : P p) (hq : P q) {a : Nat}
    (hp1 : p.new ≤ a + L.words) (hp2 : a + L.words < p.new + p.size) (hq1 : q.new ≤ a + L.words)
    (hq2 : a + L.words < q.new + q.size) : p = q := by
  rcases he.apart p q hp hq with hpq | hap | hap
  · exact hpq
  · omega
  · omega

/-- An image is known by its address. -/
theorem eq_of_new (he : Evac L h₀ h src P done) {p q : Copy} (hp : P p) (hq : P q)
    (hn : p.new = q.new) : p = q := by
  have hpi := he.inside p hp
  have hqi := he.inside q hq
  exact he.eq_of_word hp hq (a := p.new - L.words) (by omega) (by omega) (by omega) (by omega)

/-- A field is that of one image. -/
theorem eq_of_isField (he : Evac L h₀ h src P done) {p q : Copy} (hp : P p) (hq : P q)
    (hsp : L.words + h₀.payload p.old ≤ p.size) (hsq : L.words + h₀.payload q.old ≤ q.size)
    {a : Nat} (hfp : p.IsField h₀ a) (hfq : q.IsField h₀ a) : p = q := by
  obtain ⟨htp, i, hi, hai, -⟩ := hfp
  obtain ⟨htq, j, hj, haj, -⟩ := hfq
  rw [Arena.payload_of_pair htp] at hsp
  rw [Arena.payload_of_pair htq] at hsq
  exact he.eq_of_word hp hq (a := a) (by omega) (by omega) (by omega) (by omega)

/-- A block is found again by its object. -/
theorem eq_of_source (he : Evac L h₀ h src P done) {b c : Nat × Nat} (hb : b ∈ src) (hc : c ∈ src)
    (h : b.1 = c.1) :
    b = c := by
  have hbi := he.source_inside b hb
  have hci := he.source_inside c hc
  rcases he.source_apart b hb c hc with hbc | hap | hap
  · exact hbc
  · omega
  · omega

/-- A word of an image all of whose fields are visited. -/
theorem word_visited (he : Evac L h₀ h src P done) {ρ : Nat → Nat} (hρ : ∀ p, P p → ρ p.old = p.new)
    {p : Copy} (hp : P p) (hd : ∀ a, p.IsField h₀ a → a ∈ done) {i : Nat}
    (hs : i + L.words < p.size) : h.word (p.new + i)
      = if h₀.tag p.old = some .pair ∧ (i = 1 ∨ i = 2) then ((h₀.value (p.old + i)).rename ρ).bits
        else h₀.word (p.old + i) := by
  by_cases hf : p.IsField h₀ (p.new + i)
  · obtain ⟨ht, j, hj, hij, hr⟩ := id hf
    obtain rfl : i = j := by omega
    rw [if_pos ⟨ht, hj⟩, ← ImageIn.eq_rename hρ (.inl ⟨hr, he.visited p hp i hs (hd _ hf)⟩)]
    rfl
  · rw [he.plain p hp i hs fun hm => hf (he.isField_of_done hp hs hm)]
    split
    · rename_i hpair
      have hnr : (h₀.value (p.old + i)).isRef = false := by
        cases hr : (h₀.value (p.old + i)).isRef with
        | false => rfl
        | true => exact absurd ⟨hpair.1, i, hpair.2, rfl, hr⟩ hf
      rw [Value.rename_of_not_ref hnr]
      rfl
    · rfl

/-- The state is that of the words it speaks of: source blocks, and sizes, forwarding words and
contents of the images. -/
theorem congr (he : Evac L h₀ h src P done) (hsize : h'.size = h.size)
    (hsrc : ∀ b ∈ src, ∀ a, b.1 ≤ a + L.words → a + L.words < b.1 + b.2 → h'.word a = h.word a)
    (himg : ∀ p, P p → ∀ a, a + L.words < p.new + p.size → p.new ≤ a ∨ a + L.size = p.new ∨
      a + L.forward = p.new → h'.word a = h.word a) (hL : L.Distinct) :
    Evac L h₀ h' src P done where
  size_eq := hsize.trans he.size_eq
  source b hb a h1 h2 h3 := (hsrc b hb a h1 h2).trans (he.source b hb a h1 h2 h3)
  pending b hb hp := by
    have hbi := he.source_inside b hb
    have hL1 := hL.forward_pos
    have hL2 := hL.forward_le
    rw [hsrc b hb _ (by omega) (by omega)]
    exact he.pending b hb hp
  moved b hb p hp ho := by
    have hbi := he.source_inside b hb
    have hL1 := hL.forward_pos
    have hL2 := hL.forward_le
    rw [hsrc b hb _ (by omega) (by omega)]
    exact he.moved b hb p hp ho
  plain p hp i hi hd := by
    rw [himg p hp _ (by omega) (.inl (by omega))]
    exact he.plain p hp i hi hd
  visited p hp i hi hd := by
    rw [Arena.value_congr (himg p hp (p.new + i) (by omega) (.inl (by omega)))]
    exact he.visited p hp i hi hd
  field := he.field
  new_size p hp := by
    have hpi := he.inside p hp
    have hL1 := hL.size_le
    rw [himg p hp _ (by omega) (.inr (.inl (by omega)))]
    exact he.new_size p hp
  new_forward p hp := by
    have hpi := he.inside p hp
    have hL1 := hL.forward_le
    rw [himg p hp _ (by omega) (.inr (.inr (by omega)))]
    exact he.new_forward p hp
  apart := he.apart
  single := he.single
  clear := he.clear
  inside := he.inside
  source_inside := he.source_inside
  source_apart := he.source_apart

/-- Storing an image into a field marks the field as visited. -/
theorem visit (he : Evac L h₀ h src P done) (hL : L.Distinct) {p : Copy} (hp : P p) {i : Nat}
    (hi : i = 1 ∨ i = 2) (hs : i + L.words < p.size) (ht : h₀.tag p.old = some .pair)
    (hr : (h₀.value (p.old + i)).isRef = true) {v : Value}
    (hv : ImageIn P (h₀.value (p.old + i)) v) :
    Evac L h₀ (h.put (p.new + i) v.bits) src P ((p.new + i) :: done) := by
  have hpi := he.inside p hp
  have hin : p.new + i < h.size := by rw [he.size_eq]; omega
  have hsz := hL.size_le
  have hfw := hL.forward_le
  have hsz1 := hL.size_pos
  have hfw1 := hL.forward_pos
  have hsource : ∀ b ∈ src, ∀ a, b.1 ≤ a + L.words → a + L.words < b.1 + b.2 →
      (h.put (p.new + i) v.bits).word a = h.word a := by
    intro b hb a h1 h2
    have hc := he.clear p hp b hb
    exact Arena.word_put_ne _ (by omega)
  have hheader : ∀ q, P q → ∀ a, q.new ≤ a + L.words → a < q.new →
      (h.put (p.new + i) v.bits).word a = h.word a := by
    intro q hq a h1 h2
    have hqi := he.inside q hq
    refine Arena.word_put_ne _ fun ha => ?_
    obtain rfl := he.eq_of_word hp hq (a := a) (by omega) (by omega) h1 (by omega)
    omega
  exact {
    size_eq := by simpa using he.size_eq
    source := fun b hb a h1 h2 h3 => (hsource b hb a h1 h2).trans (he.source b hb a h1 h2 h3)
    pending := fun b hb hq => by
      have hbi := he.source_inside b hb
      rw [hsource b hb _ (by omega) (by omega)]
      exact he.pending b hb hq
    moved := fun b hb q hq ho => by
      have hbi := he.source_inside b hb
      rw [hsource b hb _ (by omega) (by omega)]
      exact he.moved b hb q hq ho
    plain := fun q hq j hj hd => by
      have hne : q.new + j ≠ p.new + i := fun hc => hd (by simp [hc])
      rw [Arena.word_put_ne _ hne]
      exact he.plain q hq j hj fun hm => hd (List.mem_cons_of_mem _ hm)
    visited := fun q hq j hj hd => by
      by_cases hc : q.new + j = p.new + i
      · obtain rfl := he.eq_of_word hp hq (a := p.new + i) (by omega) (by omega)
          (by omega) (by omega)
        obtain rfl : j = i := by omega
        rw [Arena.value_put_self hin]
        exact hv
      · rw [Arena.value_congr (Arena.word_put_ne _ hc)]
        exact he.visited q hq j hj (by simpa [hc] using hd)
    field := fun a ha => by
      rcases List.mem_cons.mp ha with rfl | ha
      · exact ⟨p, hp, ⟨ht, i, hi, rfl, hr⟩, by omega⟩
      · exact he.field a ha
    new_size := fun q hq => by
      have hqi := he.inside q hq
      rw [hheader q hq _ (by omega) (by omega)]
      exact he.new_size q hq
    new_forward := fun q hq => by
      have hqi := he.inside q hq
      rw [hheader q hq _ (by omega) (by omega)]
      exact he.new_forward q hq
    apart := he.apart
    single := he.single
    clear := he.clear
    inside := he.inside
    source_inside := he.source_inside
    source_apart := he.source_apart }

/-- Copying an object that has no image yet gives it one. -/
theorem add (he : Evac L h₀ h src P done) (hL : L.Distinct) {o n dst : Nat} (hb : (o, n) ∈ src)
    (hnew : ∀ p, P p → p.old ≠ o) (hsize : (h₀.word (o - L.size)).toNat = n)
    (hrel : Relocated L h h' o dst n)
    (hsrc : ∀ b ∈ src, dst + n + L.words ≤ b.1 ∨ b.1 + b.2 ≤ dst + L.words)
    (himg : ∀ p, P p → dst + n + L.words ≤ p.new ∨ p.new + p.size ≤ dst + L.words)
    (hin : dst + n ≤ h₀.size) (hQ : ∀ p, Q p ↔ P p ∨ p = ⟨o, dst + L.words, n⟩) :
    Evac L h₀ h' src Q done := by
  have hbi := he.source_inside _ hb
  simp only at hbi
  have hsz := hL.size_le
  have hfw := hL.forward_le
  have hsz1 := hL.size_pos
  have hfw1 := hL.forward_pos
  have hPQ : ∀ p, P p → Q p := fun p hp => (hQ p).mpr (.inl hp)
  have hso := hsrc _ hb
  simp only at hso
  -- words that the copy leaves alone
  have hkeep : ∀ p, P p → ∀ a, a + L.words < p.new + p.size → p.new ≤ a + L.words →
      h'.word a = h.word a := by
    intro p hp a h1 h2
    have hc := himg p hp
    have hcl := he.clear p hp _ hb
    simp only at hcl
    exact hrel.outside a (by omega) (by omega)
  have hsource : ∀ b ∈ src, ∀ a, b.1 ≤ a + L.words → a + L.words < b.1 + b.2 → a + L.forward ≠ o →
      h'.word a = h.word a := by
    intro b hbm a h1 h2 hne
    have hc := hsrc b hbm
    exact hrel.outside a (by omega) hne
  have hforward : ∀ b ∈ src, b.1 ≠ o → h'.word (b.1 - L.forward) = h.word (b.1 - L.forward) := by
    intro b hbm hne
    have hbmi := he.source_inside b hbm
    exact hsource b hbm _ (by omega) (by omega) (by omega)
  have hdone : ∀ i, i + L.words < n → dst + L.words + i ∉ done := by
    intro i hi hd
    obtain ⟨p, hp, ⟨-, j, -, ha, -⟩, hb'⟩ := he.field _ hd
    have hc := himg p hp
    have hpi := he.inside p hp
    omega
  exact {
    size_eq := hrel.size_eq.trans he.size_eq
    source := fun b hbm a h1 h2 h3 => by
      have hne : a + L.forward ≠ o := by
        intro ha
        rcases he.source_apart b hbm _ hb with rfl | hap | hap
        · exact h3 ha
        · simp only at hap; omega
        · simp only at hap; omega
      rw [hsource b hbm a h1 h2 hne]
      exact he.source b hbm a h1 h2 h3
    pending := fun b hbm hp => by
      rw [hforward b hbm fun ho => hp _ ((hQ _).mpr (.inr rfl)) ho.symm]
      exact he.pending b hbm fun p hpp => hp p (hPQ p hpp)
    moved := fun b hbm p hp ho => by
      rcases (hQ p).mp hp with hp | rfl
      · rw [hforward b hbm fun hbo => hnew p hp (ho.trans hbo)]
        exact he.moved b hbm p hp ho
      · obtain rfl : b = (o, n) := he.eq_of_source hbm hb ho.symm
        exact ⟨rfl, hrel.forward⟩
    plain := fun p hp i hi hd => by
      rcases (hQ p).mp hp with hp | rfl
      · rw [hkeep p hp _ (by omega) (by omega)]
        exact he.plain p hp i hi hd
      · simp only at hi ⊢
        rw [hrel.payload i hi]
        exact he.source _ hb _ (by simp only; omega) (by simp only; omega) (by simp only; omega)
    visited := fun p hp i hi hd => by
      rcases (hQ p).mp hp with hp | rfl
      · rw [Arena.value_congr (hkeep p hp (p.new + i) (by omega) (by omega))]
        exact (he.visited p hp i hi hd).mono hPQ
      · exact absurd hd (hdone i hi)
    field := fun a ha => by
      obtain ⟨p, hp, hf⟩ := he.field a ha
      exact ⟨p, hPQ p hp, hf⟩
    new_size := fun p hp => by
      rcases (hQ p).mp hp with hp | rfl
      · have hpi := he.inside p hp
        rw [hkeep p hp _ (by omega) (by omega)]
        exact he.new_size p hp
      · have hne := hL.ne
        simp only
        rw [hrel.new_size, he.source _ hb _ (by simp only; omega) (by simp only; omega)
          (by simp only; omega)]
        exact hsize
    new_forward := fun p hp => by
      rcases (hQ p).mp hp with hp | rfl
      · have hpi := he.inside p hp
        rw [hkeep p hp _ (by omega) (by omega)]
        exact he.new_forward p hp
      · exact hrel.new_forward
    apart := fun p q hp hq => by
      rcases (hQ p).mp hp with hp | rfl <;> rcases (hQ q).mp hq with hq | rfl
      · exact he.apart p q hp hq
      · have hc := himg p hp
        simp only; omega
      · have hc := himg q hq
        simp only; omega
      · exact .inl rfl
    single := fun p q hp hq ho => by
      rcases (hQ p).mp hp with hp | rfl <;> rcases (hQ q).mp hq with hq | rfl
      · exact he.single p q hp hq ho
      · exact absurd ho (hnew p hp)
      · exact absurd ho.symm (hnew q hq)
      · rfl
    clear := fun p hp b hbm => by
      rcases (hQ p).mp hp with hp | rfl
      · exact he.clear p hp b hbm
      · have hc := hsrc b hbm
        simp only; omega
    inside := fun p hp => by
      rcases (hQ p).mp hp with hp | rfl
      · exact he.inside p hp
      · simp only; omega
    source_inside := he.source_inside
    source_apart := he.source_apart }

end Evac

/-! ## The order of the visits -/

namespace Stacked

variable {hd lo scan top : Nat} {cs vs : List Copy}

/-- Copies are visited in the order in which they were made: the next one begins where the visited
ones end. -/
theorem next_copy (hpre : vs <+: cs) (hv : Stacked hd lo (vs.map Copy.block) scan)
    (hcs : Stacked hd lo (cs.map Copy.block) top) (hlt : scan < top) :
    ∃ c, vs ++ [c] <+: cs ∧ c ∉ vs ∧ c.new = scan + hd ∧
      Stacked hd lo ((vs ++ [c]).map Copy.block) (scan + c.size) := by
  obtain ⟨t, rfl⟩ := hpre
  rw [List.map_append] at hcs
  obtain ⟨mid, h1, h2⟩ := hcs.split
  obtain rfl := hv.end_unique h1
  cases t with
  | nil =>
    have hmid : scan = top := h2
    omega
  | cons c rest =>
    have hn : c.new = scan + hd := h2.1
    refine ⟨c, ⟨rest, by simp⟩, fun hc => ?_, hn, ?_⟩
    · have hb := hv.bounds (List.mem_map_of_mem hc)
      omega
    · rw [List.map_append]
      exact hv.append ⟨hn, h2.2.1, rfl⟩

/-- The visits never go beyond the copies, and when they have come to the end all are visited. -/
theorem all_copies (hpre : vs <+: cs) (hv : Stacked hd lo (vs.map Copy.block) scan)
    (hcs : Stacked hd lo (cs.map Copy.block) top) : scan ≤ top ∧
    (top ≤ scan → vs = cs ∧ scan = top) := by
  obtain ⟨t, rfl⟩ := hpre
  rw [List.map_append] at hcs
  obtain ⟨mid, h1, h2⟩ := hcs.split
  obtain rfl := hv.end_unique h1
  refine ⟨h2.le, fun hle => ?_⟩
  obtain rfl : scan = top := Nat.le_antisymm h2.le hle
  have htn : t = [] := List.map_eq_nil_iff.mp h2.eq_nil
  simp [htn]

end Stacked

/-! ## Visitors that copy -/

variable {σ γ : Type}

/-- A visitor that copies what it is given: `I` holds between its steps, the ghost `g` knows the
images `P g` made so far and only gains more, and becomes one with `next g vs` when the references
`vs` are visited. The fields of those in `T g` may be visited. -/
structure Evacuates (L : Header) (h₀ : Arena) (src : List (Nat × Nat)) (visit : Value → GcM σ Value)
    (I : Machine σ → γ → List Nat → Prop) (P T : γ → Copy → Prop) (next : γ → List Value → γ → Prop)
    (V : Value → Prop) (E : Failure → Machine σ → Prop) : Prop where
  evac : ∀ {m g done}, I m g done → Evac L h₀ m.heap src (P g) done
  refl : ∀ g, next g [] g
  trans : ∀ {g g' g'' vs ws}, next g vs g' → next g' ws g'' → next g (vs ++ ws) g''
  mono : ∀ {g g' vs p}, next g vs g' → P g p → P g' p
  mono_traced : ∀ {g g' vs p}, next g vs g' → T g p → T g' p
  traced : ∀ {g p}, T g p → P g p
  run : ∀ m g done v, I m g done → v.isRef = true → V v → Runs (visit v) m
    (fun v' m' => ∃ g', next g [v] g' ∧ I m' g' done ∧ ImageIn (P g') v v' ∧ m'.roots = m.roots) E
  /-- A slot may take the image of what it holds. -/
  roots : ∀ {m g done slot v v'}, I m g done → m.roots.get? slot = some v → ImageIn (P g) v v' →
    I (m.withRoots (m.roots.set slot v')) g done
  store : ∀ {m g done p i v}, I m g done → T g p → p.IsField h₀ (p.new + i) → i + L.words < p.size →
    p.new + i ∉ done → ImageIn (P g) (h₀.value (p.old + i)) v →
    I (m.withHeap (m.heap.put (p.new + i) v.bits)) g ((p.new + i) :: done)

namespace Evacuates

variable {L : Header} {h₀ : Arena} {src : List (Nat × Nat)} {visit : Value → GcM σ Value}
  {I : Machine σ → γ → List Nat → Prop} {P T : γ → Copy → Prop} {next : γ → List Value → γ → Prop}
  {V : Value → Prop}
  {E : Failure → Machine σ → Prop} {m : Machine σ} {g : γ} {done : List Nat}

theorem visits (hv : Evacuates L h₀ src visit I P T next V E) (done : List Nat) :
    Visits visit (fun m g => I m g done) next (fun g => ImageIn (P g)) V E where
  refl := hv.refl
  trans := hv.trans
  mono hle him := him.mono fun _ => hv.mono hle
  roots hI hget _ him := hv.roots hI hget him
  run m g v hI hr hV := hv.run m g done v hI hr hV

/-- Visiting an image visits all of its fields in their order, and nothing else. -/
theorem traceObject_runs (hv : Evacuates L h₀ src visit I P T next V E) (hI : I m g done) {p : Copy}
    (hT : T g p) (ht : h₀.tag p.old ≠ none) (hs : L.words + h₀.payload p.old ≤ p.size)
    (hV : ∀ i, p.IsField h₀ (p.new + i) → V (h₀.value (p.old + i)))
    (hd : ∀ a ∈ done, ¬ p.IsField h₀ a) :
    Runs (traceObject visit p.new) m
    (fun _ m' => ∃ g' done', next g (h₀.referring p.old) g' ∧ I m' g' done' ∧
      (∀ a, a ∈ done' ↔ a ∈ done ∨ p.IsField h₀ a) ∧ m'.roots = m.roots) E := by
  have he := hv.evac hI
  have hp := hv.traced hT
  have hpi := he.inside p hp
  have hfields := he.mem_fields hp hs hd
  have hpay : m.heap.payload p.new = h₀.payload p.old := Arena.payload_congr (he.head hp)
  -- a field that is still to come is not visited yet
  let J : List Nat → Machine σ → Prop := fun fs m' => ∃ g' done' vs, next g vs g' ∧
    vs ++ fs.map m.heap.value = h₀.referring p.old ∧ I m' g' done' ∧ fs.Nodup ∧
    (∀ a ∈ fs, p.IsField h₀ a ∧ a ∉ done') ∧
      (∀ a, a ∈ done' ↔ a ∈ done ∨ (p.IsField h₀ a ∧ a ∉ fs)) ∧
    m'.roots = m.roots
  have hstart : J (m.heap.fields p.new) m := by
    refine ⟨g, done, [], hv.refl g, he.referring hp hs hd, hI, ?_, fun a ha => ?_, fun a => ?_, rfl⟩
    · unfold Arena.fields
      split
      · exact List.Nodup.sublist List.filter_sublist (by simp)
      · exact .nil
    · exact ⟨(hfields a).mp ha, fun hm => hd a hm ((hfields a).mp ha)⟩
    · rw [hfields a]
      exact ⟨.inl, fun ha => ha.elim id fun hf => absurd hf.1 hf.2⟩
  refine (Reclaim.traceObject_runs (J := J) ?_ ?_ hstart ?_).mono ?_
  · rw [he.tag hp]
    exact ht
  · rw [hpay, he.size_eq]
    omega
  · rintro a fs m1 ⟨g1, done1, vs, hle1, hvs, hI1, hnd, hfs, hdn, hroots⟩
    obtain ⟨hf, hn⟩ := hfs a (by simp)
    obtain ⟨htp, i, hi, rfl, hr⟩ := id hf
    have he1 := hv.evac hI1
    have hp1 := hv.mono hle1 hp
    rw [Arena.payload_of_pair htp] at hs
    have hval : m1.heap.value (p.new + i) = h₀.value (p.old + i) :=
      Arena.value_congr (he1.plain p hp1 i (by omega) hn)
    refine ⟨by rw [he1.size_eq]; omega, ?_⟩
    rw [hval]
    refine (hv.run m1 g1 done1 _ hI1 hr (hV i hf)).mono ?_
    rintro v' m2 ⟨g2, hle2, hI2, him, hroots2⟩
    have he2 := hv.evac hI2
    have hvs2 : (vs ++ [h₀.value (p.old + i)]) ++ fs.map m.heap.value = h₀.referring p.old := by
      have hval0 : m.heap.value (p.new + i) = h₀.value (p.old + i) :=
        Arena.value_congr (he.plain p hp i (by omega) fun hm => hd _ hm hf)
      rw [← hvs, List.map_cons, hval0, List.append_assoc]
      rfl
    refine ⟨by rw [he2.size_eq]; omega, g2, _, _, hv.trans hle1 hle2, hvs2,
      hv.store hI2 (hv.mono_traced (hv.trans hle1 hle2) hT) hf (by omega) hn him,
        (List.nodup_cons.mp hnd).2, ?_, ?_, ?_⟩
    · intro b hb
      obtain ⟨hbf, hbn⟩ := hfs b (by simp [hb])
      have hne : b ≠ p.new + i := fun hc => (List.nodup_cons.mp hnd).1 (hc ▸ hb)
      exact ⟨hbf, by simp [hne, hbn]⟩
    · intro b
      have hb := hdn b
      simp only [List.mem_cons, not_or] at hb ⊢
      constructor
      · rintro (rfl | hb')
        · exact .inr ⟨hf, (List.nodup_cons.mp hnd).1⟩
        · exact (hb.mp hb').imp id fun hx => ⟨hx.1, hx.2.2⟩
      · rintro (hb' | ⟨hb1, hb2⟩)
        · exact .inr (hb.mpr (.inl hb'))
        · by_cases hc : b = p.new + i
          · exact .inl hc
          · exact .inr (hb.mpr (.inr ⟨hb1, hc, hb2⟩))
    · simpa using hroots2.trans hroots
  · rintro - m' ⟨g', done', vs, hle, hvs, hI', -, -, hdn, hroots⟩
    rw [List.map_nil, List.append_nil] at hvs
    exact ⟨g', done', hvs ▸ hle, hI', fun a => by simpa using hdn a, hroots⟩

end Evacuates

end Reclaim
