import Reclaim.Proofs.Demand
import Reclaim.Proofs.Generational.State

/-!
# Minor collection: copying one object

A minor collection copies what it finds in the nursery, either into the other half or, once old
enough, into tenured space. `Minor` is its state between two steps; `forward_runs` says that the
visitor keeps it, and `evacuates` that the laws of `Evacuates` hold for it.

No copy is made but of a live object, so a collection that finds no room for one has found more live
objects than fit: `Overfull` says where, and `Starves` that nothing else is reported as want of
room.
-/

namespace Reclaim.Generational

/-- The copies made so far, in the other half of the nursery and in tenured space. -/
structure Survivors where
  young : List Copy
  old : List Copy

/-- Copies are only ever added, behind those that are there. -/
def Survivors.le (g g' : Survivors) : Prop := g.young <+: g'.young ∧ g.old <+: g'.old

/-- An object of tenured space is its own image. -/
def stay (b : Nat × Nat) : Copy := ⟨b.1, b.1, b.2⟩

/-- The images: tenured objects and copies. -/
def Placed (old : List (Nat × Nat)) (g : Survivors) (c : Copy) : Prop :=
  (∃ b ∈ old, c = stay b) ∨ c ∈ g.young ∨ c ∈ g.old

/-- The images whose fields are visited: objects that were remembered at the start, and copies. -/
def Traced (m₀ : Machine Generational) (old : List (Nat × Nat)) (g : Survivors) (c : Copy) : Prop :=
  (∃ b ∈ old, c = stay b ∧ b.1 ∈ m₀.own.remembered.toList) ∨ c ∈ g.young ∨ c ∈ g.old

/-- The objects that stand in the heap while a collection goes on: those of `S`, which it found, and
the copies that it has made. -/
def Standing (S : Nat → Prop) (g : Survivors) (o : Nat) : Prop :=
  S o ∨ ∃ c, (c ∈ g.young ∨ c ∈ g.old) ∧ c.new = o

/-- The state of a minor collection that began in `m₀`. The objects of `X` are those whose fields
are final. -/
structure Minor (m₀ : Machine Generational) (young old : List (Nat × Nat)) (threshold : Nat)
    (X : Nat → Prop) (m : Machine (Generational × Evacuation)) (g : Survivors)
    (done : List Nat) : Prop where
  evac : Evac header m₀.heap m.heap young (Placed old g) done
  own : m.own.1 = remembering m₀.own m.own.1.remembered.toList
  threshold_eq : m.own.2.threshold = threshold
  survivors_region : m.own.2.survivors.region = m₀.own.survivorSpace
  tenured_region : m.own.2.tenured.region = m₀.own.tenured.region
  young_stacked : Stacked 3 m₀.own.survivorSpace.first
    (g.young.map Copy.block) m.own.2.survivors.top
  young_room : m.own.2.survivors.top ≤ m₀.own.survivorSpace.limit
  old_stacked : Stacked 3 m₀.own.tenured.top (g.old.map Copy.block) m.own.2.tenured.top
  old_room : m.own.2.tenured.top ≤ m₀.own.tenured.region.limit
  live : ∀ c, c ∈ g.young ∨ c ∈ g.old → Live m₀ c.old ∧ (c.old, c.size) ∈ young
  traced : ∀ a ∈ done, ∃ c, Traced m₀ old g c ∧ c.IsField m₀.heap a
  young_flags : ∀ c ∈ g.young, isPromoted threshold (m₀.heap.word (c.old - 1)) = false ∧
    m.heap.word (c.new - 1) = agedFlags threshold (m₀.heap.word (c.old - 1))
  promoted_flags : ∀ c ∈ g.old, isPromoted threshold (m₀.heap.word (c.old - 1)) = true ∧
    m.heap.word (c.new - 1) &&& ~~~rememberedFlag = agedFlags threshold (m₀.heap.word (c.old - 1))
  old_flags : ∀ b ∈ old, m.heap.word (b.1 - 1) &&& ~~~rememberedFlag = m₀.heap.word (b.1 - 1) &&&
    ~~~rememberedFlag
  /-- The remembered bit is that of the entries. -/
  flagged : ∀ c, Placed old g c → c ∉ g.young →
    (m.heap.word (c.new - 1) &&& rememberedFlag ≠ 0 ↔ c.new ∈ m.own.1.remembered.toList)
  entries_nodup : m.own.1.remembered.toList.Nodup
  entries_traced : ∀ e ∈ m.own.1.remembered.toList, ∃ c, Traced m₀ old g c ∧ c ∉ g.young ∧ c.new = e
  /-- What is settled was found to be an object. -/
  settled : ∀ x, X x → ∃ c, Traced m₀ old g c ∧ c.new = x ∧ m₀.heap.tag c.old ≠ none ∧
    (∀ a, c.IsField m₀.heap a → a ∈ done) ∧
    (PointsInto m.heap m₀.own.survivorSpace x → x ∈ m.own.1.remembered.toList)
  room : m₀.own.remembered.toList.length ≤ m₀.own.remembered.capacity →
    m.own.1.remembered.toList.length ≤ m.own.1.remembered.capacity
  stress : m.stress = m₀.stress
  stats : m.stats = m₀.stats
  /-- The words that were promoted are those that were added to tenured space. -/
  counted : m.own.2.tenured.top = m₀.own.tenured.top + m.own.2.promoted
  roots : m.roots.Within (Standing (Live m₀) g)

/-- The live objects of the nursery are too many for a minor collection: those that it promotes for
the rest of tenured space, or those that it keeps for the other half of the nursery. -/
def Overfull (m : Machine Generational) (young : List (Nat × Nat)) (threshold : Nat) : Prop :=
  Exceeds young (fun o => Live m o ∧ isPromoted threshold (m.heap.word (o - 1)) = true)
    m.own.tenured.remaining ∨
  Exceeds young (fun o => Live m o ∧ isPromoted threshold (m.heap.word (o - 1)) = false)
    m.own.survivorSpace.length

/-- How a minor collection of `m` may fail: for good, and for want of room only if there is too
little. -/
def Starves {σ : Type} (m : Machine Generational) (young : List (Nat × Nat)) (threshold : Nat)
    (f : Failure) (_ : Machine σ) : Prop :=
  f.isFatal = true ∧ ∀ s bytes, f = .heapExhausted s bytes → Overfull m young threshold

/-- A minor collection of `m₀` that stopped in `m`, after it had made the copies `g` and visited the
fields `done`. The spaces are still those of the start. -/
structure Stranded (m₀ : Machine Generational) (young old : List (Nat × Nat))
    (m : Machine Generational) (g : Survivors) (done : List Nat) : Prop where
  evac : Evac header m₀.heap m.heap young (Placed old g) done
  own : m.own = remembering m₀.own m.own.remembered.toList
  live : ∀ c, c ∈ g.young ∨ c ∈ g.old → Live m₀ c.old ∧ (c.old, c.size) ∈ young
  roots : m.roots.Within (Standing (Live m₀) g)
  stats : m.stats = m₀.stats

def Interrupted (m₀ : Machine Generational) (young old : List (Nat × Nat))
    (m : Machine Generational) : Prop :=
  ∃ g done, Stranded m₀ young old m g done

/-- How a minor collection stops, and where. -/
def BreaksOff (m₀ : Machine Generational) (young old : List (Nat × Nat)) (threshold : Nat)
    (f : Failure) (m : Machine (Generational × Evacuation)) : Prop :=
  Starves m₀ young threshold f m ∧ Interrupted m₀ young old (m.withOwn m.own.1)

namespace Survivors.le

variable {g g' g'' : Survivors}

theorem refl (g : Survivors) : g.le g := ⟨List.prefix_refl _, List.prefix_refl _⟩

theorem trans (h : g.le g') (h' : g'.le g'') : g.le g'' := ⟨h.1.trans h'.1, h.2.trans h'.2⟩

theorem placed {old : List (Nat × Nat)} {c : Copy} (h : g.le g') (hc : Placed old g c) :
    Placed old g' c :=
  hc.imp id fun hc => hc.imp (fun hy => h.1.subset hy) fun ho => h.2.subset ho

theorem traced {m₀ : Machine Generational} {old : List (Nat × Nat)} {c : Copy} (h : g.le g')
    (hc : Traced m₀ old g c) : Traced m₀ old g' c :=
  hc.imp id fun hc => hc.imp (fun hy => h.1.subset hy) fun ho => h.2.subset ho

theorem standing {S : Nat → Prop} {o : Nat} (h : g.le g') (ho : Standing S g o) :
    Standing S g' o :=
  ho.imp id fun ⟨c, hc, he⟩ => ⟨c, hc.imp (fun hy => h.1.subset hy) fun ho => h.2.subset ho, he⟩

end Survivors.le

theorem Traced.placed {m₀ : Machine Generational} {old : List (Nat × Nat)} {g : Survivors}
    {c : Copy} (hc : Traced m₀ old g c) : Placed old g c :=
  hc.imp (fun ⟨b, hb, he, _⟩ => ⟨b, hb, he⟩) id

namespace Minor

variable {m₀ : Machine Generational} {young old : List (Nat × Nat)} {threshold : Nat}
  {X : Nat → Prop}
  {m : Machine (Generational × Evacuation)} {g : Survivors} {done : List Nat}

/-- What is left if the collection stops here. -/
theorem interrupted (hM : Minor m₀ young old threshold X m g done) :
    Interrupted m₀ young old (m.withOwn m.own.1) :=
  ⟨g, done, hM.evac, hM.own, hM.live, hM.roots, hM.stats⟩

/-- An image that is visited is that of a live object and holds all its words. -/
theorem fits (hi : Inv m₀ young old (Live m₀)) (hM : Minor m₀ young old threshold X m g done)
    {c : Copy} (hc : Traced m₀ old g c) : Live m₀ c.old ∧ 3 + m₀.heap.payload c.old ≤ c.size := by
  have hlive : Live m₀ c.old ∧ ((c.old, c.size) ∈ young ∨ (c.old, c.size) ∈ old) := by
    rcases hc with ⟨b, hb, rfl, he⟩ | hc
    · exact ⟨.root (.inr he), .inr hb⟩
    · exact ⟨(hM.live c hc).1, .inl (hM.live c hc).2⟩
  obtain ⟨n, hn, hfit⟩ := hi.placed _ hlive.1
  refine ⟨hlive.1, ?_⟩
  have hsp := hi.spaces
  have hsize : n = c.size := by
    rcases hn with hn | hn <;> rcases hlive.2 with hc' | hc'
    · exact hi.young_stacked.size_unique hn hc'
    · have h1 := hi.young_bounds hn
      have h2 := hi.old_bounds hc'
      have h3 := hsp.nursery_top
      have h4 := hsp.below
      omega
    · have h1 := hi.young_bounds hc'
      have h2 := hi.old_bounds hn
      have h3 := hsp.nursery_top
      have h4 := hsp.below
      omega
    · exact hi.old_stacked.size_unique hn hc'
  omega

/-- Where an image lies that is not a survivor in the nursery. -/
theorem survivor_bounds (hM : Minor m₀ young old threshold X m g done) {c : Copy}
    (hc : c ∈ g.young) :
    m₀.own.survivorSpace.first + 3 ≤ c.new ∧ c.new + c.size ≤ m.own.2.survivors.top +
    3 ∧ 3 < c.size :=
  hM.young_stacked.bounds (List.mem_map_of_mem hc)

theorem promoted_bounds (hM : Minor m₀ young old threshold X m g done) {c : Copy} (hc : c ∈ g.old) :
    m₀.own.tenured.top + 3 ≤ c.new ∧ c.new + c.size ≤ m.own.2.tenured.top + 3 ∧ 3 < c.size :=
  hM.old_stacked.bounds (List.mem_map_of_mem hc)

/-- Words that keep the collection's state when the words of images and source stay: the objects of
`X` refer to what they referred to. -/
theorem succ_settled (hi : Inv m₀ young old (Live m₀))
    (hM : Minor m₀ young old threshold X m g done) {k : Arena} {c : Copy} (hc : Traced m₀ old g c)
    (hw : ∀ i, i + 3 < c.size → k.word (c.new + i) = m.heap.word (c.new + i)) :
    k.succ c.new = m.heap.succ c.new := by
  obtain ⟨-, hs⟩ := hM.fits hi hc
  have hci := hM.evac.inside c hc.placed
  simp only [header_words] at hci
  refine Arena.succ_congr (hw 0 (by omega)) fun ht => ?_
  rw [hM.evac.tag hc.placed] at ht
  rw [Arena.payload_of_pair ht] at hs
  exact ⟨hw 1 (by omega), hw 2 (by omega)⟩

end Minor

/-! ## One copy -/

/-- The heap after the object at `o` was copied to the block at `dst` with the flags `w`. -/
def copied (h : Arena) (o dst n : Nat) (w : Word) : Arena :=
  (((h.copy (o - 3) dst n).put dst 0).put (dst + 2) w).put (o - 3) (UInt64.ofNat (dst + 3))

section Copied

variable {h : Arena} {o dst n : Nat} {w : Word}

theorem copied_relocated (ho : 3 ≤ o) (hn : 3 < n) (hs : o - 3 + n ≤ h.size) (hd : dst + n ≤ h.size)
    (hsmall : h.size < 0x1000000000000000) (hap : dst + n ≤ o - 3 ∨ o - 3 + n ≤ dst) :
    Relocated header h (copied h o dst n w) o dst n where
  size_eq := by simp [copied]
  outside a ha hne := by
    simp only [header_forward] at hne
    rw [copied, Arena.word_put_ne _ (by omega), Arena.word_put_ne _ (by omega),
      Arena.word_put_ne _ (by omega),
      Arena.word_copy hs hd, if_neg ha]
  payload i hi := by
    simp only [header_words] at hi ⊢
    rw [copied, Arena.word_put_ne _ (by omega), Arena.word_put_ne _ (by omega),
      Arena.word_put_ne _ (by omega),
      Arena.word_copy hs hd, if_pos (by omega)]
    congr 1
    omega
  forward := by
    simp only [header_forward, header_words]
    rw [copied, Arena.word_put_self _ (by simp; omega), toNat_ofNat_of_lt (by omega)]
  new_size := by
    simp only [header_size, header_words]
    rw [copied, Arena.word_put_ne _ (by omega), Arena.word_put_ne _ (by omega),
      Arena.word_put_ne _ (by omega),
      Arena.word_copy hs hd, if_pos (by omega)]
    congr 1
    omega
  new_forward := by
    simp only [header_forward, header_words]
    rw [copied, Arena.word_put_ne _ (by omega), Arena.word_put_ne _ (by omega), show dst + 3 -
      3 = dst by omega,
      Arena.word_put_self _ (by simp; omega)]

theorem word_copied_flags (hn : 3 < n) (hd : dst + n ≤ h.size)
    (hap : dst + n ≤ o - 3 ∨ o - 3 + n ≤ dst) : (copied h o dst n w).word (dst + 2) = w := by
  rw [copied, Arena.word_put_ne _ (by omega), Arena.word_put_self _ (by simp; omega)]

end Copied

/-- Where the next copy of `n` words goes: the survivors' space, or tenured space for one that is
promoted. -/
inductive Target (m₀ : Machine Generational) (threshold : Nat) (ev : Evacuation)
    (g : Survivors) (o n : Nat) :
    Nat → Evacuation → Survivors → Prop where
  | young (hp : isPromoted threshold (m₀.heap.word (o - 1)) = false)
      (hr : ev.survivors.top + n ≤ m₀.own.survivorSpace.limit) :
    Target m₀ threshold ev g o n ev.survivors.top
      { ev with survivors := { ev.survivors with top := ev.survivors.top + n } }
      { g with young := g.young ++ [⟨o, ev.survivors.top + 3, n⟩] }
  | old (hp : isPromoted threshold (m₀.heap.word (o - 1)) = true)
      (hr : ev.tenured.top + n ≤ m₀.own.tenured.region.limit) :
    Target m₀ threshold ev g o n ev.tenured.top
      { ev with tenured := { ev.tenured with
        top := ev.tenured.top + n }, promoted := ev.promoted + n }
      { g with old := g.old ++ [⟨o, ev.tenured.top + 3, n⟩] }

namespace Target

variable {m₀ : Machine Generational} {threshold : Nat} {ev ev' : Evacuation} {g g' : Survivors}
  {o n dst : Nat}
  {old : List (Nat × Nat)}

theorem placed_iff (ht : Target m₀ threshold ev g o n dst ev' g') (c : Copy) :
    Placed old g' c ↔ Placed old g c ∨ c = ⟨o, dst + 3, n⟩ := by
  cases ht with
  | young hp hr =>
    simp only [Placed, List.mem_append, List.mem_singleton]
    exact ⟨fun h => by rcases h with h | (h | h) | h <;> simp [h],
      fun h => by rcases h with (h | h | h) | h <;> simp [h]⟩
  | old hp hr =>
    simp only [Placed, List.mem_append, List.mem_singleton]
    exact ⟨fun h => by rcases h with h | h | h | h <;> simp [h],
      fun h => by rcases h with (h | h | h) | h <;> simp [h]⟩

theorem young_cases (ht : Target m₀ threshold ev g o n dst ev' g') {c : Copy} (hc : c ∈ g'.young) :
    c ∈ g.young ∨ (c = ⟨o, dst + 3, n⟩ ∧ isPromoted threshold (m₀.heap.word (o - 1)) = false) := by
  cases ht with
  | young hp hr => exact (List.mem_append.mp hc).imp id fun hc => ⟨List.mem_singleton.mp hc, hp⟩
  | old hp hr => exact .inl hc

theorem old_cases (ht : Target m₀ threshold ev g o n dst ev' g') {c : Copy} (hc : c ∈ g'.old) :
    c ∈ g.old ∨ (c = ⟨o, dst + 3, n⟩ ∧ isPromoted threshold (m₀.heap.word (o - 1)) = true) := by
  cases ht with
  | young hp hr => exact .inl hc
  | old hp hr => exact (List.mem_append.mp hc).imp id fun hc => ⟨List.mem_singleton.mp hc, hp⟩

theorem le (ht : Target m₀ threshold ev g o n dst ev' g') : g.le g' := by
  cases ht with
  | young hp hr => exact ⟨List.prefix_append _ _, List.prefix_refl _⟩
  | old hp hr => exact ⟨List.prefix_refl _, List.prefix_append _ _⟩

end Target

namespace Minor

variable {m₀ : Machine Generational} {young old : List (Nat × Nat)} {threshold : Nat}
  {X : Nat → Prop}
  {m : Machine (Generational × Evacuation)} {g g' : Survivors} {done : List Nat} {o n dst : Nat}
  {ev' : Evacuation}

theorem target_of_place (hM : Minor m₀ young old threshold X m g done)
    (hp : place? m.own.2 (m₀.heap.word (o - 1)) n = some (dst, ev')) :
    ∃ g', Target m₀ threshold m.own.2 g o n dst ev' g' := by
  obtain rfl := hM.threshold_eq
  unfold place? at hp
  split at hp
  · rename_i hpr
    obtain ⟨⟨a, t⟩, ha, he⟩ := Option.map_eq_some_iff.mp hp
    obtain ⟨hf, rfl, rfl⟩ := Bump.allocate?_eq_some_iff.mp ha
    cases he
    rw [Bump.fits_iff, hM.tenured_region] at hf
    exact ⟨_, .old hpr hf⟩
  · rename_i hpr
    obtain ⟨⟨a, t⟩, ha, he⟩ := Option.map_eq_some_iff.mp hp
    obtain ⟨hf, rfl, rfl⟩ := Bump.allocate?_eq_some_iff.mp ha
    cases he
    rw [Bump.fits_iff, hM.survivors_region] at hf
    exact ⟨_, .young (by simpa using hpr) hf⟩

/-- The block of the next copy is free. -/
theorem target_apart (hi : Inv m₀ young old (Live m₀))
    (hM : Minor m₀ young old threshold X m g done)
    (ht : Target m₀ threshold m.own.2 g o n dst ev' g') :
    (∀ b ∈ young, dst + n + 3 ≤ b.1 ∨ b.1 + b.2 ≤ dst + 3) ∧
    (∀ c, Placed old g c → dst + n + 3 ≤ c.new ∨ c.new + c.size ≤ dst + 3) ∧
    dst + n ≤ m₀.heap.size := by
  have hsp := hi.spaces
  have h1 := hsp.nursery_top
  have h2 := hsp.halves
  have h3 := hsp.below
  have h4 := hsp.survivor_below
  have h5 := hsp.tenured_top
  have h6 := hsp.tenured
  have h7 := hM.young_stacked.le
  have h8 := hM.old_stacked.le
  have h9 := hi.old_stacked.le
  have h10 := hM.young_room
  refine ⟨fun b hb => ?_, fun c hc => ?_, ?_⟩
  · have hbd := hi.young_bounds hb
    cases ht <;> omega
  · rcases hc with ⟨b, hb, rfl⟩ | hc | hc
    · have hbd := hi.old_bounds hb
      simp only [stay]
      cases ht <;> omega
    · have hbd := hM.survivor_bounds hc
      cases ht <;> omega
    · have hbd := hM.promoted_bounds hc
      cases ht <;> omega
  · cases ht <;> omega

section Copied

variable {h' : Arena}

/-- The words of images that were made before stay. -/
theorem copy_word (hi : Inv m₀ young old (Live m₀)) (hM : Minor m₀ young old threshold X m g done)
    (hb : (o, n) ∈ young) (ht : Target m₀ threshold m.own.2 g o n dst ev' g')
    (hrel : Relocated header m.heap h' o dst n) {c : Copy} (hc : Placed old g c) {a : Nat}
    (h1 : c.new ≤ a + 3) (h2 : a + 3 < c.new + c.size) : h'.word a = m.heap.word a := by
  have hbd := hi.young_bounds hb
  have hap := (hM.target_apart hi ht).2.1 c hc
  have hcl := hM.evac.clear c hc _ hb
  simp only at hcl
  refine hrel.outside a (by omega) ?_
  simp only [header_forward]
  omega

theorem copy_flags (hi : Inv m₀ young old (Live m₀)) (hM : Minor m₀ young old threshold X m g done)
    (hb : (o, n) ∈ young) (ht : Target m₀ threshold m.own.2 g o n dst ev' g')
    (hrel : Relocated header m.heap h' o dst n) {c : Copy} (hc : Placed old g c) :
    h'.word (c.new - 1) = m.heap.word (c.new - 1) := by
  have hci := hM.evac.inside c hc
  simp only [header_words] at hci
  exact hM.copy_word hi hb ht hrel hc (by omega) (by omega)

/-- The new image is none that was made before. -/
theorem copy_new_ne (hi : Inv m₀ young old (Live m₀)) (hM : Minor m₀ young old threshold X m g done)
    (ht : Target m₀ threshold m.own.2 g o n dst ev' g') {c : Copy} (hc : Placed old g c)
    (hn : 3 < n) : c.new ≠ dst + 3 := by
  have hap := (hM.target_apart hi ht).2.1 c hc
  have hci := hM.evac.inside c hc
  simp only [header_words] at hci
  omega

/-- What was settled refers to what it referred to. -/
theorem copy_settled (hi : Inv m₀ young old (Live m₀))
    (hM : Minor m₀ young old threshold X m g done) (hb : (o, n) ∈ young)
    (ht : Target m₀ threshold m.own.2 g o n dst ev' g') (hrel : Relocated header m.heap h' o dst n)
    {x : Nat} (hx : X x) :
    ∃ c, Traced m₀ old g' c ∧ c.new = x ∧ m₀.heap.tag c.old ≠ none ∧
    (∀ a, c.IsField m₀.heap a → a ∈ done) ∧
      (PointsInto h' m₀.own.survivorSpace x → x ∈ m.own.1.remembered.toList) := by
  obtain ⟨c, hc, rfl, hk, hf, hp⟩ := hM.settled x hx
  have hsucc : h'.succ c.new = m.heap.succ c.new := hM.succ_settled hi hc fun i _ =>
    hM.copy_word hi hb ht hrel hc.placed (by omega) (by omega)
  refine ⟨c, ht.le.traced hc, rfl, hk, hf, fun hpt => hp ?_⟩
  unfold PointsInto at hpt ⊢
  rwa [← hsucc]

/-- Copying one more object keeps the state. -/
theorem copy (hi : Inv m₀ young old (Live m₀)) (hM : Minor m₀ young old threshold X m g done)
    (hb : (o, n) ∈ young) (hlive : Live m₀ o) (hnew : ∀ c, Placed old g c → c.old ≠ o)
    (ht : Target m₀ threshold m.own.2 g o n dst ev' g') (hrel : Relocated header m.heap h' o dst n)
    (hwf : h'.word (dst + 2) = agedFlags threshold (m₀.heap.word (o - 1))) :
    Minor m₀ young old threshold X ((m.withOwn (m.own.1, ev')).withHeap h') g' done := by
  have hbd := hi.young_bounds hb
  obtain ⟨hsrc, himg, hin⟩ := hM.target_apart hi ht
  -- what lies in the nursery is never remembered
  have haged : agedFlags threshold (m₀.heap.word (o - 1)) &&& rememberedFlag = 0 := by
    rw [agedFlags_and (by decide) (by decide)]
    exact (hi.young_flags _ hb).2
  exact {
    evac := hM.evac.add header_distinct hb hnew (hi.young_sized _ hb) hrel hsrc himg hin
      ht.placed_iff
    own := hM.own
    threshold_eq := by cases ht <;> exact hM.threshold_eq
    survivors_region := by cases ht <;> exact hM.survivors_region
    tenured_region := by cases ht <;> exact hM.tenured_region
    young_stacked := by
      cases ht with
      | young hp hr => rw [List.map_append]; exact hM.young_stacked.snoc (n := n) (by omega)
      | old hp hr => exact hM.young_stacked
    young_room := by
      cases ht with
      | young hp hr => exact hr
      | old hp hr => exact hM.young_room
    old_stacked := by
      cases ht with
      | young hp hr => exact hM.old_stacked
      | old hp hr => rw [List.map_append]; exact hM.old_stacked.snoc (n := n) (by omega)
    old_room := by
      cases ht with
      | young hp hr => exact hM.old_room
      | old hp hr => exact hr
    live := by
      rintro c (hc | hc)
      · rcases ht.young_cases hc with hc | ⟨rfl, -⟩
        · exact hM.live c (.inl hc)
        · exact ⟨hlive, hb⟩
      · rcases ht.old_cases hc with hc | ⟨rfl, -⟩
        · exact hM.live c (.inr hc)
        · exact ⟨hlive, hb⟩
    traced := fun a ha => by
      obtain ⟨c, hc, hf⟩ := hM.traced a ha
      exact ⟨c, ht.le.traced hc, hf⟩
    young_flags := fun c hc => by
      rcases ht.young_cases hc with hc | ⟨rfl, hp⟩
      · rw [Machine.withHeap_heap, hM.copy_flags hi hb ht hrel (.inr (.inl hc))]
        exact hM.young_flags c hc
      · exact ⟨hp, hwf⟩
    promoted_flags := fun c hc => by
      rcases ht.old_cases hc with hc | ⟨rfl, hp⟩
      · rw [Machine.withHeap_heap, hM.copy_flags hi hb ht hrel (.inr (.inr hc))]
        exact hM.promoted_flags c hc
      · refine ⟨hp, ?_⟩
        simp only [Machine.withHeap_heap]
        rw [show dst + 3 - 1 = dst + 2 by omega, hwf]
        exact and_not_of_and_eq_zero haged
    old_flags := fun b hbo => by
      have hw := hM.copy_flags hi hb ht hrel (c := stay b) (.inl ⟨b, hbo, rfl⟩)
      simp only [stay] at hw
      rw [Machine.withHeap_heap, hw]
      exact hM.old_flags b hbo
    flagged := fun c hc hcy => by
      rcases (ht.placed_iff c).mp hc with hc' | rfl
      · rw [Machine.withHeap_heap, hM.copy_flags hi hb ht hrel hc']
        exact hM.flagged c hc' fun hy => hcy (ht.le.1.subset hy)
      · simp only [Machine.withHeap_heap, Machine.withHeap_own, Machine.withOwn_own]
        rw [show dst + 3 - 1 = dst + 2 by omega, hwf, haged]
        refine ⟨fun hf => absurd rfl hf, fun he => ?_⟩
        obtain ⟨d, hd, -, hde⟩ := hM.entries_traced _ he
        exact absurd hde (hM.copy_new_ne hi ht hd.placed hbd.2.2)
    entries_nodup := hM.entries_nodup
    entries_traced := fun e he => by
      obtain ⟨c, hc, hcy, hce⟩ := hM.entries_traced e he
      refine ⟨c, ht.le.traced hc, fun hy => ?_, hce⟩
      rcases ht.young_cases hy with hy | ⟨rfl, -⟩
      · exact hcy hy
      · exact hM.copy_new_ne hi ht hc.placed hbd.2.2 rfl
    settled := fun x hx => hM.copy_settled hi hb ht hrel hx
    room := hM.room
    stress := hM.stress
    stats := hM.stats
    counted := by
      have hcount := hM.counted
      cases ht with
      | young hp hr => exact hcount
      | old hp hr =>
        simp only [Machine.withHeap_own, Machine.withOwn_own]
        omega
    roots := Roots.Within.mono (r := m.roots) hM.roots fun _ => ht.le.standing }

end Copied

/-- Storing an image into a field keeps the state. -/
theorem store (hi : Inv m₀ young old (Live m₀)) (hM : Minor m₀ young old threshold X m g done)
    {c : Copy} {i : Nat} {v : Value} (hc : Traced m₀ old g c) (hf : c.IsField m₀.heap (c.new + i))
    (hs : i + 3 < c.size) (hn : c.new + i ∉ done)
    (hv : ImageIn (Placed old g) (m₀.heap.value (c.old + i)) v) :
    Minor m₀ young old threshold X (m.withHeap (m.heap.put (c.new + i) v.bits)) g
    ((c.new + i) :: done) := by
  obtain ⟨ht, j, hj, hij, hr⟩ := id hf
  have hij : i = j := by omega
  subst hij
  -- a header word is no field
  have hkeep : ∀ d, Placed old g d → (m.heap.put (c.new + i) v.bits).word (d.new - 1) = m.heap.word
      (d.new - 1) := by
    intro d hd
    have hci := hM.evac.inside c hc.placed
    have hdi := hM.evac.inside d hd
    simp only [header_words] at hci hdi
    refine Arena.word_put_ne _ ?_
    rcases hM.evac.apart c d hc.placed hd with rfl | hap | hap <;> omega
  refine ⟨hM.evac.visit header_distinct hc.placed hj hs ht hr hv, hM.own, hM.threshold_eq,
    hM.survivors_region,
    hM.tenured_region, hM.young_stacked, hM.young_room, hM.old_stacked, hM.old_room,
      hM.live, ?_, ?_, ?_, ?_, ?_,
    hM.entries_nodup, hM.entries_traced, ?_, hM.room, hM.stress, hM.stats, hM.counted, hM.roots⟩
  · intro a ha
    rcases List.mem_cons.mp ha with rfl | ha
    · exact ⟨c, hc, hf⟩
    · exact hM.traced a ha
  · intro d hd
    rw [Machine.withHeap_heap, hkeep d (.inr (.inl hd))]
    exact hM.young_flags d hd
  · intro d hd
    rw [Machine.withHeap_heap, hkeep d (.inr (.inr hd))]
    exact hM.promoted_flags d hd
  · intro b hb
    have hw := hkeep (stay b) (.inl ⟨b, hb, rfl⟩)
    simp only [stay] at hw
    rw [Machine.withHeap_heap, hw]
    exact hM.old_flags b hb
  · intro d hd hdy
    rw [Machine.withHeap_heap, hkeep d hd]
    exact hM.flagged d hd hdy
  · intro x hx
    obtain ⟨d, hd, hdx, hk, hdf, hp⟩ := hM.settled x hx
    refine ⟨d, hd, hdx, hk, fun a ha => List.mem_cons_of_mem _ (hdf a ha), ?_⟩
    subst hdx
    -- the object is another one, since all of its fields are visited
    have hdc : d ≠ c := by
      rintro rfl
      exact hn (hdf _ hf)
    have hsucc := hM.succ_settled hi hd (k := m.heap.put (c.new + i) v.bits) fun j hj => by
      refine Arena.word_put_ne _ ?_
      rcases hM.evac.apart c d hc.placed hd.placed with h | hap | hap
      · exact absurd h.symm hdc
      · omega
      · omega
    intro hpt
    refine hp ?_
    unfold PointsInto at hpt ⊢
    rw [← hsucc]
    exact hpt

/-! ### Want of room -/

/-- Copies side by side and one more object, all of them from the nursery, take more than `room`
words. -/
theorem exceeds_of_copies (hM : Minor m₀ young old threshold X m g done) {cs : List Copy}
    {R : Nat → Prop} {lo top room : Nat} (hst : Stacked 3 lo (cs.map Copy.block) top)
    (hcs : ∀ c ∈ cs, Placed old g c ∧ (c.old, c.size) ∈ young ∧ R c.old) (hb : (o, n) ∈ young)
    (hR : R o) (hnew : ∀ c, Placed old g c → c.old ≠ o) (hroom : lo + room < top + n) :
    Exceeds young R room := by
  have hend := hst.end_eq
  have hsizes : (cs.map fun c => (c.old, c.size)).map Prod.snd =
      (cs.map Copy.block).map Prod.snd := by
    simp only [List.map_map, Function.comp_def, Copy.block]
  have hcopies : cs.Nodup := .of_map Copy.block (.of_map Prod.fst hst.nodup)
  refine ⟨(o, n) :: cs.map fun c => (c.old, c.size), List.nodup_cons.mpr ⟨fun hmem => ?_, ?_⟩,
    fun b hb' => ?_, ?_⟩
  · obtain ⟨c, hc, he⟩ := List.mem_map.mp hmem
    exact hnew c (hcs c hc).1 (Prod.mk.inj he).1
  · exact hcopies.map_on fun c hc d hd he =>
      hM.evac.single c d (hcs c hc).1 (hcs d hd).1 (Prod.mk.inj he).1
  · rcases List.mem_cons.mp hb' with rfl | hb'
    · exact ⟨hb, hR⟩
    · obtain ⟨c, hc, rfl⟩ := List.mem_map.mp hb'
      exact (hcs c hc).2
  · rw [List.map_cons, List.sum_cons, hsizes]
    omega

/-- If an object finds no room, what was copied before it and the object itself are too much. -/
theorem overfull_of_place (hM : Minor m₀ young old threshold X m g done) (hb : (o, n) ∈ young)
    (hlive : Live m₀ o) (hnew : ∀ c, Placed old g c → c.old ≠ o)
    (hp : place? m.own.2 (m₀.heap.word (o - 1)) n = none) :
    Overfull m₀ young threshold := by
  obtain rfl := hM.threshold_eq
  unfold place? at hp
  split at hp
  · rename_i hpr
    have hfull := (Bump.allocate?_eq_none_iff _ _).mp (Option.map_eq_none_iff.mp hp)
    rw [Bool.eq_false_iff, ne_eq, Bump.fits_iff, hM.tenured_region] at hfull
    have hroom : m₀.own.tenured.top + m₀.own.tenured.remaining < m.own.2.tenured.top + n := by
      have hle := hM.old_stacked.le
      have hlim := hM.old_room
      rw [Bump.remaining]
      omega
    exact .inl (hM.exceeds_of_copies hM.old_stacked
      (fun c hc => ⟨.inr (.inr hc), (hM.live c (.inr hc)).2,
      (hM.live c (.inr hc)).1, (hM.promoted_flags c hc).1⟩) hb ⟨hlive, hpr⟩ hnew hroom)
  · rename_i hpr
    have hfull := (Bump.allocate?_eq_none_iff _ _).mp (Option.map_eq_none_iff.mp hp)
    rw [Bool.eq_false_iff, ne_eq, Bump.fits_iff, hM.survivors_region] at hfull
    have hroom : m₀.own.survivorSpace.first + m₀.own.survivorSpace.length <
        m.own.2.survivors.top + n := by
      have hle := hM.young_stacked.le
      have hlim := hM.young_room
      rw [Region.length]
      omega
    exact .inr (hM.exceeds_of_copies hM.young_stacked
      (fun c hc => ⟨.inr (.inl hc), (hM.live c (.inl hc)).2,
      (hM.live c (.inl hc)).1, (hM.young_flags c hc).1⟩) hb ⟨hlive, by simpa using hpr⟩ hnew hroom)

section Forward

variable {v : Value}

/-- The header of a nursery object is as at the start, but for the forwarding word. -/
theorem header_eq (hi : Inv m₀ young old (Live m₀)) (hM : Minor m₀ young old threshold X m g done)
    (hn : (o, n) ∈ young) {k : Nat} (hk : 1 ≤ k) (hk' : k ≤ 2) :
    m.heap.word (o - k) = m₀.heap.word (o - k) := by
  have hin := hi.young_inside hn
  simp only at hin
  exact hM.evac.source _ hn _ (by simp; omega) (by simp; omega) (by simp; omega)

/-- A nursery object is not in tenured space yet. -/
theorem forward_young (hi : Inv m₀ young old (Live m₀))
    (hM : Minor m₀ young old threshold X m g done) (hn : (o, n) ∈ young) :
    (m.heap.word (o - 1) &&& tenuredFlag != 0) = false := by
  rw [hM.header_eq hi hn (by omega) (by omega), (hi.young_flags _ hn).1]
  rfl

/-- A nursery object that was copied before is answered with its copy. -/
theorem forward_copied (hi : Inv m₀ young old (Live m₀))
    (hM : Minor m₀ young old threshold X m g done) (ho : v.ref? = some o) (hn : (o, n) ∈ young)
    {c : Copy} (hc : Placed old g c) (hco : c.old = o) : forward v m = .ok (.ofRef c.new) m := by
  have hin := hi.young_inside hn
  have hsize := hM.evac.size_eq
  obtain ⟨-, hfw⟩ := hM.evac.moved _ hn c hc hco
  have hci := hM.evac.inside c hc
  simp only [header_words, header_forward] at hci hfw
  simp only at hin
  rw [forward, ho]
  dsimp only
  rw [bind_ok (read_lift (flags_run (by omega) (by omega))),
    if_neg (by rw [hM.forward_young hi hn]; decide),
    bind_ok (read_lift (forwarding_run (by omega) (by omega))), hfw, if_neg (by omega)]
  rfl

/-- A nursery object that was not copied yet is copied, if there is room. -/
theorem forward_copies (hi : Inv m₀ young old (Live m₀))
    (hM : Minor m₀ young old threshold X m g done) (ho : v.ref? = some o) (hn : (o, n) ∈ young)
    (hlive : Live m₀ o) (hnew : ∀ c, Placed old g c → c.old ≠ o) :
    Runs (forward v) m (fun v' m' => ∃ g', g.le g' ∧ Minor m₀ young old threshold X m' g' done ∧
      ImageIn (Placed old g') v v' ∧ m'.roots = m.roots ∧ m'.own.1 = m.own.1)
        (BreaksOff m₀ young old threshold) := by
  have hin := hi.young_inside hn
  have hsize := hM.evac.size_eq
  have hsmall := hi.spaces.small
  have hzero := hM.evac.pending _ hn hnew
  simp only [header_forward] at hzero
  simp only at hin
  have hsz : (m.heap.word (o - 2)).toNat = n := by
    rw [hM.header_eq hi hn (by omega) (by omega)]
    exact hi.young_sized _ hn
  rw [forward, ho]
  refine Runs.step (read_lift (flags_run (by omega) (by omega))) ?_
  rw [if_neg (by rw [hM.forward_young hi hn]; decide)]
  refine Runs.step (read_lift (forwarding_run (by omega) (by omega))) ?_
  rw [hzero, if_pos (show UInt64.toNat 0 = 0 from rfl)]
  refine Runs.step (read_lift (blockSize_run (by omega) (by omega))) ?_
  refine Runs.step GcM.run_scratch ?_
  rw [hsz, hM.header_eq hi hn (by omega) (by omega)]
  cases hplace : place? m.own.2 (m₀.heap.word (o - 1)) n with
  | none =>
    have hcount : n * wordBytes < wordValues := countable_of_lt (by unfold tableLimit; omega)
    exact GcM.runs_exhausted hcount
      ⟨⟨rfl, fun _ _ _ => hM.overfull_of_place hn hlive hnew hplace⟩, hM.interrupted⟩
  | some r =>
    obtain ⟨dst, ev'⟩ := r
    obtain ⟨g', ht⟩ : ∃ g', Target m₀ threshold m.own.2 g o n dst ev' g' :=
      hM.target_of_place hplace
    obtain ⟨hsrc, -, hroom⟩ := hM.target_apart hi ht
    have hso := hsrc _ hn
    simp only at hso
    simp only
    refine Runs.step GcM.run_setScratch ?_
    refine Runs.step (read_lift (back_run hin.1)) ?_
    refine Runs.step (heap_lift
      (copyWords_run (by simp only [headerWords]; simp; omega) (by simp; omega))) ?_
    refine Runs.step (heap_lift
      (setForwarding_run (by simp [headerWords]) (by simp [headerWords]; omega))) ?_
    refine Runs.step (heap_lift (storeHeader_run (by simp [headerWords, flagsOffset])
      (by simp [headerWords, flagsOffset]; omega))) ?_
    refine Runs.step (heap_lift (setForwarding_run (by omega) (by simp; omega))) ?_
    have hrel : Relocated header m.heap
        (copied m.heap o dst n (agedFlags threshold (m₀.heap.word (o - 1)))) o dst n :=
      copied_relocated (by omega) (by omega) (by omega) (by omega) (by omega) (by omega)
    have hM' := hM.copy hi hn hlive hnew ht hrel
      (word_copied_flags (by omega) (by omega) (by omega))
    have himage : ImageIn (Placed old g') v (.ofRef (dst + headerWords)) :=
      ⟨⟨o, dst + 3, n⟩, (ht.placed_iff _).mpr (.inr rfl), ho, rfl⟩
    refine Runs.pure ⟨g', ht.le, ?_, himage, ?_, ?_⟩
    · simpa [copied, headerWords, flagsOffset, hM.threshold_eq] using hM'
    · simp
    · simp

/-- A tenured object stays. -/
theorem forward_tenured (hi : Inv m₀ young old (Live m₀))
    (hM : Minor m₀ young old threshold X m g done) (ho : v.ref? = some o) (hn : (o, n) ∈ old) :
    forward v m = .ok v m := by
  have hin := hi.old_inside hn
  have hsize := hM.evac.size_eq
  simp only at hin
  have hten : (m.heap.word (o - 1) &&& tenuredFlag != 0) = true := by
    rw [and_eq_of_and_not_eq (hM.old_flags _ hn) (by decide)]
    simpa using hi.old_flags _ hn
  rw [forward, ho]
  dsimp only
  rw [bind_ok (read_lift (flags_run (by omega) (by omega))), if_pos hten]
  rfl

/-- The visitor answers a reference with its image, after copying the object if need be. -/
theorem forward_runs (hi : Inv m₀ young old (Live m₀))
    (hM : Minor m₀ young old threshold X m g done) (hr : v.isRef = true) (hV : v.Within (Live m₀)) :
    Runs (forward v) m (fun v' m' => ∃ g', g.le g' ∧ Minor m₀ young old threshold X m' g' done ∧
      ImageIn (Placed old g') v v' ∧ m'.roots = m.roots ∧ m'.own.1 = m.own.1)
        (BreaksOff m₀ young old threshold) := by
  obtain ⟨o, ho⟩ := Value.exists_ref? hr
  obtain ⟨hvo, hlive⟩ := hV o ho
  obtain ⟨n, hn | hn, -⟩ := hi.placed o hlive
  · by_cases hcopied : ∃ c, Placed old g c ∧ c.old = o
    · obtain ⟨c, hc, hco⟩ := hcopied
      exact Runs.of_eq (hM.forward_copied hi ho hn hc hco)
        ⟨g, .refl g, hM, ⟨c, hc, hco ▸ ho, rfl⟩, rfl, rfl⟩
    · exact hM.forward_copies hi ho hn hlive fun c hc hco => hcopied ⟨c, hc, hco⟩
  · exact Runs.of_eq (hM.forward_tenured hi ho hn)
      ⟨g, .refl g, hM, ⟨stay (o, n), .inl ⟨_, hn, rfl⟩, ho, hvo⟩, rfl, rfl⟩

end Forward

/-- What refers to a live object or to a copy has an image that does so, too. -/
theorem image_within (hi : Inv m₀ young old (Live m₀))
    (hM : Minor m₀ young old threshold X m g done) {v v' : Value}
    (hv : v.Within (Standing (Live m₀) g)) (him : ImageIn (Placed old g) v v') :
    v'.Within (Standing (Live m₀) g) := by
  obtain ⟨c, hc, ho, rfl⟩ := him
  have hci := hM.evac.inside c hc
  have hsmall := hi.spaces.small
  simp only [header_words] at hci
  refine Value.ofRef_within (by omega) (by omega) ?_
  rcases hc with ⟨b, -, rfl⟩ | hc
  · exact (hv _ ho).2
  · exact .inr ⟨c, hc, rfl⟩

/-- A root takes the image of what it holds. -/
theorem setRoot (hi : Inv m₀ young old (Live m₀)) (hM : Minor m₀ young old threshold X m g done)
    {slot : RootSlot} {v v' : Value} (hv : m.roots.get? slot = some v)
    (him : ImageIn (Placed old g) v v') :
    Minor m₀ young old threshold X (m.withRoots (m.roots.set slot v')) g done :=
  ⟨hM.evac, hM.own, hM.threshold_eq, hM.survivors_region, hM.tenured_region,
    hM.young_stacked, hM.young_room,
    hM.old_stacked, hM.old_room, hM.live, hM.traced, hM.young_flags,
      hM.promoted_flags, hM.old_flags, hM.flagged,
    hM.entries_nodup, hM.entries_traced, hM.settled, hM.room, hM.stress, hM.stats, hM.counted,
    hM.roots.set (hM.image_within hi (hM.roots slot v hv) him) slot⟩

end Minor

/-- The visitor of a minor collection copies what it is given, and leaves the remembered set
alone. -/
theorem evacuates {m₀ : Machine Generational} {young old : List (Nat × Nat)}
    (hi : Inv m₀ young old (Live m₀)) (threshold : Nat) (X : Nat → Prop) (s : Generational) :
    Evacuates header m₀.heap young forward
      (fun m g done => Minor m₀ young old threshold X m g done ∧ m.own.1 = s) (Placed old)
      (Traced m₀ old)
      (fun g _ g' => g.le g') (Value.Within (Live m₀)) (BreaksOff m₀ young old threshold) where
  evac hM := hM.1.evac
  refl := .refl
  trans := .trans
  mono hle hc := hle.placed hc
  mono_traced hle hc := hle.traced hc
  traced hc := hc.placed
  run m g done v hM hr hV := by
    refine (hM.1.forward_runs hi hr hV).mono ?_
    rintro v' m' ⟨g', hle, hM', him, hroots, hown⟩
    exact ⟨g', hle, ⟨hM', hown.trans hM.2⟩, him, hroots⟩
  roots hM hv him := ⟨hM.1.setRoot hi hv him, hM.2⟩
  store hM hT hf hs hn hv := ⟨hM.1.store hi hT hf hs hn hv, hM.2⟩

end Reclaim.Generational
