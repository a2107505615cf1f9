import Reclaim.Proofs.Generational.MajorCollection

/-!
# Major collection

What a whole major collection does to a heap in a good state. Nursery objects keep their addresses,
marked tenured objects are moved together, and everything that the roots reach is renamed
accordingly; tenured objects that are not reachable from the roots are gone.

Results:
* `collectMajor_slides`: on any spaces that are filled with blocks, a major collection that fails
  has left marks and remembered flags, and nothing else.
* `collectMajor_runs`: in a good state, a major collection that ends leaves what `Compacted` says.
* `collectMajor_runs_of_room`: a remembered set within its capacity is never too small, so among
  objects only the mark stack can overflow.
-/

namespace Reclaim.Generational

variable {m₀ : Machine Generational} {young old : List (Nat × Nat)} {S : Nat → Prop} {ms : List Nat}

/-- What a major collection that marked `ms` makes of `m`. -/
structure Compacted (m m' : Machine Generational) (young old : List (Nat × Nat))
    (ms : List Nat) : Prop where
  reach : ∀ o, o ∈ ms ↔ Reach m.heap m.roots.Refers o
  /-- A marked tenured object moves down to where those below it end. -/
  address : ∀ b ∈ marked ms old,
    relocate (moves m old ms) b.1 = m.own.tenured.region.first + wordsBelow (marked ms old) b.1 + 3
  /-- Nursery objects stay where they are. -/
  stays : ∀ b ∈ young, relocate (moves m old ms) b.1 = b.1
  renamed : Renamed (relocate (moves m old ms)) (· ∈ ms) m.heap m'.heap
  /-- The fields of marked objects are renamed, all their other words are kept. -/
  visited : ∀ o n i, o ∈ ms → (o, n) ∈ young ∨ (o, n) ∈ old → i + 3 < n →
    m'.heap.word (relocate (moves m old ms) o + i)
    = if m.heap.tag o = some .pair ∧ (i = 1 ∨ i = 2) then
      ((m.heap.value (o + i)).rename (relocate (moves m old ms))).bits
      else m.heap.word (o + i)
  /-- Nursery objects that are not marked are as they were. -/
  unvisited : ∀ b ∈ young, b.1 ∉ ms → ∀ i, i + 3 < b.2 →
    m'.heap.word (b.1 + i) = m.heap.word (b.1 + i)
  roots : m.roots.Mapped (fun v v' => v' = v.rename (relocate (moves m old ms))) m'.roots
  inv : Inv m' young ((moves m old ms).map Copy.block) fun o' => ∃ o, o ∈ ms ∧
    o' = relocate (moves m old ms) o
  /-- The remembered set holds what refers into the nursery. -/
  recalled : ∀ b ∈ marked ms old, relocate (moves m old ms) b.1 ∈ m'.own.remembered.toList ↔
    PointsInto m'.heap m'.own.nursery.region (relocate (moves m old ms) b.1)
  nursery : m'.own.nursery = m.own.nursery
  survivorSpace : m'.own.survivorSpace = m.own.survivorSpace
  tenured_region : m'.own.tenured.region = m.own.tenured.region
  size_eq : m'.heap.size = m.heap.size
  capacity : m'.own.remembered.capacity = m.own.remembered.capacity
  room : m'.own.remembered.toList.length ≤ m'.own.remembered.capacity
  markCapacity : m'.own.markCapacity = m.own.markCapacity
  own_threshold : m'.own.threshold = m.own.threshold
  stress : m'.stress = m.stress
  cycles : m'.stats.collections = m.stats.collections + 1

/-- The heap when the tenured objects are moved. -/
structure Packed (m₀ : Machine Generational) (old : List (Nat × Nat)) (ms : List Nat)
    (h h' : Arena) (top : Nat) :
    Prop where
  slides : Slides 3 m₀.own.tenured.region.first m₀.own.tenured.region.first (moves m₀ old ms) top
  top_le : top ≤ m₀.own.tenured.top
  size_eq : h'.size = h.size
  payload : ∀ p ∈ moves m₀ old ms, ∀ i, i + 3 < p.size → h'.word (p.new + i) = h.word (p.old + i)
  size : ∀ p ∈ moves m₀ old ms, h'.word (p.new - 2) = h.word (p.old - 2)
  forward : ∀ p ∈ moves m₀ old ms, h'.word (p.new - 3) = 0
  flags : ∀ p ∈ moves m₀ old ms, h'.word (p.new - 1) = h.word (p.old - 1) &&& ~~~markedFlag
  below : ∀ a, a < m₀.own.tenured.region.first → h'.word a = h.word a

section Packed

variable {h h' : Arena} {top : Nat}

theorem Packed.of_shifted {src : Nat}
    (hsl : Slides 3 m₀.own.tenured.region.first m₀.own.tenured.region.first (moves m₀ old ms) top)
    (hs : Shifted header (· &&& ~~~markedFlag) h h' (moves m₀ old ms)
      [] m₀.own.tenured.region.first top src top) (hsrc : src ≤ m₀.own.tenured.top) :
      Packed m₀ old ms h h' top where
  slides := hsl
  top_le := Nat.le_trans hs.below hsrc
  size_eq := hs.size_eq
  payload := hs.payload
  size := hs.size
  forward := hs.forward
  flags := hs.flags
  below a ha := hs.other a (.inl ha)

/-- A word of a nursery block is not touched by the moves. -/
theorem Packed.young_word (hf : Found m₀ young old S ms) (hs : Packed m₀ old ms h h' top)
    {b : Nat × Nat} (hb : b ∈ young) {a : Nat} (ha : a + 3 < b.1 + b.2) : h'.word a = h.word a := by
  have hbd := hf.inv.young_bounds hb
  have h1 := hf.inv.spaces.nursery_top
  have h2 := hf.inv.spaces.below
  exact hs.below a (by omega)

/-- A word of a marked object at its new address. -/
theorem Packed.word (hf : Found m₀ young old S ms) (hs : Packed m₀ old ms h h' top) {o n i : Nat}
    (ho : o ∈ ms) (hb : (o, n) ∈ young ∨ (o, n) ∈ old) (hlt : i + 3 < n) :
    h'.word (relocate (moves m₀ old ms) o + i) = h.word (o + i) := by
  rcases hb with hb | hb
  · rw [relocate_young hf hb]
    exact hs.young_word hf hb (by simp only; omega)
  · obtain ⟨p, hp, rfl, rfl⟩ : ∃ p ∈ moves m₀ old ms, p.old = o ∧ p.size = n :=
      exists_target (mem_marked.mpr ⟨hb, ho⟩)
    rw [relocate_old hf hp]
    exact hs.payload p hp i (by omega)

/-- The words of a marked object, with its references redirected. -/
theorem Packed.visited (hf : Found m₀ young old S ms)
    (hr : Ready m₀ young old ms (relocate (moves m₀ old ms)) h) (hs : Packed m₀ old ms h h' top)
    {o n i : Nat} (ho : o ∈ ms) (hb : (o, n) ∈ young ∨ (o, n) ∈ old) (hlt : i + 3 < n) :
    h'.word (relocate (moves m₀ old ms) o + i) = if m₀.heap.tag o = some .pair ∧
    (i = 1 ∨ i = 2) then
      ((m₀.heap.value (o + i)).rename (relocate (moves m₀ old ms))).bits
      else m₀.heap.word (o + i) := by
  rw [hs.word hf ho hb hlt]
  split
  · rename_i hfield
    exact congrArg Value.bits (hr.field o ho hfield.1 i hfield.2)
  · rename_i hfield
    exact hr.word (o, n) hb i hlt fun h => hfield h.2

theorem Packed.new_bounds (hs : Packed m₀ old ms h h' top) {p : Copy} (hp : p ∈ moves m₀ old ms) :
    m₀.own.tenured.region.first + 3 ≤ p.new ∧ p.new + p.size ≤ top + 3 ∧ 3 < p.size :=
  hs.slides.stacked.bounds (List.mem_map_of_mem hp)

/-- What is marked is found under its new address. -/
theorem Packed.renamed (hf : Found m₀ young old S ms)
    (hr : Ready m₀ young old ms (relocate (moves m₀ old ms)) h) (hs : Packed m₀ old ms h h' top) :
    Renamed (relocate (moves m₀ old ms)) (· ∈ ms) m₀.heap h' := by
  refine ⟨fun o o' ho ho' he => ?_, fun o i ho hlt hn => ?_, fun o i ho ht hi => ?_⟩
  · have hsp := hf.inv.spaces
    obtain ⟨n, hb | hb, -⟩ := hf.block ho <;> obtain ⟨n', hb' | hb', -⟩ := hf.block ho'
    · rwa [relocate_young hf (mem_marked.mp hb).1, relocate_young hf (mem_marked.mp hb').1] at he
    · obtain ⟨p, hp, rfl, rfl⟩ : ∃ p ∈ moves m₀ old ms, p.old = o' ∧ p.size = n' :=
        exists_target hb'
      rw [relocate_young hf (mem_marked.mp hb).1, relocate_old hf hp] at he
      have h1 := hf.inv.young_bounds (mem_marked.mp hb).1
      have h2 := hs.new_bounds hp
      have h3 := hsp.nursery_top
      have h4 := hsp.below
      omega
    · obtain ⟨p, hp, rfl, rfl⟩ : ∃ p ∈ moves m₀ old ms, p.old = o ∧ p.size = n := exists_target hb
      rw [relocate_young hf (mem_marked.mp hb').1, relocate_old hf hp] at he
      have h1 := hf.inv.young_bounds (mem_marked.mp hb').1
      have h2 := hs.new_bounds hp
      have h3 := hsp.nursery_top
      have h4 := hsp.below
      omega
    · obtain ⟨p, hp, rfl, rfl⟩ : ∃ p ∈ moves m₀ old ms, p.old = o ∧ p.size = n := exists_target hb
      obtain ⟨q, hq, rfl, rfl⟩ : ∃ q ∈ moves m₀ old ms, q.old = o' ∧ q.size = n' :=
        exists_target hb'
      rw [relocate_old hf hp, relocate_old hf hq] at he
      rw [hs.slides.eq_of_new hp hq he]
  · obtain ⟨n, hb, hfit⟩ := hf.inv.placed o (hf.valid o ho)
    rw [hs.visited hf hr ho hb (by omega), if_neg hn]
  · obtain ⟨n, hb, hfit⟩ := hf.inv.placed o (hf.valid o ho)
    rw [Arena.payload_of_pair ht] at hfit
    rw [Arena.value, hs.visited hf hr ho hb (by omega), if_pos ⟨ht, hi⟩]

theorem Packed.named (hf : Found m₀ young old S ms) (hs : Packed m₀ old ms h h' top) :
    Value.Named fun o' => ∃ o, o ∈ ms ∧ o' = relocate (moves m₀ old ms) o := by
  rintro o' ⟨o, ho, rfl⟩
  have hsmall := hf.inv.spaces.small
  obtain ⟨n, hb | hb, -⟩ := hf.block ho
  · obtain ⟨hby, -⟩ := mem_marked.mp hb
    have hin := hf.inv.young_inside hby
    rw [relocate_young hf hby]
    simp only at hin
    omega
  · obtain ⟨p, hp, rfl, rfl⟩ : ∃ p ∈ moves m₀ old ms, p.old = o ∧ p.size = n := exists_target hb
    have h1 := hs.new_bounds hp
    have h2 := hs.top_le
    have h3 := hf.inv.spaces.tenured_top
    have h4 := hf.inv.spaces.tenured
    rw [relocate_old hf hp]
    omega

/-- The flags of a moved object. -/
theorem Packed.moved_flags (hf : Found m₀ young old S ms)
    (htenured : ∀ b ∈ old, m₀.heap.word (b.1 - 1) &&& tenuredFlag ≠ 0)
    (hr : Ready m₀ young old ms (relocate (moves m₀ old ms)) h) (hs : Packed m₀ old ms h h' top)
    {p : Copy} (hp : p ∈ moves m₀ old ms) :
    h'.word (p.new - 1) &&& markedFlag = 0 ∧ h'.word (p.new - 1) &&& tenuredFlag ≠ 0 ∧
      (h'.word (p.new - 1) &&& rememberedFlag ≠ 0 ↔
        pointsInto? m₀.heap m₀.own.nursery.region p.old = true) := by
  obtain ⟨hbo, hm, -, -⟩ := mem_moves hf hp
  have hflags := hr.old_flags (p.old, p.size) (mem_marked.mpr ⟨hbo, hm⟩)
  simp only at hflags
  refine ⟨?_, ?_, ?_⟩
  · rw [hs.flags p hp, and_not_and_self]
  · have hnot := flagAs_and_not (pointsInto? m₀.heap m₀.own.nursery.region p.old)
      (m₀.heap.word (p.old - 1) ||| markedFlag)
    rw [hs.flags p hp, and_not_and_of_disjoint (by decide), hflags,
      and_eq_of_and_not_eq hnot (by decide),
      or_and_of_disjoint (by decide)]
    exact htenured _ hbo
  · rw [hs.flags p hp, and_not_and_of_disjoint (by decide)]
    exact hr.flag_iff hf hp

/-- A moved object is an entry if it refers into the nursery. -/
theorem Packed.mem_recalls (hs : Packed m₀ old ms h h' top) {p : Copy} (hp : p ∈ moves m₀ old ms) :
    p.new ∈ recalls m₀ (moves m₀ old ms) ↔
    pointsInto? m₀.heap m₀.own.nursery.region p.old = true := by
  unfold recalls
  constructor
  · intro hmem
    obtain ⟨q, hq, he⟩ := List.mem_map.mp hmem
    obtain ⟨hq, hpt⟩ := List.mem_filter.mp hq
    rwa [← hs.slides.eq_of_new hq hp he]
  · intro hpt
    exact List.mem_map_of_mem (List.mem_filter.mpr ⟨hp, hpt⟩)

/-- The collector's own state after a major collection. -/
def packed (m₀ : Machine Generational) (old : List (Nat × Nat)) (ms : List Nat) (top : Nat) :
    Generational :=
  { remembering m₀.own (recalls m₀ (moves m₀ old ms)) with tenured := m₀.own.tenured.withTop top }

theorem Packed.spaces (hf : Found m₀ young old S ms)
    (hr : Ready m₀ young old ms (relocate (moves m₀ old ms)) h) (hs : Packed m₀ old ms h h' top) :
    Spaces (packed m₀ old ms top) h'.size := by
  have hsp := hf.inv.spaces
  have hsize : h'.size = m₀.heap.size := by rw [hs.size_eq, hr.size_eq]
  rw [hsize]
  exact ⟨hsp.small, hsp.nursery, hsp.nursery_top, hsp.survivor, hsp.halves, hsp.below,
    hsp.survivor_below,
    Nat.le_trans hs.top_le hsp.tenured_top, hsp.tenured⟩

/-- A marked object lies in the nursery afterwards if it did before. -/
theorem Packed.contains (hf : Found m₀ young old S ms) (hs : Packed m₀ old ms h h' top) {c : Nat}
    (hc : c ∈ ms) :
    m₀.own.nursery.region.contains (relocate (moves m₀ old ms) c) =
    m₀.own.nursery.region.contains c := by
  obtain ⟨n, hb | hb, -⟩ := hf.block hc
  · rw [relocate_young hf (mem_marked.mp hb).1]
  · -- a tenured object stays outside the nursery
    obtain ⟨q, hq, rfl, rfl⟩ : ∃ q ∈ moves m₀ old ms, q.old = c ∧ q.size = n := exists_target hb
    have h1 := hs.new_bounds hq
    have h2 := hf.inv.spaces.below
    have h3 := hf.inv.old_bounds (mem_marked.mp hb).1
    rw [relocate_old hf hq, Bool.eq_iff_iff, Region.contains_iff, Region.contains_iff]
    omega

/-- A moved object refers into the nursery if it did so before. -/
theorem Packed.pointsInto_iff (hf : Found m₀ young old S ms)
    (hr : Ready m₀ young old ms (relocate (moves m₀ old ms)) h) (hs : Packed m₀ old ms h h' top)
    {p : Copy} (hp : p ∈ moves m₀ old ms) :
    PointsInto h' m₀.own.nursery.region p.new ↔
    pointsInto? m₀.heap m₀.own.nursery.region p.old = true := by
  obtain ⟨-, hm, -, -⟩ := mem_moves hf hp
  have hsucc : ∀ c', c' ∈ h'.succ p.new ↔
      ∃ c ∈ m₀.heap.succ p.old, c' = relocate (moves m₀ old ms) c := by
    intro c'
    rw [← relocate_old hf hp]
    exact (hs.renamed hf hr).mem_succ hf.closed (hs.named hf) hm
  rw [pointsInto?_iff]
  constructor
  · rintro ⟨c', hc', hin⟩
    obtain ⟨c, hc, rfl⟩ := (hsucc c').mp hc'
    rw [hs.contains hf (hf.closed.succ hm hc)] at hin
    exact ⟨c, hc, hin⟩
  · rintro ⟨c, hc, hin⟩
    refine ⟨_, (hsucc _).mpr ⟨c, hc, rfl⟩, ?_⟩
    rw [hs.contains hf (hf.closed.succ hm hc)]
    exact hin

/-- The heap is in a good state again. -/
theorem Packed.inv (hi : Inv m₀ young old S) (hf : Found m₀ young old S ms)
    (hr : Ready m₀ young old ms (relocate (moves m₀ old ms)) h) (hs : Packed m₀ old ms h h' top)
    {m : Machine Generational} (hheap : m.heap = h') (hown : m.own = packed m₀ old ms top)
    (hroots : m₀.roots.Mapped (fun v v' => v' = v.rename (relocate (moves m₀ old ms))) m.roots) :
    Inv m young ((moves m₀ old ms).map Copy.block) fun o' => ∃ o, o ∈ ms ∧
      o' = relocate (moves m₀ old ms) o := by
  have hren := hs.renamed hf hr
  have hnamed := hs.named hf
  have hlist : m.own.remembered.toList = recalls m₀ (moves m₀ old ms) := by
    rw [hown]
    exact remembering_toList _ _
  have hblock : ∀ b ∈ (moves m₀ old ms).map Copy.block, ∃ p ∈ moves m₀ old ms,
      p.block = b := fun b hb =>
    List.mem_map.mp hb
  have hrecall : ∀ e ∈ recalls m₀ (moves m₀ old ms), ∃ p ∈ moves m₀ old ms, p.new = e := by
    intro e he
    obtain ⟨p, hp, rfl⟩ := List.mem_map.mp he
    exact ⟨p, (List.mem_filter.mp hp).1, rfl⟩
  subst hheap
  exact {
    spaces := by
      rw [hown]
      exact hs.spaces hf hr
    young_stacked := by
      rw [hown]
      exact hf.inv.young_stacked
    old_stacked := by
      rw [hown]
      exact hs.slides.stacked
    young_sized := fun b hb => by
      have hin := hf.inv.young_inside hb
      rw [hs.young_word hf hb (by omega), hr.size b (.inl hb)]
      exact hf.inv.young_sized b hb
    old_sized := fun b hb => by
      obtain ⟨p, hp, rfl⟩ := hblock b hb
      obtain ⟨hbo, -, -, -⟩ := mem_moves hf hp
      rw [Copy.block, hs.size p hp, hr.size _ (.inr hbo)]
      exact hf.inv.old_sized _ hbo
    no_forward := by
      rintro b (hb | hb)
      · have hin := hf.inv.young_inside hb
        rw [hs.young_word hf hb (by omega)]
        exact (hr.young_forward b hb).trans (hi.no_forward b (.inl hb))
      · obtain ⟨p, hp, rfl⟩ := hblock b hb
        exact hs.forward p hp
    no_mark := by
      rintro b (hb | hb)
      · have hin := hf.inv.young_inside hb
        rw [hs.young_word hf hb (by omega), hr.young_flags b hb]
        exact hf.inv.no_mark b (.inl hb)
      · obtain ⟨p, hp, rfl⟩ := hblock b hb
        exact (hs.moved_flags hf hi.old_flags hr hp).1
    young_flags := fun b hb => by
      have hin := hf.inv.young_inside hb
      rw [hs.young_word hf hb (by omega), hr.young_flags b hb]
      exact hi.young_flags b hb
    old_flags := fun b hb => by
      obtain ⟨p, hp, rfl⟩ := hblock b hb
      exact (hs.moved_flags hf hi.old_flags hr hp).2.1
    flagged := fun b hb => by
      obtain ⟨p, hp, rfl⟩ := hblock b hb
      rw [hlist, Copy.block, hs.mem_recalls hp]
      exact (hs.moved_flags hf hi.old_flags hr hp).2.2
    entries_nodup := by
      rw [hlist]
      have hnd : ((moves m₀ old ms).map Copy.new).Nodup := by
        have h1 := hs.slides.stacked.nodup
        rwa [List.map_map] at h1
      exact hnd.sublist (List.Sublist.map _ List.filter_sublist)
    entries_old := fun e he => by
      rw [hlist] at he
      obtain ⟨p, hp, rfl⟩ := hrecall e he
      exact ⟨p.size, List.mem_map_of_mem hp⟩
    remembers := fun b hb _ hpt => by
      obtain ⟨p, hp, rfl⟩ := hblock b hb
      rw [hown] at hpt
      rw [hlist, Copy.block, hs.mem_recalls hp]
      exact (hs.pointsInto_iff hf hr hp).mp hpt
    linked := (hren.closed hf.closed hnamed).linked
    placed := by
      rintro o' ⟨o, ho, rfl⟩
      rw [hren.payload hf.closed ho]
      obtain ⟨n, hb | hb, hfit⟩ := hf.block ho
      · rw [relocate_young hf (mem_marked.mp hb).1]
        exact ⟨n, .inl (mem_marked.mp hb).1, hfit⟩
      · obtain ⟨p, hp, rfl, rfl⟩ : ∃ p ∈ moves m₀ old ms, p.old = o ∧ p.size = n := exists_target hb
        rw [relocate_old hf hp]
        exact ⟨p.size, .inr (List.mem_map_of_mem hp), hfit⟩
    roots := fun slot v' hv' => by
      obtain ⟨v, hv, rfl⟩ := hroots.of_slot hv'
      exact Value.rename_within (hf.roots slot v hv) hnamed
    entries := fun e he => by
      rw [hlist] at he
      obtain ⟨p, hp, rfl⟩ := hrecall e he
      exact ⟨p.old, (mem_moves hf hp).2.1, (relocate_old hf hp).symm⟩ }

end Packed

/-- The remembered set is as long as the objects that refer into the nursery are many. -/
theorem length_recalls (m₀ : Machine Generational) (old : List (Nat × Nat)) (ms : List Nat) :
    (recalls m₀ (moves m₀ old ms)).length
      = (((marked ms old).map Prod.fst).filter
        (pointsInto? m₀.heap m₀.own.nursery.region)).length := by
  have hold := congrArg (List.map Prod.fst)
    (targets_old 3 m₀.own.tenured.region.first (marked ms old))
  rw [List.map_map] at hold
  rw [← hold, recalls, List.length_map, List.filter_map, List.length_map]
  rfl

/-- What a major collection that ends makes of spaces filled with blocks: `h` is the heap with the
new addresses, and `h₁` the one with all references redirected. -/
structure Slidden (m m' : Machine Generational) (young old : List (Nat × Nat)) (S : Nat → Prop)
    (ms : List Nat) (h h₁ : Arena) (top : Nat) : Prop where
  found : Found m young old S ms
  prepared : Prepared m young old ms h
  ready : Ready m young old ms (redirection 3 h) h₁
  packed : Packed m old ms h₁ m'.heap top
  roots : m.roots.Mapped (fun v v' => v' = v.rename (redirection 3 h)) m'.roots
  room : (recalls m (moves m old ms)).length ≤ m.own.remembered.capacity
  own : m'.own = Generational.packed m old ms top
  stress : m'.stress = m.stress
  stats : m'.stats = m.stats.recordCycle .major (m.own.tenured.used - m'.own.tenured.used)
    (m'.own.nursery.used + m'.own.tenured.used)

/-- A major collection stops in the mark phase, or when it has found more tenured objects that refer
into the nursery than can be remembered. -/
def MajorStops (m : Machine Generational) (young old : List (Nat × Nat)) (S : Nat → Prop)
    (f : Failure) : Prop :=
  Marking.MarkStops m.own.markCapacity m.heap m.roots.Refers f m ∨ f = m.own.remembered.full ∧ ∃ ms,
    Found m young old S ms ∧
    m.own.remembered.capacity <
      (((marked ms old).map Prod.fst).filter (pointsInto? m.heap m.own.nursery.region)).length

theorem MajorStops.fatal {m : Machine Generational} {f : Failure}
    (hf : MajorStops m young old S f) : f.isFatal = true := by
  rcases hf with hf | ⟨rfl, -⟩
  · exact hf.fatal
  · rfl

theorem Marked.unmoved {m m1 : Machine Generational} (hi : Filled m young old S)
    (hm1 : Marked m S m1 ms) (hroots : m1.roots = m.roots) :
    Marking.Unmoved (markedFlag ||| rememberedFlag) (young ++ old) m m1 := by
  refine Marking.InHeaders.unmoved hm1 hroots (fun o ho => ?_) (fun b hb => ?_) fun w =>
    and_eq_of_and_not_eq (or_and_not_self w markedFlag) (by decide)
  · obtain ⟨n, hb, -⟩ := hi.placed o ho
    exact ⟨n, List.mem_append.mpr hb⟩
  · have hin := hi.block_inside (List.mem_append.mp hb)
    omega

/-- Marks and remembered flags are all that has changed when the objects to remember are flagged. -/
theorem Flagged.unmoved {m m1 : Machine Generational} (hi : Filled m young old S)
    (hm1 : Marked m S m1 ms) (hroots : m1.roots = m.roots) {h : Arena}
    (hfl : Flagged m.own.nursery.region m1.heap h ((marked ms old).map Prod.fst)) :
    Marking.Unmoved (markedFlag ||| rememberedFlag) (young ++ old) m (m1.withHeap h) := by
  have hu := hm1.unmoved hi hroots
  have hold : ∀ o ∈ (marked ms old).map Prod.fst, ∃ b ∈ young ++ old, b.1 = o := by
    intro o ho
    obtain ⟨b, hb, rfl⟩ := List.mem_map.mp ho
    exact ⟨b, List.mem_append_right _ (mem_marked.mp hb).1, rfl⟩
  refine ⟨by rw [hm1.rest, hroots]; rfl,
    hfl.size_eq.trans hu.size_eq, fun a ha => ?_, fun b hb => ?_⟩
  · refine (hfl.other a fun hmem => ?_).trans (hu.word a ha)
    obtain ⟨b, hb, he⟩ := hold _ hmem
    exact ha b hb he.symm
  · have hin := hi.block_inside (List.mem_append.mp hb)
    rw [← hu.flags b hb, Machine.withHeap_heap]
    by_cases hmem : b.1 ∈ (marked ms old).map Prod.fst
    · rw [hfl.flag _ hmem]
      exact and_eq_of_and_not_eq (flagAs_and_not _ _) (by decide)
    · rw [hfl.other _ (by rw [Nat.sub_add_cancel (by omega)]; exact hmem)]

/-- A major collection that has marked all it finds and has room for what it has to remember
compacts tenured space; otherwise it stops, and has moved nothing. -/
theorem collectMajor_slides {m : Machine Generational} (hi : Filled m young old S) :
    Runs collectMajor m (fun _ m' => ∃ ms h h₁ top, Slidden m m' young old S ms h h₁ top)
      (fun f m' => MajorStops m young old S f ∧ Marking.Unmoved (markedFlag ||| rememberedFlag)
        (young ++ old) m m') := by
  unfold collectMajor
  refine Runs.step GcM.run_own ?_
  refine ((Marking.mark_runs (claims hi) (.start _ m S) hi.roots).mono_fail ?_).bind ?_
  · rintro f m1 ⟨hf, hroots1, ms, hm1⟩
    exact ⟨.inl hf, Marked.unmoved hi hm1 hroots1⟩
  rintro - m1 ⟨hroots1, ms, hm1, -, hreach, hknown⟩
  have hf : Found m young old S ms := ⟨hi, hreach, hknown⟩
  have hsp := hi.spaces
  have hle := hi.old_stacked.le
  have hold : markedIn m.own.tenured m1.heap = .ok ((marked ms old).map Prod.fst) :=
    markedIn_run hi hm1 hi.old_stacked hi.old_sized (fun _ hb => .inr hb)
      (Nat.le_trans hsp.tenured_top hsp.tenured)
  have hyoung : markedIn m.own.nursery m1.heap = .ok ((marked ms young).map Prod.fst) := by
    refine markedIn_run hi hm1 hi.young_stacked hi.young_sized (fun _ hb => .inl hb) ?_
    have h1 := hsp.nursery_top
    have h2 := hsp.below
    have h3 := hsp.tenured_top
    have h4 := hsp.tenured
    omega
  obtain ⟨h₂, top, hflag, hflagged, hassign, hst, hprep⟩ := prepare hf hm1
  refine Runs.step (read_lift hold) (Runs.step (read_lift hyoung) (Runs.step (heap_lift hflag) ?_))
  by_cases hcount : m.own.remembered.capacity
      < (((marked ms old).map Prod.fst).filter (pointsInto? m.heap m.own.nursery.region)).length
  · simp only [hcount, if_true]
    exact Runs.fail ⟨.inr ⟨rfl, ms, hf, hcount⟩, hflagged.unmoved hi hm1 hroots1⟩
  simp only [hcount, if_false]
  refine Runs.step (heap_lift (m := m1.withHeap h₂) hassign) (Runs.step (GcM.run_modifyOwn _) ?_)
  -- the references
  refine (redirectRoots_runs (hprep.apart hf) (by decide) (by decide) (fun _ _ => rfl) rfl (by
    show m1.roots.Within _
    rw [hroots1]
    exact hf.roots)).bind ?_
  rintro - m2 ⟨hm2, hmap2⟩
  refine (redirectObjects_runs (hprep.apart hf) (by decide) (by decide) (fun _ _ => rfl)
    (by rw [hm2]; rfl)
    (fun o ho => mem_of_marked ho) (marked_nodup hi)).bind ?_
  rintro - m3 ⟨hm3, hr3⟩
  refine (redirectYoung_runs hf hprep hr3).bind ?_
  rintro - m4 ⟨hm4, hr4⟩
  -- nothing but heap, roots and remembered set has changed so far
  have hown4 : m4.own = remembering m.own [] := by
    rw [hm4, hm3, hm2, hm1.rest]
    rfl
  have hcap : (recalls m (moves m old ms)).length ≤ m4.own.remembered.capacity := by
    rw [hown4, length_recalls]
    exact Nat.not_lt.mp hcount
  refine (slideAll_runs hf (hprep.ready hf hr4)
    (by rw [hown4, remembering_toList]) hst hcap _).bind ?_
  rintro - m5 ⟨hm5, src, hs5, hsrc⟩
  obtain ⟨hi', hsl, -⟩ := slides_targets hi.old_stacked
    (List.filter_sublist : (marked ms old).Sublist old)
    (Nat.le_refl _)
  obtain rfl : hi' = top := hsl.stacked.end_unique hst
  have hpack : Packed m old ms m4.heap m5.heap hi' := .of_shifted hsl hs5 hsrc
  have hown5 : m5.own = remembering m.own (recalls m (moves m old ms)) := by
    rw [hm5, Machine.withOwn_own, hown4]
    rfl
  have hroots5 : m5.roots = m2.roots := by rw [hm5, hm4, hm3]; rfl
  have hmap5 : m.roots.Mapped
      (fun v v' => v' = v.rename (redirection 3 (noted 3 h₂ (moves m old ms)))) m5.roots := by
    rw [hroots5, ← hroots1]
    exact hmap2
  have hstress : m5.stress = m.stress := by rw [hm5, hm4, hm3, hm2, hm1.rest]; rfl
  have hstats : m5.stats = m.stats := by rw [hm5, hm4, hm3, hm2, hm1.rest]; rfl
  refine Runs.step (GcM.run_modifyOwn _) (Runs.of_eq (GcM.run_recordCycle _ _ _)
    ⟨ms, _, _, hi', hf, hprep, hprep.ready hf hr4, hpack, hmap5, ?_, ?_, hstress, ?_⟩)
  · rw [length_recalls]
    exact Nat.not_lt.mp hcount
  · simp only [Machine.withOwn_own, hown5]
    rfl
  · simp only [Machine.withOwn_stats, Machine.withOwn_own, hstats, hown5]
    rfl

/-- A heap in a good state is in one again. -/
theorem Slidden.compacted {m m' : Machine Generational} {h h₁ : Arena} {top : Nat}
    (hi : Inv m young old S) (hs : Slidden m m' young old S ms h h₁ top) :
    Compacted m m' young old ms := by
  have hf := hs.found
  have hred : ∀ o ∈ ms, redirection 3 h o = relocate (moves m old ms) o := fun o ho =>
    hs.prepared.redirection hf (fun b hb => hi.no_forward b (.inl hb)) ho
  have hready := hs.ready.congr hf hred
  have hpack := hs.packed
  have hmap : m.roots.Mapped (fun v v' => v' = v.rename (relocate (moves m old ms))) m'.roots := by
    refine ⟨hs.roots.depth, hs.roots.table, hs.roots.capacity, hs.roots.parked, hs.roots.hash,
      fun slot v hv => ?_⟩
    obtain ⟨v', hv', rfl⟩ := hs.roots.slot slot v hv
    exact ⟨_, hv', (hf.roots slot v hv).rename_congr hred⟩
  have hentries : m'.own.remembered.toList = recalls m (moves m old ms) := by
    rw [hs.own]
    exact remembering_toList _ _
  exact {
    reach := hf.reach
    address := fun b hb => by
      obtain ⟨p, hp, hpo, -⟩ : ∃ p ∈ moves m old ms, p.old = b.1 ∧ p.size = b.2 := exists_target hb
      rw [← hpo, relocate_old hf hp]
      exact target_address (hi.old_stacked.sorted.sublist List.filter_sublist) hp
    stays := fun b hb => relocate_young hf hb
    renamed := hpack.renamed hf hready
    visited := fun o n i ho hb hlt => hpack.visited hf hready ho hb hlt
    unvisited := fun b hb hbm i hlt => by
      have hin := hi.young_inside hb
      exact (hpack.young_word hf hb (by omega)).trans
        (hready.word b (.inl hb) i hlt fun h => hbm h.1)
    roots := hmap
    inv := hpack.inv hi hf hready rfl hs.own hmap
    recalled := fun b hb => by
      obtain ⟨p, hp, hpo, -⟩ : ∃ p ∈ moves m old ms, p.old = b.1 ∧ p.size = b.2 := exists_target hb
      rw [← hpo, relocate_old hf hp, hentries, hs.own]
      exact (hpack.mem_recalls hp).trans (hpack.pointsInto_iff hf hready hp).symm
    nursery := by rw [hs.own]; rfl
    survivorSpace := by rw [hs.own]; rfl
    tenured_region := by rw [hs.own]; rfl
    size_eq := hpack.size_eq.trans hready.size_eq
    capacity := by rw [hs.own]; rfl
    room := by
      rw [hentries, hs.own]
      exact hs.room
    markCapacity := by rw [hs.own]; rfl
    own_threshold := by rw [hs.own]; rfl
    stress := hs.stress
    cycles := by rw [hs.stats, Stats.recordCycle] }

/-- A major collection ends or stops. It records what tenured space holds no more, and what both
spaces hold afterwards. -/
theorem collectMajor_records {m : Machine Generational} (hi : Inv m young old S) :
    Runs collectMajor m (fun _ m' => (∃ ms, Compacted m m' young old ms) ∧
      m'.stats = m.stats.recordCycle .major
      (m.own.tenured.used - m'.own.tenured.used) (m'.own.nursery.used + m'.own.tenured.used))
      (fun f _ => MajorStops m young old S f) := by
  refine ((collectMajor_slides hi.filled).mono ?_).mono_fail fun _ _ h => h.1
  rintro - m' ⟨ms, h, h₁, top, hs⟩
  exact ⟨⟨ms, hs.compacted hi⟩, hs.stats⟩

/-- A major collection ends or stops. -/
theorem collectMajor_runs {m : Machine Generational} (hi : Inv m young old S) :
    Runs collectMajor m (fun _ m' => ∃ ms, Compacted m m' young old ms)
    (fun f _ => MajorStops m young old S f) :=
  (collectMajor_records hi).mono fun _ _ h => h.1

/-- If the roots reach objects alone and the remembered set is within its capacity, only the mark
stack can overflow. -/
theorem collectMajor_runs_of_room {m : Machine Generational} (hi : Inv m young old S)
    (hk : ∀ o, Reach m.heap m.roots.Refers o → m.heap.tag o ≠ none)
    (hroom : m.own.remembered.toList.length ≤ m.own.remembered.capacity) :
    Runs collectMajor m (fun _ m' => ∃ ms, Compacted m m' young old ms)
    (Marking.Overflows m.own.markCapacity) := by
  refine (collectMajor_runs hi).mono_fail fun f m' hf => ?_
  rcases hf with (hf | ⟨o, ho, hno, -⟩) | ⟨-, ms, hf, hlt⟩
  · exact hf
  · exact absurd hno (hk o ho)
  · have hle := length_recalled_le hi hf.valid
    omega

/-- The first word of a nursery object, marked or not. -/
theorem Compacted.young_head {m m' : Machine Generational} (hi : Inv m young old S)
    (hc : Compacted m m' young old ms) {b : Nat × Nat} (hb : b ∈ young) :
    m'.heap.word b.1 = m.heap.word b.1 := by
  have hin := hi.young_inside hb
  by_cases hbm : b.1 ∈ ms
  · have hv := hc.visited b.1 b.2 0 hbm (.inl hb) (by omega)
    rw [hc.stays b hb, if_neg (by omega)] at hv
    exact hv
  · exact hc.unvisited b hb hbm 0 (by omega)

/-- A major collection that ends has moved the tenured objects that the roots reach together, at the
bottom of their space and in their old order, renamed every reference to them, and dropped the
others. -/
theorem collectMajor_packs_tenured {m m' : Machine Generational} (hi : Inv m young old S)
    (hrun : collectMajor m = .ok () m') :
    ∃ ms, Compacted m m' young old ms ∧ objects m'.own m'.heap =
    .ok (young ++ (marked ms old).map fun b =>
      (m.own.tenured.region.first + wordsBelow (marked ms old) b.1 + 3, b.2)) := by
  obtain ⟨ms, hc⟩ := (collectMajor_runs hi).ok hrun
  have hsorted : (marked ms old).Pairwise fun b c => b.1 < c.1 :=
    hi.old_stacked.sorted.sublist List.filter_sublist
  refine ⟨ms, hc, ?_⟩
  rw [← targets_block hsorted]
  exact hc.inv.objects

/-- Two tenured pairs, of which the upper one is a root and refers to a nursery pair that refers
back to it. -/
def shelved : Machine Generational where
  heap :=
    ⟨#[0, 6, 0, 2, 168, 14, 0, 0, 0, 0, 0, 0, 0, 6, 0x200, 2, 14, 14, 0, 6, 0x300, 2, 24, 14, 0, 0,
      0, 0, 0, 0]⟩
  roots :=
    { stack := #[.ofRef 21], capacity := 4, parked := 0, globals := #[.undef], hash := fun _ => 0 }
  stress := false
  stats := {}
  own := {
    nursery := ⟨⟨0, 6⟩, 6⟩
    survivorSpace := ⟨6, 12⟩
    tenured := ⟨⟨12, 30⟩, 24⟩
    remembered := ⟨#[21], 4⟩
    markCapacity := 4
    threshold := 2 }

theorem shelved_inv : Inv shelved [(3, 6)] [(15, 6), (21, 6)] fun o => o = 3 ∨ o = 21 where
  spaces := by constructor <;> decide
  young_stacked := ⟨rfl, by decide, rfl⟩
  old_stacked := ⟨rfl, by decide, rfl, by decide, rfl⟩
  young_sized := by unfold Sized; decide
  old_sized := by unfold Sized; decide
  no_forward := fun b hb =>
    (show ∀ b ∈ [(3, 6), (15, 6), (21, 6)], shelved.heap.word (b.1 - 3) = 0 by decide) b
      (by simpa using hb)
  no_mark := fun b hb =>
    (show ∀ b ∈ [(3, 6), (15, 6), (21, 6)], shelved.heap.word (b.1 - 1) &&&
      markedFlag = 0 by decide) b (by simpa using hb)
  young_flags := by decide
  old_flags := by decide
  flagged := by decide
  entries_nodup := by decide
  entries_old := by
    intro e he
    obtain rfl : e = 21 := List.mem_singleton.mp he
    exact ⟨6, by decide⟩
  remembers := by
    have hne : ∀ b ∈ [(15, 6), (21, 6)], b.1 ≠ 3 := by decide
    rintro b hb (h | h) -
    · exact absurd h (hne b hb)
    · rw [h]
      decide
  linked := by
    have hold : (Value.ofRef 21).Within fun o => o = 3 ∨ o = 21 :=
      Value.ofRef_within (by decide) (by decide) (.inr rfl)
    have hyoung : (Value.ofRef 3).Within fun o => o = 3 ∨ o = 21 :=
      Value.ofRef_within (by decide) (by decide) (.inl rfl)
    have hnil : Value.nil.Within fun o => o = 3 ∨ o = 21 := .of_not_ref (by decide)
    rintro o a (rfl | rfl) - (rfl | rfl)
    · exact hold
    · exact hnil
    · exact hyoung
    · exact hnil
  placed := by
    rintro o (rfl | rfl)
    · exact ⟨6, .inl (by decide), by decide⟩
    · exact ⟨6, .inr (by decide), by decide⟩
  roots := Roots.within_of_single rfl rfl (Value.ofRef_within (by decide) (by decide) (.inr rfl))
    (.of_not_ref (v := .undef) (by decide))
  entries := by
    intro e he
    exact .inr (List.mem_singleton.mp he)

/-- The upper pair moves down to where the lower one was, and is still the root. -/
theorem shelved_packed : ∃ m' ms, collectMajor shelved = .ok () m' ∧ m'.roots.stack = #[.ofRef 15] ∧
    Compacted shelved m' [(3, 6)] [(15, 6), (21, 6)] ms := by
  have hok : (match collectMajor shelved with
      | .ok _ m' => m'.roots.stack.toList == [.ofRef 15]
      | .error _ _ => false) = true := by
    decide +kernel
  cases hrun : collectMajor shelved with
  | ok a m' =>
    rw [hrun] at hok
    obtain ⟨ms, hc, -⟩ := collectMajor_packs_tenured shelved_inv hrun
    exact ⟨m', ms, rfl, Array.toList_inj.mp (eq_of_beq hok), hc⟩
  | error e m' =>
    rw [hrun] at hok
    cases hok

end Reclaim.Generational
