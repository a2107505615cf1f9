import Mathlib.Data.List.Forall2
import Reclaim.Proofs.Semispace.Collection

/-!
# The layout after a collection

A collection lays out the copies in the order in which a search from the roots discovers the
objects. So where they come to lie, and with which words, depends on the graph alone, and not on
where the objects lay before or on what the halves held besides. Two machines with the same graph
(`Alike`) are collected to the same layout, counted from the start of the half that is copied to
(`Translated`).

Results:
* `Alike.aligned`: the copies of corresponding objects are made at the same time.
* `Alike.translated`: they lie at the same offsets, with the same words.
* `evacuate_lays_out_graph`: two collections of the same graph, and two collections one after the
  other.
-/

namespace Reclaim

/-- The objects that the fields of an object lead to. -/
theorem targetsOf_referring (h : Arena) (o : Nat) : targetsOf (h.referring o) = h.succ o := by
  rw [targetsOf, Arena.referring, List.filterMap_map]
  rfl

/-- The objects that the roots refer to, slot by slot. -/
theorem Roots.targetsOf_referring (r : Roots) : targetsOf r.referring = r.slots.filterMap fun s =>
    (r.get? s).bind Value.ref? := by
  rw [targetsOf, referring, references_eq, List.filterMap_filterMap, List.filterMap_filter]
  refine List.filterMap_congr fun s _ => ?_
  rw [holdsRef]
  cases hv : r.get? s with
  | none => rfl
  | some v =>
    cases hr : v.isRef with
    | true => simp [hr]
    | false => simp [hr, Value.ref?_eq_none hr]

/-- What stands in one list has its counterpart in the other. -/
theorem exists_of_forall₂ {α β : Type} {R : α → β → Prop} {as : List α} {bs : List β}
    (hR : List.Forall₂ R as bs) {a : α} (ha : a ∈ as) :
    ∃ b ∈ bs, R a b := by
  induction hR with
  | nil => cases ha
  | @cons c d cs ds hcd _ ih =>
    rcases List.mem_cons.mp ha with rfl | ha
    · exact ⟨d, by simp, hcd⟩
    · obtain ⟨b, hb, hab⟩ := ih ha
      exact ⟨b, by simp [hb], hab⟩

end Reclaim

namespace Reclaim.Semispace

variable {f : Nat → Nat} {m₁ m₂ m₁' m₂' : Machine Semispace} {blocks₁ blocks₂ : List (Nat × Nat)}
  {S₁ S₂ : Nat → Prop}
  {cs₁ cs₂ : List Copy} {o n i : Nat}

/-! ## The same graph -/

/-- The map `f` takes the graph that the roots of `m₁` reach to that of `m₂`: slot by slot and field
by field, to blocks of the same size with the same words, but for the references. -/
structure Alike (f : Nat → Nat) (m₁ m₂ : Machine Semispace)
    (blocks₁ blocks₂ : List (Nat × Nat)) : Prop where
  depth : m₂.roots.stack.size = m₁.roots.stack.size
  table : m₂.roots.globals.size = m₁.roots.globals.size
  root : ∀ slot v, m₁.roots.get? slot = some v → ∃ w, m₂.roots.get? slot = some w ∧
    w.ref? = v.ref?.map f
  injective : ∀ o o', Live m₁ o → Live m₁ o' → f o = f o' → o = o'
  block : ∀ o n, Live m₁ o → (o, n) ∈ blocks₁ → (f o, n) ∈ blocks₂
  word : ∀ o n i, Live m₁ o → (o, n) ∈ blocks₁ → i + 2 < n →
    ¬ (m₁.heap.tag o = some .pair ∧ (i = 1 ∨ i = 2) ∧ (m₁.heap.value (o + i)).isRef = true) →
    m₂.heap.word (f o + i) = m₁.heap.word (o + i)
  field : ∀ o i c, Live m₁ o → m₁.heap.tag o = some .pair → i = 1 ∨ i = 2 →
    (m₁.heap.value (o + i)).ref? = some c →
    (m₂.heap.value (f o + i)).ref? = some (f c)

theorem Inv.named (hi : Inv m₁ blocks₁ S₁) : Value.Named S₁ := by
  intro o ho
  obtain ⟨n, hb, -⟩ := hi.placed o ho
  have hin := hi.block_inside hb
  have hsmall := hi.small
  simp only at hin
  omega

namespace Alike

theorem tag (hi : Inv m₁ blocks₁ S₁) (ha : Alike f m₁ m₂ blocks₁ blocks₂) (ho : Live m₁ o) :
    m₂.heap.tag (f o) = m₁.heap.tag o := by
  obtain ⟨n, hb, -⟩ := hi.live.placed o ho
  have hin := hi.block_inside hb
  exact Arena.tag_congr (ha.word o n 0 ho hb (by omega) (by omega))

/-- A field that holds no reference holds the same value. -/
theorem value (hi : Inv m₁ blocks₁ S₁) (ha : Alike f m₁ m₂ blocks₁ blocks₂) (ho : Live m₁ o)
    (ht : m₁.heap.tag o = some .pair) (hio : i = 1 ∨ i = 2)
    (hr : (m₁.heap.value (o + i)).isRef = false) :
    m₂.heap.value (f o + i) = m₁.heap.value (o + i) := by
  obtain ⟨n, hb, hfit⟩ := hi.live.placed o ho
  rw [Arena.payload_of_pair ht] at hfit
  refine Arena.value_congr (ha.word o n i ho hb (by omega) ?_)
  rw [hr]
  simp

theorem ref? (hi : Inv m₁ blocks₁ S₁) (ha : Alike f m₁ m₂ blocks₁ blocks₂) (ho : Live m₁ o)
    (ht : m₁.heap.tag o = some .pair) (hio : i = 1 ∨ i = 2) :
    (m₂.heap.value (f o + i)).ref? = (m₁.heap.value (o + i)).ref?.map f := by
  cases hr : (m₁.heap.value (o + i)).ref? with
  | some c => exact ha.field o i c ho ht hio hr
  | none =>
    rw [ha.value hi ho ht hio (Value.isRef_eq_false hr), hr]
    rfl

theorem succ (hi : Inv m₁ blocks₁ S₁) (ha : Alike f m₁ m₂ blocks₁ blocks₂) (ho : Live m₁ o) :
    m₂.heap.succ (f o) = (m₁.heap.succ o).map f := by
  rw [Arena.succ_eq, Arena.succ_eq, ha.tag hi ho]
  split
  · rename_i ht
    rw [List.map_filterMap]
    simp only [List.filterMap_cons, List.filterMap_nil, ha.ref? hi ho ht (.inl rfl),
      ha.ref? hi ho ht (.inr rfl)]
  · rfl

/-- The roots lead to corresponding objects. -/
theorem targets (ha : Alike f m₁ m₂ blocks₁ blocks₂) :
    targetsOf m₂.roots.referring = (targetsOf m₁.roots.referring).map f := by
  have hslots : m₂.roots.slots = m₁.roots.slots := by
    rw [Roots.slots, Roots.slots, Roots.depth, Roots.depth, Roots.tableSize,
      Roots.tableSize, ha.depth, ha.table]
  rw [Roots.targetsOf_referring, Roots.targetsOf_referring, hslots, List.map_filterMap]
  refine List.filterMap_congr fun s hs => ?_
  cases hv : m₁.roots.get? s with
  | some v =>
    obtain ⟨w, hw, hr⟩ := ha.root s v hv
    rw [hw]
    exact hr
  | none =>
    have hnone : m₂.roots.get? s = none := by
      have hd := ha.depth
      have ht := ha.table
      cases s <;> simp only [Roots.get?, Array.getElem?_eq_none_iff] at hv ⊢ <;> omega
    rw [hnone]
    rfl

/-! ## The same layout -/

/-- Corresponding objects are copied at the same time. -/
theorem copies (hi : Inv m₁ blocks₁ S₁) (ha : Alike f m₁ m₂ blocks₁ blocks₂)
    (h₁ : InOrder m₁ blocks₁ cs₁) (h₂ : InOrder m₂ blocks₂ cs₂) :
    cs₂.map Copy.old = (cs₁.map Copy.old).map f := by
  have hroots : ∀ a ∈ targetsOf m₁.roots.referring, Live m₁ a := by
    intro a hm
    rw [Roots.targetsOf_referring] at hm
    obtain ⟨s, -, hs⟩ := List.mem_filterMap.mp hm
    obtain ⟨v, hv, hr⟩ := Option.bind_eq_some_iff.mp hs
    exact .root ⟨s, v, hv, hr⟩
  obtain ⟨hstart, hlive⟩ :=
    discover_map ha.injective (show ∀ a ∈ [], Live m₁ a by simp) hroots ha.targets
  have hmap := h₁.searched.map ha.injective
      (fun o ho a hm => ho.step (by rwa [targetsOf_referring] at hm)) (fun o ho => by
    rw [targetsOf_referring, targetsOf_referring]
    exact ha.succ hi ho) hlive
  rw [← hstart] at hmap
  exact h₂.searched.unique hmap.1

/-- Blocks of the same sizes, one after the other, have the same offsets. -/
theorem offsets {R : Copy → Copy → Prop} {lo₁ lo₂ top₁ top₂ : Nat} (hR : List.Forall₂ R cs₁ cs₂)
    (hsize : ∀ c ∈ cs₁, ∀ d ∈ cs₂, R c d → d.size = c.size)
    (h₁ : Stacked 2 lo₁ (cs₁.map Copy.block) top₁) (h₂ : Stacked 2 lo₂ (cs₂.map Copy.block) top₂) :
    top₂ + lo₁ = top₁ + lo₂ ∧
      List.Forall₂ (fun c d => R c d ∧ d.size = c.size ∧ lo₁ ≤ c.new ∧
        d.new + lo₁ = c.new + lo₂) cs₁ cs₂ := by
  induction hR generalizing lo₁ lo₂ with
  | nil =>
    obtain rfl : lo₁ = top₁ := h₁
    obtain rfl : lo₂ = top₂ := h₂
    exact ⟨Nat.add_comm _ _, .nil⟩
  | @cons c d cs ds hcd _ ih =>
    have hsz := hsize c (by simp) d (by simp) hcd
    have hc : c.new = lo₁ + 2 := h₁.1
    have hd : d.new = lo₂ + 2 := h₂.1
    have hrest₁ : Stacked 2 (lo₁ + c.size) (cs.map Copy.block) top₁ := h₁.2.2
    have hrest₂ : Stacked 2 (lo₂ + d.size) (ds.map Copy.block) top₂ := h₂.2.2
    obtain ⟨htop, hall⟩ := ih
      (fun c hc d hd => hsize c (by simp [hc]) d (by simp [hd])) hrest₁ hrest₂
    exact ⟨by omega, .cons ⟨hcd, hsz, by omega, by omega⟩
      (hall.imp fun c d h => ⟨h.1, h.2.1, by omega, by omega⟩)⟩

end Alike

/-- The address in `m₂` at the same offset from the start of its space. -/
def translate (m₁ m₂ : Machine Semispace) (a : Nat) : Nat :=
  a - m₁.own.space.region.first + m₂.own.space.region.first

/-- The space of `m₂` is laid out as that of `m₁`: the same blocks at the same offsets, with the
same words, headers included, but for the references, which lead to the same offsets, as those of
the roots do. -/
structure Translated (m₁ m₂ : Machine Semispace) (blocks₁ blocks₂ : List (Nat × Nat)) : Prop where
  used : m₂.own.space.used = m₁.own.space.used
  blocks : blocks₂ = blocks₁.map fun b => (translate m₁ m₂ b.1, b.2)
  header : ∀ o n i, (o, n) ∈ blocks₁ → i = 1 ∨ i = 2 →
    m₂.heap.word (translate m₁ m₂ o - i) = m₁.heap.word (o - i)
  word : ∀ o n i, (o, n) ∈ blocks₁ → i + 2 < n → m₂.heap.word (translate m₁ m₂ o + i)
    = if m₁.heap.tag o = some .pair ∧ (i = 1 ∨ i = 2) then
      ((m₁.heap.value (o + i)).rename (translate m₁ m₂)).bits
      else m₁.heap.word (o + i)
  depth : m₂.roots.stack.size = m₁.roots.stack.size
  table : m₂.roots.globals.size = m₁.roots.globals.size
  root : ∀ slot v, m₁.roots.get? slot = some v → ∃ w, m₂.roots.get? slot = some w ∧
    w.ref? = v.ref?.map (translate m₁ m₂)

section Outcome

variable (hi₁ : Inv m₁ blocks₁ S₁) (hi₂ : Inv m₂ blocks₂ S₂) (ha : Alike f m₁ m₂ blocks₁ blocks₂)
  (hc₁ : Copied m₁ m₁' blocks₁ (cs₁.map Copy.block) (relocate cs₁)) (ho₁ : InOrder m₁ blocks₁ cs₁)
  (hc₂ : Copied m₂ m₂' blocks₂ (cs₂.map Copy.block) (relocate cs₂)) (ho₂ : InOrder m₂ blocks₂ cs₂)
include hi₁ hi₂ ha hc₁ ho₁ hc₂ ho₂

/-- Each copy has its counterpart, at the same offset. -/
theorem Alike.aligned : m₂'.own.space.used = m₁'.own.space.used ∧
    List.Forall₂ (fun c d : Copy => d.old = f c.old ∧ d.size = c.size ∧
      d.new = translate m₁' m₂' c.new) cs₁ cs₂ := by
  have hold := ha.copies hi₁ ho₁ ho₂
  rw [List.map_map, eq_comm, ← List.forall₂_eq_eq_eq, List.forall₂_map_left_iff,
    List.forall₂_map_right_iff] at hold
  have hsize : ∀ c ∈ cs₁, ∀ d ∈ cs₂, f c.old = d.old → d.size = c.size := by
    intro c hc d hd he
    obtain ⟨hlive, hb⟩ := ho₁.source c hc
    have hb₂ := ha.block _ _ hlive hb
    rw [he] at hb₂
    exact hi₂.stacked.size_unique (ho₂.source d hd).2 hb₂
  have hle := hc₁.inv.stacked.le
  obtain ⟨htop, hall⟩ := Alike.offsets hold hsize hc₁.inv.stacked hc₂.inv.stacked
  refine ⟨by unfold Bump.used; omega, hall.imp fun c d h => ⟨h.1.symm, h.2.1, ?_⟩⟩
  unfold translate
  omega

theorem Alike.counterpart {c : Copy} (hc : c ∈ cs₁) :
    ∃ d ∈ cs₂, d.old = f c.old ∧ d.size = c.size ∧ d.new = translate m₁' m₂' c.new :=
  exists_of_forall₂ (ha.aligned hi₁ hi₂ hc₁ ho₁ hc₂ ho₂).2 hc

/-- The new addresses of corresponding objects have the same offset. -/
theorem Alike.relocated (ho : Live m₁ o) : Live m₂ (f o) ∧
    relocate cs₂ (f o) = translate m₁' m₂' (relocate cs₁ o) := by
  obtain ⟨c, hc, rfl⟩ := ho₁.complete o ho
  obtain ⟨d, hd, hold, -, hnew⟩ := ha.counterpart hi₁ hi₂ hc₁ ho₁ hc₂ ho₂ hc
  rw [← hold, ho₁.relocated c hc, ho₂.relocated d hd]
  exact ⟨(ho₂.source d hd).1, hnew⟩

/-- The field of a copy refers to the same offset as that of its counterpart. -/
theorem Alike.field_renamed (ho : Live m₁ o) (ht : m₁.heap.tag o = some .pair)
    (hio : i = 1 ∨ i = 2) :
    (m₂.heap.value (f o + i)).rename (relocate cs₂)
      = ((m₁.heap.value (o + i)).rename (relocate cs₁)).rename (translate m₁' m₂') := by
  have hw := hi₁.live.closed.field o (o + i) ho ht (by omega)
  rw [Value.rename_rename hw (hc₁.inv.named)]
  cases hr : (m₁.heap.value (o + i)).ref? with
  | none =>
    have hn := Value.isRef_eq_false hr
    rw [ha.value hi₁ ho ht hio hn, Value.rename_of_not_ref hn, Value.rename_of_not_ref hn]
  | some c =>
    rw [Value.rename_of_ref hr, Value.rename_of_ref (ha.field o i c ho ht hio hr),
      (ha.relocated hi₁ hi₂ hc₁ ho₁ hc₂ ho₂ (hw c hr).2).2]
    rfl

/-- The layouts agree. -/
theorem Alike.translated : Translated m₁' m₂' (cs₁.map Copy.block) (cs₂.map Copy.block) := by
  obtain ⟨hused, hall⟩ := ha.aligned hi₁ hi₂ hc₁ ho₁ hc₂ ho₂
  refine ⟨hused, ?_, fun o n i hm hi => ?_, fun o n i hm hin => ?_, ?_, ?_, fun slot v hv => ?_⟩
  · rw [List.map_map, eq_comm, ← List.forall₂_eq_eq_eq, List.forall₂_map_left_iff,
      List.forall₂_map_right_iff]
    exact hall.imp fun c d h => by simp [Copy.block, h.2.1, h.2.2]
  · obtain ⟨c, hc, he⟩ := List.mem_map.mp hm
    obtain ⟨d, hd, -, hsize, hnew⟩ := ha.counterpart hi₁ hi₂ hc₁ ho₁ hc₂ ho₂ hc
    have hcm := List.mem_map_of_mem (f := Copy.block) hc
    have hdm := List.mem_map_of_mem (f := Copy.block) hd
    cases he
    rw [← hnew]
    rcases hi with rfl | rfl
    · exact (hc₂.inv.unforwarded _ hdm).trans (hc₁.inv.unforwarded _ hcm).symm
    · exact UInt64.toNat_inj.mp
        ((hc₂.inv.sized _ hdm).trans (hsize.trans (hc₁.inv.sized _ hcm).symm))
  · obtain ⟨c, hc, he⟩ := List.mem_map.mp hm
    obtain ⟨d, hd, hold, hsize, hnew⟩ := ha.counterpart hi₁ hi₂ hc₁ ho₁ hc₂ ho₂ hc
    obtain ⟨hlive, hb⟩ := ho₁.source c hc
    obtain ⟨hlive₂, hb₂⟩ := ho₂.source d hd
    cases he
    have hw₁ := hc₁.word c.old c.size i hlive hb hin
    have hw₂ := hc₂.word d.old d.size i hlive₂ hb₂ (by omega)
    have htag : m₁'.heap.tag (relocate cs₁ c.old) = m₁.heap.tag c.old :=
      hc₁.renamed.tag hi₁.live.closed hlive
    rw [ho₁.relocated c hc] at hw₁ htag
    rw [ho₂.relocated d hd, hold, ha.tag hi₁ hlive] at hw₂
    rw [← hnew, hw₂, htag]
    by_cases hpair : m₁.heap.tag c.old = some .pair ∧ (i = 1 ∨ i = 2)
    · rw [if_pos hpair] at hw₁ ⊢
      have hfield : m₁'.heap.value (c.new + i) = (m₁.heap.value (c.old + i)).rename
        (relocate cs₁) := by rw [Arena.value, hw₁]
      rw [if_pos hpair, ha.field_renamed hi₁ hi₂ hc₁ ho₁ hc₂ ho₂ hlive hpair.1 hpair.2, hfield]
    · rw [if_neg hpair] at hw₁ ⊢
      rw [if_neg hpair, hw₁]
      exact ha.word c.old c.size i hlive hb hin fun h => hpair ⟨h.1, h.2.1⟩
  · rw [hc₂.roots.depth, hc₁.roots.depth, ha.depth]
  · rw [hc₂.roots.table, hc₁.roots.table, ha.table]
  · obtain ⟨v, hv₁, rfl⟩ := hc₁.roots.of_slot hv
    obtain ⟨w, hw, hr⟩ := ha.root slot v hv₁
    obtain ⟨-, hw₂, rfl⟩ := hc₂.roots.slot slot w hw
    refine ⟨_, hw₂, ?_⟩
    have hv₁ := hi₁.live.roots slot v hv₁
    rw [Value.ref?_rename (hi₂.live.roots slot w hw) hc₂.inv.named,
      Value.ref?_rename hv₁ hc₁.inv.named, hr]
    cases hvr : v.ref? with
    | none => rfl
    | some o => exact congrArg some (ha.relocated hi₁ hi₂ hc₁ ho₁ hc₂ ho₂ (hv₁ o hvr).2).2

end Outcome

/-- A collection keeps the graph. -/
theorem Copied.alike (hi₁ : Inv m₁ blocks₁ S₁) {copies : List (Nat × Nat)} {ρ : Nat → Nat}
    (hc : Copied m₁ m₁' blocks₁ copies ρ) :
    Alike ρ m₁ m₁' blocks₁ copies where
  depth := hc.roots.depth
  table := hc.roots.table
  root slot v hv := by
    obtain ⟨w, hw, rfl⟩ := hc.roots.slot slot v hv
    exact ⟨_, hw, Value.ref?_rename (hi₁.live.roots slot v hv) hc.inv.named⟩
  injective := hc.renamed.injective
  block o n ho hb := (hc.image _ _).mpr ⟨o, ho, hb, rfl⟩
  word o n i ho hb hs hnf := by
    rw [hc.word o n i ho hb hs]
    split
    · rename_i hpair
      have hr : (m₁.heap.value (o + i)).isRef = false := by
        cases hr : (m₁.heap.value (o + i)).isRef with
        | false => rfl
        | true => exact absurd ⟨hpair.1, hpair.2, hr⟩ hnf
      rw [Value.rename_of_not_ref hr]
      rfl
    · rfl
  field o i c ho ht hio hr := by
    rw [hc.renamed.field o i ho ht hio, Value.ref?_rename
      (hi₁.live.closed.field o _ ho ht (by omega)) hc.inv.named, hr]
    rfl

/-- Where the copies come to lie depends on the graph alone. Two machines with the same graph,
wherever their objects lie, are collected to the same blocks at the same offsets from the start of
the half that is copied to, with the same words but for the references, which lead to the same
offsets. A second collection right after the first reclaims nothing, and makes the same layout in
the other half. -/
theorem evacuate_lays_out_graph (hi₁ : Inv m₁ blocks₁ S₁) (hi₂ : Inv m₂ blocks₂ S₂)
    (ha : Alike f m₁ m₂ blocks₁ blocks₂) :
    ∃ m₁' m₂' m₁'' copies₁ copies₂ copies₁', evacuate m₁ = .ok () m₁' ∧
    objects m₁'.own m₁'.heap = .ok copies₁ ∧
      evacuate m₂ = .ok () m₂' ∧ objects m₂'.own m₂'.heap = .ok copies₂ ∧
      m₁'.own.space.region = m₁.own.spare ∧ m₂'.own.space.region = m₂.own.spare ∧
      Translated m₁' m₂' copies₁ copies₂ ∧
      evacuate m₁' = .ok () m₁'' ∧ objects m₁''.own m₁''.heap = .ok copies₁' ∧
      m₁''.own.space.region = m₁.own.space.region ∧ Translated m₁' m₁'' copies₁ copies₁' ∧
      m₁''.stats = m₁'.stats.recordCycle .full 0 m₁'.own.space.used := by
  obtain ⟨⟨⟩, m₁', hrun₁, ⟨cs₁, hc₁, ho₁⟩, -⟩ := (evacuate_searches hi₁).exists_ok
  obtain ⟨⟨⟩, m₂', hrun₂, ⟨cs₂, hc₂, ho₂⟩, -⟩ := (evacuate_searches hi₂).exists_ok
  obtain ⟨⟨⟩, m₁'', hrun₁', ⟨cs₁', hc₁', ho₁'⟩, hstats⟩ := (evacuate_searches hc₁.inv).exists_ok
  have hagain := (hc₁.alike hi₁).translated hi₁ hc₁.inv hc₁ ho₁ hc₁' ho₁'
  refine ⟨m₁', m₂', m₁'', _, _, _, hrun₁, hc₁.inv.objects, hrun₂,
    hc₂.inv.objects, hc₁.region, hc₂.region,
    ha.translated hi₁ hi₂ hc₁ ho₁ hc₂ ho₂, hrun₁', hc₁'.inv.objects,
      hc₁'.region.trans hc₁.spare, hagain, ?_⟩
  rw [hstats, hagain.used, Nat.sub_self]

/-- The pairs of `ring` in the upper half and in the other order, without the third one, among words
that an earlier collection has left behind. -/
def coil : Machine Semispace where
  heap :=
    ⟨#[7, 7, 2, 99, 3, 5, 0, 2, 168, 168, 77, 77, 77, 77, 77, 77, 77, 77, 5, 0, 2, 200, 14, 5, 0, 2,
      160, 160, 88, 88, 88, 88, 88, 88, 88, 88]⟩
  roots :=
    { stack := #[.ofRef 20], capacity := 9, parked := 0, globals := #[.nil], hash := fun _ => 0 }
  stress := false
  stats := {}
  own := ⟨⟨⟨18, 36⟩, 28⟩, ⟨0, 18⟩⟩

theorem coil_inv : Inv coil [(20, 5), (25, 5)] fun o => o = 20 ∨ o = 25 where
  small := by decide
  top_le := by decide
  inside := by decide
  spare := by decide
  spare_inside := by decide
  apart := by decide
  length_eq := by decide
  stacked := ⟨rfl, by decide, rfl, by decide, rfl⟩
  sized := by unfold Sized; decide
  unforwarded := by decide
  placed := by
    rintro o (rfl | rfl)
    · exact ⟨5, by decide, by decide⟩
    · exact ⟨5, by decide, by decide⟩
  closed := by
    have hlow : (Value.ofRef 20).Within fun o => o = 20 ∨ o = 25 :=
      Value.ofRef_within (by decide) (by decide) (.inl rfl)
    have hhigh : (Value.ofRef 25).Within fun o => o = 20 ∨ o = 25 :=
      Value.ofRef_within (by decide) (by decide) (.inr rfl)
    have hnil : Value.nil.Within fun o => o = 20 ∨ o = 25 := .of_not_ref (by decide)
    refine ⟨?_, ?_⟩
    · rintro o (rfl | rfl) <;> decide
    · rintro o a (rfl | rfl) - (rfl | rfl)
      · exact hhigh
      · exact hnil
      · exact hlow
      · exact hlow
  roots := Roots.within_of_single rfl rfl (Value.ofRef_within (by decide) (by decide) (.inl rfl))
    (.of_not_ref (v := .nil) (by decide))

/-- The upper pair of `ring` is the lower one of `coil`. -/
theorem ring_alike_coil :
    Alike (fun o => if o = 12 then 20 else 25) ring coil [(2, 5), (7, 5), (12, 5)]
    [(20, 5), (25, 5)] := by
  have hmem : ∀ o, Live ring o → o = 2 ∨ o = 12 := fun o ho => ring_inv.valid ho
  refine ⟨rfl, rfl, ?_, fun o o' ho ho' he => ?_, fun o n ho hb => ?_, fun o n i ho hb hs hnf => ?_,
    fun o i c ho _ hi hr => ?_⟩
  · rintro slot v hv
    obtain ⟨rfl, rfl⟩ | ⟨rfl, rfl⟩ := Roots.get?_of_single rfl rfl hv
    · exact ⟨.ofRef 20, rfl, show (Value.ofRef 20).ref? = (Value.ofRef 12).ref?.map
        fun o => if o = 12 then 20 else 25 by decide⟩
    · exact ⟨.nil, rfl, show Value.nil.ref? = Value.undef.ref?.map fun o => if o = 12 then 20
        else 25 by decide⟩
  · rcases hmem o ho with rfl | rfl <;> rcases hmem o' ho' with rfl | rfl <;> simp at he ⊢
  · rcases hmem o ho with rfl | rfl <;> simp at hb ⊢ <;> exact hb
  · rcases hmem o ho with rfl | rfl <;>
      simp only [List.mem_cons, Prod.mk.injEq, List.not_mem_nil, or_false] at hb <;>
      obtain rfl : n = 5 := by omega
    all_goals
      obtain rfl | rfl | rfl : i = 0 ∨ i = 1 ∨ i = 2 := by omega
    · decide
    · exact absurd (by decide) hnf
    · exact absurd (by decide) hnf
    · decide
    · exact absurd (by decide) hnf
    · decide
  · rcases hmem o ho with rfl | rfl <;> rcases hi with rfl | rfl
    · obtain rfl : 12 = c := Option.some.inj (show some 12 = some c from hr)
      decide
    · obtain rfl : 12 = c := Option.some.inj (show some 12 = some c from hr)
      decide
    · obtain rfl : 2 = c := Option.some.inj (show some 2 = some c from hr)
      decide
    · cases (show (none : Option Nat) = some c from hr)

/-- Both are collected to two pairs from the start of the other half, the root first, and `ring` a
second time. -/
theorem ring_coil_layout : ∃ m₁' m₂' m₁'', evacuate ring = .ok () m₁' ∧ evacuate coil = .ok () m₂' ∧
    Translated m₁' m₂' [(18, 5), (23, 5)] [(2, 5), (7, 5)] ∧ evacuate m₁' = .ok () m₁'' ∧
    Translated m₁' m₁'' [(18, 5), (23, 5)] [(2, 5), (7, 5)] := by
  have hok : (match evacuate ring with
      | .ok _ m' => (objects m'.own m'.heap).toOption == some [(18, 5), (23, 5)]
      | .error _ _ => false) = true := by
    decide +kernel
  obtain ⟨m₁', m₂', m₁'', bs₁, bs₂, bs₁', hrun₁, hobj₁, hrun₂, -, hreg₁, hreg₂, htr, hrun₁', -,
    hreg₁', htr', -⟩ :=
    evacuate_lays_out_graph ring_inv coil_inv ring_alike_coil
  rw [hrun₁] at hok
  simp only [hobj₁] at hok
  obtain rfl : bs₁ = [(18, 5), (23, 5)] := Option.some.inj (eq_of_beq hok)
  have hb := htr.blocks
  have hb' := htr'.blocks
  simp only [translate, hreg₁, hreg₂, hreg₁'] at hb hb'
  subst hb hb'
  exact ⟨m₁', m₂', m₁'', hrun₁, hrun₂, htr, hrun₁', htr'⟩

end Reclaim.Semispace
