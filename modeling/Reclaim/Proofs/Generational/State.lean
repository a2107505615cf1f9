import Reclaim.Proofs.Evacuation
import Reclaim.Proofs.Generational.Flags

/-!
# The state of a generational heap between collections

`Inv m young old S` ties the machine `m` to the blocks `young` of the nursery and `old` of tenured
space, and to a set `S` of objects that the roots may refer to: the blocks fill their spaces, their
headers are clean, the tenured bit tells the two spaces apart, and the remembered set holds exactly
the objects that are flagged so, among them every tenured object of `S` with a field in the nursery.
Nothing is said of tags: what has none holds no reference, and a collection that visits it fails.
-/

namespace Reclaim.Generational

/-- The layout of a header: the forwarding word first, then the size, then the flags. -/
def header : Header := ⟨3, 2, 3⟩

theorem header_distinct : header.Distinct := ⟨by decide, by decide, by decide, by decide, by decide⟩

@[simp] theorem header_words : header.words = 3 := rfl
@[simp] theorem header_size : header.size = 2 := rfl
@[simp] theorem header_forward : header.forward = 3 := rfl

/-- The two halves of the nursery and, above them, tenured space, in an arena of `size` words. -/
structure Spaces (g : Generational) (size : Nat) : Prop where
  small : size < 0x1000000000000000
  nursery : g.nursery.region.first ≤ g.nursery.region.limit
  nursery_top : g.nursery.top ≤ g.nursery.region.limit
  survivor : g.survivorSpace.first ≤ g.survivorSpace.limit
  halves : g.nursery.region.limit ≤ g.survivorSpace.first ∨
    g.survivorSpace.limit ≤ g.nursery.region.first
  below : g.nursery.region.limit ≤ g.tenured.region.first
  survivor_below : g.survivorSpace.limit ≤ g.tenured.region.first
  tenured_top : g.tenured.top ≤ g.tenured.region.limit
  tenured : g.tenured.region.limit ≤ size

/-- The same collector with other entries in its remembered set. -/
def remembering (g : Generational) (es : List Nat) : Generational :=
  { g with remembered := g.remembered.withEntries es }

@[simp] theorem remembering_nursery (g : Generational) (es : List Nat) :
    (remembering g es).nursery = g.nursery := rfl
@[simp] theorem remembering_survivorSpace (g : Generational) (es : List Nat) :
    (remembering g es).survivorSpace = g.survivorSpace := rfl
@[simp] theorem remembering_tenured (g : Generational) (es : List Nat) :
    (remembering g es).tenured = g.tenured := rfl
@[simp] theorem remembering_toList (g : Generational) (es : List Nat) :
    (remembering g es).remembered.toList = es := RememberedSet.toList_withEntries _ _
@[simp] theorem remembering_capacity (g : Generational) (es : List Nat) :
    (remembering g es).remembered.capacity = g.remembered.capacity := rfl

theorem remembering_self (g : Generational) : remembering g g.remembered.toList = g := by
  simp [remembering, RememberedSet.withEntries, RememberedSet.toList]

/-- A field of the object at `o` refers into `r`. -/
def PointsInto (h : Arena) (r : Region) (o : Nat) : Prop := ∃ c ∈ h.succ o, r.contains c = true

/-- The state between collections. -/
structure Inv (m : Machine Generational) (young old : List (Nat × Nat))
    (S : Nat → Prop) : Prop where
  spaces : Spaces m.own m.heap.size
  young_stacked : Stacked 3 m.own.nursery.region.first young m.own.nursery.top
  old_stacked : Stacked 3 m.own.tenured.region.first old m.own.tenured.top
  young_sized : Sized 2 m.heap young
  old_sized : Sized 2 m.heap old
  no_forward : ∀ b, b ∈ young ∨ b ∈ old → m.heap.word (b.1 - 3) = 0
  no_mark : ∀ b, b ∈ young ∨ b ∈ old → m.heap.word (b.1 - 1) &&& markedFlag = 0
  young_flags : ∀ b ∈ young, m.heap.word (b.1 - 1) &&& tenuredFlag = 0 ∧
    m.heap.word (b.1 - 1) &&& rememberedFlag = 0
  old_flags : ∀ b ∈ old, m.heap.word (b.1 - 1) &&& tenuredFlag ≠ 0
  /-- The remembered bit is that of the entries. -/
  flagged : ∀ b ∈ old, m.heap.word (b.1 - 1) &&& rememberedFlag ≠ 0 ↔ b.1 ∈ m.own.remembered.toList
  entries_nodup : m.own.remembered.toList.Nodup
  entries_old : ∀ e ∈ m.own.remembered.toList, ∃ n, (e, n) ∈ old
  /-- A tenured object with a field in the nursery is remembered. -/
  remembers : ∀ b ∈ old, S b.1 → PointsInto m.heap m.own.nursery.region b.1 →
    b.1 ∈ m.own.remembered.toList
  linked : Linked m.heap S
  /-- The objects of `S` are blocks of the two spaces that hold all their words. -/
  placed : ∀ o, S o → ∃ n, ((o, n) ∈ young ∨ (o, n) ∈ old) ∧ 3 + m.heap.payload o ≤ n
  roots : m.roots.Within S
  entries : ∀ e ∈ m.own.remembered.toList, S e

/-- What a major collection relies on, whatever the flags but the marks, the forwarding words and
the remembered set hold: unmarked blocks fill the two spaces, and the roots refer to objects of `S`
alone, which lie in these blocks and refer to each other. -/
structure Filled (m : Machine Generational) (young old : List (Nat × Nat))
    (S : Nat → Prop) : Prop where
  spaces : Spaces m.own m.heap.size
  young_stacked : Stacked 3 m.own.nursery.region.first young m.own.nursery.top
  old_stacked : Stacked 3 m.own.tenured.region.first old m.own.tenured.top
  young_sized : Sized 2 m.heap young
  old_sized : Sized 2 m.heap old
  no_mark : ∀ b, b ∈ young ∨ b ∈ old → m.heap.word (b.1 - 1) &&& markedFlag = 0
  placed : ∀ o, S o → ∃ n, ((o, n) ∈ young ∨ (o, n) ∈ old) ∧ 3 + m.heap.payload o ≤ n
  linked : Linked m.heap S
  roots : m.roots.Within S

/-- What the roots and the remembered objects reach. -/
def Live (m : Machine Generational) : Nat → Prop :=
  Reach m.heap fun o => m.roots.Refers o ∨ o ∈ m.own.remembered.toList

section Filled

variable {m : Machine Generational} {young old : List (Nat × Nat)} {S : Nat → Prop}
  {b c : Nat × Nat}

namespace Filled

/-- Where the block of a nursery object lies. -/
theorem young_bounds (hi : Filled m young old S) (hb : b ∈ young) :
    m.own.nursery.region.first + 3 ≤ b.1 ∧ b.1 + b.2 ≤ m.own.nursery.top + 3 ∧ 3 < b.2 :=
  hi.young_stacked.bounds hb

theorem old_bounds (hi : Filled m young old S) (hb : b ∈ old) :
    m.own.tenured.region.first + 3 ≤ b.1 ∧ b.1 + b.2 ≤ m.own.tenured.top + 3 ∧ 3 < b.2 :=
  hi.old_stacked.bounds hb

theorem separate (hi : Filled m young old S) (hb : b ∈ young) (hc : c ∈ old) : b.1 + b.2 ≤ c.1 := by
  have h1 := hi.young_bounds hb
  have h2 := hi.old_bounds hc
  have h3 := hi.spaces.nursery_top
  have h4 := hi.spaces.below
  omega

theorem young_inside (hi : Filled m young old S) (hb : b ∈ young) : 3 ≤ b.1 ∧
    b.1 + b.2 ≤ m.heap.size + 3 ∧ 3 < b.2 := by
  have h1 := hi.young_bounds hb
  have h2 := hi.spaces.nursery_top
  have h3 := hi.spaces.below
  have h4 := hi.spaces.tenured
  have h5 := hi.spaces.tenured_top
  have h6 := hi.old_stacked.le
  omega

theorem old_inside (hi : Filled m young old S) (hb : b ∈ old) : 3 ≤ b.1 ∧
    b.1 + b.2 ≤ m.heap.size + 3 ∧ 3 < b.2 := by
  have h1 := hi.old_bounds hb
  have h2 := hi.spaces.tenured
  have h3 := hi.spaces.tenured_top
  omega

/-- The block of an object lies in one of the two spaces. -/
theorem block_inside (hi : Filled m young old S) (hb : b ∈ young ∨ b ∈ old) :
    3 ≤ b.1 ∧ b.1 + b.2 ≤ m.heap.size + 3 ∧ 3 < b.2 := hb.elim hi.young_inside hi.old_inside

theorem block_apart (hi : Filled m young old S) (hb : b ∈ young ∨ b ∈ old)
    (hc : c ∈ young ∨ c ∈ old) :
    b = c ∨ b.1 + b.2 ≤ c.1 ∨ c.1 + c.2 ≤ b.1 := by
  rcases hb with hb | hb <;> rcases hc with hc | hc
  · exact (hi.young_stacked.apart hb hc).imp (fun h => Prod.ext h.1 h.2) id
  · exact .inr (.inl (hi.separate hb hc))
  · exact .inr (.inr (hi.separate hc hb))
  · exact (hi.old_stacked.apart hb hc).imp (fun h => Prod.ext h.1 h.2) id

end Filled

namespace Inv

theorem filled (hi : Inv m young old S) : Filled m young old S :=
  ⟨hi.spaces, hi.young_stacked, hi.old_stacked, hi.young_sized, hi.old_sized, hi.no_mark, hi.placed,
    hi.linked, hi.roots⟩

theorem separate (hi : Inv m young old S) (hb : b ∈ young) (hc : c ∈ old) : b.1 + b.2 ≤ c.1 :=
  hi.filled.separate hb hc

theorem young_inside (hi : Inv m young old S) (hb : b ∈ young) : 3 ≤ b.1 ∧
    b.1 + b.2 ≤ m.heap.size + 3 ∧ 3 < b.2 :=
  hi.filled.young_inside hb

theorem old_inside (hi : Inv m young old S) (hb : b ∈ old) : 3 ≤ b.1 ∧
    b.1 + b.2 ≤ m.heap.size + 3 ∧ 3 < b.2 :=
  hi.filled.old_inside hb

theorem block_inside (hi : Inv m young old S) (hb : b ∈ young ∨ b ∈ old) : 3 ≤ b.1 ∧
    b.1 + b.2 ≤ m.heap.size + 3 ∧ 3 < b.2 :=
  hi.filled.block_inside hb

theorem block_apart (hi : Inv m young old S) (hb : b ∈ young ∨ b ∈ old) (hc : c ∈ young ∨ c ∈ old) :
    b = c ∨ b.1 + b.2 ≤ c.1 ∨ c.1 + c.2 ≤ b.1 := hi.filled.block_apart hb hc

theorem live_mem (hi : Inv m young old S) {o : Nat} (ho : Live m o) : S o :=
  ho.mem_of_linked hi.linked fun _ hr => hr.elim hi.roots.refers (hi.entries _)

/-- It is enough to speak of what is live. -/
theorem live (hi : Inv m young old S) : Inv m young old (Live m) where
  spaces := hi.spaces
  young_stacked := hi.young_stacked
  old_stacked := hi.old_stacked
  young_sized := hi.young_sized
  old_sized := hi.old_sized
  no_forward := hi.no_forward
  no_mark := hi.no_mark
  young_flags := hi.young_flags
  old_flags := hi.old_flags
  flagged := hi.flagged
  entries_nodup := hi.entries_nodup
  entries_old := hi.entries_old
  remembers b hb ho := hi.remembers b hb (hi.live_mem ho)
  linked := hi.linked.reach fun _ hr => hr.elim hi.roots.refers (hi.entries _)
  placed o ho := hi.placed o (hi.live_mem ho)
  roots slot v hv c hc := ⟨(hi.roots slot v hv c hc).1, .root (.inl ⟨slot, v, hv, hc⟩)⟩
  entries _ he := .root (.inr he)

theorem young_bounds (hi : Inv m young old S) {o n : Nat} (hb : (o, n) ∈ young) :
    m.own.nursery.region.first + 3 ≤ o ∧ o + n ≤ m.own.nursery.top + 3 ∧ 3 < n :=
  hi.young_stacked.bounds hb

theorem old_bounds (hi : Inv m young old S) {o n : Nat} (hb : (o, n) ∈ old) :
    m.own.tenured.region.first + 3 ≤ o ∧ o + n ≤ m.own.tenured.top + 3 ∧ 3 < n :=
  hi.old_stacked.bounds hb

/-- A nursery object is one by its address. -/
theorem contains_young (hi : Inv m young old S) {o n : Nat} (hb : (o, n) ∈ young) :
    m.own.nursery.region.contains o = true := by
  have hbd := hi.young_bounds hb
  have ht := hi.spaces.nursery_top
  rw [Region.contains_iff]
  omega

theorem contains_old (hi : Inv m young old S) {o n : Nat} (hb : (o, n) ∈ old) :
    m.own.tenured.region.contains o = true := by
  have hbd := hi.old_bounds hb
  have ht := hi.spaces.tenured_top
  rw [Region.contains_iff]
  omega

/-- A machine with the same spaces and the same sizes in them lists the objects of the two
spaces. -/
theorem objects_of {m' : Machine Generational} (hi : Inv m young old S)
    (hn : m'.own.nursery = m.own.nursery) (ht : m'.own.tenured = m.own.tenured)
    (hsize : m'.heap.size = m.heap.size)
    (hw : ∀ b, b ∈ young ∨ b ∈ old → m'.heap.word (b.1 - 2) = m.heap.word (b.1 - 2)) :
    Generational.objects m'.own m'.heap = .ok (young ++ old) := by
  have hsp := hi.spaces
  have h1 := hsp.nursery_top
  have h2 := hsp.below
  have h3 := hsp.tenured_top
  have h4 := hsp.tenured
  have h5 := hi.old_stacked.le
  have hys : Sized 2 m'.heap young := fun b hb => by rw [hw b (.inl hb)]; exact hi.young_sized b hb
  have hos : Sized 2 m'.heap old := fun b hb => by rw [hw b (.inr hb)]; exact hi.old_sized b hb
  have hyoung : blocksOf headerWords sizeOffset m'.own.nursery m'.heap = .ok young := by
    rw [hn]
    exact blocksOf_run hi.young_stacked hys (by decide) (by decide) (by omega)
  have hold : blocksOf headerWords sizeOffset m'.own.tenured m'.heap = .ok old := by
    rw [ht]
    exact blocksOf_run hi.old_stacked hos (by decide) (by decide) (by omega)
  rw [Generational.objects, read_bind hyoung, read_bind hold]
  rfl

/-- The objects that are listed are those of the two spaces. -/
theorem objects (hi : Inv m young old S) : Generational.objects m.own m.heap = .ok (young ++ old) :=
  hi.objects_of rfl rfl rfl fun _ _ => rfl

end Inv

end Filled

end Reclaim.Generational
