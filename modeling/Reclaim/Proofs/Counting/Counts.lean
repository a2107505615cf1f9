import Reclaim.Counting
import Reclaim.Proofs.TiledObjects

/-!
# Reference counts

A count is kept in a word of the header. `Counted off h L T` says that the counts of the objects `L`
are exact with respect to a list `T` of references: `off` words before each object stands how often
it occurs in `T`. Counting a reference adds it to the list, and the order of the list does not
matter, so that whatever is done to counts is said by the list alone. Words of headers other than
sizes may change without harm to blocks and objects (`Annotated`).

Results:
* `Annotated.same`, `Annotated.housed`, `Annotated.tiled`: writing into headers.
* `Counted.add`, `Counted.drop`: one reference more or less.
* `Counted.count_run`: the count that is read is the number of references.
* `heapRefs_perm`, `Roots.refs_set`, `Roots.refs_push`, `Roots.refs_pop`: the references in fields
  and in roots.
-/

namespace Reclaim

/-! ## Writing into headers -/

/-- Only words of headers change, and none that keeps a size. -/
structure Annotated (hd : Nat) (blocks : List (Nat × Nat)) (h h' : Arena) : Prop where
  size_eq : h'.size = h.size
  word : ∀ x, (∀ b ∈ blocks, ∀ i, 1 ≤ i → i < hd → x ≠ b.1 - i) → h'.word x = h.word x

section Headers

variable {hd lo hi o i j x : Nat} {h h' h'' : Arena} {blocks : List (Nat × Nat)} {b c : Nat × Nat}
  {w : Word} {l : FreeList}
  {ts : List Tile}

/-- A word of a header belongs to one object and one place. -/
theorem Housed.header_inj (hh : Housed hd h blocks) (hb : b ∈ blocks) (hc : c ∈ blocks) (h1 : 1 ≤ i)
    (h2 : i ≤ hd) (h3 : 1 ≤ j) (h4 : j ≤ hd) (he : b.1 - i = c.1 - j) : b = c ∧ i = j := by
  have hbi := hh.inside b hb
  have hci := hh.inside c hc
  have hbr := hh.room hb
  have hcr := hh.room hc
  rcases hh.apart b hb c hc with rfl | hap | hap
  · exact ⟨rfl, by omega⟩
  · omega
  · omega

/-- No word of an object is one of a header. -/
theorem Housed.object_ne_header (hh : Housed hd h blocks) (hb : b ∈ blocks) (hc : c ∈ blocks)
    (h1 : b.1 ≤ x) (h2 : x + hd < b.1 + b.2) (h3 : 1 ≤ i) (h4 : i ≤ hd) : x ≠ c.1 - i := by
  have hci := hh.inside c hc
  rcases hh.apart b hb c hc with rfl | hap | hap <;> omega

namespace Annotated

theorem refl (hd : Nat) (blocks : List (Nat × Nat)) (h : Arena) : Annotated hd blocks h h :=
  ⟨rfl, fun _ _ => rfl⟩

theorem trans (ha : Annotated hd blocks h h') (ha' : Annotated hd blocks h' h'') :
    Annotated hd blocks h h'' :=
  ⟨ha'.size_eq.trans ha.size_eq, fun x hx => (ha'.word x hx).trans (ha.word x hx)⟩

theorem put (hb : b ∈ blocks) (h1 : 1 ≤ i) (h2 : i < hd) :
    Annotated hd blocks h (h.put (b.1 - i) w) :=
  ⟨by simp, fun x hx => Arena.word_put_ne _ (hx b hb i h1 h2)⟩

theorem object_word (ha : Annotated hd blocks h h') (hh : Housed hd h blocks) (hb : b ∈ blocks)
    (h1 : b.1 ≤ x) (h2 : x + hd < b.1 + b.2) :
    h'.word x = h.word x :=
  ha.word x fun _ hc _ h3 h4 => hh.object_ne_header hb hc h1 h2 h3 (Nat.le_of_lt h4)

theorem size_word (ha : Annotated hd blocks h h') (hh : Housed hd h blocks) (hpos : 1 ≤ hd)
    (hb : b ∈ blocks) :
    h'.word (b.1 - hd) = h.word (b.1 - hd) := by
  refine ha.word _ fun c hc i h1 h2 he => ?_
  have hij := (hh.header_inj hb hc hpos (Nat.le_refl _) h1 (Nat.le_of_lt h2) he).2
  omega

theorem same (ha : Annotated hd blocks h h') (hh : Housed hd h blocks) :
    Same (Held blocks) h h' := by
  rintro o i ⟨n, hb⟩ hi
  have hfit := hh.fit hb
  exact ha.object_word hh hb (by simp) (by simp only; omega)

theorem housed (ha : Annotated hd blocks h h') (hh : Housed hd h blocks) : Housed hd h' blocks := by
  have hs := ha.same hh
  refine ⟨by rw [ha.size_eq]; exact hh.small, by
    rw [ha.size_eq]; exact hh.inside, hh.apart, fun b hb => ?_, hs.closed hh.closed⟩
  rw [hs.payload (hh.closed.known b.1 ⟨b.2, hb⟩) ⟨b.2, hb⟩]
  exact hh.fits b hb

theorem tiled (ha : Annotated hd (objectsIn hd ts) h h') (hh : Housed hd h (objectsIn hd ts))
    (hpos : 1 ≤ hd) (ht : Tiled l h lo hi ts) :
    Tiled l h' lo hi ts := by
  refine ht.congr ha.size_eq (fun t hm hf x hx => ha.word x fun b hb i h1 h2 => ?_)
    fun t hm hf => ?_
  · have hroom := hh.room hb
    obtain ⟨a, n, hm', rfl⟩ := mem_objectsIn.mp hb
    obtain ⟨h3, h4⟩ := hx
    rcases ht.apart hm hm' with rfl | hap | hap
    · cases hf
    · simp only at hap ⊢
      omega
    · simp only at hap hroom ⊢
      omega
  · obtain ⟨a, n, free⟩ := t
    cases hf
    have hb : (a + hd, n) ∈ objectsIn hd ts := mem_objectsIn.mpr ⟨a, n, hm, rfl⟩
    simpa using ha.size_word hh hpos hb

end Annotated

end Headers

/-! ## Counts -/

/-- The counts of the objects `L`, which stand `off` words before them, are those of the references
`T`. -/
def Counted (off : Nat) (h : Arena) (L : Nat → Prop) (T : List Nat) : Prop :=
  ∀ o, L o → h.word (o - off) = UInt64.ofNat (T.count o)

/-- So many references can be counted. -/
def countLimit : Nat := 0x4000000000000000

theorem toInt_ofNat_of_lt {n : Nat} (hn : n < 0x8000000000000000) :
    (UInt64.ofNat n).toInt64.toInt = n := by
  rw [UInt64.toInt64_ofNat']
  exact Int64.toInt_ofNat_of_lt hn

theorem ofInt_natCast (n : Nat) : UInt64.ofInt (n : Int) = UInt64.ofNat n := by
  rw [← UInt64.toNat_inj, UInt64.ofInt, UInt64.toNat_ofNat', UInt64.toNat_ofNat']
  omega

namespace Counted

variable {off o c : Nat} {h h' : Arena} {L L' : Nat → Prop} {T T' : List Nat} {mode : CountMode}

theorem perm (hc : Counted off h L T) (hp : T.Perm T') : Counted off h L T' := fun o ho => by
  rw [hc o ho, hp.count_eq]

theorem mono (hc : Counted off h L T) (hL : ∀ o, L' o → L o) : Counted off h L' T :=
  fun o ho => hc o (hL o ho)

theorem congr (hc : Counted off h L T) (hw : ∀ o, L o → h'.word (o - off) = h.word (o - off)) :
    Counted off h' L T := fun o ho =>
  (hw o ho).trans (hc o ho)

/-- The count that is read is the number of references. -/
theorem count_run (hc : Counted (Counting.countOffset mode) h L T) (ho : L o)
    (hoff : Counting.countOffset mode ≤ o) (hs : o - Counting.countOffset mode < h.size)
    (hT : T.length ≤ countLimit) : Counting.count mode o h = .ok (T.count o : Int) := by
  have hle : T.count o ≤ countLimit := Nat.le_trans List.count_le_length hT
  unfold countLimit at hle
  rw [Counting.count, read_bind (loadHeader_run hoff hs), hc o ho, toInt_ofNat_of_lt (by omega)]
  rfl

end Counted

theorem CountMode.offset_pos (mode : CountMode) : 1 ≤ Counting.countOffset mode := by
  cases mode <;> decide

theorem CountMode.offset_lt (mode : CountMode) : Counting.countOffset mode < mode.headerWords := by
  cases mode <;> decide

theorem CountMode.header_pos (mode : CountMode) : 1 ≤ mode.headerWords := by cases mode <;> decide

section Words

variable {mode : CountMode} {h : Arena} {blocks : List (Nat × Nat)} {o c : Nat}

/-- The words of the header of a listed object. -/
theorem Housed.header {hd : Nat} (hh : Housed hd h blocks) (ho : Held blocks o) : hd ≤ o ∧ ∀ i,
    1 ≤ i → i ≤ hd → o - i < h.size := by
  obtain ⟨n, hm⟩ := ho
  have hin := hh.inside _ hm
  have hroom := hh.room hm
  simp only at hin hroom
  exact ⟨hin.1, fun i h1 h2 => by omega⟩

/-- Counts and marks of the table stand in different words. -/
theorem Housed.count_ne_flag (hh : Housed mode.headerWords h blocks) (hmode : mode = .deferred)
    (ho : Held blocks o) (hc : Held blocks c) :
    o - Counting.countOffset mode ≠ c - Counting.queuedOffset := by
  obtain ⟨n, hm⟩ := ho
  obtain ⟨k, hm'⟩ := hc
  intro he
  have hij := (hh.header_inj (b := (o, n)) (c := (c, k)) hm hm' mode.offset_pos
    (Nat.le_of_lt mode.offset_lt)
    (show 1 ≤ Counting.queuedOffset by decide) (by rw [hmode]; decide) he).2
  rw [hmode] at hij
  exact absurd hij (by decide)

theorem Housed.flag_inj (hh : Housed mode.headerWords h blocks) (ho : Held blocks o)
    (hc : Held blocks c) (he : o - Counting.queuedOffset = c - Counting.queuedOffset) : o = c := by
  have h1 := (hh.header ho).1
  have h2 := (hh.header hc).1
  have h3 := mode.header_pos
  unfold Counting.queuedOffset at he
  omega

end Words

section Adjust

variable {mode : CountMode} {h : Arena} {blocks : List (Nat × Nat)} {T : List Nat} {c k : Nat}

/-- The arena with the count `k` at `c`. -/
def Arena.withCount (h : Arena) (mode : CountMode) (c k : Nat) : Arena :=
  h.put (c - Counting.countOffset mode) (UInt64.ofNat k)

theorem Housed.annotated_count (ho : Held blocks c) :
    Annotated mode.headerWords blocks h (h.withCount mode c k) := by
  obtain ⟨n, hb⟩ := ho
  exact .put hb mode.offset_pos mode.offset_lt

/-- Counts of one object do not touch those of others. -/
theorem Housed.withCount_word (hh : Housed mode.headerWords h blocks) (ho : Held blocks c) {o : Nat}
    (hoo : Held blocks o) :
    (h.withCount mode c k).word (o - Counting.countOffset mode)
      = if o = c then UInt64.ofNat k else h.word (o - Counting.countOffset mode) := by
  obtain ⟨n, hb⟩ := ho
  obtain ⟨n', hb'⟩ := hoo
  have hin := hh.inside _ hb
  have hroom := hh.room hb
  have hpos := mode.offset_pos
  have hlt := mode.offset_lt
  simp only at hin hroom
  split
  · rename_i he
    subst he
    exact Arena.word_put_self _ (by omega)
  · rename_i hne
    refine Arena.word_put_ne _ fun he => hne ?_
    exact congrArg Prod.fst (hh.header_inj hb' hb hpos (Nat.le_of_lt hlt) hpos
      (Nat.le_of_lt hlt) he).1

theorem Counted.adjust_run (hc : Counted (Counting.countOffset mode) h (Held blocks) T)
    (hh : Housed mode.headerWords h blocks) (ho : Held blocks c) (hT : T.length ≤ countLimit)
    {n : Int} (hk : (T.count c : Int) + n = k) :
    Counting.adjust mode c n h = .ok (k : Int) (h.withCount mode c k) := by
  obtain ⟨size, hb⟩ := id ho
  have hin := hh.inside _ hb
  have hroom := hh.room hb
  have hpos := mode.offset_pos
  have hlt := mode.offset_lt
  simp only at hin hroom
  rw [Counting.adjust, bind_ok (read_heap (hc.count_run ho (by omega) (by omega) hT)), hk]
  rw [Counting.setCount, bind_ok (storeHeader_run (by omega) (by omega)), ofInt_natCast]
  rfl

/-- One reference more. -/
theorem Counted.add (hc : Counted (Counting.countOffset mode) h (Held blocks) T)
    (hh : Housed mode.headerWords h blocks) (ho : Held blocks c) :
    Counted (Counting.countOffset mode) (h.withCount mode c (T.count c + 1))
    (Held blocks) (c :: T) := by
  intro o hoo
  rw [hh.withCount_word ho hoo, List.count_cons]
  by_cases he : o = c
  · subst he
    simp
  · rw [if_neg he, hc o hoo]
    simp [Ne.symm he]

/-- One reference less. -/
theorem Counted.drop (hc : Counted (Counting.countOffset mode) h (Held blocks) (c :: T))
    (hh : Housed mode.headerWords h blocks) (ho : Held blocks c) :
    Counted (Counting.countOffset mode) (h.withCount mode c (T.count c)) (Held blocks) T := by
  intro o hoo
  rw [hh.withCount_word ho hoo]
  by_cases he : o = c
  · subst he
    simp
  · rw [if_neg he, hc o hoo, List.count_cons]
    simp [Ne.symm he]

end Adjust

/-! ## All references -/

/-- The references in the fields of the objects. -/
def heapRefs (h : Arena) (blocks : List (Nat × Nat)) : List Nat :=
  blocks.flatMap fun b => h.succ b.1

section HeapRefs

variable {hd o c : Nat} {h h' : Arena} {blocks : List (Nat × Nat)}

theorem mem_heapRefs : c ∈ heapRefs h blocks ↔ ∃ b ∈ blocks, c ∈ h.succ b.1 := List.mem_flatMap

@[simp] theorem heapRefs_cons {b : Nat × Nat} :
    heapRefs h (b :: blocks) = h.succ b.1 ++ heapRefs h blocks := List.flatMap_cons

/-- The references of one object stand apart from those of the others. -/
theorem heapRefs_perm {b : Nat × Nat} (hb : b ∈ blocks) :
    (heapRefs h blocks).Perm (h.succ b.1 ++ heapRefs h (blocks.erase b)) := by
  rw [← heapRefs_cons]
  exact (List.perm_cons_erase hb).flatMap_right _

theorem heapRefs_congr (hw : ∀ b ∈ blocks, h'.succ b.1 = h.succ b.1) :
    heapRefs h' blocks = heapRefs h blocks :=
  List.flatMap_congr hw

theorem Same.heapRefs (hs : Same (Held blocks) h h') (hk : Closed h (Held blocks)) :
    heapRefs h' blocks = heapRefs h blocks :=
  heapRefs_congr fun b hb => hs.succ (hk.known _ ⟨b.2, hb⟩) ⟨b.2, hb⟩

theorem heapRefs_held (hcl : Closed h (Held blocks)) (hc : c ∈ heapRefs h blocks) :
    Held blocks c := by
  obtain ⟨b, hb, hcb⟩ := mem_heapRefs.mp hc
  exact hcl.succ ⟨b.2, hb⟩ hcb

theorem length_heapRefs_le : (heapRefs h blocks).length ≤ 2 * blocks.length := by
  induction blocks with
  | nil => simp [heapRefs]
  | cons b bs ih =>
    have hle := h.length_succ_le b.1
    simp only [heapRefs_cons, List.length_append, List.length_cons]
    omega

end HeapRefs

/-! ## References from roots -/

/-- What the slots refer to. -/
def Roots.refs (r : Roots) (slots : List RootSlot) : List Nat :=
  slots.filterMap fun s => (r.get? s).bind Value.ref?

/-- All slots but the parked ones. -/
def Roots.unparked (r : Roots) : List RootSlot :=
  (List.range (r.depth - r.parked)).map .stack ++ (List.range r.tableSize).map .global

namespace Roots

variable {r r' : Roots} {slots : List RootSlot} {slot : RootSlot} {v old : Value} {o : Nat}

theorem mem_refs : o ∈ r.refs slots ↔ ∃ s ∈ slots, ∃ v, r.get? s = some v ∧ v.ref? = some o := by
  simp only [refs, List.mem_filterMap, Option.bind_eq_some_iff]

theorem refers_of_mem (ho : o ∈ r.refs slots) : r.Refers o := by
  obtain ⟨s, -, v, hv, hr⟩ := mem_refs.mp ho
  exact ⟨s, v, hv, hr⟩

theorem mem_references_of_refers (ho : r.Refers o) : o ∈ r.refs r.references := by
  obtain ⟨s, v, hv, hr⟩ := ho
  exact mem_refs.mpr ⟨s, mem_references.mpr ⟨v, hv, Value.isRef_of_ref? hr⟩, v, hv, hr⟩

theorem mem_unparked_of_refers (hp : r.parked = 0) (ho : r.Refers o) : o ∈ r.refs r.unparked := by
  obtain ⟨s, v, hv, hr⟩ := ho
  refine mem_refs.mpr ⟨s, ?_, v, hv, hr⟩
  cases s with
  | stack i | global i =>
    obtain ⟨hi, -⟩ := Array.getElem?_eq_some_iff.mp hv
    simp [unparked, depth, tableSize, hp, hi]

theorem nodup_unparked : r.unparked.Nodup := by
  unfold unparked
  refine List.nodup_append.mpr ⟨?_, ?_, ?_⟩
  · refine List.Pairwise.map _ (fun a b hab he => hab ?_) List.nodup_range
    cases he
    rfl
  · refine List.Pairwise.map _ (fun a b hab he => hab ?_) List.nodup_range
    cases he
    rfl
  · intro a ha b hb hab
    subst hab
    obtain ⟨i, -, rfl⟩ := List.mem_map.mp ha
    obtain ⟨j, -, hj⟩ := List.mem_map.mp hb
    cases hj

theorem length_refs_unparked : (r.refs r.unparked).length ≤ r.depth + r.tableSize := by
  refine Nat.le_trans (List.length_filterMap_le _ _) ?_
  simp only [unparked, List.length_append, List.length_map, List.length_range]
  omega

theorem length_references : r.references.length ≤ r.depth + r.tableSize := by
  rw [references_eq]
  refine Nat.le_trans (List.length_filter_le _ _) ?_
  simp [slots]

theorem length_refs_references : (r.refs r.references).length ≤ r.depth + r.tableSize :=
  Nat.le_trans (List.length_filterMap_le _ _) length_references

theorem refs_congr (h : ∀ s ∈ slots, r'.get? s = r.get? s) : r'.refs slots = r.refs slots :=
  List.filterMap_congr fun s hs => by rw [h s hs]

@[simp] theorem refs_nil : r.refs [] = [] := rfl

theorem refs_cons : r.refs (slot :: slots) = ((r.get? slot).bind Value.ref?).toList ++
    r.refs slots := by
  cases h : (r.get? slot).bind Value.ref? <;> simp [refs, h]

@[simp] theorem refs_append {slots' : List RootSlot} :
    r.refs (slots ++ slots') = r.refs slots ++ r.refs slots' := List.filterMap_append

/-- One slot among others gets another value. -/
theorem refs_set (hn : slots.Nodup) (hs : slot ∈ slots) (hold : r.get? slot = some old) :
    ∃ R, (r.refs slots).Perm (old.ref?.toList ++ R) ∧ ((r.set slot v).refs slots).Perm
    (v.ref?.toList ++ R) := by
  have hrest : (r.set slot v).refs (slots.erase slot) = r.refs (slots.erase slot) := by
    refine refs_congr fun s hm => get?_set_of_ne fun he => ?_
    rw [he] at hm
    exact (hn.mem_erase_iff.mp hm).1 rfl
  have hperm : ∀ r : Roots, (r.refs slots).Perm (r.refs (slot :: slots.erase slot)) := fun r =>
    (List.perm_cons_erase hs).filterMap _
  refine ⟨r.refs (slots.erase slot), ?_, ?_⟩
  · refine (hperm r).trans ?_
    rw [refs_cons, hold]
    exact .refl _
  · refine (hperm _).trans ?_
    rw [refs_cons, get?_set_self hold, hrest]
    exact .refl _

theorem mem_unparked (hp : r.parked = 0) (hold : r.get? slot = some old) : slot ∈ r.unparked := by
  cases slot with
  | stack i | global i =>
    obtain ⟨hi, -⟩ := Array.getElem?_eq_some_iff.mp hold
    simp [unparked, depth, tableSize, hp, hi]

@[simp] theorem unparked_set : (r.set slot v).unparked = r.unparked := by
  cases slot <;> simp [unparked, depth, tableSize, set]

/-- One more value on the stack. -/
theorem refs_push (hp : r.parked = 0) :
    (refs { r with stack := r.stack.push v } (unparked { r with stack := r.stack.push v })).Perm
    (v.ref?.toList ++ r.refs r.unparked) := by
  have hold : ∀ s ∈ r.unparked, get? { r with stack := r.stack.push v } s = r.get? s := by
    intro s hs
    cases s with
    | global i => rfl
    | stack i =>
      have hi : i < r.stack.size := by simpa [unparked, depth, hp] using hs
      rw [get?, Array.getElem?_push, if_neg (by omega)]
      rfl
  have hslots : (unparked { r with
      stack := r.stack.push v }).Perm (.stack r.stack.size :: r.unparked) := by
    simp only [unparked, depth, tableSize, hp, Array.size_push, Nat.sub_zero, List.range_succ,
      List.map_append, List.map_cons, List.map_nil,
      List.append_assoc]
    exact List.perm_middle
  refine (hslots.filterMap _).trans ?_
  change (refs _ (.stack r.stack.size :: r.unparked)).Perm _
  rw [refs_cons, refs_congr hold]
  simp [get?]

/-- One value less on the stack. -/
theorem refs_pop (hp : r.parked = 0) (hv : r.stack.back? = some v) :
    (r.refs r.unparked).Perm (v.ref?.toList ++ refs { r with
      stack := r.stack.pop } (unparked { r with stack := r.stack.pop })) := by
  have hpush : { r with stack := (r.stack.pop).push v } = r := by
    cases r with
    | mk stack capacity parked globals =>
      simp only [Roots.mk.injEq, and_true]
      obtain ⟨ys, rfl⟩ := Array.back?_eq_some_iff.mp hv
      simp
  have h := refs_push (r := { r with stack := r.stack.pop }) (v := v) hp
  simp only [hpush] at h
  exact h

/-- Parked values are not counted. -/
theorem refs_park (hle : r.parked ≤ r.stack.size) :
    refs { r with stack := r.stack.push v, parked := r.parked + 1 } (unparked { r with
      stack := r.stack.push v, parked := r.parked + 1 })
      = r.refs r.unparked := by
  have hslots : unparked { r with
      stack := r.stack.push v, parked := r.parked + 1 } = r.unparked := by
    simp [unparked, depth, tableSize]
  rw [hslots]
  refine refs_congr fun s hs => ?_
  cases s with
  | global i => rfl
  | stack i =>
    have hi : i < r.stack.size - r.parked := by simpa [unparked, depth] using hs
    rw [get?, Array.getElem?_push, if_neg (by omega)]
    rfl

theorem refs_unpark (h1 : 1 ≤ r.parked) (hle : r.parked ≤ r.stack.size) :
    refs { r with stack := r.stack.pop, parked := r.parked - 1 } (unparked { r with
      stack := r.stack.pop, parked := r.parked - 1 })
      = r.refs r.unparked := by
  have hslots : unparked { r with stack := r.stack.pop, parked := r.parked - 1 } = r.unparked := by
    simp only [unparked, depth, tableSize, Array.size_pop]
    rw [show r.stack.size - 1 - (r.parked - 1) = r.stack.size - r.parked by omega]
  rw [hslots]
  refine refs_congr fun s hs => ?_
  cases s with
  | global i => rfl
  | stack i =>
    have hi : i < r.stack.size - r.parked := by simpa [unparked, depth] using hs
    rw [get?, Array.getElem?_pop, if_pos (by omega)]
    rfl

end Roots

end Reclaim
