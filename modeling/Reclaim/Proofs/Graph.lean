import Reclaim.Roots
import Reclaim.Proofs.Words

/-!
# Objects as a graph

The objects of an arena and the references between them, read off the words: the tag of an object,
the words it takes up, the fields that hold references, the objects those refer to. `Reach` follows
them from a set of roots; `Closed` says of a set of objects that they are well-formed and refer to
nothing outside the set.

Results:
* `tagOf_run`, `payloadWords_run`, `pointerFields_run`, `children_run`, `anyChild_run`: what the
  readers find in a well-formed object.
* `Reach.mem_of_closed`: a closed set that holds the roots holds whatever they reach.
-/

namespace Reclaim

/-! ## References -/

namespace Value

/-- If `v` refers to an object, it is the plain reference to one of `S`. -/
def Within (S : Nat → Prop) (v : Value) : Prop := ∀ c, v.ref? = some c → v = .ofRef c ∧ S c

theorem isRef_of_ref? {v : Value} {c : Nat} (hv : v.ref? = some c) : v.isRef = true := by
  unfold ref? at hv
  split at hv
  · assumption
  · cases hv

theorem ref?_eq_none {v : Value} (hv : v.isRef = false) : v.ref? = none := by simp [ref?, hv]

theorem exists_ref? {v : Value} (hv : v.isRef = true) : ∃ c, v.ref? = some c := ⟨_, if_pos hv⟩

theorem isRef_eq_false {v : Value} (hv : v.ref? = none) : v.isRef = false := by
  cases hr : v.isRef with
  | false => rfl
  | true =>
    obtain ⟨c, hc⟩ := exists_ref? hr
    rw [hc] at hv
    cases hv

theorem Within.of_not_ref {S : Nat → Prop} {v : Value} (hv : v.isRef = false) : v.Within S := by
  intro c hc
  rw [ref?_eq_none hv] at hc
  cases hc

theorem Within.mono {S T : Nat → Prop} {v : Value} (hv : v.Within S)
    (hS : ∀ c, S c → T c) : v.Within T :=
  fun c hc => ⟨(hv c hc).1, hS c (hv c hc).2⟩

theorem ofRef_within {S : Nat → Prop} {o : Nat} (h0 : o ≠ 0)
    (hlt : o < 0x2000000000000000) (ho : S o) :
    (ofRef o).Within S := by
  intro c hc
  rw [ref?_ofRef h0 hlt] at hc
  cases hc
  exact ⟨rfl, ho⟩

theorem not_isRef_zero : (⟨0⟩ : Value).isRef = false := rfl

end Value

/-! ## Objects -/

namespace Arena

variable (h : Arena) (o : Nat)

/-- The tag of the object at `o`, if it has one. -/
def tag : Option Tag := Tag.ofCode? (h.word o).toUInt8

/-- Words of the object at `o`; none if its tag is unknown. -/
def payload : Nat :=
  match h.tag o with
  | none => 0
  | some .char => charWords
  | some .string | some .symbol => textWords (h.word o >>> 8).toNat
  | some .pair => pairWords
  | some .lambda => lambdaWords

/-- Words of the object at `o` that may be read: the object word in any case. -/
def extent : Nat := max 1 (h.payload o)

/-- The value at address `a`. -/
def value (a : Nat) : Value := ⟨h.word a⟩

/-- The fields of the object at `o` that hold references. -/
def fields : List Nat :=
  if h.tag o = some .pair then [o + 1, o + 2].filter fun a => (h.value a).isRef else []

/-- The references in the object at `o`. -/
def referring : List Value := (h.fields o).map h.value

/-- The objects that the one at `o` refers to. -/
def succ : List Nat := (h.fields o).filterMap fun a => (h.value a).ref?

variable {h o} {a : Nat}

theorem mem_fields : a ∈ h.fields o ↔ h.tag o = some .pair ∧ (a = o + 1 ∨ a = o + 2) ∧
    (h.value a).isRef = true := by
  unfold fields
  split <;> simp_all

theorem fields_of_not_pair (ht : h.tag o ≠ some .pair) : h.fields o = [] := if_neg ht

theorem mem_succ {c : Nat} :
    c ∈ h.succ o ↔ h.tag o = some .pair ∧
    ((h.value (o + 1)).ref? = some c ∨ (h.value (o + 2)).ref? = some c) := by
  simp only [succ, List.mem_filterMap, mem_fields]
  constructor
  · rintro ⟨a, ⟨ht, rfl | rfl, -⟩, hc⟩
    · exact ⟨ht, .inl hc⟩
    · exact ⟨ht, .inr hc⟩
  · rintro ⟨ht, hc | hc⟩
    · exact ⟨_, ⟨ht, .inl rfl, Value.isRef_of_ref? hc⟩, hc⟩
    · exact ⟨_, ⟨ht, .inr rfl, Value.isRef_of_ref? hc⟩, hc⟩

theorem succ_eq :
    h.succ o = if h.tag o = some .pair then [o + 1, o + 2].filterMap fun a =>
    (h.value a).ref? else [] := by
  rw [succ, fields]
  split
  · by_cases h1 : (h.value (o + 1)).isRef = true <;> by_cases h2 :
      (h.value (o + 2)).isRef = true <;>
      simp [h1, h2, Value.ref?]
  · rfl

variable (h o) in
theorem length_succ_le : (h.succ o).length ≤ 2 := by
  rw [succ_eq]
  split
  · exact List.length_filterMap_le ..
  · exact Nat.zero_le _

variable (h o) in
/-- What tracing reads of the object at `o` is in the arena: a known tag, and the fields of a
pair. -/
structure Traceable : Prop where
  known : h.tag o ≠ none
  inside : o < h.size
  fields : h.tag o = some .pair → o + 2 < h.size

/-- What an object refers to depends on its own words alone. -/
theorem succ_congr {h' : Arena} (h0 : h'.word o = h.word o)
    (hf : h.tag o = some .pair → h'.word (o + 1) = h.word (o + 1) ∧
      h'.word (o + 2) = h.word (o + 2)) :
    h'.succ o = h.succ o := by
  have ht : h'.tag o = h.tag o := by rw [tag, tag, h0]
  rw [succ_eq, succ_eq, ht]
  split
  · rename_i hp
    obtain ⟨h1, h2⟩ := hf hp
    simp only [value, List.filterMap_cons, List.filterMap_nil, h1, h2]
  · rfl

theorem payload_of_pair (ht : h.tag o = some .pair) : h.payload o = 3 := by
  simp [payload, ht, pairWords]

theorem payload_of_text (ht : h.tag o = some .string ∨ h.tag o = some .symbol) :
    h.payload o = textWords (h.word o >>> 8).toNat := by
  rcases ht with ht | ht <;> rw [payload, ht]

theorem payload_pos (ht : h.tag o ≠ none) : 1 ≤ h.payload o := by
  unfold payload
  split <;> simp_all [charWords, textWords, pairWords, lambdaWords]

/-- An object that lies inside the arena with all its words can be traced. -/
theorem Traceable.of_payload (ht : h.tag o ≠ none) (hs : o + h.payload o ≤ h.size) :
    h.Traceable o := by
  have hp := payload_pos ht
  refine ⟨ht, by omega, fun hpair => ?_⟩
  rw [payload_of_pair hpair] at hs
  omega

theorem extent_eq (ht : h.tag o ≠ none) : h.extent o = h.payload o :=
  Nat.max_eq_right (payload_pos ht)

theorem extent_of_pair (ht : h.tag o = some .pair) : h.extent o = 3 := by
  rw [extent, payload_of_pair ht]; rfl

theorem extent_pos : 1 ≤ h.extent o := Nat.le_max_left _ _

theorem value_congr {h' : Arena} {b : Nat} (hw : h'.word b = h.word a) :
    h'.value b = h.value a := by
  rw [value, value, hw]

theorem value_put_self {v : Value} (ha : a < h.size) : (h.put a v.bits).value a = v := by
  rw [value, word_put_self _ ha]

/-- Tag and extent of an object depend on its first word alone. -/
theorem tag_congr {h' : Arena} {o' : Nat} (hw : h'.word o' = h.word o) : h'.tag o' = h.tag o := by
  rw [tag, tag, hw]

theorem payload_congr {h' : Arena} {o' : Nat} (hw : h'.word o' = h.word o) :
    h'.payload o' = h.payload o := by
  rw [payload, payload, tag_congr hw, hw]

end Arena

/-! ## Readers -/

section Readers

variable {h : Arena} {o : Nat} {t : Tag}

theorem tagOf_eq (hs : o < h.size) : tagOf o h = match h.tag o with
    | some tag => .ok tag
    | none => .error (.failed (.corruptObject o (h.word o).toUInt8)) := by
  rw [tagOf, rawTag, read_bind (read_bind (load_run hs)), Arena.tag]
  cases hc : Tag.ofCode? (h.word o).toUInt8 with
  | some t => rfl
  | none => rfl

theorem tagOf_run (hs : o < h.size) (ht : h.tag o = some t) : tagOf o h = .ok t := by
  rw [tagOf_eq hs, ht]

theorem tagOf_fails (hs : o < h.size) (ht : h.tag o = none) :
    tagOf o h = .error (.failed (.corruptObject o (h.word o).toUInt8)) := by
  rw [tagOf_eq hs, ht]

theorem payloadWords_run (hs : o < h.size) (ht : h.tag o ≠ none) :
    payloadWords o h = .ok (h.payload o) := by
  obtain ⟨t, ht⟩ := Option.ne_none_iff_exists'.mp ht
  rw [payloadWords, read_bind (tagOf_run hs ht), Arena.payload, ht]
  cases t with
  | char | pair | lambda => rfl
  | string | symbol => exact read_bind (read_bind (load_run hs))

theorem Arena.Traceable.pointerFields_run (hb : h.Traceable o) :
    pointerFields o h = .ok (h.fields o) := by
  obtain ⟨t, ht⟩ := Option.ne_none_iff_exists'.mp hb.known
  rw [pointerFields, read_bind (tagOf_run hb.inside ht), Arena.fields, ht]
  cases t with
  | pair =>
    have hf := hb.fields ht
    dsimp only
    rw [read_bind (loadValue_run (show o + carField < h.size by simp only [carField]; omega)),
      read_bind (loadValue_run (show o + cdrField < h.size by simp only [cdrField]; omega))]
    change Except.ok _ = Except.ok _
    congr 1
    by_cases h1 : (h.value (o + 1)).isRef = true <;> by_cases h2 :
      (h.value (o + 2)).isRef = true <;>
      simp_all [carField, cdrField, Arena.value]
  | char | string | symbol | lambda => rfl

/-- An object lies inside the arena with all its words. -/
theorem pointerFields_run (ht : h.tag o ≠ none) (hs : o + h.payload o ≤ h.size) :
    pointerFields o h = .ok (h.fields o) := (Arena.Traceable.of_payload ht hs).pointerFields_run

theorem mapM_loadValue_run (as : List Nat) (hs : ∀ a ∈ as, a < h.size) :
    as.mapM loadValue h = .ok (as.map h.value) := by
  induction as with
  | nil => rfl
  | cons a as ih =>
    rw [List.mapM_cons, read_bind (loadValue_run (hs a (by simp))),
      read_bind (ih fun b hb => hs b (by simp [hb]))]
    rfl

theorem Arena.Traceable.children_run (hb : h.Traceable o) : children o h = .ok (h.succ o) := by
  have hf : ∀ a ∈ h.fields o, a < h.size := by
    intro a ha
    obtain ⟨hp, ha, -⟩ := Arena.mem_fields.mp ha
    have hin := hb.fields hp
    omega
  rw [children, read_bind hb.pointerFields_run, read_bind (mapM_loadValue_run _ hf), Arena.succ,
    ← Function.comp_def, ← List.filterMap_map]
  rfl

theorem children_run (ht : h.tag o ≠ none) (hs : o + h.payload o ≤ h.size) :
    children o h = .ok (h.succ o) :=
  (Arena.Traceable.of_payload ht hs).children_run

theorem anyChild_run (p : Nat → Bool) (ht : h.tag o ≠ none) (hs : o + h.payload o ≤ h.size) :
    anyChild p o h = .ok ((h.succ o).any p) := read_bind (children_run ht hs)

end Readers

/-! ## Reachability -/

/-- The objects reachable from those of `R`. -/
inductive Reach (h : Arena) (R : Nat → Prop) : Nat → Prop where
  | root {o : Nat} : R o → Reach h R o
  | step {o c : Nat} : Reach h R o → c ∈ h.succ o → Reach h R c

/-- A slot of `r` refers to `o`. -/
def Roots.Refers (r : Roots) (o : Nat) : Prop := ∃ slot v, r.get? slot = some v ∧ v.ref? = some o

/-- Every reference in a slot of `r` is a plain one to an object of `S`. -/
def Roots.Within (r : Roots) (S : Nat → Prop) : Prop := ∀ slot v, r.get? slot = some v → v.Within S

/-- Roots with one operand and one global have two slots. -/
theorem Roots.get?_of_single {r : Roots} {v w : Value} (hs : r.stack = #[v]) (hg : r.globals = #[w])
    {slot : RootSlot} {x : Value} (hx : r.get? slot = some x) : slot = .stack 0 ∧ x = v ∨
    slot = .global 0 ∧ x = w := by
  cases slot with
  | stack i =>
    obtain ⟨hi, rfl⟩ := Array.getElem?_eq_some_iff.mp (hs ▸ hx : #[v][i]? = some x)
    obtain rfl : i = 0 := Nat.lt_one_iff.mp hi
    exact .inl ⟨rfl, rfl⟩
  | global i =>
    obtain ⟨hi, rfl⟩ := Array.getElem?_eq_some_iff.mp (hg ▸ hx : #[w][i]? = some x)
    obtain rfl : i = 0 := Nat.lt_one_iff.mp hi
    exact .inr ⟨rfl, rfl⟩

/-- What every slot holds. -/
theorem Roots.within_of_values {r : Roots} {S : Nat → Prop} (hs : ∀ v ∈ r.stack, v.Within S)
    (hg : ∀ v ∈ r.globals, v.Within S) : r.Within S := by
  rintro (i | i) v hv
  · exact hs v (Array.mem_of_getElem? hv)
  · exact hg v (Array.mem_of_getElem? hv)

theorem Roots.within_of_single {r : Roots} {v w : Value} (hs : r.stack = #[v])
    (hg : r.globals = #[w]) {S : Nat → Prop} (hv : v.Within S) (hw : w.Within S) : r.Within S := by
  intro slot x hx
  obtain ⟨-, rfl⟩ | ⟨-, rfl⟩ := r.get?_of_single hs hg hx
  · exact hv
  · exact hw

/-- The pairs of `S` refer to objects of `S` alone. -/
def Linked (h : Arena) (S : Nat → Prop) : Prop :=
  ∀ o a, S o → h.tag o = some .pair → a = o + 1 ∨ a = o + 2 → (h.value a).Within S

theorem Linked.succ {h : Arena} {S : Nat → Prop} (hS : Linked h S) {o c : Nat} (ho : S o)
    (hc : c ∈ h.succ o) : S c := by
  obtain ⟨ht, hc | hc⟩ := Arena.mem_succ.mp hc
  · exact (hS o _ ho ht (.inl rfl) c hc).2
  · exact (hS o _ ho ht (.inr rfl) c hc).2

/-- The objects of `S` are well-formed, and their fields refer to objects of `S` alone. -/
structure Closed (h : Arena) (S : Nat → Prop) : Prop where
  known : ∀ o, S o → h.tag o ≠ none
  field : ∀ o a, S o → h.tag o = some .pair → a = o + 1 ∨ a = o + 2 → (h.value a).Within S

theorem Closed.linked {h : Arena} {S : Nat → Prop} (hS : Closed h S) : Linked h S := hS.field

theorem Closed.succ {h : Arena} {S : Nat → Prop} (hS : Closed h S) {o c : Nat} (ho : S o)
    (hc : c ∈ h.succ o) : S c :=
  hS.linked.succ ho hc

theorem Roots.Within.refers {r : Roots} {S : Nat → Prop} (hr : r.Within S) {o : Nat}
    (ho : r.Refers o) : S o := by
  obtain ⟨slot, v, hv, hc⟩ := ho
  exact (hr slot v hv o hc).2

theorem Reach.mem_of_linked {h : Arena} {S R : Nat → Prop} (hS : Linked h S) (hR : ∀ o, R o → S o)
    {o : Nat} (ho : Reach h R o) : S o := by
  induction ho with
  | root hr => exact hR _ hr
  | step _ hc ih => exact hS.succ ih hc

/-- A closed set that holds the roots holds whatever they reach. -/
theorem Reach.mem_of_closed {h : Arena} {S R : Nat → Prop} (hS : Closed h S) (hR : ∀ o, R o → S o)
    {o : Nat} (ho : Reach h R o) : S o := ho.mem_of_linked hS.linked hR

theorem Reach.mono {h : Arena} {R T : Nat → Prop} (hRT : ∀ o, R o → T o) {o : Nat}
    (ho : Reach h R o) :
    Reach h T o := by
  induction ho with
  | root hr => exact .root (hRT _ hr)
  | step _ hc ih => exact .step ih hc

/-- The roots reach it, or one of the other objects does. -/
theorem Reach.of_or {h : Arena} {A B : Nat → Prop} {o : Nat} (ho : Reach h (fun x => A x ∨ B x) o) :
    Reach h A o ∨ ∃ e, B e ∧ Reach h (· = e) o := by
  induction ho with
  | root hr => exact hr.imp .root fun hb => ⟨_, hb, .root rfl⟩
  | step _ hc ih => exact ih.imp (·.step hc) fun ⟨e, he, hr⟩ => ⟨e, he, hr.step hc⟩

/-- What is reached from objects that are reached. -/
theorem Reach.trans {h : Arena} {R T : Nat → Prop} {o : Nat} (ho : Reach h T o)
    (hT : ∀ e, T e → Reach h R e) : Reach h R o := by
  induction ho with
  | root hr => exact hT _ hr
  | step _ hc ih => exact ih.step hc

theorem Linked.reach {h : Arena} {S R : Nat → Prop} (hS : Linked h S) (hR : ∀ o, R o → S o) :
    Linked h (Reach h R) := by
  intro o a ho ht ha c hc
  refine ⟨(hS o a (ho.mem_of_linked hS hR) ht ha c hc).1, ho.step (Arena.mem_succ.mpr ⟨ht, ?_⟩)⟩
  rcases ha with rfl | rfl
  · exact .inl hc
  · exact .inr hc

/-- What is reachable inside a closed set is closed itself. -/
theorem Closed.reach {h : Arena} {S R : Nat → Prop} (hS : Closed h S) (hR : ∀ o, R o → S o) :
    Closed h (Reach h R) :=
  ⟨fun o ho => hS.known o (ho.mem_of_closed hS hR), hS.linked.reach hR⟩

end Reclaim
