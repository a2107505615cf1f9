import Reclaim.Proofs.Compaction

/-!
# Stores into objects

What a store does to a set of objects that do not overlap: one field of a pair gets another value
(`Stored`), or the words of one object are written anew (`Rewritten`). Both keep the others as they
are, and the set stays closed if the new words refer to nothing outside it.
-/

namespace Reclaim

/-- The objects of `S` keep their words. -/
def Same (S : Nat → Prop) (h h' : Arena) : Prop := ∀ o i, S o → i < h.payload o →
    h'.word (o + i) = h.word (o + i)

/-- The objects of `S` keep their words, but for the one at `field`, which becomes `w`. -/
def Stored (S : Nat → Prop) (field : Nat) (w : Word) (h h' : Arena) : Prop :=
  ∀ o i, S o → i < h.payload o → h'.word (o + i) = if o + i = field then w else h.word (o + i)

/-- The objects of `S` other than `o` keep their words. -/
def Rewritten (S : Nat → Prop) (o : Nat) (h h' : Arena) : Prop :=
  ∀ x i, S x → x ≠ o → i < h.payload x → h'.word (x + i) = h.word (x + i)

variable {S T : Nat → Prop} {h h' h'' : Arena} {hd o field : Nat} {v : Value}

theorem Apart.weaken {hd' : Nat} (hap : Apart hd h S) (hle : hd' ≤ hd) : Apart hd' h S := by
  refine ⟨hap.closed, fun o ho => ?_, fun o o' ho ho' => ?_⟩
  · have hin := hap.inside o ho
    exact ⟨by omega, hin.2⟩
  · rcases hap.apart o o' ho ho' with h | h | h <;> omega

/-! ## Nothing changes -/

namespace Same

theorem refl (S : Nat → Prop) (h : Arena) : Same S h h := fun _ _ _ _ => rfl

theorem mono (hs : Same S h h') (hT : ∀ o, T o → S o) : Same T h h' :=
  fun o i ho => hs o i (hT o ho)

theorem head (hs : Same S h h') (hk : h.tag o ≠ none) (ho : S o) : h'.word o = h.word o :=
  hs o 0 ho (Arena.payload_pos hk)

theorem payload (hs : Same S h h') (hk : h.tag o ≠ none) (ho : S o) : h'.payload o = h.payload o :=
  Arena.payload_congr (hs.head hk ho)

theorem trans (hs : Same S h h') (hs' : Same S h' h'') (hk : ∀ o, S o → h.tag o ≠ none) :
    Same S h h'' := by
  intro o i ho hlt
  rw [hs' o i ho (by rw [hs.payload (hk o ho) ho]; exact hlt), hs o i ho hlt]

theorem succ (hs : Same S h h') (hk : h.tag o ≠ none) (ho : S o) : h'.succ o = h.succ o := by
  refine Arena.succ_congr (hs.head hk ho) fun ht => ?_
  have hp := Arena.payload_of_pair ht
  exact ⟨hs o 1 ho (by omega), hs o 2 ho (by omega)⟩

theorem closed (hs : Same S h h') (hS : Closed h S) : Closed h' S := by
  have htag : ∀ o, S o → h'.tag o = h.tag o :=
    fun o ho => Arena.tag_congr (hs.head (hS.known o ho) ho)
  refine ⟨fun o ho => ?_, fun o a ho ht ha => ?_⟩
  · rw [htag o ho]
    exact hS.known o ho
  · rw [htag o ho] at ht
    have hp := Arena.payload_of_pair ht
    have hval : h'.value a = h.value a := by
      refine Arena.value_congr ?_
      rcases ha with rfl | rfl
      · exact hs o 1 ho (by omega)
      · exact hs o 2 ho (by omega)
    rw [hval]
    exact hS.field o a ho ht ha

/-- Whatever is reached is reached by the same way. -/
theorem reach_iff {R : Nat → Prop} {o : Nat} (hs : Same (Reach h R) h h')
    (hk : ∀ o, Reach h R o → h.tag o ≠ none) :
    Reach h' R o ↔ Reach h R o := by
  constructor
  · intro ho
    induction ho with
    | root hr => exact .root hr
    | step _ hc ih => exact ih.step (by rwa [hs.succ (hk _ ih) ih] at hc)
  · intro ho
    induction ho with
    | root hr => exact .root hr
    | step ho hc ih => exact ih.step (by rwa [hs.succ (hk _ ho) ho])

end Same

/-! ## One field -/

/-- A field of a pair lies inside the object. -/
theorem field_offset (ht : h.tag o = some .pair) (hf : field = o + 1 ∨ field = o + 2) :
    ∃ i, i < h.payload o ∧ (i = 1 ∨ i = 2) ∧ field = o + i := by
  have hp := Arena.payload_of_pair ht
  rcases hf with rfl | rfl
  · exact ⟨1, by omega, .inl rfl, rfl⟩
  · exact ⟨2, by omega, .inr rfl, rfl⟩

/-- Putting a word into an object. -/
theorem stored_put {w : Word} (hs : field < h.size) : Stored S field w h (h.put field w) := by
  intro x i _ _
  split
  · rename_i he
    rw [he, Arena.word_put_self _ hs]
  · rename_i hne
    exact Arena.word_put_ne _ hne

/-- No field is the first word of an object. -/
theorem Apart.field_ne (hap : Apart hd h S) (ho : S o) (ht : h.tag o = some .pair)
    (hf : field = o + 1 ∨ field = o + 2) {x : Nat} (hx : S x) : x ≠ field := by
  have hp := Arena.payload_of_pair ht
  have hpx := Arena.payload_pos (hap.closed.known x hx)
  rcases hap.apart x o hx ho with h | h | h <;> omega

/-- A field belongs to one object. -/
theorem Apart.field_unique (hap : Apart hd h S) (ho : S o) (ht : h.tag o = some .pair)
    (hf : field = o + 1 ∨ field = o + 2) {x i : Nat} (hx : S x) (hi : i < h.payload x)
    (he : x + i = field) : x = o := by
  have hp := Arena.payload_of_pair ht
  rcases hap.apart x o hx ho with h | h | h
  · exact h
  · omega
  · omega

namespace Stored

variable {w : Word}

theorem head (hs : Stored S field w h h') (hap : Apart hd h S) (ho : S o)
    (ht : h.tag o = some .pair) (hf : field = o + 1 ∨ field = o + 2) {x : Nat} (hx : S x) :
    h'.word x = h.word x := by
  have hw := hs x 0 hx (Arena.payload_pos (hap.closed.known x hx))
  rwa [if_neg (by simpa using hap.field_ne ho ht hf hx)] at hw

/-- The set stays closed when a value inside it is stored. -/
theorem closed (hs : Stored S field v.bits h h') (hap : Apart hd h S) (ho : S o)
    (ht : h.tag o = some .pair) (hf : field = o + 1 ∨ field = o + 2) (hv : v.Within S) :
    Closed h' S := by
  refine ⟨fun x hx => ?_, fun x a hx hxt ha => ?_⟩
  · rw [Arena.tag_congr (hs.head hap ho ht hf hx)]
    exact hap.closed.known x hx
  · rw [Arena.tag_congr (hs.head hap ho ht hf hx)] at hxt
    obtain ⟨i, hi, -, rfl⟩ := field_offset hxt ha
    have hw := hs x i hx hi
    by_cases he : x + i = field
    · rw [if_pos he] at hw
      have hval : h'.value (x + i) = v := by rw [Arena.value, hw]
      rw [hval]
      exact hv
    · rw [if_neg he] at hw
      rw [Arena.value_congr hw]
      exact hap.closed.field x _ hx hxt ha

end Stored

/-! ## One object -/

/-- Words outside an object are those of the others. -/
theorem rewritten_of_outside {n : Nat} (hout : ∀ a, a < o ∨ o + n ≤ a → h'.word a = h.word a)
    (hap : ∀ x, S x → x ≠ o → x + h.payload x ≤ o ∨ o + n ≤ x) : Rewritten S o h h' := by
  intro x i hx hne hi
  have hxo := hap x hx hne
  exact hout _ (by omega)

namespace Rewritten

theorem head (hr : Rewritten S o h h') (hS : Closed h S) {x : Nat} (hx : S x) (hne : x ≠ o) :
    h'.word x = h.word x :=
  hr x 0 hx hne (Arena.payload_pos (hS.known x hx))

/-- The set stays closed if the new words refer to nothing outside it. -/
theorem closed (hr : Rewritten S o h h') (hS : Closed h S) (ht : h'.tag o ≠ none)
    (hv : h'.tag o = some .pair → (h'.value (o + 1)).Within S ∧ (h'.value (o + 2)).Within S) :
    Closed h' S := by
  refine ⟨fun x hx => ?_, fun x a hx hxt ha => ?_⟩
  · by_cases hne : x = o
    · rw [hne]
      exact ht
    · rw [Arena.tag_congr (hr.head hS hx hne)]
      exact hS.known x hx
  · by_cases hne : x = o
    · subst hne
      obtain ⟨h1, h2⟩ := hv hxt
      rcases ha with rfl | rfl
      · exact h1
      · exact h2
    · rw [Arena.tag_congr (hr.head hS hx hne)] at hxt
      obtain ⟨i, hi, -, rfl⟩ := field_offset hxt ha
      rw [Arena.value_congr (hr x i hx hne hi)]
      exact hS.field x _ hx hxt ha

end Rewritten

/-- The object `o` has become a copy of `src`, which has `n` words. -/
structure CopiedInto (S : Nat → Prop) (h : Arena) (src o n : Nat) (h' : Arena) : Prop where
  inner : ∀ i, i < n → h'.word (o + i) = h.word (src + i)
  outer : ∀ a, a < o ∨ o + n ≤ a → h'.word a = h.word a
  rewritten : Rewritten S o h h'
  closed : Closed h' S
  payload : h'.payload o = n

theorem Apart.copy {src n : Nat} (hap : Apart hd h S) (hsrc : S src) (hpay : h.payload src = n)
    (hin : o + n ≤ h.size) (hnew : ∀ x, S x → x ≠ o → x + h.payload x ≤ o ∨ o + n ≤ x) :
    CopiedInto S h src o n (h.copy src o n) := by
  have hsin := hap.inside src hsrc
  have hpos := Arena.payload_pos (hap.closed.known src hsrc)
  have hword : ∀ a, (h.copy src o n).word a = if o ≤ a ∧ a < o + n then h.word (src + (a - o))
      else h.word a := fun a =>
    Arena.word_copy (by omega) hin
  have hcopy : ∀ i, i < n → (h.copy src o n).word (o + i) = h.word (src + i) := by
    intro i hlt
    rw [hword, if_pos (by omega), show o + i - o = i by omega]
  have hhead : (h.copy src o n).word o = h.word src := hcopy 0 (by omega)
  have hout : ∀ a, a < o ∨ o + n ≤ a → (h.copy src o n).word a = h.word a := fun a ha => by
    rw [hword, if_neg (by omega)]
  have hrw : Rewritten S o h (h.copy src o n) := rewritten_of_outside hout hnew
  refine ⟨hcopy, hout, hrw, hrw.closed hap.closed ?_ fun ht => ?_, by
    rw [Arena.payload_congr hhead, hpay]⟩
  · rw [Arena.tag_congr hhead]
    exact hap.closed.known src hsrc
  · rw [Arena.tag_congr hhead] at ht
    have hp3 := Arena.payload_of_pair ht
    rw [Arena.value_congr (hcopy 1 (by omega)), Arena.value_congr (hcopy 2 (by omega))]
    exact ⟨hap.closed.field src _ hsrc ht (.inl rfl), hap.closed.field src _ hsrc ht (.inr rfl)⟩

/-- A zero word is that of a character. -/
theorem Arena.tag_of_zero (hz : h.word o = 0) : h.tag o = some .char := by
  rw [tag, hz]
  rfl

theorem Arena.payload_of_zero (hz : h.word o = 0) : h.payload o = 1 := by
  rw [payload, tag_of_zero hz]
  rfl

/-- The fields of a pair that refers to nothing. -/
theorem Arena.fields_of_succ_nil (hs : h.succ o = []) (ht : h.tag o = some .pair) :
    (h.value (o + 1)).isRef = false ∧ (h.value (o + 2)).isRef = false := by
  have hnot : ∀ a, a = o + 1 ∨ a = o + 2 → (h.value a).isRef = false := by
    intro a ha
    refine Bool.eq_false_iff.mpr fun hr => ?_
    obtain ⟨c, hc⟩ := Value.exists_ref? hr
    have hmem : c ∈ h.succ o := Arena.mem_succ.mpr ⟨ht, by rcases ha with rfl | rfl <;> simp [hc]⟩
    rw [hs] at hmem
    cases hmem
  exact ⟨hnot _ (.inl rfl), hnot _ (.inr rfl)⟩

end Reclaim
