import Reclaim.Proofs.Visiting

/-!
# Renaming objects

A collection gives objects new addresses. `Renamed ρ S h h'` says that the objects of `S` in `h` are
found again in `h'` at their new addresses: with the same words, but for the references in them,
which are renamed.

Results:
* `Renamed.mem_succ`: an object refers to the new addresses of what it referred to.
* `Renamed.reach`: what can be reached afterwards is what could be reached before, renamed.
-/

namespace Reclaim

/-- The reference to the new address of what `v` refers to; any other value stays the same. -/
def Value.rename (ρ : Nat → Nat) (v : Value) : Value :=
  match v.ref? with
  | none => v
  | some o => .ofRef (ρ o)

namespace Value

variable {ρ : Nat → Nat} {v : Value}

theorem rename_of_not_ref (hv : v.isRef = false) : v.rename ρ = v := by
  rw [rename, ref?_eq_none hv]

theorem rename_of_ref {o : Nat} (hv : v.ref? = some o) : v.rename ρ = .ofRef (ρ o) := by
  rw [rename, hv]

theorem Within.rename_self {S : Nat → Prop} (hv : v.Within S) (hρ : ∀ o, S o → ρ o = o) :
    v.rename ρ = v := by
  cases hr : v.ref? with
  | none => rw [rename, hr]
  | some o =>
    obtain ⟨he, ho⟩ := hv o hr
    rw [rename_of_ref hr, hρ o ho, ← he]

theorem Within.rename_congr {S : Nat → Prop} {τ : Nat → Nat} (hv : v.Within S)
    (hρ : ∀ o, S o → ρ o = τ o) :
    v.rename ρ = v.rename τ := by
  cases hr : v.ref? with
  | none => rw [rename, rename, hr]
  | some o => rw [rename_of_ref hr, rename_of_ref hr, hρ o (hv o hr).2]

/-- The addresses that references can hold. -/
def Named (S : Nat → Prop) : Prop := ∀ o, S o → o ≠ 0 ∧ o < 0x1000000000000000

theorem ref?_rename {S : Nat → Prop} (hv : v.Within S) (hn : Named fun o' => ∃ o, S o ∧ o' = ρ o) :
    (v.rename ρ).ref? = v.ref?.map ρ := by
  cases hr : v.ref? with
  | none => rw [rename, hr, hr]; rfl
  | some o =>
    obtain ⟨-, ho⟩ := hv o hr
    obtain ⟨h0, hlt⟩ := hn (ρ o) ⟨o, ho, rfl⟩
    rw [rename_of_ref hr, ref?_ofRef h0 (by omega)]
    rfl

theorem rename_rename {S : Nat → Prop} {τ : Nat → Nat} (hv : v.Within S)
    (hn : Named fun o' => ∃ o, S o ∧ o' = ρ o) :
    (v.rename ρ).rename τ = v.rename (τ ∘ ρ) := by
  cases hr : v.ref? with
  | none => rw [rename, rename, rename, hr, hr]
  | some o =>
    have hr' := ref?_rename hv hn
    rw [hr] at hr'
    rw [rename_of_ref hr', rename_of_ref hr]
    rfl

theorem isRef_rename {S : Nat → Prop} (hv : v.Within S) (hn : Named fun o' => ∃ o, S o ∧ o' = ρ o) :
    (v.rename ρ).isRef = v.isRef := by
  have hr := ref?_rename hv hn
  cases hv' : v.ref? with
  | none =>
    rw [hv'] at hr
    rw [isRef_eq_false hv', isRef_eq_false hr]
  | some o =>
    rw [hv'] at hr
    rw [isRef_of_ref? hv', isRef_of_ref? hr]

theorem rename_within {S : Nat → Prop} (hv : v.Within S)
    (hn : Named fun o' => ∃ o, S o ∧ o' = ρ o) :
    (v.rename ρ).Within fun o' => ∃ o, S o ∧ o' = ρ o := by
  intro c hc
  rw [ref?_rename hv hn] at hc
  obtain ⟨o, ho, rfl⟩ := Option.map_eq_some_iff.mp hc
  exact ⟨rename_of_ref ho, o, (hv o ho).2, rfl⟩

end Value

/-- The objects of `S` in `h` have the addresses `ρ` in `h'`. -/
structure Renamed (ρ : Nat → Nat) (S : Nat → Prop) (h h' : Arena) : Prop where
  injective : ∀ o o', S o → S o' → ρ o = ρ o' → o = o'
  word : ∀ o i, S o → i < h.payload o → ¬ (h.tag o = some .pair ∧ (i = 1 ∨ i = 2)) →
    h'.word (ρ o + i) = h.word (o + i)
  field : ∀ o i, S o → h.tag o = some .pair → i = 1 ∨ i = 2 →
    h'.value (ρ o + i) = (h.value (o + i)).rename ρ

namespace Renamed

variable {ρ τ : Nat → Nat} {S T : Nat → Prop} {h h' h'' : Arena}

theorem mono (hr : Renamed ρ S h h') (hT : ∀ o, T o → S o) : Renamed ρ T h h' :=
  ⟨fun o o' ho ho' => hr.injective o o' (hT o ho) (hT o' ho'), fun o i ho => hr.word o i (hT o ho),
    fun o i ho => hr.field o i (hT o ho)⟩

theorem head (hr : Renamed ρ S h h') (hS : Closed h S) {o : Nat} (ho : S o) :
    h'.word (ρ o) = h.word o :=
  hr.word o 0 ho (Arena.payload_pos (hS.known o ho)) (by omega)

theorem tag (hr : Renamed ρ S h h') (hS : Closed h S) {o : Nat} (ho : S o) :
    h'.tag (ρ o) = h.tag o :=
  Arena.tag_congr (hr.head hS ho)

theorem payload (hr : Renamed ρ S h h') (hS : Closed h S) {o : Nat} (ho : S o) :
    h'.payload (ρ o) = h.payload o :=
  Arena.payload_congr (hr.head hS ho)

/-- Renamed twice. -/
theorem trans {S' : Nat → Prop} (hr : Renamed ρ S h h') (hr' : Renamed τ S' h' h'')
    (hS : Closed h S) (hn : Value.Named fun o' => ∃ o, S o ∧ o' = ρ o) (hS' : ∀ o, S o → S' (ρ o)) :
    Renamed (τ ∘ ρ) S h h'' := by
  refine ⟨fun o o' ho ho' he => ?_, fun o i ho hlt hnf => ?_, fun o i ho ht hi => ?_⟩
  · exact hr.injective o o' ho ho' (hr'.injective _ _ (hS' o ho) (hS' o' ho') he)
  · rw [← hr.word o i ho hlt hnf]
    refine hr'.word (ρ o) i (hS' o ho) ?_ ?_
    · rw [hr.payload hS ho]
      exact hlt
    · rw [hr.tag hS ho]
      exact hnf
  · rw [Function.comp_apply, hr'.field (ρ o) i (hS' o ho) (by rw [hr.tag hS ho]; exact ht) hi,
      hr.field o i ho ht hi]
    exact Value.rename_rename (hS.field o _ ho ht (by omega)) hn

/-- The renamed objects refer to each other again, if they keep their tags. -/
theorem linked (hr : Renamed ρ S h h') (hS : Linked h S) (htag : ∀ o, S o → h'.tag (ρ o) = h.tag o)
    (hn : Value.Named fun o' => ∃ o, S o ∧ o' = ρ o) : Linked h' fun o' => ∃ o, S o ∧ o' = ρ o := by
  rintro o' a ⟨o, ho, rfl⟩ ht ha
  rw [htag o ho] at ht
  obtain ⟨i, hi, rfl⟩ : ∃ i, (i = 1 ∨ i = 2) ∧ a = ρ o + i := by
    rcases ha with rfl | rfl
    · exact ⟨1, .inl rfl, rfl⟩
    · exact ⟨2, .inr rfl, rfl⟩
  rw [hr.field o i ho ht hi]
  exact Value.rename_within (hS o _ ho ht (by omega)) hn

/-- The renamed objects are well-formed again. -/
theorem closed (hr : Renamed ρ S h h') (hS : Closed h S)
    (hn : Value.Named fun o' => ∃ o, S o ∧ o' = ρ o) :
    Closed h' fun o' => ∃ o, S o ∧ o' = ρ o where
  known := by
    rintro o' ⟨o, ho, rfl⟩
    rw [hr.tag hS ho]
    exact hS.known o ho
  field := hr.linked hS.linked (fun _ ho => hr.tag hS ho) hn

/-- An object refers to the new addresses of what it referred to. -/
theorem mem_succ (hr : Renamed ρ S h h') (hS : Closed h S)
    (hn : Value.Named fun o' => ∃ o, S o ∧ o' = ρ o) {o c' : Nat} (ho : S o) :
    c' ∈ h'.succ (ρ o) ↔ ∃ c ∈ h.succ o, c' = ρ c := by
  have hval : h.tag o = some .pair → ∀ i, i = 1 ∨ i = 2 →
      (h'.value (ρ o + i)).ref? = (h.value (o + i)).ref?.map ρ := by
    intro ht i hi
    rw [hr.field o i ho ht hi]
    exact Value.ref?_rename (hS.field o _ ho ht (by omega)) hn
  simp only [Arena.mem_succ, hr.tag hS ho]
  constructor
  · rintro ⟨ht, hc⟩
    rw [hval ht 1 (.inl rfl), hval ht 2 (.inr rfl)] at hc
    rcases hc with hc | hc <;> obtain ⟨c, hv, rfl⟩ := Option.map_eq_some_iff.mp hc
    · exact ⟨c, ⟨ht, .inl hv⟩, rfl⟩
    · exact ⟨c, ⟨ht, .inr hv⟩, rfl⟩
  · rintro ⟨c, ⟨ht, hc⟩, rfl⟩
    rw [hval ht 1 (.inl rfl), hval ht 2 (.inr rfl)]
    refine ⟨ht, ?_⟩
    rcases hc with hc | hc
    · exact .inl (by rw [hc]; rfl)
    · exact .inr (by rw [hc]; rfl)

/-- What is reachable afterwards was reachable before. -/
theorem reach (hr : Renamed ρ S h h') (hS : Closed h S)
    (hn : Value.Named fun o' => ∃ o, S o ∧ o' = ρ o) {R : Nat → Prop}
    (hR : ∀ o, R o → S o) {o' : Nat} :
    Reach h' (fun o' => ∃ o, R o ∧ o' = ρ o) o' ↔ ∃ o, Reach h R o ∧ o' = ρ o := by
  constructor
  · intro hreach
    induction hreach with
    | root hroot =>
      obtain ⟨o, ho, rfl⟩ := hroot
      exact ⟨o, .root ho, rfl⟩
    | step _ hc ih =>
      obtain ⟨o, ho, rfl⟩ := ih
      obtain ⟨c, hoc, rfl⟩ := (hr.mem_succ hS hn (ho.mem_of_closed hS hR)).mp hc
      exact ⟨c, ho.step hoc, rfl⟩
  · rintro ⟨o, ho, rfl⟩
    induction ho with
    | root hroot => exact .root ⟨_, hroot, rfl⟩
    | step ho hc ih => exact ih.step ((hr.mem_succ hS hn (ho.mem_of_closed hS hR)).mpr ⟨_, hc, rfl⟩)

end Renamed

end Reclaim
