import Reclaim.Proofs.Mutator

/-!
# What is reported

Which failures a computation on the arena may report, from those of its parts (`ReadM.Reports`,
`HeapM.Reports`). These are classes, so that the report of a computation is found by following its
definition; what is left to say is how to split its cases.

Accesses to the arena report nothing, and a tag that no object has is reported as a corrupt object.
-/

namespace Reclaim

variable {α β : Type} {P : Failure → Prop}

/-! ## Readers -/

/-- Every failure that the reader reports satisfies `P`. -/
class ReadM.Reports (P : Failure → Prop) (x : ReadM α) : Prop where
  only : ∀ h f, x h = .error (.failed f) → P f

namespace ReadM.Reports

variable {x y : ReadM α} {k : α → ReadM β}

instance {a : α} : Reports P (pure a) := ⟨fun _ _ hx => nomatch hx⟩

instance : Reports P (throw .trap : ReadM α) := ⟨fun _ _ hx => nomatch hx⟩

instance : Reports P (throw .endless : ReadM α) := ⟨fun _ _ hx => nomatch hx⟩

theorem fail {f : Failure} (hf : P f) : Reports P (throw (.failed f) : ReadM α) := by
  refine ⟨fun _ _ hx => ?_⟩
  cases hx
  exact hf

theorem bind [hx : Reports P x] (hk : ∀ a, Reports P (k a)) : Reports P (x >>= k) := by
  refine ⟨fun h f hxk => ?_⟩
  have heq : (x >>= k) h = (x h >>= fun a => k a h) := rfl
  rw [heq] at hxk
  cases hr : x h with
  | ok a =>
    rw [hr] at hxk
    exact (hk a).only h f hxk
  | error e =>
    rw [hr] at hxk
    cases hxk
    exact hx.only h f hr

instance [Reports P x] [hk : ∀ a, Reports P (k a)] : Reports P (x >>= k) := bind hk

instance {g : α → β} [Reports P x] : Reports P (g <$> x) :=
  inferInstanceAs (Reports P (x >>= fun a => pure (g a)))

instance {c : Prop} [Decidable c] [Reports P x] [Reports P y] : Reports P (if c then x else y) := by
  split <;> infer_instance

instance : Reports P (read : ReadM Arena) := ⟨fun _ _ hx => nomatch hx⟩

instance filterM {g : α → ReadM Bool} {xs : List α} [∀ a, Reports P (g a)] :
    Reports P (xs.filterM g) := by
  have haux : ∀ acc, Reports P (List.filterAuxM g xs acc) := by
    induction xs with
    | nil => exact fun acc => inferInstanceAs (Reports P (pure acc))
    | cons a xs ih => exact fun acc => bind fun hit => ih _
  have hstart := haux []
  exact inferInstanceAs (Reports P (List.filterAuxM g xs [] >>= fun acc => pure acc.reverse))

/-- What is lifted nowhere. -/
instance [Reports P x] : Reports P (liftM x : ReadM α) := inferInstanceAs (Reports P x)

/-- One element after the other. -/
instance mapM {g : α → ReadM β} [∀ a, Reports P (g a)] {xs : List α} : Reports P (xs.mapM g) := by
  induction xs with
  | nil => rw [List.mapM_nil]; infer_instance
  | cons a xs ih => rw [List.mapM_cons]; infer_instance

instance {a : Nat} : Reports P (load a) := by
  refine ⟨fun h f hx => ?_⟩
  unfold load at hx
  split at hx <;> cases hx

variable {a n o offset : Nat} {v : Value}

instance : Reports P (back a n) := by unfold back; infer_instance
instance : Reports P (loadValue a) := by unfold loadValue; infer_instance
instance : Reports P (loadNat a) := by unfold loadNat; infer_instance
instance : Reports P (loadHeader o offset) := by unfold loadHeader; infer_instance
instance : Reports P (rawTag o) := by unfold rawTag; infer_instance
instance : Reports P (auxOf o) := by unfold auxOf; infer_instance

instance : Reports P (loadRun a n) := by
  induction n generalizing a <;> (unfold loadRun; infer_instance)

instance : Reports P (readText o) := by unfold readText; infer_instance

instance : Reports P (tag? v) := by
  unfold tag?
  split <;> infer_instance

instance : Reports P (pair? v) := by
  refine bind fun t => ?_
  split <;> infer_instance

instance {field : Nat} : Reports P (pairField? field v) := by
  refine bind fun o => ?_
  split <;> infer_instance

instance : Reports P (car? v) := by unfold car?; infer_instance
instance : Reports P (cdr? v) := by unfold cdr?; infer_instance

instance : Reports P (text? v) := by
  refine bind fun t => ?_
  split <;> infer_instance

instance {name : String} {link : Value} : Reports P (entryFrom? name n link) := by
  induction n generalizing link with
  | zero => unfold entryFrom?; infer_instance
  | succ n ih =>
    have hrest : Reports P (do match ← cdr? link with
        | some rest => entryFrom? name n rest
        | none => return none) := by
      refine bind fun rest => ?_
      split <;> infer_instance
    rw [entryFrom?]
    refine bind fun entry => ?_
    split
    · infer_instance
    · refine bind fun key => ?_
      dsimp only
      split <;> infer_instance

end ReadM.Reports

/-! ## Computations with a state -/

section Keeps

variable {σ κ : Type}

/-- Whatever comes of the computation, what `obs` sees of the state is the same as before, and every
failure that it reports satisfies `P`. -/
class Keeps (obs : σ → κ) (P : Failure → Prop) (x : EStateM Fault σ α) : Prop where
  ends : ∀ s, Ends x s (fun _ s' => obs s' = obs s) fun e s' =>
    obs s' = obs s ∧ ∀ f, e = .failed f → P f

namespace Keeps

variable {obs : σ → κ} {x y : EStateM Fault σ α} {k : α → EStateM Fault σ β}

instance {a : α} : Keeps obs P (pure a : EStateM Fault σ α) := ⟨fun _ => .pure rfl⟩

instance : Keeps obs P (throw .trap : EStateM Fault σ α) := ⟨fun _ => .of_error rfl ⟨rfl, by simp⟩⟩

instance : Keeps obs P (throw .endless : EStateM Fault σ α) :=
  ⟨fun _ => .of_error rfl ⟨rfl, by simp⟩⟩

theorem fail {f : Failure} (hf : P f) : Keeps obs P (throw (.failed f) : EStateM Fault σ α) := by
  refine ⟨fun _ => .of_error rfl ⟨rfl, ?_⟩⟩
  rintro _ ⟨⟩
  exact hf

theorem bind [hx : Keeps obs P x] (hk : ∀ a, Keeps obs P (k a)) : Keeps obs P (x >>= k) := by
  refine ⟨fun s => (hx.ends s).bind fun a s₁ h₁ => ?_⟩
  refine (((hk a).ends s₁).mono fun _ _ h => h.trans h₁).mono_error fun _ _ h => ⟨h.1.trans h₁, h.2⟩

instance [Keeps obs P x] [hk : ∀ a, Keeps obs P (k a)] : Keeps obs P (x >>= k) := bind hk

instance {c : Prop} [Decidable c] [Keeps obs P x] [Keeps obs P y] :
    Keeps obs P (if c then x else y) := by
  split <;> infer_instance

/-- One element after the other. -/
instance forM {g : α → EStateM Fault σ PUnit} {xs : List α} [∀ a, Keeps obs P (g a)] :
    Keeps obs P (xs.forM g) := by
  induction xs with
  | nil => exact inferInstanceAs (Keeps obs P (pure PUnit.unit))
  | cons a xs ih => exact inferInstanceAs (Keeps obs P (g a >>= fun _ => xs.forM g))

instance foldlM {g : β → α → EStateM Fault σ β} {b : β} {xs : List α} [∀ b a, Keeps obs P (g b a)] :
    Keeps obs P (xs.foldlM g b) := by
  induction xs generalizing b with
  | nil => rw [List.foldlM_nil]; infer_instance
  | cons a xs ih => rw [List.foldlM_cons]; infer_instance

instance filterM {g : α → EStateM Fault σ Bool} {xs : List α} [∀ a, Keeps obs P (g a)] :
    Keeps obs P (xs.filterM g) := by
  have haux : ∀ acc, Keeps obs P (List.filterAuxM g xs acc) := by
    induction xs with
    | nil => exact fun acc => inferInstanceAs (Keeps obs P (pure acc))
    | cons a xs ih => exact fun acc => bind fun hit => ih _
  have hstart := haux []
  exact inferInstanceAs (Keeps obs P (List.filterAuxM g xs [] >>= fun acc => pure acc.reverse))

/-- A failure becomes a result. -/
theorem attempt_ends (hx : Keeps obs P x) (s : σ) :
    Ends (attempt x) s (fun r s' => obs s' = obs s ∧ ∀ f, r = .error f → P f)
    fun e s' => obs s' = obs s ∧ ∀ f, e = .failed f → P f := by
  have h := hx.ends s
  unfold Ends attempt at *
  cases hr : x s with
  | ok a s' =>
    rw [hr] at h
    exact ⟨h, by simp⟩
  | error e s' =>
    rw [hr] at h
    cases e with
    | failed f =>
      refine ⟨h.1, ?_⟩
      rintro _ ⟨⟩
      exact h.2 f rfl
    | trap | endless => exact h

/-- What is lifted nowhere. -/
instance [Keeps obs P x] : Keeps obs P (liftM x : EStateM Fault σ α) :=
  inferInstanceAs (Keeps obs P x)

end Keeps

end Keeps

/-- Every failure that the computation reports satisfies `P`. -/
abbrev HeapM.Reports (P : Failure → Prop) (x : HeapM α) : Prop := Keeps (fun _ => ()) P x

namespace HeapM.Reports

variable {a n o offset : Nat} {w : Word}

instance {m : Type → Type} [MonadLiftT m ReadM] {x : m α}
    [hr : ReadM.Reports P (liftM x : ReadM α)] : Reports P (liftM x : HeapM α) := by
  refine ⟨fun h => ?_⟩
  have heq : (liftM x : HeapM α) h = match (liftM x : ReadM α) h with
    | .ok a => .ok a h
    | .error e => .error e h := rfl
  cases hx : (liftM x : ReadM α) h with
  | ok a =>
    rw [hx] at heq
    exact .of_eq heq rfl
  | error e =>
    rw [hx] at heq
    refine .of_error heq ⟨rfl, ?_⟩
    rintro f rfl
    exact hr.only h f hx

/-- A computation that traps or ends. -/
theorem of_cases {x : HeapM α} (hx : ∀ h, x h = .error .trap h ∨ ∃ a h', x h = .ok a h') :
    Reports P x := by
  refine ⟨fun h => ?_⟩
  rcases hx h with he | ⟨a, h', ho⟩
  · exact .of_error he ⟨rfl, by simp⟩
  · exact .of_eq ho rfl

instance : Reports P (store a w) := .of_cases fun h => by
  unfold store
  split <;> simp

instance {src dst : Nat} : Reports P (copyWords src dst n) := .of_cases fun h => by
  unfold copyWords
  split <;> simp

instance : Reports P (clearWords a n) := .of_cases fun h => by
  unfold clearWords
  split <;> simp

instance {v : Value} : Reports P (storeValue a v) := by unfold storeValue; infer_instance
instance : Reports P (storeHeader o offset w) := by unfold storeHeader; infer_instance

instance {ws : List Word} : Reports P (storeRun a ws) := by
  induction ws generalizing a <;> (unfold storeRun; infer_instance)

instance {bytes : List UInt8} : Reports P (writeText o bytes) := by unfold writeText; infer_instance

end HeapM.Reports
end Reclaim
