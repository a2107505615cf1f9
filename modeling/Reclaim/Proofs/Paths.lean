import Reclaim.Proofs.Data

/-!
# Paths

A path is a list of fields of pairs, followed one after the other. Objects that move are found at
the end of the same path as before, if none of its fields was written.

Results:
* `follow?_append`, `follow?_within`: where a path leads.
* `Follows.follow?`: it leads there again.
-/

namespace Reclaim

namespace Arena

variable (h : Arena)

/-- The value at the end of a path from `v` on. -/
def follow? : List Nat → Value → Option Value
  | [], v => some v
  | i :: path, v => (h.fieldAt? i v).bind (follow? path)

/-- No field on the path from `v` on is one of `W`. -/
def Avoids (W : Nat → Nat → Prop) : List Nat → Value → Prop
  | [], _ => True
  | i :: path, v =>
    (∀ o, v.ref? = some o → ¬ W o i) ∧ ∀ w, h.fieldAt? i v = some w → Avoids W path w

variable {h} {v w : Value} {path : List Nat} {S : Nat → Prop}

theorem Avoids.none (path : List Nat) (v : Value) : h.Avoids (fun _ _ => False) path v := by
  induction path generalizing v with
  | nil => trivial
  | cons i path ih => exact ⟨fun _ _ h => h, fun w _ => ih w⟩

theorem follow?_append (path rest : List Nat) (v : Value) :
    h.follow? (path ++ rest) v = (h.follow? path v).bind (h.follow? rest) := by
  induction path generalizing v with
  | nil => rfl
  | cons i path ih =>
    rw [List.cons_append, follow?, follow?, Option.bind_assoc]
    exact congrArg _ (funext ih)

theorem follow?_within (hS : Closed h S) (hv : v.Within S) (hpath : ∀ i ∈ path, i = 1 ∨ i = 2)
    (hw : h.follow? path v = some w) :
    w.Within S := by
  induction path generalizing v with
  | nil =>
    cases hw
    exact hv
  | cons i path ih =>
    obtain ⟨next, hnext, hw⟩ := Option.bind_eq_some_iff.mp hw
    have hi := hpath i (List.mem_cons_self ..)
    exact ih (fieldAt?_within hS hv hi hnext) (fun j hj => hpath j (List.mem_cons_of_mem _ hj)) hw

end Arena

/-- A path leads to what has become of the value at its end. -/
theorem Follows.follow? {h h' : Arena} {ρ : Nat → Nat} {T : Nat → Prop} {W : Nat → Nat → Prop}
    (hf : Follows ρ T W h h') {path : List Nat} {v w : Value} (hv : v.Within T)
    (hpath : ∀ i ∈ path, i = 1 ∨ i = 2) (hfree : h.Avoids W path v)
    (hw : h.follow? path v = some w) :
    w.Within T ∧ h'.follow? path (v.rename ρ) = some (w.rename ρ) := by
  induction path generalizing v with
  | nil =>
    cases hw
    exact ⟨hv, rfl⟩
  | cons i path ih =>
    obtain ⟨next, hnext, hw⟩ := Option.bind_eq_some_iff.mp hw
    obtain ⟨hin, hnext'⟩ := hf.fieldAt? hv (hpath i (List.mem_cons_self ..)) hfree.1 hnext
    obtain ⟨hw', hend⟩ := ih hin (fun j hj => hpath j (List.mem_cons_of_mem _ hj))
      (hfree.2 next hnext) hw
    refine ⟨hw', ?_⟩
    rw [Arena.follow?, hnext', Option.bind_some, hend]

end Reclaim
