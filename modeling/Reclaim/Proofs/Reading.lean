import Reclaim.Proofs.Access

/-!
# Reading a well-formed heap

What a program can ask of a value is answered whenever the value may be used. Only a list that runs
in a circle is never read to its end.

Results:
* `char?_run`: characters.
* `listFrom?_succ`: one round of the loop over a list.
* `list?_ends`: a list is read, or runs in a circle.
-/

namespace Reclaim

variable {h : Arena} {S : Nat → Prop} {hd : Nat} {v : Value}

theorem char?_run (hap : Apart hd h S) (hv : v.Within S) : ∃ c, char? v h = .ok c := by
  rw [char?, read_bind (tag?_run hap hv)]
  cases hr : v.ref? with
  | none => exact ⟨none, rfl⟩
  | some o =>
    have hin := hap.inside o (hv o hr).2
    have hpos := Arena.payload_pos (hap.closed.known o (hv o hr).2)
    have haux : auxOf o h = .ok (h.word o >>> 8) := by
      rw [auxOf, read_bind (load_run (by omega))]
      rfl
    rw [Option.bind_some]
    cases ht : h.tag o with
    | none => exact ⟨none, rfl⟩
    | some t =>
      cases t with
      | char =>
        dsimp only
        rw [read_bind haux]
        exact ⟨_, rfl⟩
      | string | symbol | pair | lambda => exact ⟨none, rfl⟩

/-- One round of the loop over a list. -/
theorem listFrom?_succ (hap : Apart hd h S) (hv : v.Within S) (n : Nat) :
    listFrom? (n + 1) v h = if v.isNil then .ok (some []) else match h.fieldAt? 1 v,
    h.fieldAt? 2 v with
      | some item, some rest => (listFrom? n rest h).map (Option.map (item :: ·))
      | _, _ => .ok none := by
  rw [listFrom?]
  split
  · rfl
  · rw [read_bind (car?_run hap hv), read_bind (cdr?_run hap hv)]
    cases h.fieldAt? 1 v with
    | none => rfl
    | some item =>
      cases h.fieldAt? 2 v with
      | none => rfl
      | some rest =>
        dsimp only
        cases hrun : listFrom? n rest h with
        | ok items => rw [read_bind hrun]; rfl
        | error e => rw [read_bind_error hrun]; rfl

/-- A list is read to its end, unless it runs in a circle. -/
theorem listFrom?_ends (hap : Apart hd h S) (n : Nat) (hv : v.Within S) :
    (∃ items, listFrom? n v h = .ok items) ∨ listFrom? n v h = .error .endless := by
  induction n generalizing v with
  | zero => exact .inr rfl
  | succ n ih =>
    rw [listFrom?_succ hap hv]
    split
    · exact .inl ⟨_, rfl⟩
    · cases h.fieldAt? 1 v with
      | none => exact .inl ⟨none, rfl⟩
      | some item =>
        cases hcdr : h.fieldAt? 2 v with
        | none => exact .inl ⟨none, rfl⟩
        | some rest =>
          dsimp only
          rcases ih (Arena.fieldAt?_within hap.closed hv (.inr rfl) hcdr) with ⟨items, hrun⟩ | hrun
          · exact .inl ⟨_, by rw [hrun]; rfl⟩
          · exact .inr (by rw [hrun]; rfl)

theorem list?_ends (hap : Apart hd h S) (hv : v.Within S) : (∃ items, list? v h = .ok items) ∨
    list? v h = .error .endless :=
  listFrom?_ends hap (h.size + 1) hv

end Reclaim
