import Reclaim.Proofs.Presented
import Reclaim.Workload

/-!
# Trees of pairs

A tree is made from the leaves up. The left subtree waits on the stack while the right one is made;
then a new pair holds both, and the stack lets go of the left one before anything roots the pair. In
between, the new node and what it holds are safe only because no pop reclaims what a field refers to
(`Presents.pop_pinned`).

Results:
* `countNodes_run`: the nodes of a datum are counted.
* `makeTree_ends`: a complete tree is made, and nothing else has changed.
-/

namespace Reclaim

/-- Is it a small integer? -/
def Datum.isInt : Datum → Bool
  | plain v => v.isInt
  | _ => false

/-- The nodes of a tree of pairs: one whose first field is an integer is a leaf. -/
def Datum.nodes : Datum → Nat
  | pair a b => if a.isInt then 1 else 1 + a.nodes + b.nodes
  | _ => 0

theorem Arena.Shows.isInt {h : Arena} {v : Value} {d : Datum} (hs : h.Shows v d) :
    v.isInt = d.isInt := by
  have href : ∀ {o}, v.ref? = some o → v.isInt = false := by
    intro o ho
    have hfour := ((Value.isRef_iff _).mp (Value.isRef_of_ref? ho)).2
    refine Bool.eq_false_iff.mpr fun hodd => ?_
    have htwo := (Value.isInt_iff _).mp hodd
    omega
  cases hs with
  | plain => rfl
  | text ht => exact (ref?_of_textAt? ht).elim fun _ h => href h.1
  | pair hcar => exact (fieldAt?_eq_some.mp hcar).elim fun _ h => href h.1

namespace Workload

/-- A complete binary tree whose leaves are pairs of zero and the empty list. -/
def completeTree : Nat → Datum
  | 0 => .pair (.plain (.int 0)) (.plain .nil)
  | depth + 1 => .pair (completeTree depth) (completeTree depth)

theorem nodes_completeTree (depth : Nat) : (completeTree depth).nodes = completeNodes depth := by
  have hinner : ∀ depth, (completeTree depth).isInt = false := fun depth => by cases depth <;> rfl
  induction depth with
  | zero => rfl
  | succ depth ih =>
    rw [completeTree, Datum.nodes, hinner, if_neg (by decide), ih, completeNodes]
    omega

section Reading

variable {h : Arena} {hd : Nat} {S : Nat → Prop} {v : Value} {d : Datum}

/-- The count visits each pair once. -/
theorem countNodes_run (hap : Apart hd h S) (hv : v.Within S) (hs : h.Shows v d) {n : Nat}
    (hn : d.height < n) :
    countNodes n v h = .ok d.nodes := by
  induction hs generalizing n with
  | @plain v hplain =>
    obtain ⟨n, rfl⟩ : ∃ k, n = k + 1 := ⟨n - 1, by omega⟩
    have hcar : h.fieldAt? 1 v = none := by
      rw [Arena.fieldAt?, Arena.pairAt?, Value.ref?_eq_none hplain]; rfl
    rw [countNodes, read_bind (car?_run hap hv), hcar]
    rfl
  | @text v s ht =>
    obtain ⟨n, rfl⟩ : ∃ k, n = k + 1 := ⟨n - 1, by omega⟩
    obtain ⟨o, hr, hp⟩ := Arena.ref?_of_textAt? ht
    have hcar : h.fieldAt? 1 v = none := by
      refine Option.eq_none_iff_forall_ne_some.mpr fun w hw => ?_
      obtain ⟨o', hr', hp', -⟩ := Arena.fieldAt?_eq_some.mp hw
      cases hr.symm.trans hr'
      exact hp hp'
    rw [countNodes, read_bind (car?_run hap hv), hcar]
    rfl
  | @pair v a b x y hcar hcdr hx hy ihx ihy =>
    obtain ⟨n, rfl⟩ : ∃ k, n = k + 1 := ⟨n - 1, by omega⟩
    rw [Datum.height] at hn
    have ha := Arena.fieldAt?_within hap.closed hv (.inl rfl) hcar
    have hb := Arena.fieldAt?_within hap.closed hv (.inr rfl) hcdr
    rw [countNodes, read_bind (car?_run hap hv), hcar]
    dsimp only
    rw [Datum.nodes, hx.isInt]
    split
    · rfl
    · rw [read_bind (cdr?_run hap hv), hcdr]
      dsimp only [Option.getD_some]
      rw [read_bind (ihx ha (n := n) (by omega)), read_bind (ihy hb (n := n) (by omega))]
      rfl

theorem treeNodes_run (hap : Apart hd h S) (hv : v.Within S) (hs : h.Shows v d) :
    treeNodes v h = .ok d.nodes :=
  countNodes_run hap hv hs (Nat.lt_succ_of_le (hs.height_le hap hv))

end Reading

section Making

variable {I : Machine Collector → (Nat → Prop) → Prop} {N : Machine Collector → Nat → Nat → Prop}
  {S : Nat → Prop}
  {u : Mutator} {ds : List Datum} {Δ : String → Option Datum} {depth : Nat}

/-- Integers are no references. -/
theorem int_plain (n : Int) : (Value.int n).isRef = false := by
  have hodd := Value.toNat_int n
  refine Bool.eq_false_iff.mpr fun hr => ?_
  have hfour := ((Value.isRef_iff _).mp hr).2
  omega

/-- A tree is made, and nothing is rooted that was not. -/
theorem makeTree_ends (hl : Laws Collector.operations I N) (hpins : Collector.operations.Pins I)
    (hp : Presents I u S ds Δ) (hroom : ds.length + depth + 2 < tableLimit) :
    Ends (makeTree depth) u (fun v u' => ∃ S', Presents I u' S' ds Δ ∧ v.Within S' ∧
      u'.machine.heap.Shows v (completeTree depth))
      fun e _ => Reported e := by
  induction depth generalizing u S ds with
  | zero =>
    refine (hp.cons hl hroom (.of_not_ref (int_plain 0)) (.of_not_ref rfl)
      (.plain (int_plain 0)) (.plain rfl)).mono ?_
    rintro v u' ⟨S', hp', hv, hs, -⟩
    exact ⟨S', hp', hv, hs⟩
  | succ depth ih =>
    rw [makeTree]
    refine (ih hp (by omega)).bind ?_
    rintro left u₁ ⟨S₁, hp₁, hleft, hsleft⟩
    refine (hp₁.push hl (by omega) hleft hsleft).bind fun _ u₂ hp₂ => ?_
    refine (ih hp₂ (by rw [List.length_cons]; omega)).bind ?_
    rintro right u₃ ⟨S₃, hp₃, hright, hsright⟩
    -- the left subtree is where the stack holds it
    obtain ⟨top, hback, hpeek, htop, hstop⟩ := hp₃.top hl
    have hget : (get : MutatorM Mutator) u₃ = .ok u₃ u₃ := rfl
    refine .step hget ?_
    dsimp only
    rw [hpeek, Option.getD_some]
    refine (hp₃.cons hl (by rw [List.length_cons]; omega) htop hright hstop hsright).bind ?_
    rintro node u₄ ⟨S₄, hp₄, hnode, hsnode, hfield⟩
    -- the node is not rooted, but it holds on to what is popped
    have hpop : Ends MutatorM.pop u₄ (fun _ u' => ∃ S', Presents I u' S' ds Δ ∧ node.Within S' ∧
        u'.machine.heap.Shows node (completeTree (depth + 1))) fun e _ => Reported e := by
      cases depth with
      | zero => exact hp₄.pop_pinned hl hpins hnode hsnode (hfield hback)
      | succ depth => exact hp₄.pop_pinned hl hpins hnode hsnode (hfield hback)
    exact hpop.bind fun _ _ h => .pure h

end Making

end Workload

end Reclaim
