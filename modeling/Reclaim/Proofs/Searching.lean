import Reclaim.Proofs.Visiting

/-!
# The order of discovery

A search finds objects one after the other: first those that the roots refer to, slot by slot, and
then for each object found, in the order in which it was found, those that its fields refer to.
Nothing is found twice. `Searched h k os os'` says that a search which has found `os`, and looked
into the first `k` of them, ends with `os'`.

Results:
* `Searched.unique`: a search has one outcome.
* `discover_map`, `Searched.map`: the outcome depends on the graph alone. If `f` takes one graph to
  another, reference by reference, it takes what is found in the one to what is found in the other,
  in the same order.
-/

namespace Reclaim

/-- The objects that the references `vs` lead to. -/
def targetsOf (vs : List Value) : List Nat := vs.filterMap Value.ref?

/-- The objects `found` and behind them those that the references `vs` lead to, without those that
were found before. -/
def discover (found : List Nat) (vs : List Value) : List Nat :=
  (targetsOf vs).foldl (fun os o => if o ∈ os then os else os ++ [o]) found

/-- A search through the objects `os`, the first `k` of which are done, ends with the objects
`os'`. -/
inductive Searched (h : Arena) : Nat → List Nat → List Nat → Prop where
  | done {k : Nat} {os : List Nat} : os.length = k → Searched h k os os
  | next {k o : Nat} {os os' : List Nat} :
      os[k]? = some o → Searched h (k + 1) (discover os (h.referring o)) os' → Searched h k os os'

variable {h h' : Arena} {found os os' os'' : List Nat} {vs ws : List Value} {k o : Nat}
  {P : Nat → Prop} {f : Nat → Nat}

theorem discover_append : discover found (vs ++ ws) = discover (discover found vs) ws := by
  rw [discover, targetsOf, List.filterMap_append, List.foldl_append]
  rfl

/-- One reference leads to an object that is known, or to a new one. -/
theorem discover_singleton {v : Value} (hv : v.ref? = some o) :
    discover found [v] = if o ∈ found then found else found ++ [o] := by
  rw [discover, targetsOf, List.filterMap_cons, hv]
  rfl

theorem Searched.unique (hs : Searched h k os os') (hs' : Searched h k os os'') : os' = os'' := by
  induction hs with
  | done hk =>
    cases hs' with
    | done => rfl
    | next hget => rw [List.getElem?_eq_none (by omega)] at hget; cases hget
  | next hget _ ih =>
    cases hs' with
    | done hk => rw [List.getElem?_eq_none (by omega)] at hget; cases hget
    | next hget' hrest =>
      rw [hget] at hget'
      cases hget'
      exact ih hrest

section Map

variable (hf : ∀ a b, P a → P b → f a = f b → a = b)
include hf

/-- What is found is found at the same place. -/
theorem discover_map (hP : ∀ a ∈ found, P a) (hPv : ∀ a ∈ targetsOf vs, P a)
    (hw : targetsOf ws = (targetsOf vs).map f) :
    discover (found.map f) ws = (discover found vs).map f ∧ ∀ a ∈ discover found vs, P a := by
  rw [discover, discover, hw]
  clear hw
  generalize targetsOf vs = as at hPv ⊢
  induction as generalizing found with
  | nil => exact ⟨rfl, hP⟩
  | cons a as ih =>
    have ha := hPv a (by simp)
    have hrest : ∀ b ∈ as, P b := fun b hb => hPv b (by simp [hb])
    have hmem : f a ∈ found.map f ↔ a ∈ found := by
      constructor
      · intro hm
        obtain ⟨b, hb, he⟩ := List.mem_map.mp hm
        rwa [← hf b a (hP b hb) ha he]
      · exact List.mem_map_of_mem
    rw [List.map_cons, List.foldl_cons, List.foldl_cons]
    by_cases hin : a ∈ found
    · rw [if_pos hin, if_pos (hmem.mpr hin)]
      exact ih hP hrest
    · rw [if_neg hin, if_neg (fun hm => hin (hmem.mp hm)), show found.map f ++ [f a] =
        (found ++ [a]).map f by simp]
      refine ih (fun b hb => ?_) hrest
      rcases List.mem_append.mp hb with hb | hb
      · exact hP b hb
      · rw [List.mem_singleton.mp hb]
        exact ha

/-- What a search finds in the image of a graph is the image of what it finds in the graph. -/
theorem Searched.map (hclosed : ∀ o, P o → ∀ a ∈ targetsOf (h.referring o), P a)
    (hfields : ∀ o, P o → targetsOf (h'.referring (f o)) = (targetsOf (h.referring o)).map f)
    (hs : Searched h k os os') (hP : ∀ a ∈ os, P a) :
    Searched h' k (os.map f) (os'.map f) ∧ ∀ a ∈ os', P a := by
  induction hs with
  | done hk => exact ⟨.done (by simpa using hk), hP⟩
  | @next k o os os' hget _ ih =>
    have ho : P o := hP o (List.mem_of_getElem? hget)
    obtain ⟨hdis, hPd⟩ := discover_map hf hP (hclosed o ho) (hfields o ho)
    obtain ⟨hrest, hPr⟩ := ih hPd
    refine ⟨.next (o := f o) (by simp [hget]) ?_, hPr⟩
    rwa [hdis]

end Map

end Reclaim
