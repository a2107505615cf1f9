import Mathlib.Data.Fintype.Pigeonhole
import Reclaim.Proofs.Lawful
import Reclaim.Proofs.Paths
import Reclaim.Proofs.Reading

/-!
# Lists that end and lists that do not

From a value on, the second fields of pairs lead to nil, to something else that is no pair, or back
to a value that was passed before, since a program may change its pairs as it likes. The first is a
proper list and is read, the second is refused. Nothing watches out for the third: the loop over a
list that runs in a circle has no end.

Results:
* `listFrom?_eq_endless_iff`: the loop goes on for as many rounds as there are pairs to pass.
* `circular_of_long`: with more pairs than the arena has words, some pair is passed twice.
* `session_lists_classified`: what becomes of any value that a program may use.
-/

namespace Reclaim

/-! ## Chains of pairs -/

namespace Arena

variable (h : Arena)

/-- The value behind `n` pairs from `v` on, if there are so many. -/
def tail? (n : Nat) (v : Value) : Option Value := h.follow? (List.replicate n 2) v

/-- A chain of pairs with these first fields, and nil behind the last one. -/
inductive Proper : Value → List Value → Prop where
  | nil : Proper .nil []
  | cons {v item rest : Value} {items : List Value} :
      h.fieldAt? 1 v = some item → h.fieldAt? 2 v = some rest → Proper rest items →
        Proper v (item :: items)

/-- Behind the last pair is something other than nil. -/
def Dotted (v : Value) : Prop := ∃ n w, h.tail? n v = some w ∧ w ≠ .nil ∧ h.pairAt? w = none

/-- A value is met again. -/
def Circular (v : Value) : Prop := ∃ i j w, i < j ∧ h.tail? i v = some w ∧ h.tail? j v = some w

variable {h} {v w : Value} {o : Nat} {S : Nat → Prop} {hd : Nat}

theorem fieldAt?_of_pair (hp : h.pairAt? v = some o) (i : Nat) :
    h.fieldAt? i v = some (h.value (o + i)) := by
  rw [fieldAt?, hp, Option.map_some]

theorem fieldAt?_of_none (hp : h.pairAt? v = none) (i : Nat) : h.fieldAt? i v = none := by
  rw [fieldAt?, hp, Option.map_none]

theorem tail?_succ (n : Nat) (v : Value) :
    h.tail? (n + 1) v = (h.fieldAt? 2 v).bind (h.tail? n) := rfl

theorem tail?_add (m n : Nat) (v : Value) : h.tail? (m + n) v = (h.tail? m v).bind (h.tail? n) := by
  rw [tail?, List.replicate_add, follow?_append]
  rfl

theorem tail?_isSome_of_le {m n : Nat} (hle : m ≤ n) (hn : (h.tail? n v).isSome = true) :
    (h.tail? m v).isSome = true := by
  obtain ⟨k, rfl⟩ := Nat.exists_eq_add_of_le hle
  rw [tail?_add] at hn
  exact Option.isSome_of_isSome_bind hn

theorem tail?_within (hS : Closed h S) (hv : v.Within S) {n : Nat}
    (hw : h.tail? n v = some w) : w.Within S :=
  follow?_within hS hv (fun _ hi => .inr (List.eq_of_mem_replicate hi)) hw

/-! ## Circles -/

/-- There is no end to the pairs of a circle. -/
theorem Circular.tail?_isSome (hc : h.Circular v) (n : Nat) : (h.tail? n v).isSome = true := by
  obtain ⟨i, j, w, hij, hi, hj⟩ := hc
  obtain ⟨d, rfl⟩ := Nat.exists_eq_add_of_lt hij
  -- one turn of the circle leads from `w` to `w`
  have hturn : h.tail? (d + 1) w = some w := by
    rw [Nat.add_assoc, tail?_add, hi, Option.bind_some] at hj
    exact hj
  have hturns : ∀ k, h.tail? (k * (d + 1)) w = some w := by
    intro k
    induction k with
    | zero => rw [Nat.zero_mul]; rfl
    | succ k ih => rw [Nat.succ_mul, tail?_add, ih, Option.bind_some, hturn]
  have hfar : h.tail? (i + n * (d + 1)) v = some w := by
    rw [tail?_add, hi, Option.bind_some, hturns]
  refine tail?_isSome_of_le (n := i + n * (d + 1)) ?_ (by rw [hfar, Option.isSome_some])
  exact Nat.le_add_left_of_le (Nat.le_mul_of_pos_right n d.succ_pos)

/-- With more pairs than the arena has words, some pair is passed twice. -/
theorem circular_of_long (hap : Apart hd h S) (hv : v.Within S)
    (hlong : (h.tail? (h.size + 1) v).isSome = true) : h.Circular v := by
  have hpairs : ∀ i : Fin (h.size + 1), ∃ o : Fin h.size, h.tail? i v = some (.ofRef o) := by
    intro i
    obtain ⟨w, hw⟩ := Option.isSome_iff_exists.mp (tail?_isSome_of_le (Nat.le_of_lt i.isLt) hlong)
    have hnext := tail?_isSome_of_le (Nat.succ_le_of_lt i.isLt) hlong
    rw [Nat.succ_eq_add_one, tail?_add, hw, Option.bind_some] at hnext
    obtain ⟨rest, hrest⟩ := Option.isSome_iff_exists.mp (Option.isSome_of_isSome_bind hnext)
    obtain ⟨o, hr, -⟩ := fieldAt?_eq_some.mp hrest
    obtain ⟨rfl, ho⟩ := tail?_within hap.closed hv hw o hr
    exact ⟨⟨o, (hap.traceable ho).inside⟩, hw⟩
  choose address haddress using hpairs
  obtain ⟨i, j, hne, hsame⟩ := Fintype.exists_ne_map_eq_of_card_lt address (by simp)
  have hmeet : h.tail? i v = h.tail? j v := by rw [haddress, haddress, hsame]
  rcases Nat.lt_or_gt_of_ne (Fin.val_ne_of_ne hne) with hlt | hlt
  · exact ⟨i, j, _, hlt, haddress i, hmeet ▸ haddress i⟩
  · exact ⟨j, i, _, hlt, haddress j, hmeet ▸ haddress j⟩

end Arena

/-! ## The loop over a list -/

section Loop

variable {h : Arena} {S : Nat → Prop} {hd : Nat} {v : Value} {o n : Nat} {r : Option (List Value)}

/-- A round that meets a pair. -/
theorem listFrom?_pair (hap : Apart hd h S) (hv : v.Within S)
    (hp : h.pairAt? v = some o) (n : Nat) :
    listFrom? (n + 1) v h = (listFrom? n (h.value (o + 2)) h).map
    (Option.map (h.value (o + 1) :: ·)) := by
  have hnil : v.isNil = false := by
    refine Bool.eq_false_iff.mpr fun hnil => ?_
    rw [eq_of_beq hnil] at hp
    cases hp
  rw [listFrom?_succ hap hv, hnil, if_neg (by decide), Arena.fieldAt?_of_pair hp,
    Arena.fieldAt?_of_pair hp]

/-- A round that meets something else. -/
theorem listFrom?_other (hap : Apart hd h S) (hv : v.Within S) (hp : h.pairAt? v = none) (n : Nat) :
    listFrom? (n + 1) v h = .ok (if v = .nil then some [] else none) := by
  rw [listFrom?_succ hap hv, Arena.fieldAt?_of_none hp]
  by_cases hnil : v = .nil
  · rw [if_pos hnil, if_pos (show v.isNil = true from beq_iff_eq.mpr hnil)]
  · have hother : ¬ v.isNil = true := fun h => hnil (eq_of_beq h)
    rw [if_neg hnil, if_neg hother]

/-- The loop goes on for as many rounds as there are pairs to pass. -/
theorem listFrom?_eq_endless_iff (hap : Apart hd h S) (hv : v.Within S) (n : Nat) :
    listFrom? n v h = .error .endless ↔ (h.tail? n v).isSome = true := by
  induction n generalizing v with
  | zero => exact iff_of_true rfl rfl
  | succ n ih =>
    rw [Arena.tail?_succ]
    cases hp : h.pairAt? v with
    | none => simp [listFrom?_other hap hv hp, Arena.fieldAt?_of_none hp]
    | some o =>
      have hrest := ih (Arena.fieldAt?_within hap.closed hv (.inr rfl)
        (Arena.fieldAt?_of_pair hp 2))
      rw [listFrom?_pair hap hv hp, Arena.fieldAt?_of_pair hp, Option.bind_some, ← hrest]
      cases listFrom? n (h.value (o + 2)) h <;> simp [Except.map]

/-- A proper list is read by a loop with more rounds than there are items. -/
theorem Arena.Proper.listFrom?_run (hap : Apart hd h S) {items : List Value} (hl : h.Proper v items)
    (hv : v.Within S) (hn : items.length < n) : listFrom? n v h = .ok (some items) := by
  induction hl generalizing n with
  | nil =>
    obtain ⟨k, rfl⟩ := Nat.exists_eq_add_of_lt hn
    rw [listFrom?_other hap hv rfl, if_pos rfl]
  | @cons v item rest items hcar hcdr _ ih =>
    obtain ⟨k, rfl⟩ := Nat.exists_eq_add_of_lt hn
    have hrest := ih (Arena.fieldAt?_within hap.closed hv (.inr rfl) hcdr)
      (n := items.length + 1 + k) (by omega)
    obtain ⟨o, hp, rfl⟩ := Option.map_eq_some_iff.mp hcar
    rw [Arena.fieldAt?_of_pair hp] at hcdr
    cases hcdr
    rw [List.length_cons, listFrom?_pair hap hv hp, hrest]
    rfl

/-- Only proper lists are read. -/
theorem Arena.Proper.of_listFrom? (hap : Apart hd h S) {items : List Value} (hv : v.Within S)
    (hrun : listFrom? n v h = .ok (some items)) :
    h.Proper v items := by
  induction n generalizing v items with
  | zero => cases hrun
  | succ n ih =>
    cases hp : h.pairAt? v with
    | none =>
      rw [listFrom?_other hap hv hp] at hrun
      split at hrun
      · rename_i hnil
        cases hrun
        rw [hnil]
        exact .nil
      · cases hrun
    | some o =>
      rw [listFrom?_pair hap hv hp] at hrun
      have hcdr := Arena.fieldAt?_of_pair hp 2
      cases hrest : listFrom? n (h.value (o + 2)) h with
      | error e =>
        rw [hrest] at hrun
        cases hrun
      | ok r =>
        rw [hrest] at hrun
        cases r with
        | none => cases hrun
        | some rest =>
          cases hrun
          exact .cons (Arena.fieldAt?_of_pair hp 1) hcdr
            (ih (Arena.fieldAt?_within hap.closed hv (.inr rfl) hcdr) hrest)

/-- A chain of `k` pairs with something else behind the last one is refused in the round after
those. -/
theorem listFrom?_dotted (hap : Apart hd h S) {k : Nat} {w : Value} (hv : v.Within S)
    (ht : h.tail? k v = some w) (hnil : w ≠ .nil) (hw : h.pairAt? w = none) :
    listFrom? (k + 1) v h = .ok none := by
  induction k generalizing v with
  | zero =>
    cases ht
    rw [listFrom?_other hap hv hw, if_neg hnil]
  | succ k ih =>
    obtain ⟨rest, hrest, ht⟩ := Option.bind_eq_some_iff.mp ht
    have hrun := ih (Arena.fieldAt?_within hap.closed hv (.inr rfl) hrest) ht
    obtain ⟨o, hp, rfl⟩ := Option.map_eq_some_iff.mp hrest
    rw [listFrom?_pair hap hv hp, hrun]
    rfl

/-- Nothing else is refused. -/
theorem Arena.Dotted.of_listFrom? (hap : Apart hd h S) (hv : v.Within S)
    (hrun : listFrom? n v h = .ok none) : h.Dotted v := by
  induction n generalizing v with
  | zero => cases hrun
  | succ n ih =>
    cases hp : h.pairAt? v with
    | none =>
      rw [listFrom?_other hap hv hp] at hrun
      split at hrun
      · cases hrun
      · exact ⟨0, v, rfl, ‹_›, hp⟩
    | some o =>
      rw [listFrom?_pair hap hv hp] at hrun
      have hcdr := Arena.fieldAt?_of_pair hp 2
      have hrest : listFrom? n (h.value (o + 2)) h = .ok none := by
        cases hrest : listFrom? n (h.value (o + 2)) h with
        | error e =>
          rw [hrest] at hrun
          cases hrun
        | ok r =>
          rw [hrest] at hrun
          cases r with
          | none => rfl
          | some rest => cases hrun
      obtain ⟨k, w, hk, hw⟩ := ih (Arena.fieldAt?_within hap.closed hv (.inr rfl) hcdr) hrest
      exact ⟨k + 1, w, by rw [Arena.tail?_succ, hcdr, Option.bind_some, hk], hw⟩

/-- A loop that has come to an end does not depend on the rounds that were left. -/
theorem listFrom?_more (hap : Apart hd h S) (hv : v.Within S) (hrun : listFrom? n v h = .ok r)
    {m : Nat} (hm : n ≤ m) :
    listFrom? m v h = .ok r := by
  induction n generalizing v r m with
  | zero => cases hrun
  | succ n ih =>
    obtain ⟨m, rfl⟩ : ∃ k, m = k + 1 := ⟨m - 1, by omega⟩
    cases hp : h.pairAt? v with
    | none => rwa [listFrom?_other hap hv hp] at hrun ⊢
    | some o =>
      rw [listFrom?_pair hap hv hp] at hrun ⊢
      cases hrest : listFrom? n (h.value (o + 2)) h with
      | error e =>
        rw [hrest] at hrun
        cases hrun
      | ok r =>
        rw [hrest] at hrun
        rwa [ih (Arena.fieldAt?_within hap.closed hv (.inr rfl) (Arena.fieldAt?_of_pair hp 2)) hrest
          (Nat.le_of_succ_le_succ hm)]

theorem Arena.Circular.listFrom?_endless (hap : Apart hd h S) (hv : v.Within S)
    (hc : h.Circular v) (n : Nat) :
    listFrom? n v h = .error .endless := (listFrom?_eq_endless_iff hap hv n).mpr (hc.tail?_isSome n)

theorem list?_eq_endless_iff (hap : Apart hd h S) (hv : v.Within S) : list? v h = .error .endless ↔
    h.Circular v :=
  ⟨fun hrun => Arena.circular_of_long hap hv ((listFrom?_eq_endless_iff hap hv _).mp hrun),
    fun hc => hc.listFrom?_endless hap hv _⟩

/-- A loop that comes to an end at all does so within as many rounds as the arena has words. -/
theorem list?_of_run (hap : Apart hd h S) (hv : v.Within S) (hrun : listFrom? n v h = .ok r) :
    list? v h = .ok r := by
  rcases list?_ends hap hv with ⟨r', hrun'⟩ | hend
  · have hmax := listFrom?_more hap hv hrun (Nat.le_max_left n (h.size + 1))
    rw [listFrom?_more hap hv hrun' (Nat.le_max_right n (h.size + 1))] at hmax
    rwa [hmax] at hrun'
  · rw [((list?_eq_endless_iff hap hv).mp hend).listFrom?_endless hap hv n] at hrun
    cases hrun

end Loop

/-! ## What becomes of a value -/

section Session

variable {c : Config} {u : Mutator} {H : Nat → Prop} {v : Value}

/-- After any session, a value that may be used is read as a list exactly if it is a proper one, and
it is refused exactly if it is dotted. The only other case are circles, and there the loop goes on
for ever. -/
theorem session_lists_classified (hs : Session c u H) (hv : u.Allows H v) :
    (∀ items, list? v u.machine.heap = .ok (some items) ↔ u.machine.heap.Proper v items) ∧
    (list? v u.machine.heap = .ok none ↔ u.machine.heap.Dotted v) ∧
    ((∃ items, u.machine.heap.Proper v items) ∨ u.machine.heap.Dotted v ∨
      u.machine.heap.Circular v) ∧
    (u.machine.heap.Circular v ↔ ∀ n, listFrom? n v u.machine.heap = .error .endless) := by
  obtain ⟨hd, S, hap, -, hallow⟩ := hs.apart
  have hw := hallow v hv
  have hproper : ∀ items, list? v u.machine.heap = .ok (some items) ↔
      u.machine.heap.Proper v items := fun items =>
    ⟨.of_listFrom? hap hw, fun hl =>
      list?_of_run hap hw (hl.listFrom?_run hap hw (Nat.lt_succ_self _))⟩
  have hdotted : list? v u.machine.heap = .ok none ↔ u.machine.heap.Dotted v :=
    ⟨.of_listFrom? hap hw, fun ⟨_, _, ht, hnil, hp⟩ =>
      list?_of_run hap hw (listFrom?_dotted hap hw ht hnil hp)⟩
  refine ⟨hproper, hdotted, ?_, fun hc n => hc.listFrom?_endless hap hw n,
    fun hall => (list?_eq_endless_iff hap hw).mp (hall _)⟩
  rcases list?_ends hap hw with ⟨items | items, hrun⟩ | hend
  · exact .inr (.inl (hdotted.mp hrun))
  · exact .inl ⟨items, (hproper items).mp hrun⟩
  · exact .inr (.inr ((list?_eq_endless_iff hap hw).mp hend))

/-- A small heap. -/
def knot : Config :=
  { strategy := .copying, heapSize := 512, stackCapacity := 4, globalTableSize := 1 }

/-- A pair of a number and nil, on the stack. -/
def knotEnd : Mutator := (Command.push (.ofRef 2)).after
    ((Command.cons (.int 1) .nil).after (Mutator.ofConfig knot))

/-- The pair is a root. -/
theorem session_knotEnd : ∃ H, Session knot knotEnd H ∧ knotEnd.Allows H (.ofRef 2) := by
  let u0 := Mutator.ofConfig knot
  let u1 := (Command.cons (.int 1) .nil).after u0
  have h1 := (Session.start (c := knot) (u := u0) ⟨_, rfl⟩).plain (.cons (.int 1) .nil) [.ofRef 2]
    (by decide +kernel) (by decide +kernel)
    (by decide)
  have hlisted : u1.objects.toOption = some [(2, 5)] := by decide +kernel
  have h2 := h1.next (.push (.ofRef 2)) [] (by decide +kernel) (by decide +kernel) (by
    simp only [Command.operands, List.mem_singleton, forall_eq]
    exact Mutator.allows_returned (by decide) (by decide) hlisted (.head _))
  exact ⟨_, h2, Mutator.allows_root (.stack 0) (by decide) (by decide) (by decide +kernel)⟩

/-- Two more pairs are pushed: one whose second field is the first pair, and one whose second field
is a number. -/
def threePairs : Mutator :=
  (Command.push (.ofRef 12)).after ((Command.cons (.int 3) (.int 4)).after
    ((Command.push (.ofRef 7)).after ((Command.cons (.int 0) (.ofRef 2)).after knotEnd)))

/-- One of them is a list of two items, and the other none. -/
theorem threePairs_classified : ∃ H, Session knot threePairs H ∧ threePairs.Allows H (.ofRef 7) ∧
    threePairs.Allows H (.ofRef 12) ∧
    list? (.ofRef 7) threePairs.machine.heap = .ok (some [.int 0, .int 1]) ∧
    list? (.ofRef 12) threePairs.machine.heap = .ok none := by
  obtain ⟨H, h0, hv⟩ := session_knotEnd
  let u1 := (Command.cons (.int 0) (.ofRef 2)).after knotEnd
  let u2 := (Command.push (.ofRef 7)).after u1
  let u3 := (Command.cons (.int 3) (.int 4)).after u2
  have h1 := h0.next (.cons (.int 0) (.ofRef 2)) [.ofRef 7] (by decide +kernel)
      (by decide +kernel) (by
    simpa [Command.operands, hv] using Mutator.allows_immediate (v := .int 0) (by decide))
  have hseven : u1.objects.toOption = some [(2, 5), (7, 5)] := by decide +kernel
  have h2 := h1.next (.push (.ofRef 7)) [] (by decide +kernel) (by decide +kernel) (by
    simp only [Command.operands, List.mem_singleton, forall_eq]
    exact Mutator.allows_returned (by decide) (by decide) hseven (.tail _ (.head _)))
  have h3 := h2.plain (.cons (.int 3) (.int 4)) [.ofRef 12] (by decide +kernel)
    (by decide +kernel) (by decide)
  have htwelve : u3.objects.toOption = some [(2, 5), (7, 5), (12, 5)] := by decide +kernel
  have h4 := h3.next (.push (.ofRef 12)) [] (by decide +kernel) (by decide +kernel) (by
    simp only [Command.operands, List.mem_singleton, forall_eq]
    exact Mutator.allows_returned (by decide) (by decide) htwelve (.tail _ (.tail _ (.head _))))
  have hlong {H' : Nat → Prop} : threePairs.Allows H' (.ofRef 7) :=
    Mutator.allows_root (.stack 1) (by decide) (by decide) (by decide +kernel)
  have hdot {H' : Nat → Prop} : threePairs.Allows H' (.ofRef 12) :=
    Mutator.allows_root (.stack 2) (by decide) (by decide) (by decide +kernel)
  have hend : threePairs.machine.heap.Proper (.ofRef 2) [.int 1] :=
    .cons (by decide +kernel) (by decide +kernel) .nil
  have hproper : threePairs.machine.heap.Proper (.ofRef 7) [.int 0, .int 1] :=
    .cons (by decide +kernel) (by decide +kernel) hend
  have hdotted : threePairs.machine.heap.Dotted (.ofRef 12) :=
    ⟨1, .int 4, by decide +kernel, by decide, by decide +kernel⟩
  exact ⟨_, h4, hlong, hdot, ((session_lists_classified h4 hlong).1 _).mpr hproper,
    (session_lists_classified h4 hdot).2.1.mpr hdotted⟩

/-- With itself in its second field, the pair is never read to the end. -/
theorem tied_knot_endless : ∃ u H, Session knot u H ∧ u.Allows H (.ofRef 2) ∧
    u.machine.Reachable 2 ∧
    u.machine.heap.tail? 1 (.ofRef 2) = some (.ofRef 2) ∧ list? (.ofRef 2) u.machine.heap =
    .error .endless ∧
    ∀ n, listFrom? n (.ofRef 2) u.machine.heap = .error .endless := by
  obtain ⟨H, hs, hv⟩ := session_knotEnd
  let u := (Command.setCdr (.ofRef 2) (.ofRef 2)).after knotEnd
  have hs' := hs.next (.setCdr (.ofRef 2) (.ofRef 2)) [] (by decide +kernel) (by decide +kernel)
    (by simp [Command.operands, hv])
  have hroot : u.machine.roots.get? (.stack 0) = some (.ofRef 2) := by decide +kernel
  have hv' : u.Allows (knotEnd.held u H []) (.ofRef 2) :=
    Mutator.allows_root (.stack 0) (by decide) (by decide) hroot
  have hself : u.machine.heap.tail? 1 (.ofRef 2) = some (.ofRef 2) := by decide +kernel
  obtain ⟨hd, S, hap, -, hallow⟩ := hs'.apart
  have hcircle : u.machine.heap.Circular (.ofRef 2) := ⟨0, 1, .ofRef 2, Nat.zero_lt_one, rfl, hself⟩
  have hend := hcircle.listFrom?_endless hap (hallow _ hv')
  have hreach : u.machine.Reachable 2 :=
    .root ⟨.stack 0, .ofRef 2, hroot, Value.ref?_ofRef (by decide) (by decide)⟩
  exact ⟨u, _, hs', hv', hreach, hself, (list?_eq_endless_iff hap (hallow _ hv')).mpr hcircle, hend⟩

end Session

end Reclaim
