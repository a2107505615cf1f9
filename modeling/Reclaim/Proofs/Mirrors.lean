import Reclaim.Proofs.Portraits

/-!
# Steps on heaps and on memories

What a step does to a heap that portrays a memory, it does to the memory (`Mirrors`), whatever the
strategy of the heap is: with the same outcome, unless the heap is poisoned, and so that the heap
portrays the memory again. So a heap does to a program what the memory does, until it reports a
fatal failure.

Results:
* `Portrays.operand`: a path leads to the same thing in both.
* `Portrays.cons_mirrors`, `Portrays.push_mirrors` and so on: one operation each.
* `Step.mirrors`: a step.
-/

namespace Reclaim

/-! ## Lists of related things -/

section Related

variable {α β : Type} {P : α → β → Prop} {as : List α} {bs : List β} {a : α} {b : β}

theorem forall₂_getElem? (h : List.Forall₂ P as bs) (i : Nat) : Option.Rel P as[i]? bs[i]? := by
  induction h generalizing i with
  | nil => exact .none
  | cons hab _ ih =>
    cases i with
    | zero => exact .some hab
    | succ i => exact ih i

theorem forall₂_set (h : List.Forall₂ P as bs) (hab : P a b) (i : Nat) :
    List.Forall₂ P (as.set i a) (bs.set i b) := by
  induction h generalizing i with
  | nil => exact .nil
  | cons h hs ih =>
    cases i with
    | zero => exact .cons hab hs
    | succ i => exact .cons h (ih i)

theorem forall₂_dropLast (h : List.Forall₂ P as bs) : List.Forall₂ P as.dropLast bs.dropLast := by
  rw [List.dropLast_eq_take, List.dropLast_eq_take, h.length_eq]
  exact List.forall₂_take _ h

end Related

/-! ## Memories -/

namespace Memory

variable {m : Memory} {n : Nat} {e : Fault} {name : String} {a : Part}

theorem room_ok (h : Roots.parking m.stack.length m.capacity n = .ok ()) :
    room n m = .ok () m := by rw [room, h]

theorem room_error (h : Roots.parking m.stack.length m.capacity n = .error e) :
    room n m = .error e m := by rw [room, h]

/-- A name that is bound already needs no room. -/
theorem define_bound (h : m.globals name ≠ none) : define name a m = .ok () (m.assign name a) := by
  have hget : (get : MemoryM Memory) m = .ok m m := rfl
  rw [define, bind_ok hget, if_neg (by simpa using h)]
  rfl

theorem define_free (h : m.globals name = none) :
    define name a m = (room 2 >>= fun _ => modify fun m => m.assign name a) m := by
  have hget : (get : MemoryM Memory) m = .ok m m := rfl
  rw [define, bind_ok hget, if_pos (by rw [h]; rfl)]

end Memory

/-! ## The same computation on both -/

/-- What `x` does to the heap, `y` does to the memory, and what they return is related by `P`,
unless the heap is poisoned. -/
def Mirrors {α β : Type} (I : Machine Collector → (Nat → Prop) → Prop)
    (P : (Nat → Nat → Prop) → β → α → Prop) (x : MutatorM α) (y : MemoryM β) (u : Mutator)
    (m : Memory) : Prop :=
  Ends x u (fun a u' => ∃ b m' S' R', y m = .ok b m' ∧
    Portrays I u' S' R' m' ∧ P R' b a) fun e u' =>
    u'.poisoned = true ∨ ∃ m', y m = .error e m' ∧ ∀ f, e = .failed f → ∃ S' R',
      Portrays I u' S' R' m'

/-- Both find the same thing, or nothing, and nothing changes. -/
def Finds (R : Nat → Nat → Prop) (x : MutatorM (Option Value)) (y : MemoryM (Option Part))
    (u : Mutator) (m : Memory) : Prop :=
  ∃ v a, x u = .ok v u ∧ y m = .ok a m ∧ Option.Rel (Part.Is R) a v

variable {I : Machine Collector → (Nat → Prop) → Prop} {N : Machine Collector → Nat → Nat → Prop}
  {S : Nat → Prop} {R : Nat → Nat → Prop}
  {u : Mutator} {m : Memory} {a b : Part} {v w : Value} {name : String}

namespace Mirrors

variable {α β γ δ : Type} {x : MutatorM α} {y : MemoryM β} {f : α → MutatorM γ} {g : β → MemoryM δ}
  {P : (Nat → Nat → Prop) → β → α → Prop}
  {Q : (Nat → Nat → Prop) → δ → γ → Prop}

theorem bind (hx : Mirrors I P x y u m) (hf : ∀ a b u' m' S' R', Portrays I u' S' R' m' → P R' b a →
      Mirrors I Q (f a) (g b) u' m') : Mirrors I Q (x >>= f) (y >>= g) u m := by
  refine (hx.mono_error ?_).bind ?_
  · rintro e u' (hu' | ⟨m', hy, hm'⟩)
    · exact .inl hu'
    · exact .inr ⟨m', bind_error hy, hm'⟩
  · rintro a u' ⟨b, m', S', R', hy, hp, hab⟩
    unfold Ends
    rw [bind_ok hy]
    exact hf a b u' m' S' R' hp hab

theorem pure {a : α} {b : β} (hp : Portrays I u S R m) (hab : P R b a) :
    Mirrors I P (Pure.pure a) (Pure.pure b) u m :=
  Ends.pure ⟨b, m, S, R, rfl, hp, hab⟩

/-- A first step that changes nothing. -/
theorem step {a : α} {b : β} (hx : x u = .ok a u) (hy : y m = .ok b m)
    (h : Mirrors I Q (f a) (g b) u m) :
    Mirrors I Q (x >>= f) (y >>= g) u m := by
  unfold Mirrors Ends
  rw [bind_ok hx, bind_ok hy]
  exact h

/-- What is found is there for what follows. -/
theorem found {x : MutatorM (Option Value)} {y : MemoryM (Option Part)}
    {f : Option Value → MutatorM γ} {g : Option Part → MemoryM δ} (hx : Finds R x y u m)
    (hnone : Mirrors I Q (f none) (g none) u m)
    (hsome : ∀ a v, a.Is R v → Mirrors I Q (f (some v)) (g (some a)) u m) :
    Mirrors I Q (x >>= f) (y >>= g) u m := by
  obtain ⟨v, a, hv, ha, hrel⟩ := hx
  refine .step hv ha ?_
  cases hrel with
  | none => exact hnone
  | some h => exact hsome _ _ h

/-- What is returned at any rate. -/
theorem some {x : MutatorM Value} {y : MemoryM Part} (hx : Mirrors I Part.Is x y u m) :
    Mirrors I (fun R => Option.Rel (Part.Is R)) (Option.some <$> x) (Option.some <$> y) u m := by
  rw [map_eq_pure_bind, map_eq_pure_bind]
  exact hx.bind fun _ _ _ _ _ _ hp h => .pure hp (.some h)

end Mirrors

namespace Finds

variable {x : MutatorM (Option Value)} {y : MemoryM (Option Part)}
  {f : Option Value → MutatorM (Option Value)}
  {g : Option Part → MemoryM (Option Part)}

theorem pure {a : Option Part} {v : Option Value} (hab : Option.Rel (Part.Is R) a v) :
    Finds R (Pure.pure v) (Pure.pure a) u m :=
  ⟨_, _, rfl, rfl, hab⟩

theorem found (hx : Finds R x y u m) (hnone : Finds R (f none) (g none) u m)
    (hsome : ∀ a v, a.Is R v → Finds R (f (some v)) (g (some a)) u m) :
    Finds R (x >>= f) (y >>= g) u m := by
  obtain ⟨v, a, hv, ha, hrel⟩ := hx
  unfold Finds
  rw [bind_ok hv, bind_ok ha]
  cases hrel with
  | none => exact hnone
  | some h => exact hsome _ _ h

end Finds

namespace Portrays

/-! ## Reading -/

theorem size_eq (hp : Portrays I u S R m) : u.machine.roots.stack.size = m.stack.length :=
  hp.stack.length_eq.symm

/-- There is room on both stacks, or on none. -/
theorem parking_eq (hp : Portrays I u S R m) (n : Nat) :
    Roots.parking u.machine.roots.stack.size u.machine.roots.capacity n =
    Roots.parking m.stack.length m.capacity n := by
  rw [hp.size_eq, hp.capacity]

theorem slot (hp : Portrays I u S R m) (i : Nat) :
    Finds R (Runtime.mutator.slot? i) (Runtime.memory.slot? i) u m := by
  refine ⟨u.machine.roots.stack[i]?, m.stack[i]?, rfl, rfl, ?_⟩
  rw [← Array.getElem?_toList]
  exact forall₂_getElem? hp.stack i

theorem lookup (hl : Laws Collector.operations I N) (hp : Portrays I u S R m) (name : String) :
    Finds R (Runtime.mutator.lookup? name) (Runtime.memory.lookup? name) u m := by
  obtain ⟨Γ, hΓ, hrel⟩ := hp.globals
  have hrun : MutatorM.lookup? name u.machine = .ok (Γ name) u.machine := by
    rw [MutatorM.lookup?_eq]
    exact hΓ.lookup_run hl hp.inv name
  rw [Runtime.mutator_lookup?]
  exact ⟨Γ name, m.globals name, MutatorM.gc_lift hrun, rfl, hrel name⟩

theorem field (hl : Laws Collector.operations I N) (hp : Portrays I u S R m) (half : Half)
    (ha : a.Is R v) :
    Finds R (Runtime.mutator.field? half v) (Runtime.memory.field? half a) u m := by
  have hrun : (liftM (pairField? half.field v) : MutatorM (Option Value)) u =
      .ok (u.machine.heap.fieldAt? half.field v) u :=
    MutatorM.read_lift (pairField?_run (hl.apart hp.inv) (hp.within ha) half.field_eq)
  rw [Runtime.mutator_field?]
  refine ⟨_, _, hrun, rfl, ?_⟩
  rcases hp.draws.pair? ha with ⟨hm, hu⟩ | ⟨n, o, b, c, -, -, -, -, hm, hu, hb, hc⟩
  · rw [Memory.field?, hm, Arena.fieldAt?, hu]
    exact .none
  · rw [Memory.field?, hm, Arena.fieldAt?, hu]
    cases half with
    | car => exact .some hb
    | cdr => exact .some hc

/-- A path leads to the same thing in both. -/
theorem follow? (hl : Laws Collector.operations I N) (hp : Portrays I u S R m) (halves : List Half)
    (ha : a.Is R v) :
    Finds R (Runtime.mutator.follow? halves v) (Runtime.memory.follow? halves a) u m := by
  induction halves generalizing a v with
  | nil => exact .pure (.some ha)
  | cons half halves ih => exact (hp.field hl half ha).found (.pure .none) fun _ _ h => ih h

theorem origin (hl : Laws Collector.operations I N) (hp : Portrays I u S R m) (start : Origin) :
    Finds R (start.read Runtime.mutator) (start.read Runtime.memory) u m := by
  cases start with
  | slot i => exact hp.slot i
  | global name => exact hp.lookup hl name

theorem operand (hl : Laws Collector.operations I N) (hp : Portrays I u S R m) (a : Operand) :
    Finds R (a.read Runtime.mutator) (a.read Runtime.memory) u m := by
  cases a with
  | plain v hv => exact .pure (.some (.plain hv))
  | path start halves =>
    exact (hp.origin hl start).found (.pure .none) fun _ _ h => hp.follow? hl halves h

/-! ## New objects -/

/-- What stops a heap that has no room to park values stops the memory too. -/
theorem stops {β : Type} {u' : Mutator} {n : Nat} {e : Fault} {k : Unit → MemoryM β}
    (hp : Portrays I u S R m) (h : Stops u n e u') :
    u'.poisoned = true ∨ ∃ m', (Memory.room n >>= k) m = .error e m' ∧ ∀ f, e = .failed f → ∃ S' R',
    Portrays I u' S' R' m' := by
  refine h.imp_right fun ⟨hroom, hsame⟩ =>
    ⟨m, bind_error (Memory.room_error (hp.parking_eq n ▸ hroom)), fun f hf => ⟨S, R, ?_⟩⟩
  rw [hsame f hf]
  exact hp

/-- A new object is one more node. -/
theorem made {u' : Mutator} {L S' : Nat → Prop} {ρ : Nat → Nat} {k o n : Nat} {x : Node}
    (hl : Laws Collector.operations I N) (hp : Portrays I u S R m)
    (hm : Made I N L u.machine u'.machine S S' ρ k o n) (hu' : u'.poisoned = false)
    (hx : x.Shown u'.machine.heap (Along R ρ L) o) : ∃ a m' S' R', Memory.add x m = .ok a m' ∧
    Portrays I u' S' R' m' ∧ a.Is R' (.ofRef o) := by
  have hc := hm.moved
  obtain ⟨Γ, ⟨E, hE, -⟩, -⟩ := hp.globals
  refine ⟨_, _, S', With (Along R ρ L) m.nodes.length o, rfl,
    (hp.carried hl hc hu').add hm.mem ?_ ?_ (hx.mono fun _ _ => .inl),
    .node (hl.ref?_ofRef hc.inv hm.mem) (.inr ⟨rfl, rfl⟩)⟩
  · rintro n _ ⟨y, -, hy, rfl⟩
    exact hm.fresh y hy
  · intro hprivate
    obtain ⟨y, -, hy, rfl⟩ := (hc.keeping hl).private hE u.spared_none hprivate
    exact hm.fresh y hy rfl

theorem cons_mirrors (hl : Laws Collector.operations I N) (hp : Portrays I u S R m) (ha : a.Is R v)
    (hb : b.Is R w) :
    Mirrors I Part.Is (MutatorM.cons v w) (Memory.cons a b) u m := by
  refine ((MutatorM.cons_ends hl hp.inv hp.clean (hp.within ha) (hp.within hb)).mono ?_).mono_error
    fun _ _ h => hp.stops h
  rintro r u' ⟨hu', hroom, ρ, S', k, o, rfl, -, hm, hword, hcar, hcdr⟩
  have hrun : Memory.cons a b m = Memory.add (.pair a b) m :=
    bind_ok (Memory.room_ok (hp.parking_eq 2 ▸ hroom))
  have hn := (hl.named hm.moved.inv).image hm.moved.kept
  rw [hrun]
  refine hp.made hl hm hu' ⟨Arena.tag_of_objectWord hword, ?_, ?_⟩
  · rw [hcar]
    exact ha.along (Machine.within_live (by simp) (hp.within ha)) hn
  · rw [hcdr]
    exact hb.along (Machine.within_live (by simp) (hp.within hb)) hn

/-- An object without references. -/
theorem filled_mirrors {x : MutatorM Value} {ws : List Word} (hl : Laws Collector.operations I N)
    (hp : Portrays I u S R m)
    (hx : Ends x u (MutatorM.MadeOfWords I N u S ws) fun _ u' => u'.poisoned = true) :
    Mirrors I Part.Is x (Memory.add (.leaf ws)) u m := by
  refine (hx.mono ?_).mono_error fun _ _ h => .inl h
  rintro r u' ⟨hu', ρ, S', k, o, rfl, -, hm, ht, hholds⟩
  exact hp.made hl hm hu' ⟨ht, hholds⟩

/-- A text that does not fit into the memory does not fit into the heap either: that is told, or it
is a trap. -/
theorem text_mirrors {tag : Tag} (hl : Laws Collector.operations I N) (hp : Portrays I u S R m)
    (ht : tag = .string ∨ tag = .symbol) (s : String) :
    Mirrors I Part.Is (MutatorM.text tag (Text.encode s)) (Memory.text tag s) u m := by
  have hmakes := MutatorM.text_constructs ht (Text.encode s)
  have hwords := MutatorM.textWords_eq (Text.encode s)
  unfold Memory.text
  by_cases hfits : Text.Fits s
  · rw [if_pos hfits]
    exact hp.filled_mirrors hl (hmakes.ends_of_lt hl hp.inv hp.clean (hwords ▸ hfits))
  · rw [if_neg hfits]
    refine ((hmakes.ends hl hp.inv hp.clean).mono ?_).mono_error fun e u' h => h.imp_right ?_
    · rintro r u' ⟨-, ρ, S', k, o, -, -, hm, -⟩
      have hin := hl.new_inside hm.moved.inv hm.mem hm.new
      have hsmall := hl.small hm.moved.inv
      rw [Text.Fits, hwords, tableLimit] at hfits
      simp only [List.length_cons] at hin
      omega
    · rintro ⟨rfl, -⟩
      exact ⟨m, rfl, fun f hf => by cases hf⟩

theorem duplicate_mirrors (hl : Laws Collector.operations I N) (hp : Portrays I u S R m)
    (ha : a.Is R v) :
    Mirrors I Part.Is (MutatorM.duplicate v) (Memory.duplicate a) u m := by
  cases ha with
  | plain hv =>
    exact .of_eq (MutatorM.duplicate_immediate hv) ⟨.plain v, m, S, R, rfl, hp, .plain hv⟩
  | @node n src hr hR =>
    obtain ⟨x, hx, hs⟩ := hp.draws.shown hR
    refine ((MutatorM.duplicate_ends hl hp.inv hp.clean
      (hp.within (.node hr hR)) hr).mono ?_).mono_error fun _ _ h => hp.stops h
    rintro r u' ⟨hu', hroom, ρ, S', k, o, rfl, -, hm, hcopy⟩
    have hget : (get : MemoryM Memory) m = .ok m m := rfl
    have hrun : Memory.duplicate (.node n) m = Memory.add x m := by
      rw [Memory.duplicate, bind_ok (Memory.room_ok (hp.parking_eq 1 ▸ hroom)), bind_ok hget, hx]
    have hf := hm.moved.follows hl
    have hlive : u.machine.Live [.ofRef src] src := .root (.inr ⟨_, by simp, hr⟩)
    rw [hrun]
    refine hp.made hl hm hu' ((hs.along hf hlive ⟨id, id⟩).copied ?_ fun i hi => ?_)
    · rw [hf.tag hlive]
      exact hf.known src hlive
    · exact hcopy i (by rwa [hf.payload hlive] at hi)

/-! ## The stack -/

theorem push_mirrors (hl : Laws Collector.operations I N) (hp : Portrays I u S R m)
    (ha : a.Is R v) :
    Mirrors I (fun _ _ _ => True) (MutatorM.push v) (Memory.push a) u m := by
  refine ((MutatorM.push_ends hl hp.inv hp.clean hp.parked (hp.within ha)).mono ?_).mono_error ?_
  · rintro - u' ⟨hu', hroom, hi', hsame, hroots, -, -⟩
    have hrun : Memory.push a m = .ok () { m with stack := m.stack ++ [a] } :=
      bind_ok (Memory.room_ok (hp.parking_eq 1 ▸ hroom))
    refine ⟨(), _, _, _, hrun, hp.left hl hi' (fun _ h => h) hsame hu' (by rw [hroots])
      (by rw [hroots]) (by rw [hroots]; rfl) ?_, trivial⟩
    rw [hroots, Array.toList_push]
    exact List.rel_append hp.stack (.cons ha .nil)
  · rintro e u' ⟨hroom, rfl⟩
    exact .inr ⟨m, bind_error (Memory.room_error (hp.parking_eq 1 ▸ hroom)), fun _ _ => ⟨S, R, hp⟩⟩

theorem pop_mirrors (hl : Laws Collector.operations I N) (hp : Portrays I u S R m) :
    Mirrors I (fun _ _ _ => True) MutatorM.pop Memory.pop u m := by
  have hsize := hp.size_eq
  cases hback : u.machine.roots.stack.back? with
  | none =>
    rw [Array.back?_eq_none_iff] at hback
    have hempty : m.stack = [] := List.length_eq_zero_iff.mp (by rw [← hsize, hback]; rfl)
    have hrun : Memory.pop m = .error (.failed .stackUnderflow) m := by rw [Memory.pop, hempty]; rfl
    exact .of_error (MutatorM.pop_empty hl hp.inv hp.clean (by rw [hback]; rfl))
      (.inr ⟨m, hrun, fun _ _ => ⟨S, R, hp⟩⟩)
  | some v =>
    have hne : m.stack ≠ [] := by
      intro hempty
      rw [hempty] at hsize
      rw [Array.eq_empty_of_size_eq_zero hsize] at hback
      cases hback
    refine ((MutatorM.pop_ends hl hp.inv hp.clean hp.parked hback).mono ?_).mono_error
      fun _ _ h => .inl h
    rintro - u' ⟨hu', -, S', hleft, hsame, hroots⟩
    have hrun : Memory.pop m = .ok (m.stack.getLast hne) { m with stack := m.stack.dropLast } := by
      rw [Memory.pop, List.getLast?_eq_some_getLast hne]
    refine ⟨_, _, _, _, hrun, hp.left hl hleft.inv hleft.subset hsame hu' (by rw [hroots])
      (by rw [hroots]) (by rw [hroots]; rfl) ?_, trivial⟩
    rw [hroots, Array.toList_pop]
    exact forall₂_dropLast hp.stack

/-- A slot that exists is written. -/
theorem writeSlot_mirrors {i : Nat} (hl : Laws Collector.operations I N) (hp : Portrays I u S R m)
    (hold : u.machine.roots.get? (.stack i) = some w) (ha : a.Is R v) :
    Mirrors I (fun _ _ _ => True) (Runtime.mutator.writeSlot i v)
    (Runtime.memory.writeSlot i a) u m := by
  refine ((MutatorM.writeRoot_ends hl hp.inv hp.clean hp.parked hold (hp.within ha)).mono
    ?_).mono_error fun _ _ h => .inl h
  rintro - u' ⟨hu', S', hleft, hsame, hroots⟩
  refine ⟨(), { m with
    stack := m.stack.set i a }, _, _, rfl, hp.left hl hleft.inv hleft.subset hsame hu'
      (by rw [hroots]; rfl)
    (by rw [hroots]; rfl) (by rw [hroots]; rfl) ?_, trivial⟩
  rw [hroots, Roots.set, Array.toList_setIfInBounds]
  exact forall₂_set hp.stack ha i

/-! ## Fields -/

theorem setField_mirrors (hl : Laws Collector.operations I N) (hp : Portrays I u S R m)
    (half : Half) (ha : a.Is R v) (hb : b.Is R w) :
    Mirrors I (fun _ _ _ => True) (Runtime.mutator.setField half v w)
    (Runtime.memory.setField half a b) u m := by
  have hrun : Runtime.memory.setField half a b m = .ok () (m.setField half a b) := rfl
  rcases hp.draws.pair? ha with ⟨hm, hu⟩ | ⟨n, o, c, d, hR, rfl, rfl, hn, hm, hu, -, -⟩
  · refine .of_eq (MutatorM.setPairField_absent hl hp.inv (hp.within ha) hu)
      ⟨(), m, S, R, ?_, hp, trivial⟩
    rw [hrun, Memory.setField, hm]
  · refine ((MutatorM.setPairField_ends hl hp.inv hp.clean hp.parked (hp.within ha)
      (hp.within hb) half.field_eq hu).mono ?_).mono_error
      fun _ _ h => .inl h
    rintro - u' ⟨hu', S', hleft, hst, hroots⟩
    refine ⟨(), _, _, _, ?_, hp.setField hl hR hn hb hleft hst hroots hu', trivial⟩
    rw [hrun, Memory.setField, hm]

/-! ## Collections -/

theorem collect_mirrors {x : MutatorM Unit} (hl : Laws Collector.operations I N)
    (hp : Portrays I u S R m)
    (hx : Ends x u (fun _ u' => u'.poisoned = false ∧ ∃ ρ S' k, k ≤ 3 ∧
      Moved I u.machine u'.machine S S' ρ k) fun _ u' => u'.poisoned = true) :
    Mirrors I (fun _ _ _ => True) x (pure ()) u m := by
  refine (hx.mono ?_).mono_error fun _ _ h => .inl h
  rintro - u' ⟨hu', ρ, S', k, -, hm⟩
  exact ⟨(), m, S', _, rfl, hp.carried hl hm hu', trivial⟩

/-! ## Names -/

theorem define_mirrors (hl : Laws Collector.operations I N) (hp : Portrays I u S R m)
    (ha : a.Is R v) (hbrief : (Text.encode name).length < 0x100000000000000) :
    Mirrors I (fun _ _ _ => True) (MutatorM.define name v) (Memory.define name a) u m := by
  obtain ⟨Γ, ⟨E, hE, hval⟩, hrel⟩ := hp.globals
  have hname := hrel name
  refine MutatorM.define_ends ?_
  rw [MutatorM.defineAt_eq]
  refine .step (MutatorM.check_run hp.clean)
    (.step (MutatorM.gc_lift (hE.entryAt?_run hl hp.inv name)) ?_)
  cases he : E name with
  | some e =>
    have hS := hE.mem hl hp.inv he
    have hpair : u.machine.heap.pairAt? (.ofRef e) = some e :=
      Arena.pairAt?_eq_some.mpr ⟨hl.ref?_ofRef hp.inv hS, hE.entry_pair he⟩
    have hbound : m.globals name ≠ none := by
      intro hnone
      rw [hnone, hval name, he] at hname
      cases hname
    refine ((MutatorM.setPairField_ends hl hp.inv hp.clean hp.parked (hl.ofRef_within hp.inv hS)
      (hp.within ha) (.inr rfl) hpair).mono ?_).mono_error
      fun _ _ h => .inl h
    rintro - u' ⟨hu', S', hleft, hst, hroots⟩
    exact ⟨(), _, _, _, Memory.define_bound hbound,
      hp.redefined hl hE hval hrel he ha hleft hst hroots hu', trivial⟩
  | none =>
    have hfree : m.globals name = none := by
      rw [hval name, he] at hname
      generalize m.globals name = d at hname
      cases hname
      rfl
    rw [Memory.define_free hfree]
    obtain ⟨head, hh⟩ := hE.head name
    refine ((MutatorM.bindNew_ends hl hp.inv hp.clean hp.parked (hp.within ha) hh name).mono
      fun _ u' h => ?_).mono_error fun e u' h => ?_
    · obtain ⟨S', R', hp'⟩ := hp.bound hl hE hval hrel he ha hh hbrief h
      exact ⟨(), _, S', R', bind_ok (Memory.room_ok (hp.parking_eq 2 ▸ h.2.1)), hp', trivial⟩
    · -- the text of the name may have been made, and what the roots reach may have moved
      rcases h.of_short hbrief with hpoisoned | hroom
      · exact .inl hpoisoned
      · refine h.reported.imp_right fun hmoved =>
          ⟨m, bind_error (Memory.room_error (hp.parking_eq 2 ▸ hroom)), fun f hf => ?_⟩
        obtain ⟨hu', ρ, S', k, -, hm⟩ := hmoved f hf
        exact ⟨S', _, hp.carried hl hm hu'⟩

end Portrays

/-! ## Steps -/

/-- The name can be told from all others: an object word has 56 bits for the length of a text. -/
def Sink.Brief : Sink → Prop
  | global name => (Text.encode name).length < 0x100000000000000
  | _ => True

def Step.Brief : Step → Prop
  | put _ sink | make _ sink => sink.Brief
  | _ => True

theorem Sink.mirrors (hl : Laws Collector.operations I N) (hp : Portrays I u S R m) {sink : Sink}
    (hbrief : sink.Brief) (ha : a.Is R v) :
    Mirrors I (fun _ _ _ => True) (sink.take Runtime.mutator v)
    (sink.take Runtime.memory a) u m := by
  cases sink with
  | push => exact hp.push_mirrors hl ha
  | slot i =>
    have hv : Runtime.mutator.slot? i u = .ok (u.machine.roots.get? (.stack i)) u := rfl
    have hd : Runtime.memory.slot? i m = .ok m.stack[i]? m := rfl
    have hrel : Option.Rel (Part.Is R) m.stack[i]? (u.machine.roots.get? (.stack i)) := by
      rw [Roots.get?, ← Array.getElem?_toList]
      exact forall₂_getElem? hp.stack i
    refine .step hv hd ?_
    cases hold : u.machine.roots.get? (.stack i) with
    | none =>
      rw [hold] at hrel
      generalize m.stack[i]? = d at hrel ⊢
      cases hrel
      exact .pure hp trivial
    | some w =>
      rw [hold] at hrel
      generalize m.stack[i]? = d at hrel ⊢
      cases hrel
      exact hp.writeSlot_mirrors hl hold ha
  | global name => exact hp.define_mirrors hl ha hbrief

theorem Recipe.mirrors (hl : Laws Collector.operations I N) (hp : Portrays I u S R m)
    (recipe : Recipe) :
    Mirrors I (fun R => Option.Rel (Part.Is R)) (recipe.make Runtime.mutator)
    (recipe.make Runtime.memory) u m := by
  cases recipe with
  | cons car cdr =>
    refine .found (hp.operand hl car) ?_ fun a v ha => ?_
    · exact .found (hp.operand hl cdr) (.pure hp .none) fun _ _ _ => .pure hp .none
    · exact .found (hp.operand hl cdr) (.pure hp .none) fun _ _ hb =>
        (hp.cons_mirrors hl ha hb).some
  | char c =>
    exact (hp.filled_mirrors hl
      ((MutatorM.char_constructs c).ends_of_lt hl hp.inv hp.clean (by decide))).some
  | string s => exact (hp.text_mirrors hl (.inl rfl) s).some
  | symbol s => exact (hp.text_mirrors hl (.inr rfl) s).some
  | lambda entry params variadic =>
    have hlt : 3 < tableLimit := by decide
    exact (hp.filled_mirrors hl
      ((MutatorM.lambda_constructs entry params variadic).ends_of_lt hl hp.inv hp.clean hlt)).some
  | duplicate a =>
    exact .found (hp.operand hl a) (.pure hp .none) fun _ _ ha => (hp.duplicate_mirrors hl ha).some

/-- What a step does to the heap, it does to the memory. -/
theorem Step.mirrors (hl : Laws Collector.operations I N) (hp : Portrays I u S R m) {step : Step}
    (hbrief : step.Brief) :
    Mirrors I (fun _ _ _ => True) (step.run Runtime.mutator) (step.run Runtime.memory) u m := by
  cases step with
  | put a sink =>
    exact .found (hp.operand hl a) (.pure hp trivial) fun _ _ ha => Sink.mirrors hl hp hbrief ha
  | make recipe sink =>
    refine (recipe.mirrors hl hp).bind fun r d u' m' S' R' hp' hrel => ?_
    cases hrel with
    | none => exact .pure hp' trivial
    | some ha => exact Sink.mirrors hl hp' hbrief ha
  | setField half pair a =>
    refine .found (hp.operand hl pair) ?_ fun _ _ hpair => ?_
    · exact .found (hp.operand hl a) (.pure hp trivial) fun _ _ _ => .pure hp trivial
    · exact .found (hp.operand hl a) (.pure hp trivial) fun _ _ ha =>
        hp.setField_mirrors hl half hpair ha
  | pop => exact (hp.pop_mirrors hl).bind fun _ _ _ _ _ _ hp' _ => .pure hp' trivial
  | lookup name => exact .found (hp.lookup hl name) (.pure hp trivial) fun _ _ _ => .pure hp trivial
  | collect => exact hp.collect_mirrors hl (MutatorM.collect_ends hl hp.inv hp.clean)
  | collectFull => exact hp.collect_mirrors hl (MutatorM.collectFull_ends hl hp.inv hp.clean)

end Reclaim
