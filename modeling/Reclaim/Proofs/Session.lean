import Reclaim.Mutator.Inspect
import Reclaim.Proofs.Globals

/-!
# Sessions

A session is a program at work: it starts with a new heap and gives one command after the other. A
command may be given immediate values, references to objects that are reachable from the roots, and
references to objects that are reachable from a value that an earlier command returned, as long as
there was no collection since and the object was not reclaimed. A session goes on after an operand
stack failure, and ends when the heap is poisoned.

Results:
* `Command.run_ends`: one command keeps the invariant of the collector.
* `Session.steady`: so does a whole session.
-/

namespace Reclaim

/-- What a program may ask of its heap. -/
inductive Command where
  | allocate (bytes : Nat)
  | char (c : Char)
  | string (s : String)
  | symbol (s : String)
  | cons (car cdr : Value)
  | lambda (entry params : Int) (variadic : Bool)
  | duplicate (v : Value)
  | setCar (pair v : Value)
  | setCdr (pair v : Value)
  | push (v : Value)
  | pop
  | writeRoot (slot : RootSlot) (v : Value)
  | define (name : String) (v : Value)
  | collect
  | collectFull
  | setStress (on : Bool)
  | peek (depth : Nat)
  | car (v : Value)
  | cdr (v : Value)
  | lookup (name : String)

namespace Command

/-- The values that a command is given. -/
def operands : Command → List Value
  | cons a b => [a, b]
  | duplicate v | push v | writeRoot _ v | define _ v | car v | cdr v => [v]
  | setCar pair v | setCdr pair v => [pair, v]
  | _ => []

/-- The commands that make an object and change none. -/
def Creates : Command → Prop
  | allocate _ | char _ | string _ | symbol _ | cons _ _ | lambda _ _ _ | duplicate _ => True
  | _ => False

/-- Carries out a command; the values that it returns. -/
def run : Command → MutatorM (List Value)
  | allocate bytes => do return [.ofRef (← MutatorM.allocate bytes)]
  | char c => do return [← MutatorM.char c]
  | string s => do return [← MutatorM.string s]
  | symbol s => do return [← MutatorM.symbol s]
  | cons a b => do return [← MutatorM.cons a b]
  | lambda entry params variadic => do return [← MutatorM.lambda entry params variadic]
  | duplicate v => do return [← MutatorM.duplicate v]
  | setCar pair v => do
    MutatorM.setCar pair v
    return []
  | setCdr pair v => do
    MutatorM.setCdr pair v
    return []
  | push v => do
    MutatorM.push v
    return []
  | pop => do return [← MutatorM.pop]
  | writeRoot slot v => do
    MutatorM.writeRoot slot v
    return []
  | define name v => do
    MutatorM.define name v
    return []
  | collect => do
    MutatorM.collect
    return []
  | collectFull => do
    MutatorM.collectFull
    return []
  | setStress on => do
    MutatorM.setStress on
    return []
  | peek depth => do return ((← get).peek? depth).toList
  | car v => do return (← car? v).toList
  | cdr v => do return (← cdr? v).toList
  | lookup name => do return (← MutatorM.lookup? name).toList

end Command

/-! ## Sessions -/

/-- A value that a program may use when it still holds on to the objects of `H`: an immediate value,
or a reference to an object that the roots or those objects reach. -/
def Mutator.Allows (u : Mutator) (H : Nat → Prop) (v : Value) : Prop :=
  v.Within (Reach u.machine.heap fun o => u.machine.roots.Refers o ∨ H o)

/-- The object is still listed by the collector. -/
def Mutator.Lists (u : Mutator) (o : Nat) : Prop := ∃ listed n, u.objects = .ok listed ∧
    (o, n) ∈ listed

theorem Left.listed_of {I : Machine Collector → (Nat → Prop) → Prop} {u u' : Mutator}
    {S S' : Nat → Prop} {o : Nat} (h : Left Collector.operations I u.machine u'.machine S S')
    (ho : S o) (hlist : u'.Lists o) : S' o := by
  obtain ⟨listed, n, hrun, hmem⟩ := hlist
  exact h.listed o n ho ⟨listed, hrun, hmem⟩

/-- What a program holds on to after a command that returned `vs`: what was returned, and what it
held on to before if there was no collection; without what was reclaimed. -/
def Mutator.held (u u' : Mutator) (H : Nat → Prop) (vs : List Value) (o : Nat) : Prop :=
  ((u'.machine.stats.collections = u.machine.stats.collections ∧ H o) ∨ ∃ v ∈ vs,
    v.ref? = some o) ∧ u'.Lists o

/-- The command ends with a result, or with a failure that the heap reports. -/
def Command.Gives (cmd : Command) (u : Mutator) (vs : List Value) (u' : Mutator) : Prop :=
  cmd.run u = .ok vs u' ∨ ∃ f, cmd.run u = .error (.failed f) u' ∧ vs = []

/-- The heap `u` is a new one that `c` describes, whatever hash spreads the names of its globals. -/
def Config.Makes (c : Config) (u : Mutator) : Prop := ∃ hash, Mutator.create c hash = .ok u

/-- The heap `u` and the objects `H` that the program still holds on to, after some commands on a
new heap. A fatal failure poisons the heap, and the session is over. -/
inductive Session (c : Config) : Mutator → (Nat → Prop) → Prop where
  | start {u : Mutator} : c.Makes u → Session c u fun _ => False
  | step {u u' : Mutator} {H : Nat → Prop} {cmd : Command} {vs : List Value} :
      Session c u H → (∀ v ∈ cmd.operands, u.Allows H v) → cmd.Gives u vs u' → u'.poisoned = false →
        Session c u' (u.held u' H vs)

/-! ## Commands and the invariant -/

/-- From one command to the next: the objects of `S'` may be used afterwards, among them those of
`S` that are still there if there was no collection. -/
structure Advances (I : Machine Collector → (Nat → Prop) → Prop) (u u' : Mutator)
    (S S' : Nat → Prop) : Prop where
  inv : I u'.machine S'
  parked : u'.machine.roots.parked = u.machine.roots.parked
  kept : u'.machine.stats.collections = u.machine.stats.collections → ∀ o, S o → u'.Lists o → S' o

/-- The value may be used, unless its object was reclaimed. -/
def Usable (u' : Mutator) (S' : Nat → Prop) (v : Value) : Prop := ∀ o, v.ref? = some o →
    u'.Lists o → S' o

section Advances

variable {I : Machine Collector → (Nat → Prop) → Prop} {N : Machine Collector → Nat → Nat → Prop}
  {L S S' S'' : Nat → Prop} {u u' : Mutator} {ρ : Nat → Nat} {k : Nat}

theorem ofNat_eq_zero {w : UInt64} (hk : k < 100) (h : w + UInt64.ofNat k = w) : k = 0 := by
  have h' := congrArg UInt64.toNat h
  rw [UInt64.toNat_add, toNat_ofNat_of_lt (by omega)] at h'
  have hw := w.toNat_lt
  omega

theorem Carried.advances (h : Carried I L u.machine u'.machine S S' ρ k) (hk : k < 100) :
    Advances I u u' S S' :=
  ⟨h.inv, h.roots.parked, fun hc o ho _ =>
    (h.quiet (ofNat_eq_zero hk (h.cycles.symm.trans hc)) o ho).2⟩

theorem Left.advances (h : Left Collector.operations I u.machine u'.machine S S')
    (hp : u'.machine.roots.parked = u.machine.roots.parked) : Advances I u u' S S' :=
  ⟨h.inv, hp, fun _ _ ho hlist => h.listed_of ho hlist⟩

/-- Some collections, and then an operation that leaves objects in place. -/
theorem Carried.advances_left {u₁ : Mutator} (h : Carried I L u.machine u₁.machine S S' ρ k)
    (hk : k < 99) (h' : Left Collector.operations I u₁.machine u'.machine S' S'')
    (hp : u'.machine.roots.parked = u₁.machine.roots.parked) :
    Advances I u u' S S'' := by
  refine ⟨h'.inv, hp.trans h.roots.parked, fun hc o ho hlist => ?_⟩
  obtain ⟨l, hl, hcyc⟩ := h'.cycles
  rw [hcyc, h.cycles, UInt64.add_assoc, ← UInt64.ofNat_add] at hc
  have hz := ofNat_eq_zero (by omega) hc
  exact h'.listed_of (h.quiet (by omega) o ho).2 hlist

theorem advances_refl (hi : I u.machine S) : Advances I u u S S := ⟨hi, rfl, fun _ _ ho _ => ho⟩

theorem usable_ofRef {o : Nat} (hn : Value.Named S') (ho : S' o) : Usable u' S' (.ofRef o) := by
  intro c hc _
  obtain ⟨h0, hlt⟩ := hn o ho
  rw [Value.ref?_ofRef h0 (by omega)] at hc
  cases hc
  exact ho

theorem usable_within {v : Value} (hv : v.Within S') : Usable u' S' v := fun o ho _ => (hv o ho).2

/-- What a command that returns `vs` leaves. -/
def Leaves (I : Machine Collector → (Nat → Prop) → Prop) (u : Mutator) (S : Nat → Prop)
    (vs : List Value) (u' : Mutator) : Prop :=
  u'.poisoned = false ∧ ∃ S', Advances I u u' S S' ∧ ∀ v ∈ vs, Usable u' S' v

/-- What a command that fails leaves, if the heap is not poisoned. -/
def Breaks (I : Machine Collector → (Nat → Prop) → Prop) (u : Mutator) (S : Nat → Prop) (e : Fault)
    (u' : Mutator) : Prop :=
  u'.poisoned = true ∨ ∀ f, e = .failed f → u'.poisoned = false ∧ ∃ S', Advances I u u' S S'

theorem Stops.breaks {n : Nat} {e : Fault} (hi : I u.machine S) (hu : u.poisoned = false)
    (h : Stops u n e u') : Breaks I u S e u' := by
  refine h.imp id fun h f hf => ?_
  rw [h.2 f hf]
  exact ⟨hu, S, advances_refl hi⟩

end Advances

/-! ## Each command -/

namespace Command

variable {α : Type} {I : Machine Collector → (Nat → Prop) → Prop}
  {N : Machine Collector → Nat → Nat → Prop}
  {S : Nat → Prop} {u : Mutator} {v : Value}

/-- A command that returns what `x` makes. -/
theorem returns {x : MutatorM α} {f : α → List Value} {Q : α → Mutator → Prop}
    {E : Fault → Mutator → Prop} (hx : Ends x u Q E) (hq : ∀ a u', Q a u' → Leaves I u S (f a) u')
    (he : ∀ e u', E e u' → Breaks I u S e u') :
    Ends (do return f (← x)) u (Leaves I u S) (Breaks I u S) :=
  (hx.mono_error he).bind fun a u' h => .pure (hq a u' h)

theorem allocate_ends (hl : Laws Collector.operations I N) (hi : I u.machine S)
    (hu : u.poisoned = false) (bytes : Nat) :
    Ends (allocate bytes).run u (Leaves I u S) (Breaks I u S) := by
  refine returns (MutatorM.allocateWords_ends hl hi hu (by omega)) ?_ fun _ _ h =>
    h.imp id MutatorM.Uncounted.silent
  rintro o u' ⟨hu', ρ, S', k, hk, hm, -⟩
  refine ⟨hu', S', hm.moved.advances (by omega), ?_⟩
  simpa using usable_ofRef (hl.named hm.moved.inv) hm.mem

theorem filled_leaves (hl : Laws Collector.operations I N) {ws : List Word} {u' : Mutator}
    (h : MutatorM.MadeOfWords I N u S ws v u') :
    Leaves I u S [v] u' := by
  obtain ⟨hu', ρ, S', k, o, rfl, hk, hm, -⟩ := h
  refine ⟨hu', S', hm.moved.advances (by omega), ?_⟩
  simpa using usable_ofRef (hl.named hm.moved.inv) hm.mem

theorem cons_leaves (hl : Laws Collector.operations I N) (hi : I u.machine S)
    (hu : u.poisoned = false) {a b : Value} (ha : a.Within S) (hb : b.Within S) :
    Ends (cons a b).run u (Leaves I u S) (Breaks I u S) := by
  refine returns (MutatorM.cons_ends hl hi hu ha hb) ?_ fun _ _ h => h.breaks hi hu
  rintro v u' ⟨hu', -, ρ, S', k, o, rfl, hk, hm, -⟩
  refine ⟨hu', S', hm.moved.advances (by omega), ?_⟩
  simpa using usable_ofRef (hl.named hm.moved.inv) hm.mem

theorem duplicate_leaves (hl : Laws Collector.operations I N) (hi : I u.machine S)
    (hu : u.poisoned = false) (hv : v.Within S) :
    Ends (duplicate v).run u (Leaves I u S) (Breaks I u S) := by
  cases hr : v.ref? with
  | none =>
    refine returns (Ends.of_eq (Q := fun a u' => a = v ∧ u' = u)
      (MutatorM.duplicate_immediate hr) ⟨rfl, rfl⟩) ?_ fun _ _ h => h
    rintro a u' ⟨rfl, rfl⟩
    refine ⟨hu, S, advances_refl hi, ?_⟩
    simpa using usable_within hv
  | some src =>
    refine returns (MutatorM.duplicate_ends hl hi hu hv hr) ?_ fun _ _ h => h.breaks hi hu
    rintro v u' ⟨hu', -, ρ, S', k, o, rfl, hk, hm, -⟩
    refine ⟨hu', S', hm.moved.advances (by omega), ?_⟩
    simpa using usable_ofRef (hl.named hm.moved.inv) hm.mem

theorem setPairField_leaves (hl : Laws Collector.operations I N) (hi : I u.machine S)
    (hu : u.poisoned = false) (hpark : u.machine.roots.parked = 0) {pair : Value}
    (hp : pair.Within S) (hv : v.Within S) {i : Nat} (hio : i = 1 ∨ i = 2) :
    Ends (MutatorM.setPairField i pair v) u (fun _ => Leaves I u S []) (Breaks I u S) := by
  cases ho : u.machine.heap.pairAt? pair with
  | none =>
    exact .of_eq (MutatorM.setPairField_absent hl hi hp ho) ⟨hu, S, advances_refl hi, by simp⟩
  | some o =>
    refine ((MutatorM.setPairField_ends hl hi hu hpark hp hv hio ho).mono ?_).mono_error
      fun _ _ h => .inl h
    rintro - u' ⟨hu', S', hleft, -, hroots⟩
    exact ⟨hu', S', hleft.advances (by rw [hroots]), by simp⟩

theorem push_leaves (hl : Laws Collector.operations I N) (hi : I u.machine S)
    (hu : u.poisoned = false) (hpark : u.machine.roots.parked = 0) (hv : v.Within S) :
    Ends (push v).run u (Leaves I u S) (Breaks I u S) := by
  refine returns (f := fun _ => []) (MutatorM.push_ends hl hi hu hpark hv) ?_ ?_
  · rintro - u' ⟨hu', -, hi', -, hroots, -, -⟩
    exact ⟨hu', S, ⟨hi', by rw [hroots], fun _ _ ho _ => ho⟩, by simp⟩
  · rintro e u' ⟨-, rfl⟩
    exact .inr fun _ _ => ⟨hu, S, advances_refl hi⟩

theorem pop_leaves (hl : Laws Collector.operations I N) (hi : I u.machine S)
    (hu : u.poisoned = false) (hpark : u.machine.roots.parked = 0) :
    Ends pop.run u (Leaves I u S) (Breaks I u S) := by
  cases hv : u.machine.roots.stack.back? with
  | none =>
    refine (Ends.of_error (Q := fun _ _ => False) (MutatorM.pop_empty hl hi hu hv) ?_).bind
      fun _ _ h => h.elim
    exact .inr fun _ _ => ⟨hu, S, advances_refl hi⟩
  | some v =>
    have hw : v.Within S := by
      rw [Array.back?_eq_getElem?] at hv
      exact hl.roots hi (.stack _) v hv
    refine returns (MutatorM.pop_ends hl hi hu hpark hv) ?_ fun _ _ h => .inl h
    rintro w u' ⟨hu', rfl, S', hleft, -, hroots⟩
    refine ⟨hu', S', hleft.advances (by rw [hroots]), ?_⟩
    simp only [List.mem_singleton, forall_eq]
    exact fun o ho hlist => hleft.listed_of (hw o ho).2 hlist

theorem writeRoot_leaves (hl : Laws Collector.operations I N) (hi : I u.machine S)
    (hu : u.poisoned = false) (hpark : u.machine.roots.parked = 0) (slot : RootSlot)
    (hv : v.Within S) :
    Ends (writeRoot slot v).run u (Leaves I u S) (Breaks I u S) := by
  cases hs : u.machine.roots.get? slot with
  | none =>
    obtain ⟨u', hrun⟩ := MutatorM.writeRoot_absent hl hi hu hs hv
    refine (Ends.of_error (Q := fun _ _ => False) hrun ?_).bind fun _ _ h => h.elim
    exact .inr fun f hf => by cases hf
  | some old =>
    refine returns (f := fun _ => []) (MutatorM.writeRoot_ends hl hi hu hpark hs hv) ?_
      fun _ _ h => .inl h
    rintro - u' ⟨hu', S', hleft, -, hroots⟩
    refine ⟨hu', S', hleft.advances ?_, by simp⟩
    rw [hroots]
    cases slot <;> rfl

theorem bound_leaves {u' : Mutator} {bucket : Nat} {name : String} {head : Value}
    (h : MutatorM.Bound I u u' S bucket name v head) : Leaves I u S [] u' := by
  obtain ⟨hu', -, u₁, ρ, S₁, S', k, key, entry, link, hk, hlink, hleft, -, hroots⟩ := h
  exact ⟨hu', S', hlink.carried.advances_left (by omega) hleft (by rw [hroots]; rfl), by simp⟩

theorem defineAt_leaves (hl : Laws Collector.operations I N) (hi : I u.machine S)
    (hu : u.poisoned = false) (hpark : u.machine.roots.parked = 0) (bucket : Nat) (name : String)
    (hv : v.Within S) :
    Ends (MutatorM.defineAt bucket name v) u (fun _ => Leaves I u S []) (Breaks I u S) := by
  rw [MutatorM.defineAt_eq]
  refine .step (MutatorM.check_run hu) ?_
  rcases MutatorM.entryAt?_ends hl hi bucket name with ⟨head, r, hh, hrun, hrw⟩ | ⟨e, hne, hrun⟩
  · refine .step (MutatorM.gc_lift hrun) ?_
    cases r with
    | some entry => exact setPairField_leaves hl hi hu hpark (hrw entry rfl) hv (.inr rfl)
    | none =>
      refine ((MutatorM.bindNew_ends hl hi hu hpark hv hh name).mono
        fun _ _ h => bound_leaves h).mono_error fun e u' h => ?_
      refine h.reported.imp id fun h f hf => ?_
      obtain ⟨hu', ρ, S', k, hk, hmv⟩ := h f hf
      exact ⟨hu', S', hmv.advances (by omega)⟩
  · refine (Ends.of_error (Q := fun _ _ => False) (MutatorM.gc_lift_error hrun) ?_).bind
      fun _ _ h => h.elim
    exact .inr fun f hf => absurd hf (hne f)

theorem define_leaves (hl : Laws Collector.operations I N) (hi : I u.machine S)
    (hu : u.poisoned = false) (hpark : u.machine.roots.parked = 0) (name : String)
    (hv : v.Within S) :
    Ends (define name v).run u (Leaves I u S) (Breaks I u S) := by
  have hdef : Ends (MutatorM.define name v) u (fun _ => Leaves I u S []) (Breaks I u S) :=
    MutatorM.define_ends (defineAt_leaves hl hi hu hpark _ name hv)
  exact returns (f := fun _ => []) hdef (fun _ _ h => h) fun _ _ h => h

theorem collect_leaves {x : MutatorM Unit}
    (hx : Ends x u (fun _ u' => u'.poisoned = false ∧ ∃ ρ S' k, k ≤ 3 ∧
      Moved I u.machine u'.machine S S' ρ k) fun _ u' =>
      u'.poisoned = true) : Ends (do x; return []) u (Leaves I u S) (Breaks I u S) := by
  refine returns (f := fun _ => []) hx ?_ fun _ _ h => .inl h
  rintro - u' ⟨hu', ρ, S', k, hk, hmv⟩
  exact ⟨hu', S', hmv.advances (by omega), by simp⟩

/-- A command that only reads. -/
theorem reads {x : MutatorM (Option Value)} {r : Option Value} (hi : I u.machine S)
    (hu : u.poisoned = false) (hx : x u = .ok r u) (hr : ∀ w, r = some w → w.Within S) :
    Ends (do return (← x).toList) u (Leaves I u S) (Breaks I u S) := by
  refine returns (Ends.of_eq (Q := fun a u' => a = r ∧ u' = u) hx ⟨rfl, rfl⟩) ?_ fun _ _ h => h
  rintro a u' ⟨rfl, rfl⟩
  refine ⟨hu, S, advances_refl hi, fun w hw => usable_within (hr w ?_)⟩
  simpa using hw

theorem lookupAt_leaves (hl : Laws Collector.operations I N) (hi : I u.machine S)
    (hu : u.poisoned = false) (bucket : Nat) (name : String) {x : MutatorM (Option Value)}
    (hx : x u = (liftM (MutatorM.lookupAt? bucket name) : MutatorM (Option Value)) u) :
    Ends (do return (← x).toList) u (Leaves I u S) (Breaks I u S) := by
  rcases MutatorM.lookupAt?_ends hl hi bucket name with ⟨r, hr, hrw⟩ | ⟨e, hne, he⟩
  · exact reads hi hu (hx.trans (MutatorM.gc_lift hr)) hrw
  · refine (Ends.of_error (Q := fun _ _ => False) (hx.trans (MutatorM.gc_lift_error he)) ?_).bind
      fun _ _ h => h.elim
    exact .inr fun f hf => absurd hf (hne f)

theorem lookup_leaves (hl : Laws Collector.operations I N) (hi : I u.machine S)
    (hu : u.poisoned = false) (name : String) :
    Ends (lookup name).run u (Leaves I u S) (Breaks I u S) := by
  have hrun := MutatorM.lookup?_eq name u
  refine lookupAt_leaves hl hi hu (u.bucket name) name ?_
  rw [MutatorM.gc_lift_eq, MutatorM.gc_lift_eq, hrun]

/-- One command, with operands that may be used. Objects may be made while something is parked. -/
theorem run_ends (hl : Laws Collector.operations I N) (hi : I u.machine S) (hu : u.poisoned = false)
    (cmd : Command) (hpark : cmd.Creates ∨ u.machine.roots.parked = 0)
    (hops : ∀ v ∈ cmd.operands, v.Within S) :
    Ends cmd.run u (Leaves I u S) (Breaks I u S) := by
  cases cmd with
  | allocate bytes => exact allocate_ends hl hi hu bytes
  | char c =>
    exact returns ((MutatorM.char_constructs c).ends_of_lt hl hi hu (by decide))
      (fun _ _ h => filled_leaves hl h) fun _ _ h => .inl h
  | string s =>
    exact returns ((MutatorM.text_constructs (.inl rfl) (Text.encode s)).ends hl hi hu)
      (fun _ _ h => filled_leaves hl h)
      fun _ _ h => h.imp id MutatorM.Uncounted.silent
  | symbol s =>
    exact returns ((MutatorM.text_constructs (.inr rfl) (Text.encode s)).ends hl hi hu)
      (fun _ _ h => filled_leaves hl h)
      fun _ _ h => h.imp id MutatorM.Uncounted.silent
  | cons a b =>
    exact cons_leaves hl hi hu (hops a (by simp [operands])) (hops b (by simp [operands]))
  | lambda entry params variadic =>
    exact returns ((MutatorM.lambda_constructs entry params variadic).ends_of_lt hl hi hu
      (by simp [tableLimit]))
      (fun _ _ h => filled_leaves hl h) fun _ _ h => .inl h
  | duplicate v => exact duplicate_leaves hl hi hu (hops v (by simp [operands]))
  | setCar pair v =>
    exact returns (f := fun _ => [])
      (setPairField_leaves hl hi hu (hpark.resolve_left id) (hops pair (by simp [operands]))
        (hops v (by simp [operands])) (.inl rfl))
      (fun _ _ h => h) fun _ _ h => h
  | setCdr pair v =>
    exact returns (f := fun _ => [])
      (setPairField_leaves hl hi hu (hpark.resolve_left id) (hops pair (by simp [operands]))
        (hops v (by simp [operands])) (.inr rfl))
      (fun _ _ h => h) fun _ _ h => h
  | push v => exact push_leaves hl hi hu (hpark.resolve_left id) (hops v (by simp [operands]))
  | pop => exact pop_leaves hl hi hu (hpark.resolve_left id)
  | writeRoot slot v =>
    exact writeRoot_leaves hl hi hu (hpark.resolve_left id) slot (hops v (by simp [operands]))
  | define name v =>
    exact define_leaves hl hi hu (hpark.resolve_left id) name (hops v (by simp [operands]))
  | collect => exact collect_leaves (MutatorM.collect_ends hl hi hu)
  | collectFull => exact collect_leaves (MutatorM.collectFull_ends hl hi hu)
  | setStress on =>
    refine .of_eq (a := []) (t := { u with machine := { u.machine with stress := on } }) rfl
      ⟨hu, S, ⟨?_, rfl, ?_⟩, by simp⟩
    · exact hl.congr hi rfl rfl rfl
    · exact fun _ _ ho _ => ho
  | peek depth =>
    refine .of_eq (a := (u.peek? depth).toList) (t := u) rfl
      ⟨hu, S, advances_refl hi, fun w hw => usable_within ?_⟩
    have hpeek : u.machine.roots.peek? depth = some w := by simpa [Mutator.peek?] using hw
    rw [Roots.peek?] at hpeek
    split at hpeek
    · exact hl.roots hi (.stack _) w hpeek
    · cases hpeek
  | car v =>
    have hv := hops v (by simp [operands])
    exact reads hi hu (MutatorM.read_lift (car?_run (hl.apart hi) hv)) fun w hw =>
      Arena.fieldAt?_within (hl.apart hi).closed hv (.inl rfl) hw
  | cdr v =>
    have hv := hops v (by simp [operands])
    exact reads hi hu (MutatorM.read_lift (cdr?_run (hl.apart hi) hv)) fun w hw =>
      Arena.fieldAt?_within (hl.apart hi).closed hv (.inr rfl) hw
  | lookup name => exact lookup_leaves hl hi hu name

end Command

/-! ## Whole sessions -/

/-- The heap is in a good state, and the program may use the objects of `H`. -/
structure Steady (I : Machine Collector → (Nat → Prop) → Prop) (u : Mutator)
    (H : Nat → Prop) : Prop where
  clean : u.poisoned = false
  parked : u.machine.roots.parked = 0
  good : ∃ S, I u.machine S ∧ ∀ o, H o → S o

variable {I : Machine Collector → (Nat → Prop) → Prop} {N : Machine Collector → Nat → Nat → Prop}

/-- What a program may use is in any set that holds what it starts from. -/
theorem Mutator.Allows.within_closed {u : Mutator} {H S : Nat → Prop} {v : Value}
    (hS : Closed u.machine.heap S) (hr : u.machine.roots.Within S) (hH : ∀ o, H o → S o)
    (hv : u.Allows H v) : v.Within S := by
  refine hv.mono fun o ho => ho.mem_of_closed hS ?_
  rintro o (h | h)
  · exact hr.refers h
  · exact hH o h

/-- What a program may use is among the objects of the invariant. -/
theorem Mutator.Allows.within {u : Mutator} {H S : Nat → Prop} {v : Value}
    (hl : Laws Collector.operations I N) (hi : I u.machine S) (hH : ∀ o, H o → S o)
    (hv : u.Allows H v) : v.Within S :=
  hv.within_closed (hl.apart hi).closed (hl.roots hi) hH

/-- What a program holds on to after a command is there. -/
theorem Leaves.good {u u' : Mutator} {H S : Nat → Prop} {vs : List Value} (h : Leaves I u S vs u')
    (hH : ∀ o, H o → S o) :
    ∃ S', I u'.machine S' ∧ ∀ o, u.held u' H vs o → S' o := by
  obtain ⟨-, S', hadv, husable⟩ := h
  refine ⟨S', hadv.inv, ?_⟩
  rintro o ⟨⟨hsame, ho⟩ | ⟨v, hv, ho⟩, hlist⟩
  · exact hadv.kept hsame o (hH o ho) hlist
  · exact husable v hv o ho hlist

/-- The invariant after a command, with what a program holds on to. -/
theorem Leaves.steady {u u' : Mutator} {H S : Nat → Prop} {vs : List Value} (h : Leaves I u S vs u')
    (hpark : u.machine.roots.parked = 0) (hH : ∀ o, H o → S o) : Steady I u' (u.held u' H vs) := by
  obtain ⟨hclean, S', hadv, -⟩ := id h
  exact ⟨hclean, hadv.parked.trans hpark, h.good hH⟩

/-- A failure that does not poison the heap leaves as much as a command without results. -/
theorem Breaks.leaves {u u' : Mutator} {S : Nat → Prop} {f : Failure}
    (h : Breaks I u S (.failed f) u') (hu' : u'.poisoned = false) :
    Leaves I u S [] u' := by
  rcases h with hp | h
  · rw [hp] at hu'
    cases hu'
  · obtain ⟨h1, S', h2⟩ := h f rfl
    exact ⟨h1, S', h2, by simp⟩

/-- A command that ends, and does not poison the heap. -/
theorem Command.Gives.leaves {u u' : Mutator} {S : Nat → Prop} {cmd : Command} {vs : List Value}
    (hl : Laws Collector.operations I N) (hi : I u.machine S) (hu : u.poisoned = false)
    (hpark : cmd.Creates ∨ u.machine.roots.parked = 0) (hops : ∀ v ∈ cmd.operands, v.Within S)
    (hg : cmd.Gives u vs u') (hu' : u'.poisoned = false) : Leaves I u S vs u' := by
  have hend := cmd.run_ends hl hi hu hpark hops
  rcases hg with hrun | ⟨f, hrun, rfl⟩
  · exact hend.ok hrun
  · exact (hend.error hrun).leaves hu'

theorem Steady.step {u u' : Mutator} {H : Nat → Prop} {cmd : Command} {vs : List Value}
    (hl : Laws Collector.operations I N) (hs : Steady I u H)
    (hops : ∀ v ∈ cmd.operands, u.Allows H v) (hg : cmd.Gives u vs u') (hu' : u'.poisoned = false) :
    Steady I u' (u.held u' H vs) := by
  obtain ⟨S, hi, hH⟩ := hs.good
  exact (hg.leaves hl hi hs.clean (.inr hs.parked)
    (fun v hv => (hops v hv).within hl hi hH) hu').steady hs.parked hH

/-- A new heap, and there was memory for its tables. -/
theorem Config.Makes.eq {c : Config} {u : Mutator} (hu : c.Makes u) :
    ∃ hash, u = Mutator.ofConfig c hash ∧ c.reserve = .ok () := by
  obtain ⟨hash, hc⟩ := hu
  unfold Mutator.create Machine.create at hc
  cases hr : c.reserve with
  | error e =>
    rw [hr] at hc
    cases hc
  | ok a =>
    rw [hr] at hc
    cases hc
    exact ⟨hash, rfl, rfl⟩

/-- Tables that are made are no larger than any memory. -/
theorem Config.reserved {c : Config} (hres : c.reserve = .ok ()) : c.heapWords < tableLimit ∧
    c.globalTableSize < tableLimit := by
  unfold Config.reserve at hres
  cases hw : Reclaim.reserve c.heapWords with
  | error e =>
    rw [hw] at hres
    cases hres
  | ok _ =>
    cases hg : Reclaim.reserve c.globalTableSize with
    | error e =>
      rw [hw, hg] at hres
      cases hres
    | ok _ => exact ⟨reserve_eq_ok_iff.mp hw, reserve_eq_ok_iff.mp hg⟩

theorem Config.size_ofBytes (c : Config) : (Arena.ofBytes c.heapSize).size = c.heapWords := by
  simp [Arena.ofBytes, Arena.zeroed, Arena.size, heapWords]

theorem Config.length_region (c : Config) :
    (Arena.ofBytes c.heapSize).region.length = c.heapWords :=
  (Arena.length_region _).trans c.size_ofBytes

/-- The invariant of a collector holds throughout a session, if it holds of the new heap. -/
theorem Session.steady {c : Config} {u : Mutator} {H : Nat → Prop}
    (hl : Laws Collector.operations I N) (hstart : ∀ u, c.Makes u → ∃ S, I u.machine S)
    (hs : Session c u H) : Steady I u H := by
  induction hs with
  | start hc =>
    obtain ⟨S, hi⟩ := hstart _ hc
    obtain ⟨hash, rfl, -⟩ := hc.eq
    exact ⟨rfl, rfl, S, hi, fun _ h => h.elim⟩
  | step _ hops hg hu' ih => exact ih.step hl hops hg hu'

/-! ## Sessions that are carried out -/

namespace Command

/-- The values that a command returns, unless it stops. -/
def values? (cmd : Command) (u : Mutator) : Option (List Value) :=
  match cmd.run u with
  | .ok vs _ => some vs
  | .error _ _ => none

/-- The heap after a command. -/
def after (cmd : Command) (u : Mutator) : Mutator :=
  match cmd.run u with
  | .ok _ u' => u'
  | .error _ u' => u'

theorem run_of_values {cmd : Command} {u : Mutator} {vs : List Value}
    (h : cmd.values? u = some vs) :
    cmd.run u = .ok vs (cmd.after u) := by
  unfold values? at h
  unfold after
  cases hrun : cmd.run u with
  | ok ws u' =>
    rw [hrun] at h
    cases h
    rfl
  | error e u' =>
    rw [hrun] at h
    cases h

theorem gives_of_values {cmd : Command} {u : Mutator} {vs : List Value}
    (h : cmd.values? u = some vs) :
    cmd.Gives u vs (cmd.after u) := .inl (run_of_values h)

/-- Why a command stops. -/
def fault? (cmd : Command) (u : Mutator) : Option Fault :=
  match cmd.run u with
  | .ok _ _ => none
  | .error e _ => some e

theorem run_of_fault {cmd : Command} {u : Mutator} {e : Fault} (h : cmd.fault? u = some e) :
    cmd.run u = .error e (cmd.after u) := by
  unfold fault? at h
  unfold after
  cases hr : cmd.run u with
  | ok vs u' =>
    rw [hr] at h
    cases h
  | error e' u' =>
    rw [hr] at h
    cases h
    rfl

end Command

/-- One more command, with what it returns. -/
theorem Session.next {c : Config} {u : Mutator} {H : Nat → Prop} (hs : Session c u H)
    (cmd : Command) (vs : List Value) (hvs : cmd.values? u = some vs)
    (hu : (cmd.after u).poisoned = false) (hops : ∀ v ∈ cmd.operands, u.Allows H v) :
    Session c (cmd.after u) (u.held (cmd.after u) H vs) :=
  hs.step hops (Command.gives_of_values hvs) hu

theorem Mutator.allows_immediate {u : Mutator} {H : Nat → Prop} {v : Value} (hv : v.isRef = false) :
    u.Allows H v := .of_not_ref hv

/-- One more command, given no references. -/
theorem Session.plain {c : Config} {u : Mutator} {H : Nat → Prop} (hs : Session c u H)
    (cmd : Command) (vs : List Value) (hvs : cmd.values? u = some vs)
    (hu : (cmd.after u).poisoned = false) (hops : ∀ v ∈ cmd.operands, v.isRef = false) :
    Session c (cmd.after u) (u.held (cmd.after u) H vs) := hs.next cmd vs hvs hu fun v hv =>
    Mutator.allows_immediate (hops v hv)

/-- A root may be used. -/
theorem Mutator.allows_root {u : Mutator} {H : Nat → Prop} (slot : RootSlot) {o : Nat} (h0 : o ≠ 0)
    (hlt : o < 0x2000000000000000) (hs : u.machine.roots.get? slot = some (.ofRef o)) :
    u.Allows H (.ofRef o) := by
  have href : (Value.ofRef o).ref? = some o := Value.ref?_ofRef h0 hlt
  exact Value.ofRef_within h0 hlt (.root (.inl ⟨slot, _, hs, href⟩))

/-- What the strategy keeps in its table beside the arena: remembered objects, or objects of count
zero. -/
def Mutator.tabled (u : Mutator) : List Nat :=
  match u.machine.own with
  | .generational g => g.remembered.toList
  | .counting c => c.zeroCounts.entries.toList
  | _ => []

theorem eq_ok_of_toOption {ε α : Type} {x : Except ε α} {a : α} (h : x.toOption = some a) :
    x = .ok a := by
  cases x with
  | ok b => exact congrArg Except.ok (Option.some.inj h)
  | error e => cases h

/-- What was just returned may be used, if it is listed. -/
theorem Mutator.allows_returned {u u' : Mutator} {H : Nat → Prop} {o n : Nat}
    {listed : List (Nat × Nat)} (h0 : o ≠ 0) (hlt : o < 0x2000000000000000)
    (hl : u'.objects.toOption = some listed) (hmem : (o, n) ∈ listed) :
    u'.Allows (u.held u' H [.ofRef o]) (.ofRef o) := by
  have hl' := eq_ok_of_toOption hl
  exact Value.ofRef_within h0 hlt
    (.root (.inr ⟨.inr ⟨_, by simp, Value.ref?_ofRef h0 hlt⟩, listed, n, hl', hmem⟩))

end Reclaim
