import Reclaim.Mutator.Globals
import Reclaim.Proofs.Construction

/-!
# Reading and changing objects

What the readers of the mutator find in a well-formed heap, as functions of its words, and what its
other operations do: stores into pairs and roots, the operand stack, collections, and global
variables.

Results:
* `pairField?_run`, `text?_run`: reading a value never stops.
* `entryFrom?_within`: looking for an entry ends, or runs in a circle.
* `setPairField_ends`, `push_ends`, `pop_ends`, `writeRoot_ends`, `collect_ends`: one operation
  each.
-/

namespace Reclaim

/-! ## Readers -/

namespace Arena

variable (h : Arena)

/-- The pair that `v` refers to. -/
def pairAt? (v : Value) : Option Nat := v.ref?.filter fun o => h.tag o = some .pair

/-- What field `i` of the pair holds that `v` refers to. -/
def fieldAt? (i : Nat) (v : Value) : Option Value := (h.pairAt? v).map fun o => h.value (o + i)

/-- The bytes of the text at `o`. -/
def bytes (o : Nat) : List UInt8 :=
  (Text.unpack ((List.range (wordsFor (h.word o >>> 8).toNat)).map
    fun i => h.word (o + 1 + i))).take (h.word o >>> 8).toNat

/-- Is the object at `o` a string or a symbol? -/
def isText (o : Nat) : Bool := h.tag o = some .string || h.tag o = some .symbol

/-- The text of the string or symbol that `v` refers to. -/
def textAt? (v : Value) : Option String :=
  (v.ref?.filter h.isText).map fun o => Text.decode (h.bytes o)

variable {h} {S : Nat → Prop} {v : Value} {o : Nat}

theorem pairAt?_eq_some : h.pairAt? v = some o ↔ v.ref? = some o ∧ h.tag o = some .pair := by
  rw [pairAt?, Option.filter_eq_some_iff]
  simp

theorem fieldAt?_within (hS : Closed h S) (hv : v.Within S) {i : Nat} (hi : i = 1 ∨ i = 2)
    {w : Value} (hw : h.fieldAt? i v = some w) : w.Within S := by
  obtain ⟨o, ho, rfl⟩ := Option.map_eq_some_iff.mp hw
  obtain ⟨hr, ht⟩ := pairAt?_eq_some.mp ho
  exact hS.field o _ (hv o hr).2 ht (by omega)

end Arena

section Readers

variable {h : Arena} {S : Nat → Prop} {hd : Nat} {v : Value}

theorem tag?_run (hap : Apart hd h S) (hv : v.Within S) : tag? v h = .ok (v.ref?.bind h.tag) := by
  unfold tag?
  cases hr : v.ref? with
  | none => rfl
  | some o =>
    have ho := (hv o hr).2
    have hin := (hap.inside o ho).2
    have hp := Arena.payload_pos (hap.closed.known o ho)
    dsimp only
    rw [rawTag, read_bind (read_bind (load_run (by omega)))]
    rfl

theorem pair?_run (hap : Apart hd h S) (hv : v.Within S) : pair? v h = .ok (h.pairAt? v) := by
  rw [pair?, read_bind (tag?_run hap hv), Arena.pairAt?]
  cases hr : v.ref? with
  | none => rfl
  | some o =>
    rw [Option.bind_some]
    cases ht : h.tag o with
    | none => simp [Option.filter, ht]; rfl
    | some t => cases t <;> simp [Option.filter, ht] <;> rfl

theorem pairField?_run (hap : Apart hd h S) (hv : v.Within S) {i : Nat} (hi : i = 1 ∨ i = 2) :
    pairField? i v h = .ok (h.fieldAt? i v) := by
  rw [pairField?, read_bind (pair?_run hap hv), Arena.fieldAt?]
  cases hp : h.pairAt? v with
  | none => rfl
  | some o =>
    obtain ⟨hr, ht⟩ := Arena.pairAt?_eq_some.mp hp
    have hin := (hap.inside o (hv o hr).2).2
    have hp3 := Arena.payload_of_pair ht
    have hload : loadValue (o + i) h = .ok (h.value (o + i)) := loadValue_run (by omega)
    dsimp only
    rw [map_eq_pure_bind, read_bind hload]
    rfl

theorem car?_run (hap : Apart hd h S) (hv : v.Within S) : car? v h = .ok (h.fieldAt? 1 v) :=
  pairField?_run hap hv (.inl rfl)

theorem cdr?_run (hap : Apart hd h S) (hv : v.Within S) : cdr? v h = .ok (h.fieldAt? 2 v) :=
  pairField?_run hap hv (.inr rfl)

theorem loadRun_run {a n : Nat} (hs : a + n ≤ h.size) :
    loadRun a n h = .ok ((List.range n).map fun i => h.word (a + i)) := by
  induction n generalizing a with
  | zero => rfl
  | succ n ih =>
    rw [loadRun, read_bind (load_run (by omega)), read_bind (ih (by omega)), List.range_succ_eq_map]
    simp only [List.map_cons, List.map_map, Nat.add_zero]
    have hshift : (fun i => h.word (a + 1 + i)) = (fun i => h.word (a + i)) ∘ Nat.succ := by
      funext i
      rw [Function.comp_apply, show a + 1 + i = a + i.succ by omega]
    rw [hshift]
    rfl

theorem readText_run {o : Nat} (hs : o + textWords (h.word o >>> 8).toNat ≤ h.size) :
    readText o h = .ok (h.bytes o) := by
  rw [textWords] at hs
  have hrun : loadRun (o + 1) (wordsFor (h.word o >>> 8).toNat) h = .ok _ := loadRun_run (by omega)
  rw [readText, read_bind (read_bind (load_run (by omega))), read_bind hrun]
  rfl

theorem text?_run (hap : Apart hd h S) (hv : v.Within S) : text? v h = .ok (h.textAt? v) := by
  rw [text?, read_bind (tag?_run hap hv), Arena.textAt?]
  cases hr : v.ref? with
  | none => rfl
  | some o =>
    have hin := (hap.inside o (hv o hr).2).2
    rw [Option.bind_some]
    cases ht : h.tag o with
    | none => simp [Option.filter, Arena.isText, ht]; rfl
    | some t =>
      cases t with
      | string | symbol =>
        have hread : readText o h = .ok (h.bytes o) :=
          readText_run (by simpa [Arena.payload, ht] using hin)
        dsimp only
        rw [read_bind hread]
        simp [Option.filter, Arena.isText, ht]
        rfl
      | char | pair | lambda => simp [Option.filter, Arena.isText, ht]; rfl

/-- One step of the search for an entry. -/
theorem entryFrom?_succ (hap : Apart hd h S) (hv : v.Within S) (name : String) (n : Nat) :
    entryFrom? name (n + 1) v h = match h.fieldAt? 1 v with
      | none => .ok none
      | some entry =>
        if (h.fieldAt? 1 entry).bind h.textAt? = some name then .ok (some entry)
        else match h.fieldAt? 2 v with
          | some rest => entryFrom? name n rest h
          | none => .ok none := by
  rw [entryFrom?, read_bind (car?_run hap hv)]
  cases hcar : h.fieldAt? 1 v with
  | none => rfl
  | some entry =>
    have hentry : entry.Within S := Arena.fieldAt?_within hap.closed hv (.inl rfl) hcar
    -- what is left to do once the key is known
    have hrest : ∀ key : Option String, (if key = some name then pure (some entry) else do
          match ← cdr? v with
          | some rest => entryFrom? name n rest
          | none => pure none : ReadM (Option Value)) h = if key = some name then .ok (some entry)
        else match h.fieldAt? 2 v with
          | some rest => entryFrom? name n rest h
          | none => .ok none := by
      intro key
      split
      · rfl
      · rw [read_bind (cdr?_run hap hv)]
        cases h.fieldAt? 2 v <;> rfl
    dsimp only
    rw [read_bind (car?_run hap hentry)]
    cases hkey : h.fieldAt? 1 entry with
    | none => exact hrest none
    | some key =>
      dsimp only
      rw [read_bind (text?_run hap (Arena.fieldAt?_within hap.closed hentry (.inl rfl) hkey)),
        Option.bind_some]
      exact hrest _

/-- Looking for an entry finds one among the objects of a well-formed heap, or none, or runs in a
circle. -/
theorem entryFrom?_within (hap : Apart hd h S) (name : String) (n : Nat) (hv : v.Within S) :
    (∃ r, entryFrom? name n v h = .ok r ∧ ∀ e, r = some e → e.Within S) ∨ entryFrom? name n v h =
    .error .endless := by
  induction n generalizing v with
  | zero => exact .inr rfl
  | succ n ih =>
    rw [entryFrom?_succ hap hv]
    cases hcar : h.fieldAt? 1 v with
    | none => exact .inl ⟨none, rfl, by simp⟩
    | some entry =>
      dsimp only
      split
      · exact .inl ⟨some entry, rfl, by
          simpa using Arena.fieldAt?_within hap.closed hv (.inl rfl) hcar⟩
      · cases hcdr : h.fieldAt? 2 v with
        | none => exact .inl ⟨none, rfl, by simp⟩
        | some rest => exact ih (Arena.fieldAt?_within hap.closed hv (.inr rfl) hcdr)

end Readers

/-! ## Operations -/

section Operations

variable {I : Machine Collector → (Nat → Prop) → Prop} {N : Machine Collector → Nat → Nat → Prop}
  {S S' : Nat → Prop} {u : Mutator} {v : Value}

namespace MutatorM

theorem push_ends (hl : Laws Collector.operations I N) (hi : I u.machine S)
    (hu : u.poisoned = false) (hpark : u.machine.roots.parked = 0) (hv : v.Within S) :
    Ends (push v) u (fun _ u' => u'.poisoned = false ∧
      Roots.parking u.machine.roots.stack.size u.machine.roots.capacity 1 = .ok () ∧
        I u'.machine S ∧
      Same S u.machine.heap u'.machine.heap ∧ u'.machine.roots = { u.machine.roots with
        stack := u.machine.roots.stack.push v } ∧
      u'.machine.stats = u.machine.stats ∧ u'.machine.stress = u.machine.stress)
      fun e u' => Roots.parking u.machine.roots.stack.size u.machine.roots.capacity 1 =
        .error e ∧ u' = u := by
  cases hroom : Roots.parking u.machine.roots.stack.size u.machine.roots.capacity 1 with
  | ok =>
    obtain ⟨hcap, hlim⟩ := Roots.room_of_parking hroom
    obtain ⟨m', hrun, hi', hsame, hroots, hstats, hstress, -⟩ := hl.push hi hpark hv hcap hlim
    exact .of_eq (operate_run hu hrun) ⟨hu, rfl, hi', hsame, hroots, hstats, hstress⟩
  | error e =>
    exact .of_error (operate_error hu (hl.push_fails hi (pushRoot_error hroom))
      (Roots.not_fatal_of_parking hroom)) ⟨rfl, rfl⟩

theorem pop_ends (hl : Laws Collector.operations I N) (hi : I u.machine S) (hu : u.poisoned = false)
    (hpark : u.machine.roots.parked = 0) (hv : u.machine.roots.stack.back? = some v) :
    Ends pop u (fun v' u' => u'.poisoned = false ∧ v' = v ∧ ∃ S',
      Left Collector.operations I u.machine u'.machine S S' ∧
      Same S' u.machine.heap u'.machine.heap ∧ u'.machine.roots = { u.machine.roots with
        stack := u.machine.roots.stack.pop })
      fun _ u' => u'.poisoned = true := by
  refine operate_ends hu ((hl.pop hi hpark hv).mono ?_) fun _ _ h => h
  rintro v' m' ⟨rfl, S', hrest⟩
  exact ⟨hu, rfl, S', hrest⟩

theorem pop_empty (hl : Laws Collector.operations I N) (hi : I u.machine S)
    (hu : u.poisoned = false) (hempty : u.machine.roots.stack.back? = none) :
    pop u = .error (.failed .stackUnderflow) u := by
  have hfail : popRoot u.machine.roots = .error (.failed .stackUnderflow) u.machine.roots := by
    rw [popRoot, hempty]
  refine operate_error hu (hl.pop_fails hi hfail) ?_
  intro f hf
  cases hf
  rfl

theorem writeRoot_ends (hl : Laws Collector.operations I N) (hi : I u.machine S)
    (hu : u.poisoned = false) (hpark : u.machine.roots.parked = 0) {slot : RootSlot} {old : Value}
    (hold : u.machine.roots.get? slot = some old) (hv : v.Within S) :
    Ends (writeRoot slot v) u
    (fun _ u' => u'.poisoned = false ∧ ∃ S', Left Collector.operations I u.machine u'.machine S S' ∧
      Same S' u.machine.heap u'.machine.heap ∧ u'.machine.roots = u.machine.roots.set slot v)
        fun _ u' => u'.poisoned = true := by
  refine operate_ends hu ((hl.writeRoot hi hpark hold hv).mono ?_) fun _ _ h => h
  rintro - m' ⟨S', hrest⟩
  exact ⟨hu, S', hrest⟩

theorem writeRoot_absent (hl : Laws Collector.operations I N) (hi : I u.machine S)
    (hu : u.poisoned = false) {slot : RootSlot} (hnone : u.machine.roots.get? slot = none)
    (hv : v.Within S) : ∃ u', writeRoot slot v u = .error .trap u' := by
  obtain ⟨m', hrun⟩ := hl.writeRoot_absent hi hv hnone
  have hrun' : Collector.writeRoot slot v u.machine = .error .trap m' := hrun
  exact ⟨u.withMachine m', by
    rw [writeRoot, operate, bind_ok (check_run hu), guarded, gc_lift_error hrun']⟩

theorem collect_ends (hl : Laws Collector.operations I N) (hi : I u.machine S)
    (hu : u.poisoned = false) :
    Ends collect u (fun _ u' => u'.poisoned = false ∧ ∃ ρ S' k, k ≤ 3 ∧
      Moved I u.machine u'.machine S S' ρ k)
      fun _ u' => u'.poisoned = true := by
  refine operate_ends hu ((hl.collect hi).mono ?_) fun _ _ h => h
  exact fun _ m' h => ⟨hu, h⟩

theorem collectFull_ends (hl : Laws Collector.operations I N) (hi : I u.machine S)
    (hu : u.poisoned = false) :
    Ends collectFull u (fun _ u' => u'.poisoned = false ∧ ∃ ρ S' k, k ≤ 3 ∧
      Moved I u.machine u'.machine S S' ρ k)
      fun _ u' => u'.poisoned = true := by
  refine operate_ends hu ((hl.collectFull hi).mono ?_) fun _ _ h => h
  exact fun _ m' h => ⟨hu, h⟩

/-! ## Fields -/

/-- What is not a pair is left alone. -/
theorem setPairField_absent (hl : Laws Collector.operations I N) (hi : I u.machine S) {pair : Value}
    (hp : pair.Within S) {i : Nat} (hnone : u.machine.heap.pairAt? pair = none) :
    setPairField i pair v u = .ok () u := by
  have hread : pair? pair u.machine.heap = .ok none := by rw [pair?_run (hl.apart hi) hp, hnone]
  rw [setPairField, bind_ok (read_lift hread)]
  rfl

theorem setPairField_ends (hl : Laws Collector.operations I N) (hi : I u.machine S)
    (hu : u.poisoned = false) (hpark : u.machine.roots.parked = 0) {pair : Value} {o : Nat}
    (hp : pair.Within S) (hv : v.Within S) {i : Nat} (hio : i = 1 ∨ i = 2)
    (ho : u.machine.heap.pairAt? pair = some o) :
    Ends (setPairField i pair v) u (fun _ u' => u'.poisoned = false ∧
      ∃ S', Left Collector.operations I u.machine u'.machine S S' ∧
        Stored S' (o + i) v.bits u.machine.heap u'.machine.heap ∧ u'.machine.roots =
          u.machine.roots)
      fun _ u' => u'.poisoned = true := by
  have hread : pair? pair u.machine.heap = .ok (some o) := by rw [pair?_run (hl.apart hi) hp, ho]
  obtain ⟨hr, ht⟩ := Arena.pairAt?_eq_some.mp ho
  unfold setPairField
  refine .step (read_lift hread) ?_
  refine operate_ends hu ((hl.writeField hi hpark (hp o hr).2 ht (by omega) hv).mono ?_)
    fun _ _ h => h
  rintro - m' ⟨S', hrest⟩
  exact ⟨hu, S', hrest⟩

end MutatorM

end Operations

end Reclaim
