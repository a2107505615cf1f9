import Reclaim.Proofs.Bindings

/-!
# What a command does to the bindings of names

Each command relocates objects (`Mutator.Relocates`) and takes the bindings along
(`Mutator.Passes`). An operation that may collect renames what the roots reach; any other one leaves
the words of the objects in place, but for a field that it writes.

Results:
* `Carried.passes`, `passes_of_words`: the two kinds of operation.
-/

namespace Reclaim

variable {I : Machine Collector → (Nat → Prop) → Prop} {N : Machine Collector → Nat → Nat → Prop}
  {L S S' : Nat → Prop}
  {u u' : Mutator} {cmd : Command} {done : Bool} {Γ : String → Option Value}
  {ρ : Nat → Nat} {k : Nat}
  {T : Nat → Prop} {W : Nat → Nat → Prop} {v : Value}

/-- The command relocates objects, and names are bound as its ledger says. -/
def Mutator.Passes (u : Mutator) (cmd : Command) (done : Bool) (u' : Mutator)
    (Γ : String → Option Value) :
    Prop := ∃ ρ, u.Relocates cmd done u' ρ ∧ u'.Maps (cmd.rebinds done ρ Γ)

theorem Tracks.mono {T' : Nat → Prop} {W' : Nat → Nat → Prop} {h h' : Arena}
    (ht : Tracks ρ T W h h') (hT : ∀ o, T' o → T o) (hW : ∀ o i, W o i → W' o i) :
    Tracks ρ T' W' h h' :=
  ⟨fun o o' ho ho' => ht.injective o o' (hT o ho) (hT o' ho'), fun o i ho => ht.word o i (hT o ho),
    fun o i ho hp hi hn => ht.field o i (hT o ho) hp hi fun h => hn (hW o i h)⟩

/-- A command that failed bound no name, or has poisoned the heap. -/
def Mutator.Fails (u : Mutator) (cmd : Command) (Γ : String → Option Value) (e : Fault)
    (u' : Mutator) : Prop :=
  u'.poisoned = true ∨ ∀ f, e = .failed f → u.Passes cmd false u' Γ

/-! ## Operations that may collect -/

theorem Carried.follows (hl : Laws Collector.operations I N) {m m' : Machine Collector}
    (h : Carried I L m m' S S' ρ k) :
    Follows ρ L NoField m.heap m'.heap where
  injective := h.renamed.injective
  word := h.renamed.word
  field o i ho ht hi _ := h.renamed.field o i ho ht hi
  known := h.closed.known
  linked o i ho ht hi _ := h.closed.field o (o + i) ho ht (by omega)
  named := (hl.named h.inv).image h.kept

theorem Carried.keeping (hl : Laws Collector.operations I N)
    (h : Carried I L u.machine u'.machine S S' ρ k) :
    Keeping ρ L NoField u u' := by
  refine ⟨h.follows hl, h.roots.table, h.roots.hash,
    fun b head hh => ⟨h.live (.global b) head hh, ?_⟩⟩
  obtain ⟨head', hh', rfl⟩ := h.roots.slot (.global b) head hh
  exact hh'

/-- The relocations of a command that may collect; `hL` says that its operands are carried along. -/
theorem Carried.relocates (hl : Laws Collector.operations I N)
    (h : Carried I L u.machine u'.machine S S' ρ k) (hk : k < 100)
    (hL : ∀ o, u.machine.Live (if done then cmd.operands else []) o → L o) (hS : ∀ o, L o → S o) :
    u.Relocates cmd done u' ρ where
  tracks := (h.follows hl).toTracks.mono (fun o ho => hL o ho.1) fun _ _ => False.elim
  quiet hc o ho := (h.quiet (ofNat_eq_zero hk (h.cycles.symm.trans hc)) o (hS o (hL o ho.1))).1
  stack i v v' hv hv' _ := by
    obtain ⟨w, hw, rfl⟩ := h.roots.slot (.stack i) v hv
    exact Option.some.inj (hv'.symm.trans hw)

theorem Carried.passes (hl : Laws Collector.operations I N)
    (h : Carried I L u.machine u'.machine S S' ρ k) (hk : k < 100)
    (hL : ∀ o, u.machine.Live (if done then cmd.operands else []) o → L o) (hS : ∀ o, L o → S o)
    (hΓ : u.Maps Γ) (hcmd : cmd.rebinds done ρ Γ = fun name => (Γ name).map (Value.rename ρ)) :
    u.Passes cmd done u' Γ := by
  refine ⟨ρ, h.relocates hl hk hL hS, ?_⟩
  rw [hcmd]
  exact hΓ.keeping (h.keeping hl) u.spared_none fun _ _ _ _ _ => id

/-- Where only what the roots reach is carried along. -/
theorem Moved.passes (hl : Laws Collector.operations I N) (hi : I u.machine S)
    (h : Moved I u.machine u'.machine S S' ρ k) (hk : k < 100)
    (hnone : (if done then cmd.operands else []) = []) (hΓ : u.Maps Γ)
    (hcmd : cmd.rebinds done ρ Γ = fun name => (Γ name).map (Value.rename ρ)) :
    u.Passes cmd done u' Γ := by
  refine Carried.passes hl h hk (fun o ho => ?_)
    (fun o ho => ho.mem (hl.apart hi).closed (hl.roots hi)) hΓ hcmd
  rw [hnone] at ho
  exact ho.reachable

/-! ## Operations that leave objects in place -/

/-- The words of objects stay the same, but for the fields `W`. -/
theorem follows_of_words {h h' : Arena} (hS : Closed h S) (hS' : Closed h' S') (hn : Value.Named S')
    (hsub : ∀ o, S' o → S o) (hwords : ∀ o i, S' o → i < h.payload o → ¬ W o i →
      h'.word (o + i) = h.word (o + i))
      (hW : ∀ o i, W o i → h.tag o = some .pair ∧ (i = 1 ∨ i = 2)) :
    Follows id S' W h h' := by
  have htag : ∀ o, S' o → h'.tag o = h.tag o := fun o ho =>
    Arena.tag_congr (hwords o 0 ho (Arena.payload_pos (hS.known o (hsub o ho)))
      fun hw => by have := (hW o 0 hw).2; omega)
  have hvalue : ∀ o i, S' o → h.tag o = some .pair → i = 1 ∨ i = 2 → ¬ W o i →
    h'.value (o + i) = h.value (o + i) ∧
      (h.value (o + i)).Within S' := by
    intro o i ho ht hi hno
    have hp := Arena.payload_of_pair ht
    have hval : h'.value (o + i) = h.value (o + i) :=
      Arena.value_congr (hwords o i ho (by omega) hno)
    refine ⟨hval, ?_⟩
    rw [← hval]
    exact hS'.field o (o + i) ho ((htag o ho).trans ht) (by omega)
  refine ⟨⟨fun _ _ _ _ h => h, fun o i ho hlt hno => hwords o i ho hlt fun hw => hno (hW o i hw),
    fun o i ho ht hi hno => ?_⟩,
    fun o ho => hS.known o (hsub o ho), fun o i ho ht hi hno =>
      (hvalue o i ho ht hi hno).2, hn.image fun _ h => h⟩
  obtain ⟨hval, hw⟩ := hvalue o i ho ht hi hno
  have hself : (h.value (o + i)).rename id = h.value (o + i) := hw.rename_self fun _ _ => rfl
  rw [hself]
  exact hval

section Words

variable (hl : Laws Collector.operations I N) (hi : I u.machine S) (hi' : I u'.machine S')
  (hsub : ∀ o, S' o → S o)
  (hwords : ∀ o i, S' o → i < u.machine.heap.payload o → ¬ W o i → u'.machine.heap.word (o + i) =
    u.machine.heap.word (o + i))
  (hW : ∀ o i, W o i → u.machine.heap.tag o = some .pair ∧ (i = 1 ∨ i = 2))

include hl hi hi' hsub hwords hW

theorem keeping_of_words (htable : u'.machine.roots.table = u.machine.roots.table) :
    Keeping id S' W u u' := by
  have hglobals : u'.machine.roots.globals = u.machine.roots.globals := congrArg Prod.fst htable
  refine ⟨follows_of_words (hl.apart hi).closed (hl.apart hi').closed
    (hl.named hi') hsub hwords hW, by rw [hglobals],
    congrArg Prod.snd htable, fun b head hh => ?_⟩
  have hh' : u'.machine.roots.globals[b]? = some head := by rw [hglobals]; exact hh
  have hw : head.Within S' := hl.roots hi' (.global b) head hh'
  have hself : head.rename id = head := hw.rename_self fun _ _ => rfl
  exact ⟨hw, by rw [hself]; exact hh'⟩

theorem relocates_of_words (hwrites : ∀ o i, W o i → cmd.Writes u o i)
    (hstack : cmd.KeepsStack u.machine.roots u'.machine.roots) : u.Relocates cmd done u' id where
  tracks := (follows_of_words (hl.apart hi).closed (hl.apart hi').closed
    (hl.named hi') hsub hwords hW).toTracks.mono
    (fun _ ho => ho.2.mem (hl.apart hi').closed (hl.roots hi')) hwrites
  quiet _ _ _ := rfl
  stack := hstack.maps (hl.roots hi)

/-- What leaves the lists of the global table alone takes the bindings along. -/
theorem passes_of_words (hwrites : ∀ o i, W o i → cmd.Writes u o i)
    (hstack : cmd.KeepsStack u.machine.roots u'.machine.roots)
    (htable : u'.machine.roots.table = u.machine.roots.table)
    (hapart : ∀ (b : Nat) (head : Value), u.machine.roots.globals[b]? = some head → ∀ o i, W o i →
      ¬ u.machine.heap.Link head o ∧ ¬ u.machine.heap.Entry head o) (hΓ : u.Maps Γ)
      (hcmd : cmd.rebinds done id Γ = fun name => (Γ name).map (Value.rename id)) :
      u.Passes cmd done u' Γ := by
  refine ⟨id, relocates_of_words hl hi hi' hsub hwords hW hwrites hstack, ?_⟩
  rw [hcmd]
  exact hΓ.keeping (keeping_of_words hl hi hi' hsub hwords hW htable)
    (fun b head hh => ⟨fun l hl =>
      ⟨fun h => (hapart b head hh l 1 h).1 hl, fun h => (hapart b head hh l 2 h).1 hl⟩,
      fun e he h => (hapart b head hh e 1 h).2 he⟩) fun b head hh e he h =>
        (hapart b head hh e 2 h).2 he

end Words

/-- Nothing is written to the heap. -/
theorem passes_of_same (hl : Laws Collector.operations I N) (hi : I u.machine S)
    (hi' : I u'.machine S') (hsub : ∀ o, S' o → S o)
    (hsame : Same S' u.machine.heap u'.machine.heap)
    (hstack : cmd.KeepsStack u.machine.roots u'.machine.roots)
    (htable : u'.machine.roots.table = u.machine.roots.table) (hΓ : u.Maps Γ)
    (hcmd : cmd.rebinds done id Γ = fun name => (Γ name).map (Value.rename id)) :
    u.Passes cmd done u' Γ :=
  passes_of_words (W := NoField) hl hi hi' hsub (fun o i ho hlt _ => hsame o i ho hlt)
    (fun _ _ h => h.elim) (fun _ _ h => h.elim) hstack
    htable (fun _ _ _ _ _ h => h.elim) hΓ hcmd

/-- Nothing changes. -/
theorem passes_refl (hl : Laws Collector.operations I N) (hi : I u.machine S) (hΓ : u.Maps Γ)
    (hcmd : cmd.rebinds done id Γ = fun name => (Γ name).map (Value.rename id)) :
    u.Passes cmd done u Γ :=
  passes_of_same hl hi hi (fun _ h => h) (.refl _ _) (.of_eq rfl) rfl hΓ hcmd

/-- A field of a pair is written. -/
theorem stored_words (hl : Laws Collector.operations I N) (hi : I u.machine S)
    (hsub : ∀ o, S' o → S o) {o i : Nat} {w : Word} (ho : S o)
    (ht : u.machine.heap.tag o = some .pair) (hio : i = 1 ∨ i = 2)
    (hs : Stored S' (o + i) w u.machine.heap u'.machine.heap) :
    ∀ x j, S' x → j < u.machine.heap.payload x → ¬ (x = o ∧ j = i) → u'.machine.heap.word (x + j) =
    u.machine.heap.word (x + j) := by
  intro x j hx hj hne
  rw [hs x j hx hj, if_neg]
  intro he
  have hxo := (hl.apart hi).field_unique ho ht (by omega) (hsub x hx) hj he
  exact hne ⟨hxo, by omega⟩

end Reclaim
