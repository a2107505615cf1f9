import Reclaim.Proofs.Definitions
import Reclaim.Proofs.Handles
import Reclaim.Proofs.Paths

/-!
# Places

A place is a root slot with a path of fields from there on. What it holds after a command is what
has become of the value that it held before, wherever that is now, if the command has written
neither the slot nor a field on the path (`Command.Misses`). An operation that may collect renames
what the roots reach; any other one leaves the words of the objects in place, but for a field that
it writes.

Results:
* `Carried.retains`, `retains_of_words`: the two kinds of operation.
* `Command.run_keeps`: one command.
-/

namespace Reclaim

open MutatorM

/-- A place that the roots lead to. -/
structure Place where
  slot : RootSlot
  path : List Nat
  fields : ∀ i ∈ path, i = 1 ∨ i = 2

/-- What the place holds. -/
def Mutator.at? (u : Mutator) (p : Place) : Option Value :=
  (u.machine.roots.get? p.slot).bind (u.machine.heap.follow? p.path)

/-- The front of a bucket: the value of its first entry. -/
def Place.front (bucket : Nat) : Place := ⟨.global bucket, [1, 2], by simp⟩

/-- The same path from the link on that comes behind a new one. -/
def Place.behind (p : Place) : Place := ⟨p.slot, 2 :: p.path, by simpa using p.fields⟩

/-- The search for the name finds no entry. -/
def Mutator.Lacks (u : Mutator) (name : String) : Prop :=
  entryAt? (u.bucket name) name u.machine = .ok none u.machine

namespace Command

/-- The command writes the slot, or takes it away. -/
def Overwrites (u : Mutator) (slot : RootSlot) : Command → Prop
  | pop => slot = .stack (u.machine.roots.stack.size - 1)
  | writeRoot written _ => slot = written
  | define name _ => u.Lacks name ∧ slot = .global (u.bucket name)
  | _ => False

/-- The command writes neither the slot nor a field on the path. One that fails writes no slot. -/
structure Misses (cmd : Command) (u : Mutator) (p : Place) : Prop where
  slot : ∀ vs u', cmd.run u = .ok vs u' → ¬ cmd.Overwrites u p.slot
  path : ∀ head, u.machine.roots.get? p.slot = some head →
    u.machine.heap.Avoids (cmd.Writes u) p.path head

end Command

/-- What a command keeps: the objects of `T` have the addresses `ρ` afterwards, and hold what they
held but for the fields that the command writes; slots that are not `gone` refer to such objects. If
it does not allocate, these are all that are still listed, and they are where they were. -/
structure Mutator.Retains (u : Mutator) (cmd : Command) (u' : Mutator) (S : Nat → Prop)
    (ρ : Nat → Nat) (T : Nat → Prop) (gone : RootSlot → Prop) : Prop where
  follows : Follows ρ T (cmd.Writes u) u.machine.heap u'.machine.heap
  roots : ∀ slot v, ¬ gone slot → u.machine.roots.get? slot = some v → v.Within T ∧
    u'.machine.roots.get? slot = some (v.rename ρ)
  calm : ¬ cmd.MayCollect u → ρ = id ∧ ∀ o, S o → u'.Lists o → T o

/-- The value `v` comes to a place of its own: a value that the command was given is in the new
pair, or behind the new link; what was in the bucket is behind that link too. -/
inductive Command.Lodges (u u' : Mutator) (v v' : Value) : Command → List Value → Prop
  | car {b p : Value} : u'.machine.heap.fieldAt? 1 p = some v' → Lodges u u' v v' (.cons v b) [p]
  | cdr {a p : Value} : u'.machine.heap.fieldAt? 2 p = some v' → Lodges u u' v v' (.cons a v) [p]
  | entry {name : String} : u.Lacks name → u'.at? (.front (u.bucket name)) = some v' →
      Lodges u u' v v' (.define name v) []
  | behind {name : String} {w : Value} {p : Place} : u.Lacks name →
      p.slot = .global (u.bucket name) →
      u.at? p = some v → v.isRef = true → u'.at? p.behind = some v' →
        Lodges u u' v v' (.define name w) []

/-- Only a new pair and a definition put values somewhere. -/
def Command.Stows : Command → Prop
  | cons _ _ | define _ _ => True
  | _ => False

theorem Command.Lodges.stows {u u' : Mutator} {v v' : Value} {cmd : Command} {vs : List Value}
    (h : Command.Lodges u u' v v' cmd vs) :
    cmd.Stows := by
  cases h <;> trivial

theorem Command.Lodges.lacks {u u' : Mutator} {name : String} {v w v' : Value} {vs : List Value}
    (h : Command.Lodges u u' w v' (.define name v) vs) : u.Lacks name := by
  cases h <;> assumption

/-- And what comes to a place of its own goes along. -/
structure Mutator.Lodged (u : Mutator) (cmd : Command) (vs : List Value) (u' : Mutator)
    (S : Nat → Prop) (ρ : Nat → Nat) (T : Nat → Prop) :
    Prop extends u.Retains cmd u' S ρ T (cmd.Overwrites u) where
  lodged : ∀ v v', cmd.Lodges u u' v v' vs → v.Within T ∧ v' = v.rename ρ

section Retains

variable {I : Machine Collector → (Nat → Prop) → Prop} {N : Machine Collector → Nat → Nat → Prop}
  {L S S' T : Nat → Prop}
  {u u' : Mutator} {cmd : Command} {vs : List Value} {ρ : Nat → Nat} {k : Nat} {v w : Value}
  {W : Nat → Nat → Prop}
  {gone : RootSlot → Prop}

theorem Follows.mono_fields {W' : Nat → Nat → Prop} {h h' : Arena} (hf : Follows ρ T W h h')
    (hW : ∀ o i, W o i → W' o i) :
    Follows ρ T W' h h' :=
  ⟨hf.toTracks.mono (fun _ ho => ho) hW, hf.known,
    fun o i ho ht hi hn => hf.linked o i ho ht hi fun h => hn (hW o i h), hf.named⟩

/-- First followed to the addresses `ρ`, and then to the addresses `τ`. -/
theorem Follows.trans {τ : Nat → Nat} {T' : Nat → Prop} {h h₁ h' : Arena}
    (hf : Follows ρ T NoField h h₁) (hg : Follows τ T' NoField h₁ h') :
    Follows (τ ∘ ρ) (fun o => T o ∧ T' (ρ o)) NoField h h' where
  injective o o' ho ho' he := hf.injective o o' ho.1 ho'.1 (hg.injective _ _ ho.2 ho'.2 he)
  word o i ho hlt hno := by
    rw [← hf.word o i ho.1 hlt hno]
    exact hg.word (ρ o) i ho.2 (by rwa [hf.payload ho.1]) (by rwa [hf.tag ho.1])
  field o i ho ht hi _ := by
    have hlinked := hf.linked o i ho.1 ht hi id
    have hfirst := hf.field o i ho.1 ht hi id
    have hsecond := hg.field (ρ o) i ho.2 ((hf.tag ho.1).trans ht) hi id
    rw [hfirst] at hsecond
    exact hsecond.trans (Value.rename_rename hlinked hf.named)
  known o ho := hf.known o ho.1
  linked o i ho ht hi _ := by
    have hlinked := hf.linked o i ho.1 ht hi id
    have hnext := hg.linked (ρ o) i ho.2 ((hf.tag ho.1).trans ht) hi id
    rw [hf.field o i ho.1 ht hi id] at hnext
    exact fun x hx => ⟨(hlinked x hx).1, (hlinked x hx).2, (hnext (ρ x) (hf.ref? hlinked hx)).2⟩
  named o' := by
    rintro ⟨o, ho, rfl⟩
    exact hg.named _ ⟨ρ o, ho.2, rfl⟩

/-- A place that was missed holds what has become of its value. -/
theorem Mutator.Retains.place (hr : u.Retains cmd u' S ρ T gone) {p : Place} (hslot : ¬ gone p.slot)
    (hm : cmd.Misses u p) (hv : u.at? p = some v) : v.Within T ∧ u'.at? p = some (v.rename ρ) := by
  obtain ⟨head, hhead, hv⟩ := Option.bind_eq_some_iff.mp hv
  obtain ⟨hin, hhead'⟩ := hr.roots p.slot head hslot hhead
  obtain ⟨hw, hv'⟩ := hr.follows.follow? hin p.fields (hm.path head hhead) hv
  exact ⟨hw, by rw [Mutator.at?, hhead', Option.bind_some, hv']⟩

/-! ## Operations that may collect -/

theorem Carried.retains (hl : Laws Collector.operations I N)
    (h : Carried I L u.machine u'.machine S S' ρ k) (hcmd : cmd.MayCollect u) :
    u.Retains cmd u' S ρ L gone where
  follows := (h.follows hl).mono_fields fun _ _ hw => hw.elim
  roots slot v _ hv := by
    obtain ⟨v', hv', rfl⟩ := h.roots.slot slot v hv
    exact ⟨h.live slot v hv, hv'⟩
  calm hno := absurd hcmd hno

/-! ## Operations that leave objects in place -/

section Words

variable (hl : Laws Collector.operations I N) (hi : I u.machine S) (hi' : I u'.machine S')
  (hsub : ∀ o, S' o → S o)
  (hlisted : ∀ o, S o → u'.Lists o → S' o)
  (hroots : ∀ slot v, ¬ gone slot → u.machine.roots.get? slot = some v →
    u'.machine.roots.get? slot = some v)

include hl hi hi' hsub hlisted hroots

/-- The words of objects stay the same, but for the fields `W`. -/
theorem retains_of_words (hwords : ∀ o i, S' o → i < u.machine.heap.payload o → ¬ W o i →
      u'.machine.heap.word (o + i) = u.machine.heap.word (o + i))
      (hW : ∀ o i, W o i → u.machine.heap.tag o = some .pair ∧ (i = 1 ∨ i = 2))
      (hwrites : ∀ o i, W o i → cmd.Writes u o i) : u.Retains cmd u' S id S' gone where
  follows := (follows_of_words (hl.apart hi).closed (hl.apart hi').closed
    (hl.named hi') hsub hwords hW).mono_fields hwrites
  roots slot v hno hv := by
    have hv' := hroots slot v hno hv
    have hw := hl.roots hi' slot v hv'
    have hself : v.rename id = v := hw.rename_self fun _ _ => rfl
    exact ⟨hw, by rw [hself, hv']⟩
  calm _ := ⟨rfl, hlisted⟩

/-- Nothing is written to the heap. -/
theorem retains_of_same (hsame : Same S' u.machine.heap u'.machine.heap) :
    u.Retains cmd u' S id S' gone :=
  retains_of_words (W := NoField) hl hi hi' hsub hlisted hroots
    (fun o i ho hlt _ => hsame o i ho hlt) (fun _ _ h => h.elim)
    fun _ _ h => h.elim

end Words

/-- Nothing changes. -/
theorem retains_refl (hl : Laws Collector.operations I N) (hi : I u.machine S) :
    u.Retains cmd u S id S gone :=
  retains_of_same hl hi hi (fun _ h => h) (fun _ h _ => h) (fun _ _ _ h => h) (.refl _ _)

end Retains

/-! ## Each command -/

namespace Roots

variable {r : Roots} {slot : RootSlot} {v w : Value}

theorem get?_push (hw : r.get? slot = some w) : Roots.get? { r with
      stack := r.stack.push v } slot = some w := by
  cases slot with
  | global i => exact hw
  | stack i =>
    have hlt : i < r.stack.size := (Array.getElem?_eq_some_iff.mp hw).1
    rw [Roots.get?, Array.getElem?_push_lt hlt]
    exact (Array.getElem?_eq_getElem hlt).symm.trans hw

theorem get?_pop (hno : slot ≠ .stack (r.stack.size - 1)) (hw : r.get? slot = some w) :
    Roots.get? { r with stack := r.stack.pop } slot = some w := by
  cases slot with
  | global i => exact hw
  | stack i =>
    have hlt : i < r.stack.size := (Array.getElem?_eq_some_iff.mp hw).1
    have hne : i ≠ r.stack.size - 1 := fun h => hno (by rw [h])
    rw [Roots.get?, Array.getElem?_pop, if_pos (by omega)]
    exact hw

end Roots

namespace Command

variable {α : Type} {I : Machine Collector → (Nat → Prop) → Prop}
  {N : Machine Collector → Nat → Nat → Prop} {S : Nat → Prop}
  {u u' : Mutator} {cmd : Command} {v : Value}

/-- What a command that returns `vs` keeps. -/
def Keeps (cmd : Command) (u : Mutator) (S : Nat → Prop) (vs : List Value)
    (u' : Mutator) : Prop := ∃ ρ T, u.Lodged cmd vs u' S ρ T

/-- What a command that fails keeps, if the heap is not poisoned. -/
def Saves (cmd : Command) (u : Mutator) (S : Nat → Prop) (e : Fault) (u' : Mutator) : Prop :=
  u'.poisoned = true ∨ ∀ f, e = .failed f → ∃ ρ T, u.Retains cmd u' S ρ T fun _ => False

theorem keeps_of_retains {vs : List Value} {ρ : Nat → Nat} {T : Nat → Prop}
    (h : u.Retains cmd u' S ρ T (cmd.Overwrites u)) (hno : ∀ v v', ¬ cmd.Lodges u u' v v' vs) :
    cmd.Keeps u S vs u' := ⟨ρ, T, h, fun v v' hv => absurd hv (hno v v')⟩

theorem keeps_plain {vs : List Value} {ρ : Nat → Nat} {T : Nat → Prop}
    (h : u.Retains cmd u' S ρ T (cmd.Overwrites u)) (hno : ¬ cmd.Stows) : cmd.Keeps u S vs u' :=
  keeps_of_retains h fun _ _ hv => hno hv.stows

theorem Stops.saves {n : Nat} {e : Fault} (hl : Laws Collector.operations I N) (hi : I u.machine S)
    (h : Stops u n e u') :
    cmd.Saves u S e u' := by
  refine h.imp id fun h f hf => ?_
  rw [h.2 f hf]
  exact ⟨id, S, retains_refl hl hi⟩

/-- A command that returns what `x` makes. -/
theorem keeps_returns {x : MutatorM α} {f : α → List Value} {Q : α → Mutator → Prop}
    {E : Fault → Mutator → Prop} (hx : Ends x u Q E) (hq : ∀ a u', Q a u' → cmd.Keeps u S (f a) u')
    (he : ∀ e u', E e u' → cmd.Saves u S e u') :
    Ends (do return f (← x)) u (cmd.Keeps u S) (cmd.Saves u S) :=
  (hx.mono_error he).bind fun a u' h => .pure (hq a u' h)

theorem filled_keeps {ws : List Word} (hl : Laws Collector.operations I N) (hcmd : cmd.MayCollect u)
    (hno : ¬ cmd.Stows) (h : MadeOfWords I N u S ws v u') : cmd.Keeps u S [v] u' := by
  obtain ⟨-, ρ, S', k, o, -, -, hm, -⟩ := h
  exact keeps_plain (hm.moved.retains hl hcmd) hno

theorem duplicate_keeps (hl : Laws Collector.operations I N) (hi : I u.machine S)
    (hu : u.poisoned = false) (hv : v.Within S) :
    Ends (duplicate v).run u ((duplicate v).Keeps u S) ((duplicate v).Saves u S) := by
  cases hr : v.ref? with
  | none =>
    refine keeps_returns (Ends.of_eq (Q := fun _ u' => u' = u) (duplicate_immediate hr) rfl) ?_
      fun _ _ h => h
    rintro a u' rfl
    exact keeps_plain (retains_refl hl hi) id
  | some src =>
    refine keeps_returns (duplicate_ends hl hi hu hv hr) ?_ fun _ _ h => Stops.saves hl hi h
    rintro w u' ⟨-, -, ρ, S', k, o, -, -, hm, -⟩
    exact keeps_plain (hm.moved.retains hl (Value.isRef_of_ref? hr)) id

/-- The fields of the new pair hold what its operands have become. -/
theorem cons_keeps {a b : Value} (hl : Laws Collector.operations I N) (hi : I u.machine S)
    (hu : u.poisoned = false) (ha : a.Within S) (hb : b.Within S) :
    Ends (cons a b).run u ((cons a b).Keeps u S) ((cons a b).Saves u S) := by
  refine keeps_returns (cons_ends hl hi hu ha hb) ?_ fun _ _ h => Stops.saves hl hi h
  rintro w u' ⟨-, -, ρ, S', k, o, rfl, -, hm, hw, hcar, hcdr⟩
  have href := hl.ref?_ofRef hm.moved.inv hm.mem
  have hpair := Arena.tag_of_objectWord hw
  refine ⟨ρ, _, hm.moved.retains hl trivial, ?_⟩
  rintro v v' (hf | hf)
  · rw [Arena.fieldAt?, Arena.pairAt?_eq_some.mpr ⟨href, hpair⟩] at hf
    cases hf
    exact ⟨Machine.within_live (by simp) ha, hcar⟩
  · rw [Arena.fieldAt?, Arena.pairAt?_eq_some.mpr ⟨href, hpair⟩] at hf
    cases hf
    exact ⟨Machine.within_live (by simp) hb, hcdr⟩

/-- A store into a pair. -/
theorem setPairField_keeps {pair : Value} {i : Nat} (hl : Laws Collector.operations I N)
    (hi : I u.machine S) (hu : u.poisoned = false) (hpark : u.machine.roots.parked = 0)
    (hp : pair.Within S) (hv : v.Within S) (hio : i = 1 ∨ i = 2)
    (hwrites : ∀ o, pair.ref? = some o → cmd.Writes u o i)
    (hno : ∀ u' w w', ¬ cmd.Lodges u u' w w' []) :
    Ends (MutatorM.setPairField i pair v) u (fun _ => cmd.Keeps u S []) (cmd.Saves u S) := by
  cases ho : u.machine.heap.pairAt? pair with
  | none =>
    exact .of_eq (setPairField_absent hl hi hp ho) (keeps_of_retains (retains_refl hl hi) (hno u))
  | some o =>
    obtain ⟨hr, ht⟩ := Arena.pairAt?_eq_some.mp ho
    refine ((setPairField_ends hl hi hu hpark hp hv hio ho).mono ?_).mono_error fun _ _ h => .inl h
    rintro - u' ⟨-, S', hleft, hst, hroots⟩
    refine keeps_of_retains (retains_of_words (W := fun x j => x = o ∧ j = i) hl hi hleft.inv
      hleft.subset (fun _ => hleft.listed_of)
      (fun _ _ _ hget => by rw [hroots]; exact hget)
        (stored_words hl hi hleft.subset (hp o hr).2 ht hio hst) ?_ ?_) (hno u')
    · rintro x j ⟨rfl, rfl⟩
      exact ⟨ht, hio⟩
    · rintro x j ⟨rfl, rfl⟩
      exact hwrites x hr

theorem push_keeps (hl : Laws Collector.operations I N) (hi : I u.machine S)
    (hu : u.poisoned = false) (hpark : u.machine.roots.parked = 0) (hv : v.Within S) :
    Ends (push v).run u ((push v).Keeps u S) ((push v).Saves u S) := by
  refine keeps_returns (f := fun _ => []) (push_ends hl hi hu hpark hv) ?_ ?_
  · rintro - u' ⟨-, -, hi', hsame, hroots, -, -⟩
    refine keeps_plain (retains_of_same hl hi hi' (fun _ h => h) (fun _ h _ => h)
      (fun slot w _ hw => ?_) hsame) id
    rw [hroots]
    exact Roots.get?_push hw
  · rintro e u' ⟨-, rfl⟩
    exact .inr fun _ _ => ⟨id, S, retains_refl hl hi⟩

theorem pop_keeps (hl : Laws Collector.operations I N) (hi : I u.machine S)
    (hu : u.poisoned = false) (hpark : u.machine.roots.parked = 0) :
    Ends pop.run u (pop.Keeps u S) (pop.Saves u S) := by
  cases hv : u.machine.roots.stack.back? with
  | none =>
    refine (Ends.of_error (Q := fun _ _ => False) (pop_empty hl hi hu hv) ?_).bind
      fun _ _ h => h.elim
    exact .inr fun _ _ => ⟨id, S, retains_refl hl hi⟩
  | some v =>
    refine keeps_returns (pop_ends hl hi hu hpark hv) ?_ fun _ _ h => .inl h
    rintro w u' ⟨-, -, S', hleft, hsame, hroots⟩
    refine keeps_plain (retains_of_same hl hi hleft.inv hleft.subset (fun _ => hleft.listed_of)
      (fun slot w hno hw => ?_) hsame) id
    rw [hroots]
    exact Roots.get?_pop hno hw

theorem writeRoot_keeps (hl : Laws Collector.operations I N) (hi : I u.machine S)
    (hu : u.poisoned = false) (hpark : u.machine.roots.parked = 0) (written : RootSlot)
    (hv : v.Within S) :
    Ends (writeRoot written v).run u ((writeRoot written v).Keeps u S)
    ((writeRoot written v).Saves u S) := by
  cases hs : u.machine.roots.get? written with
  | none =>
    obtain ⟨u', hrun⟩ := writeRoot_absent hl hi hu hs hv
    refine (Ends.of_error (Q := fun _ _ => False) hrun ?_).bind fun _ _ h => h.elim
    exact .inr fun f hf => by cases hf
  | some old =>
    refine keeps_returns (f := fun _ => []) (writeRoot_ends hl hi hu hpark hs hv) ?_
      fun _ _ h => .inl h
    rintro - u' ⟨-, S', hleft, hsame, hroots⟩
    refine keeps_plain (retains_of_same hl hi hleft.inv hleft.subset (fun _ => hleft.listed_of)
      (fun slot w hno hw => ?_) hsame) id
    rw [hroots, Roots.get?_set_of_ne hno]
    exact hw

end Command

/-! ## A new link -/

/-- A bucket that leads to an object is not empty. -/
theorem MutatorM.rest_of_follow? {h : Arena} {path : List Nat} {head w : Value}
    (hw : h.follow? path head = some w) (href : w.isRef = true) : rest head = head := by
  rw [rest]
  split
  · rename_i hu
    rw [eq_of_beq hu] at hw
    cases path with
    | nil =>
      cases hw
      cases href
    | cons i path => cases hw
  · rfl

section New

variable {I : Machine Collector → (Nat → Prop) → Prop} {N : Machine Collector → Nat → Nat → Prop}
  {S S₁ S' : Nat → Prop}
  {u u₁ u' : Mutator} {name : String} {v head : Value} {ρ : Nat → Nat} {k key entry link : Nat}
  (hl : Laws Collector.operations I N)
  (hh : u.machine.roots.globals[u.bucket name]? = some head)
  (hlink : MutatorM.LinkMade I u u₁ S S₁ name v head ρ k key entry link)
  (hleft : Left Collector.operations I u₁.machine u'.machine S₁ S')
  (hsame : Same S' u₁.machine.heap u'.machine.heap)
  (hroots : u'.machine.roots = u₁.machine.roots.set (.global (u.bucket name)) (.ofRef link))

include hl hh hlink hleft hsame hroots

/-- The link and its entry are left where they are. -/
theorem MutatorM.LinkMade.left_digest : Follows id S' NoField u₁.machine.heap u'.machine.heap ∧
    S' link ∧ S' entry := by
  have hbucket : u.machine.roots.globals[u.bucket name]? = some head := hh
  obtain ⟨hf, hlinkS, hentryS, -⟩ := hlink.left hl hbucket hleft hsame hroots
  exact ⟨hf, hlinkS, hentryS⟩

/-- From before the definition to its end. -/
theorem MutatorM.LinkMade.follows :
    Follows ρ (fun o => u.machine.Live [v] o ∧ S' (ρ o)) NoField u.machine.heap
    u'.machine.heap := by
  obtain ⟨hf, -, -⟩ := hlink.left_digest hl hh hleft hsame hroots
  exact (hlink.carried.follows hl).trans hf

omit hh hroots hsame hleft in
theorem MutatorM.LinkMade.within_left {w : Value} (hw : w.Within (u.machine.Live [v]))
    (hw' : (w.rename ρ).Within S') :
    w.Within fun o => u.machine.Live [v] o ∧ S' (ρ o) := fun x hx =>
  ⟨(hw x hx).1, (hw x hx).2, (hw' (ρ x) ((hlink.carried.follows hl).ref? hw hx)).2⟩

/-- A field of a pair that is left holds what it held before the link came to the bucket. -/
theorem MutatorM.LinkMade.fieldAt?_left {o i : Nat} (ho : S' o)
    (ht : u₁.machine.heap.tag o = some .pair) (hio : i = 1 ∨ i = 2) :
    (u₁.machine.heap.value (o + i)).Within S' ∧ u'.machine.heap.fieldAt? i (.ofRef o) =
    some (u₁.machine.heap.value (o + i)) := by
  obtain ⟨hf, -, -⟩ := hlink.left_digest hl hh hleft hsame hroots
  have hin := hf.linked o i ho ht hio id
  have hpair : u'.machine.heap.pairAt? (.ofRef o) = some o :=
    Arena.pairAt?_eq_some.mpr
      ⟨hl.ref?_ofRef hlink.carried.inv (hleft.subset o ho), (hf.tag ho).trans ht⟩
  refine ⟨hin, ?_⟩
  rw [Arena.fieldAt?, hpair, Option.map_some]
  exact congrArg some ((hf.field o i ho ht hio id).trans (hin.rename_self fun _ _ => rfl))

omit hl hleft hsame in
theorem MutatorM.LinkMade.head_link :
    u'.machine.roots.get? (.global (u.bucket name)) = some (.ofRef link) := by
  obtain ⟨head₁, hh₁, -⟩ := hlink.carried.roots.slot (.global _) head hh
  rw [hroots]
  exact Roots.get?_set_self hh₁

/-- The value is behind the new link. -/
theorem MutatorM.LinkMade.at?_front (hv : v.Within S) :
    v.Within (fun o => u.machine.Live [v] o ∧ S' (ρ o)) ∧
    u'.at? (.front (u.bucket name)) = some (v.rename ρ) := by
  obtain ⟨-, hlinkS, hentryS⟩ := hlink.left_digest hl hh hleft hsame hroots
  obtain ⟨-, hcar⟩ := hlink.fieldAt?_left hl hh hleft hsame hroots hlinkS hlink.link_tag (.inl rfl)
  obtain ⟨hin, hcdr⟩ := hlink.fieldAt?_left hl hh hleft hsame hroots hentryS
    hlink.entry_tag (.inr rfl)
  rw [hlink.entry_cdr] at hin hcdr
  refine ⟨hlink.within_left hl (Machine.within_live (by simp) hv) hin, ?_⟩
  rw [Mutator.at?, Place.front, hlink.head_link hh hroots, Option.bind_some, Arena.follow?, hcar,
    Option.bind_some, hlink.link_car,
    Arena.follow?, hcdr]
  rfl

/-- What was in the bucket is behind the new link too. -/
theorem MutatorM.LinkMade.at?_behind {p : Place} {w : Value} (hp : p.slot = .global (u.bucket name))
    (hw : u.at? p = some w) (href : w.isRef = true) :
    w.Within (fun o => u.machine.Live [v] o ∧ S' (ρ o)) ∧
      u'.at? p.behind = some (w.rename ρ) := by
  obtain ⟨-, hlinkS, -⟩ := hlink.left_digest hl hh hleft hsame hroots
  obtain ⟨hin, hcdr⟩ := hlink.fieldAt?_left hl hh hleft hsame hroots hlinkS
    hlink.link_tag (.inr rfl)
  rw [Mutator.at?, hp, Roots.get?, hh, Option.bind_some] at hw
  rw [hlink.link_cdr, MutatorM.rest_of_follow? hw href] at hin hcdr
  have hhead := hlink.within_left hl (hlink.carried.live (.global _) head hh) hin
  obtain ⟨hin', hw'⟩ := (hlink.follows hl hh hleft hsame hroots).follow? hhead
    p.fields (.none _ _) hw
  refine ⟨hin', ?_⟩
  rw [Mutator.at?, Place.behind, hp, hlink.head_link hh hroots,
    Option.bind_some, Arena.follow?, hcdr, Option.bind_some, hw']

end New

namespace Command

variable {α : Type} {I : Machine Collector → (Nat → Prop) → Prop}
  {N : Machine Collector → Nat → Nat → Prop} {S : Nat → Prop}
  {u u' : Mutator} {cmd : Command} {v : Value}

/-- A new name: the value is behind the new link, and so is what was in the bucket. -/
theorem bound_keeps {name : String} {head : Value} (hl : Laws Collector.operations I N)
    (hv : v.Within S) (hlacks : u.Lacks name)
    (hh : u.machine.roots.globals[u.bucket name]? = some head)
    (h : Bound I u u' S (u.bucket name) name v head) : (define name v).Keeps u S [] u' := by
  obtain ⟨-, -, u₁, ρ, S₁, S', k, key, entry, link, -, hlink, hleft, hsame, hroots⟩ := h
  have hc := hlink.carried
  have hfollows := hlink.follows hl hh hleft hsame hroots
  refine ⟨ρ, _, ⟨hfollows.mono_fields fun _ _ hw => hw.elim,
    fun slot w hno hw => ?_, fun hno => ?_⟩, ?_⟩
  · obtain ⟨w', hw', rfl⟩ := hc.roots.slot slot w hw
    have hget : u'.machine.roots.get? slot = some (w.rename ρ) := by
      rw [hroots, Roots.get?_set_of_ne fun he => hno ⟨hlacks, he⟩]
      exact hw'
    exact ⟨hlink.within_left hl (hc.live slot w hw) (hl.roots hleft.inv slot _ hget), hget⟩
  · obtain ⟨entry, m, hentry⟩ := entry_of_binds (not_not.mp hno)
    cases hlacks.symm.trans hentry
  · intro w v' hlodges
    cases hlodges with
    | entry _ hfront =>
      obtain ⟨hin, hfront'⟩ := hlink.at?_front hl hh hleft hsame hroots hv
      exact ⟨hin, Option.some.inj (hfront.symm.trans hfront')⟩
    | behind _ hp hw href hback =>
      obtain ⟨hin, hback'⟩ := hlink.at?_behind hl hh hleft hsame hroots hp hw href
      exact ⟨hin, Option.some.inj (hback.symm.trans hback')⟩

/-- A definition. -/
theorem define_keeps (hl : Laws Collector.operations I N) (hi : I u.machine S)
    (hu : u.poisoned = false) (hpark : u.machine.roots.parked = 0) (name : String)
    (hv : v.Within S) :
    Ends (define name v).run u ((define name v).Keeps u S) ((define name v).Saves u S) := by
  refine keeps_returns (f := fun _ => []) (Q := fun _ => (define name v).Keeps u S []) ?_
    (fun _ _ h => h) fun _ _ h => h
  refine define_ends ?_
  rw [defineAt_eq]
  refine .step (check_run hu) ?_
  rcases entryAt?_ends hl hi (u.bucket name) name with ⟨head, r, hh, hrun, hrw⟩ | ⟨e, hne, hrun⟩
  · refine .step (gc_lift hrun) ?_
    cases r with
    | some entry =>
      refine setPairField_keeps hl hi hu hpark (hrw entry rfl) hv (.inr rfl) (fun o ho => ?_) ?_
      · obtain ⟨rfl, -⟩ := hrw entry rfl o ho
        exact ⟨hrun, rfl⟩
      · intro u' w w' hlodges
        cases hlodges.lacks.symm.trans hrun
    | none =>
      refine ((bindNew_ends hl hi hu hpark hv hh name).mono
        fun _ _ h => bound_keeps hl hv hrun hh h).mono_error fun _ _ h => ?_
      refine h.reported.imp id fun h f hf => ?_
      obtain ⟨-, ρ, S', k, -, hmv⟩ := h f hf
      refine ⟨ρ, _, hmv.retains hl fun hbinds => ?_⟩
      obtain ⟨entry, m, hentry⟩ := entry_of_binds hbinds
      cases hrun.symm.trans hentry
  · refine (Ends.of_error (Q := fun _ _ => False) (gc_lift_error hrun) ?_).bind fun _ _ h => h.elim
    exact .inr fun f hf => absurd hf (hne f)

theorem collect_keeps {x : MutatorM Unit} (hl : Laws Collector.operations I N)
    (hcmd : cmd.MayCollect u) (hno : ¬ cmd.Stows)
    (hx : Ends x u (fun _ u' => u'.poisoned = false ∧ ∃ ρ S' k, k ≤ 3 ∧
      Moved I u.machine u'.machine S S' ρ k) fun _ u' =>
      u'.poisoned = true) : Ends (do x; return ([] : List Value)) u (cmd.Keeps u S)
      (cmd.Saves u S) := by
  refine keeps_returns (f := fun _ => []) hx ?_ fun _ _ h => .inl h
  rintro - u' ⟨-, ρ, S', k, -, hmv⟩
  exact keeps_plain (hmv.retains hl hcmd) hno

/-- A command that only reads. -/
theorem reads_keeps {x : MutatorM (Option Value)} {r : Option Value}
    (hl : Laws Collector.operations I N) (hi : I u.machine S) (hno : ¬ cmd.Stows)
    (hx : x u = .ok r u) : Ends (do return (← x).toList) u (cmd.Keeps u S) (cmd.Saves u S) := by
  refine keeps_returns (Ends.of_eq (Q := fun a u' => a = r ∧ u' = u) hx ⟨rfl, rfl⟩) ?_
    fun _ _ h => h
  rintro a u' ⟨ha, hu'⟩
  rw [ha, hu']
  exact keeps_plain (retains_refl hl hi) hno

/-- One command, with operands that may be used. -/
theorem run_keeps (hl : Laws Collector.operations I N) (hi : I u.machine S)
    (hu : u.poisoned = false) (hpark : u.machine.roots.parked = 0) (cmd : Command)
    (hops : ∀ v ∈ cmd.operands, v.Within S) :
    Ends cmd.run u (cmd.Keeps u S) (cmd.Saves u S) := by
  cases cmd with
  | allocate bytes =>
    refine keeps_returns (allocateWords_ends hl hi hu (by omega)) ?_ fun _ _ h =>
      h.imp id Uncounted.silent
    rintro o u' ⟨-, ρ, S', k, -, hm, -⟩
    exact keeps_plain (hm.moved.retains hl trivial) id
  | char c =>
    exact keeps_returns ((char_constructs c).ends_of_lt hl hi hu (by decide))
      (fun _ _ h => filled_keeps hl trivial id h) fun _ _ h => .inl h
  | string s =>
    exact keeps_returns ((text_constructs (.inl rfl) (Text.encode s)).ends hl hi hu)
      (fun _ _ h => filled_keeps hl trivial id h)
      fun _ _ h => h.imp id Uncounted.silent
  | symbol s =>
    exact keeps_returns ((text_constructs (.inr rfl) (Text.encode s)).ends hl hi hu)
      (fun _ _ h => filled_keeps hl trivial id h)
      fun _ _ h => h.imp id Uncounted.silent
  | cons a b =>
    exact cons_keeps hl hi hu (hops a (by simp [operands])) (hops b (by simp [operands]))
  | lambda entry params variadic =>
    exact keeps_returns ((lambda_constructs entry params variadic).ends_of_lt hl hi hu
      (by simp [tableLimit])) (fun _ _ h => filled_keeps hl trivial id h)
      fun _ _ h => .inl h
  | duplicate v => exact duplicate_keeps hl hi hu (hops v (by simp [operands]))
  | setCar pair v =>
    have hwrites : ∀ o, pair.ref? = some o → (setCar pair v).Writes u o 1 := fun o ho => ⟨ho, rfl⟩
    exact keeps_returns (f := fun _ => [])
      (setPairField_keeps hl hi hu hpark (hops pair (by simp [operands]))
      (hops v (by simp [operands])) (.inl rfl) hwrites
        fun _ _ _ h => h.stows) (fun _ _ h => h) fun _ _ h => h
  | setCdr pair v =>
    have hwrites : ∀ o, pair.ref? = some o → (setCdr pair v).Writes u o 2 := fun o ho => ⟨ho, rfl⟩
    exact keeps_returns (f := fun _ => [])
      (setPairField_keeps hl hi hu hpark (hops pair (by simp [operands]))
      (hops v (by simp [operands])) (.inr rfl) hwrites
        fun _ _ _ h => h.stows) (fun _ _ h => h) fun _ _ h => h
  | push v => exact push_keeps hl hi hu hpark (hops v (by simp [operands]))
  | pop => exact pop_keeps hl hi hu hpark
  | writeRoot slot v => exact writeRoot_keeps hl hi hu hpark slot (hops v (by simp [operands]))
  | define name v => exact define_keeps hl hi hu hpark name (hops v (by simp [operands]))
  | collect => exact collect_keeps hl trivial id (collect_ends hl hi hu)
  | collectFull => exact collect_keeps hl trivial id (collectFull_ends hl hi hu)
  | setStress on =>
    refine .of_eq (a := []) (t := { u with machine := { u.machine with stress := on } }) rfl ?_
    refine keeps_plain (retains_of_same hl hi ?_ (fun _ h => h) (fun _ h _ => h)
      (fun _ _ _ h => h) (.refl _ _)) id
    exact hl.congr hi rfl rfl rfl
  | peek depth =>
    exact .of_eq (a := (u.peek? depth).toList) (t := u) rfl (keeps_plain (retains_refl hl hi) id)
  | car v =>
    exact reads_keeps hl hi id
      (MutatorM.read_lift (car?_run (hl.apart hi) (hops v (by simp [operands]))))
  | cdr v =>
    exact reads_keeps hl hi id
      (MutatorM.read_lift (cdr?_run (hl.apart hi) (hops v (by simp [operands]))))
  | lookup name =>
    have hrun := lookup?_eq name u
    rcases lookupAt?_ends hl hi (u.bucket name) name with ⟨r, hr, -⟩ | ⟨e, hne, he⟩
    · exact reads_keeps hl hi id (gc_lift (hrun.trans hr))
    · refine (Ends.of_error (Q := fun _ _ => False) (gc_lift_error (hrun.trans he)) ?_).bind
        fun _ _ h => h.elim
      exact .inr fun f hf => absurd hf (hne f)

end Command

end Reclaim
