import Mathlib.Data.List.Forall2
import Reclaim.Proofs.Data
import Reclaim.Proofs.Frame
import Reclaim.Proofs.GlobalMap
import Reclaim.Proofs.Pinned

/-!
# A memory of data

To a program that keeps no addresses the heap is a stack of data and a map from names to data
(`Presents`). Every operation does to these what it says, wherever the objects are, or stops and
tells why. What an operation returns may be used until the next one that allocates, and a new pair
even while one of its fields is popped from the stack.

Results:
* `Presents.cons`, `Presents.string`: new objects.
* `Presents.push`, `Presents.pop`, `Presents.replace`: the stack.
* `Presents.pop_pinned`: a pop that leaves a new pair alone.
* `Presents.define`, `Presents.lookup`: names.
-/

namespace Reclaim

/-! ## The stack from the top -/

namespace Roots

/-- The values on the stack, top first. -/
def fromTop (r : Roots) : List Value := r.stack.toList.reverse

variable {r r' : Roots} {v w : Value} {vs : List Value} {ρ : Nat → Nat}

theorem length_fromTop : r.fromTop.length = r.stack.size := by simp [fromTop]

theorem mem_fromTop (hv : v ∈ r.fromTop) : ∃ i, r.get? (.stack i) = some v := by
  obtain ⟨i, hi, rfl⟩ := List.mem_iff_getElem.mp (List.mem_reverse.mp hv)
  exact ⟨i, by simp [get?]⟩

theorem fromTop_push : fromTop { r with
      stack := r.stack.push v } = v :: r.fromTop := by simp [fromTop]

theorem fromTop_pop : fromTop { r with stack := r.stack.pop } = r.fromTop.tail := by simp [fromTop]

theorem back?_of_fromTop (h : r.fromTop = v :: vs) : r.stack.back? = some v := by
  have hlist := congrArg List.head? h
  rw [fromTop, List.head?_reverse] at hlist
  simpa using hlist

theorem peek?_zero : r.peek? 0 = r.stack.back? := by
  rw [peek?, depth, Array.back?_eq_getElem?]
  split
  · rfl
  · rename_i hempty
    exact (Array.getElem?_eq_none (by omega)).symm

theorem fromTop_set (h : r.fromTop = v :: vs) : (r.set (.stack vs.length) w).fromTop = w :: vs := by
  have hlist : r.stack.toList = vs.reverse ++ [v] := by
    have hrev := congrArg List.reverse h
    simpa [fromTop] using hrev
  rw [fromTop, set, Array.toList_setIfInBounds, hlist, List.set_append_right _ _ (by simp)]
  simp

theorem fromTop_set_global {i : Nat} : (r.set (.global i) w).fromTop = r.fromTop := rfl

/-- When the values have moved, so has the stack. -/
theorem Mapped.fromTop (hm : r.Mapped (fun v v' => v' = v.rename ρ) r') :
    r'.fromTop = r.fromTop.map (Value.rename ρ) := by
  rw [Roots.fromTop, Roots.fromTop, List.map_reverse]
  refine congrArg List.reverse (List.ext_getElem? fun i => ?_)
  rw [List.getElem?_map, Array.getElem?_toList, Array.getElem?_toList]
  cases hv : r.stack[i]? with
  | some v =>
    obtain ⟨v', hv', rfl⟩ := hm.slot (.stack i) v hv
    exact hv'
  | none =>
    rw [Array.getElem?_eq_none_iff] at hv
    rw [Array.getElem?_eq_none (by rw [hm.depth]; exact hv)]
    rfl

end Roots

/-! ## What is presented -/

theorem forall₂_mono_mem {α β : Type} {P Q : α → β → Prop} {as : List α} {bs : List β}
    (h : List.Forall₂ P as bs) (himp : ∀ a ∈ as, ∀ b ∈ bs, P a b → Q a b) :
    List.Forall₂ Q as bs := by
  induction h with
  | nil => exact .nil
  | cons hab _ ih =>
    exact .cons (himp _ (List.mem_cons_self ..) _ (List.mem_cons_self ..) hab)
      (ih fun a ha b hb => himp a (List.mem_cons_of_mem _ ha) b (List.mem_cons_of_mem _ hb))

/-- These names are bound to values that stand for these data. -/
def Mutator.Defines (u : Mutator) (Δ : String → Option Datum) : Prop :=
  ∃ Γ, u.Maps Γ ∧ ∀ name d, Δ name = some d → ∃ v, Γ name = some v ∧ u.machine.heap.Shows v d

/-- The heap is in good order, with nothing parked. Its stack shows the data `ds`, top first, and
its global table those of `Δ`. -/
structure Presents (I : Machine Collector → (Nat → Prop) → Prop) (u : Mutator) (S : Nat → Prop)
    (ds : List Datum) (Δ : String → Option Datum) : Prop where
  inv : I u.machine S
  clean : u.poisoned = false
  parked : u.machine.roots.parked = 0
  stack : List.Forall₂ u.machine.heap.Shows u.machine.roots.fromTop ds
  globals : u.Defines Δ

variable {I : Machine Collector → (Nat → Prop) → Prop} {N : Machine Collector → Nat → Nat → Prop}
  {L S S' : Nat → Prop}
  {u u' : Mutator} {ds : List Datum} {d e x y : Datum} {Δ : String → Option Datum}
  {Γ : String → Option Value} {ρ : Nat → Nat} {k : Nat}
  {v w : Value} {name : String}

/-- What names are bound to is among the objects that the roots reach. -/
theorem Mutator.Maps.within (hΓ : u.Maps Γ) (hcl : Closed u.machine.heap S)
    (hr : u.machine.roots.Within S) (hv : Γ name = some v) : v.Within S := by
  obtain ⟨E, hE, hval⟩ := hΓ
  obtain ⟨o, ho, rfl⟩ := Option.map_eq_some_iff.mp ((hval name).symm.trans hv)
  obtain ⟨head, es, hh, hc, hmem⟩ := hE.of_entry ho
  exact hcl.field o _ (hc.entry_mem hcl (hr (.global _) head hh) _ hmem)
    (hE.entry_pair ho) (.inr rfl)

/-- Objects that keep their words stand for the same data. -/
theorem Laws.shows (hl : Laws Collector.operations I N) {m m' : Machine Collector} (hi : I m S)
    (hi' : I m' S') (hsub : ∀ o, S' o → S o) (hsame : Same S' m.heap m'.heap) (hv : v.Within S')
    (hs : m.heap.Shows v d) : m'.heap.Shows v d := by
  have hf : Follows id S' NoField m.heap m'.heap :=
    follows_of_words (hl.apart hi).closed (hl.apart hi').closed (hl.named hi') hsub
    (fun o i ho hlt _ => hsame o i ho hlt) fun _ _ h => h.elim
  have hself : v.rename id = v := hv.rename_self fun _ _ => rfl
  rw [← hself]
  exact hf.shows_none hs hv

/-- Data are found again from the new addresses of values that were carried along. -/
theorem Carried.shows (hl : Laws Collector.operations I N)
    (h : Carried I L u.machine u'.machine S S' ρ k) (hv : v.Within L)
    (hs : u.machine.heap.Shows v d) : u'.machine.heap.Shows (v.rename ρ) d :=
  (h.follows hl).shows_none hs hv

namespace Presents

theorem size_eq (hp : Presents I u S ds Δ) : u.machine.roots.stack.size = ds.length := by
  rw [← Roots.length_fromTop]
  exact hp.stack.length_eq

/-- The value on top of the stack. -/
theorem top (hl : Laws Collector.operations I N) (hp : Presents I u S (d :: ds) Δ) :
    ∃ v, u.machine.roots.stack.back? = some v ∧ u.peek? 0 = some v ∧ v.Within S ∧
    u.machine.heap.Shows v d := by
  obtain ⟨v, vs, hv, -, hstack⟩ := List.forall₂_cons_right_iff.mp hp.stack
  have hback := Roots.back?_of_fromTop hstack
  obtain ⟨i, hi⟩ := Roots.mem_fromTop (hstack ▸ List.mem_cons_self ..)
  exact ⟨v, hback, Roots.peek?_zero.trans hback, hl.roots hp.inv _ v hi, hv⟩

/-- The data of a stack whose values have moved. -/
theorem carried_stack (hl : Laws Collector.operations I N) (hp : Presents I u S ds Δ)
    (h : Carried I L u.machine u'.machine S S' ρ k) :
    List.Forall₂ u'.machine.heap.Shows u'.machine.roots.fromTop ds := by
  rw [h.roots.fromTop, List.forall₂_map_left_iff]
  exact forall₂_mono_mem hp.stack fun v hv _ _ =>
    h.shows hl ((Roots.mem_fromTop hv).elim fun i hi => h.live (.stack i) v hi)

/-- Whatever a collection moves, the data stay. -/
theorem carried (hl : Laws Collector.operations I N) (hp : Presents I u S ds Δ)
    (h : Carried I L u.machine u'.machine S S' ρ k) (hu' : u'.poisoned = false) :
    Presents I u' S' ds Δ := by
  obtain ⟨Γ, hΓ, hdata⟩ := hp.globals
  refine ⟨h.inv, hu', h.roots.parked.trans hp.parked, hp.carried_stack hl h, _,
    hΓ.keeping (h.keeping hl) u.spared_none fun _ _ _ _ _ => id, fun name d hd => ?_⟩
  obtain ⟨v, hv, hs⟩ := hdata name d hd
  exact ⟨v.rename ρ, by rw [hv]; rfl, h.shows hl (hΓ.within h.closed h.live hv) hs⟩

/-- The data of a stack when objects stay where they are. -/
theorem same_stack (hl : Laws Collector.operations I N) (hi : I u.machine S) (hi' : I u'.machine S')
    (hsub : ∀ o, S' o → S o) (hsame : Same S' u.machine.heap u'.machine.heap)
    (hstack : List.Forall₂ u.machine.heap.Shows u'.machine.roots.fromTop ds) :
    List.Forall₂ u'.machine.heap.Shows u'.machine.roots.fromTop ds :=
  forall₂_mono_mem hstack fun v hv _ _ =>
    hl.shows hi hi' hsub hsame
      ((Roots.mem_fromTop hv).elim fun i hslot => hl.roots hi' (.stack i) v hslot)

/-- Another stack, on a heap whose objects stay where they are. -/
theorem same {es : List Datum} (hl : Laws Collector.operations I N) (hp : Presents I u S ds Δ)
    (hi' : I u'.machine S') (hsub : ∀ o, S' o → S o)
    (hsame : Same S' u.machine.heap u'.machine.heap) (hu' : u'.poisoned = false)
    (hparked : u'.machine.roots.parked = u.machine.roots.parked)
    (htable : u'.machine.roots.table = u.machine.roots.table)
    (hstack : List.Forall₂ u.machine.heap.Shows u'.machine.roots.fromTop es) :
    Presents I u' S' es Δ := by
  obtain ⟨Γ, hΓ, hdata⟩ := hp.globals
  have hkeep : Keeping id S' NoField u u' :=
    keeping_of_words hl hp.inv hi' hsub (fun o i ho hlt _ => hsame o i ho hlt)
      (fun _ _ h => h.elim) htable
  have hΓ' := hΓ.keeping hkeep u.spared_none fun _ _ _ _ _ => id
  refine ⟨hi', hu', hparked.trans hp.parked, same_stack hl hp.inv hi' hsub hsame hstack, _, hΓ',
    fun name d hd => ?_⟩
  obtain ⟨v, hv, hs⟩ := hdata name d hd
  have hself : v.rename id = v :=
    (hΓ.within (hl.apart hp.inv).closed (hl.roots hp.inv) hv).rename_self fun _ _ => rfl
  have hv' : (Γ name).map (Value.rename id) = some v := by rw [hv, Option.map_some, hself]
  exact ⟨v, hv', hl.shows hp.inv hi' hsub hsame
    (hΓ'.within (hl.apart hi').closed (hl.roots hi') hv') hs⟩

/-! ## New objects -/

/-- A new pair. If its first field was on the stack, it still is what the stack holds there. -/
theorem cons (hl : Laws Collector.operations I N) (hp : Presents I u S ds Δ)
    (hroom : ds.length + 2 < tableLimit) (hv : v.Within S) (hw : w.Within S)
    (hx : u.machine.heap.Shows v x) (hy : u.machine.heap.Shows w y) :
    Ends (MutatorM.cons v w) u
    (fun r u' => ∃ S', Presents I u' S' ds Δ ∧ r.Within S' ∧ u'.machine.heap.Shows r (.pair x y) ∧
      (u.machine.roots.stack.back? = some v → u'.machine.roots.stack.back? =
        u'.machine.heap.fieldAt? 1 r)) fun e _ => Reported e := by
  refine MutatorM.Orderly.reported hp.clean
    (((MutatorM.cons_ends hl hp.inv hp.clean hv hw).mono ?_).mono_error
    fun _ _ h => h.reported (by rw [hp.size_eq]; exact hroom))
  rintro r u' ⟨hu', -, ρ, S', k, o, rfl, -, hm, hword, hcar, hcdr⟩
  have hc := hm.moved
  have hr := hl.ref?_ofRef hc.inv hm.mem
  have ht := Arena.tag_of_objectWord hword
  have hfield1 : u'.machine.heap.fieldAt? 1 (.ofRef o) = some (v.rename ρ) :=
    Arena.fieldAt?_eq_some.mpr ⟨o, hr, ht, hcar⟩
  have hfield2 : u'.machine.heap.fieldAt? 2 (.ofRef o) = some (w.rename ρ) :=
    Arena.fieldAt?_eq_some.mpr ⟨o, hr, ht, hcdr⟩
  refine ⟨S', hp.carried hl hc hu', hl.ofRef_within hc.inv hm.mem, .pair hfield1 hfield2
    (hc.shows hl (Machine.within_live (by simp) hv) hx)
    (hc.shows hl (Machine.within_live (by simp) hw) hy), fun hback => ?_⟩
  rw [Array.back?_eq_getElem?] at hback
  obtain ⟨v', hv', rfl⟩ := hc.roots.slot (.stack _) v hback
  rw [Array.back?_eq_getElem?, hc.roots.depth, hfield1]
  exact hv'

/-- A new string. -/
theorem string (hl : Laws Collector.operations I N) (hp : Presents I u S ds Δ) {s : String}
    (hshort : (Text.encode s).length < 0x100000000000000) :
    Ends (MutatorM.string s) u
    (fun r u' => ∃ S', Presents I u' S' ds Δ ∧ r.Within S' ∧ u'.machine.heap.Shows r (.text s))
      fun e _ => Reported e := by
  have hmake := (MutatorM.text_constructs (.inl rfl) (Text.encode s)).ends_of_lt hl hp.inv hp.clean
    (MutatorM.text_fits hshort)
  refine MutatorM.Orderly.reported hp.clean ((hmake.mono ?_).mono_error fun _ _ h => .inl h)
  rintro r u' ⟨hu', ρ, S', k, o, rfl, -, hm, -, hholds⟩
  have hc := hm.moved
  exact ⟨S', hp.carried hl hc hu', hl.ofRef_within hc.inv hm.mem,
    .text (Arena.textAt?_of_holds (hl.ref?_ofRef hc.inv hm.mem) hholds
      ((hl.apart hc.inv).closed.known o hm.mem) hshort)⟩

/-! ## The stack -/

theorem push (hl : Laws Collector.operations I N) (hp : Presents I u S ds Δ)
    (hroom : ds.length + 1 < tableLimit) (hv : v.Within S) (hx : u.machine.heap.Shows v x) :
    Ends (MutatorM.push v) u (fun _ u' => Presents I u' S (x :: ds) Δ) fun e _ => Reported e := by
  refine ((MutatorM.push_ends hl hp.inv hp.clean hp.parked hv).mono ?_).mono_error ?_
  · rintro - u' ⟨hu', -, hi', hsame, hroots, -, -⟩
    refine hp.same hl hi' (fun _ h => h) hsame hu' (by rw [hroots]) (by rw [hroots]; rfl) ?_
    rw [hroots, Roots.fromTop_push]
    exact .cons hx hp.stack
  · rintro e u' ⟨hfull, -⟩
    exact Roots.parking_reported (by rw [hp.size_eq]; exact hroom) hfull

/-- What a pop leaves, if it comes to an end. -/
theorem popped (hl : Laws Collector.operations I N) (hp : Presents I u S (d :: ds) Δ) :
    Ends MutatorM.pop u (fun _ u' => ∃ S', Presents I u' S' ds Δ ∧
      Left Collector.operations I u.machine u'.machine S S' ∧
      Same S' u.machine.heap u'.machine.heap) fun e _ => Reported e := by
  obtain ⟨v, hback, -⟩ := hp.top hl
  refine MutatorM.Orderly.reported hp.clean
    (((MutatorM.pop_ends hl hp.inv hp.clean hp.parked hback).mono ?_).mono_error
      fun _ _ h => .inl h)
  rintro - u' ⟨hu', -, S', hleft, hsame, hroots⟩
  refine ⟨S', hp.same hl hleft.inv hleft.subset hsame hu' (by rw [hroots])
    (by rw [hroots]; rfl) ?_, hleft, hsame⟩
  obtain ⟨_, vs, -, hrest, hstack⟩ := List.forall₂_cons_right_iff.mp hp.stack
  rw [hroots, Roots.fromTop_pop, hstack]
  exact hrest

theorem pop (hl : Laws Collector.operations I N) (hp : Presents I u S (d :: ds) Δ) :
    Ends MutatorM.pop u (fun _ u' => ∃ S', Presents I u' S' ds Δ) fun e _ => Reported e :=
  (hp.popped hl).mono fun _ _ ⟨S', hp', _⟩ => ⟨S', hp'⟩

/-- A pair whose first field is a pair that is popped: nothing is reclaimed, and the one that is not
rooted can be used. -/
theorem pop_pinned {a b : Datum} (hl : Laws Collector.operations I N)
    (hpins : Collector.operations.Pins I) (hp : Presents I u S (.pair a b :: ds) Δ)
    (hw : w.Within S) (hs : u.machine.heap.Shows w e)
    (hfield : u.machine.roots.stack.back? = u.machine.heap.fieldAt? 1 w) :
    Ends MutatorM.pop u (fun _ u' => ∃ S', Presents I u' S' ds Δ ∧ w.Within S' ∧
      u'.machine.heap.Shows w e) fun e _ => Reported e := by
  obtain ⟨v, hback, -, -, hv⟩ := hp.top hl
  obtain ⟨o, hr, ht, hcar⟩ := Arena.fieldAt?_eq_some.mp (hfield.symm.trans hback)
  obtain ⟨c, hc⟩ : ∃ c, v.ref? = some c := by
    cases hv with
    | pair ha => exact (Arena.fieldAt?_eq_some.mp ha).imp fun _ h => h.1
  have hobjects : Anyhow MutatorM.pop u fun u' => u'.objects = u.objects := by
    refine MutatorM.operate_anyhow hp.clean
      ((hpins hp.inv hp.parked hback hc (hw o hr).2 ?_).mono fun m' h _ => h)
    exact Arena.mem_succ.mpr ⟨ht, .inl (by rw [hcar]; exact hc)⟩
  refine (((hp.popped hl).and hobjects).mono ?_).mono_error fun _ _ h => h.1
  rintro - u' ⟨⟨S', hp', hleft, hsame⟩, hobj⟩
  -- every object is listed still
  have hall : ∀ x, S x → S' x := by
    intro x hx
    obtain ⟨bs, hbs, hmem⟩ := hl.objects hp.inv
    obtain ⟨n, hn⟩ := hmem x hx
    exact hleft.listed x n hx ⟨bs, hobj.trans hbs, hn⟩
  have hw' : w.Within S' := hw.mono hall
  exact ⟨S', hp', hw', hl.shows hp.inv hp'.inv hleft.subset hsame hw' hs⟩

/-- The top of the stack is replaced. -/
theorem replace (hl : Laws Collector.operations I N) (hp : Presents I u S (d :: ds) Δ)
    (hv : v.Within S) (hx : u.machine.heap.Shows v x) :
    Ends (MutatorM.writeRoot (.stack ds.length) v) u
    (fun _ u' => ∃ S', Presents I u' S' (x :: ds) Δ) fun e _ => Reported e := by
  obtain ⟨old, hback, -⟩ := hp.top hl
  have hold : u.machine.roots.get? (.stack ds.length) = some old := by
    rw [Array.back?_eq_getElem?, hp.size_eq] at hback
    exact hback
  refine MutatorM.Orderly.reported hp.clean
    (((MutatorM.writeRoot_ends hl hp.inv hp.clean hp.parked hold hv).mono ?_).mono_error
      fun _ _ h => .inl h)
  rintro - u' ⟨hu', S', hleft, hsame, hroots⟩
  refine ⟨S', hp.same hl hleft.inv hleft.subset hsame hu' (by rw [hroots, Roots.set_parked])
    (by rw [hroots]; rfl) ?_⟩
  obtain ⟨_, vs, -, hrest, hstack⟩ := List.forall₂_cons_right_iff.mp hp.stack
  rw [hroots, ← hrest.length_eq, Roots.fromTop_set hstack]
  exact .cons hx hrest

/-! ## Names -/

/-- A value that is written into an entry leaves data without texts alone, since the entry begins
with its name. -/
theorem redefined {E : String → Option Nat} {o : Nat} (hl : Laws Collector.operations I N)
    (hp : Presents I u S ds Δ) (hE : u.Entries E)
    (hval : ∀ n, Γ n = (E n).map fun e => u.machine.heap.value (e + 2)) (ho : E name = some o)
    (hdata : ∀ n d, Δ n = some d → ∃ v, Γ n = some v ∧ u.machine.heap.Shows v d)
    (hx : u.machine.heap.Shows v x) (hxt : x.Textless) (hds : ∀ d ∈ ds, d.Textless)
    (hΔ : ∀ n d, Δ n = some d → d.Textless) (hu' : u'.poisoned = false)
    (hleft : Left Collector.operations I u.machine u'.machine S S')
    (hst : Stored S' (o + 2) v.bits u.machine.heap u'.machine.heap)
    (hroots : u'.machine.roots = u.machine.roots) :
    Presents I u' S' ds fun n => if n = name then some x else Δ n := by
  obtain ⟨hkeep, hmaps⟩ := redefine_keeping hl hp.inv hE hval ho hleft hst hroots
  have hcl := (hl.apart hleft.inv).closed
  have hr := hl.roots hleft.inv
  obtain ⟨_, es, -, hc, hmem⟩ := hE.of_entry ho
  have hshows : ∀ {w : Value} {d : Datum}, w.Within S' → d.Textless → u.machine.heap.Shows w d →
      u'.machine.heap.Shows w d := by
    intro w d hw hd hs
    have hself : w.rename id = w := hw.rename_self fun _ _ => rfl
    rw [← hself]
    refine hkeep.follows.shows hs hw ?_
    rintro e i ⟨rfl, rfl⟩
    exact ⟨hd, _, (hc.entry_name _ hmem).2⟩
  refine ⟨hleft.inv, hu', by rw [hroots]; exact hp.parked, ?_, _, hmaps, fun n d hd => ?_⟩
  · rw [hroots]
    refine forall₂_mono_mem hp.stack fun w hw d hd =>
      hshows ((Roots.mem_fromTop hw).elim fun i hi => hr (.stack i) w ?_) (hds d hd)
    rw [hroots]
    exact hi
  · dsimp only at hd ⊢
    split at hd
    · rename_i hname
      cases hd
      have hbound : (if n = name then some v else (Γ n).map (Value.rename id)) =
        some v := if_pos hname
      exact ⟨v, hbound, hshows (hmaps.within hcl hr hbound) hxt hx⟩
    · rename_i hother
      obtain ⟨w, hw, hs⟩ := hdata n d hd
      have hΓ : u.Maps Γ := ⟨E, hE, hval⟩
      have hself : w.rename id = w :=
        (hΓ.within (hl.apart hp.inv).closed (hl.roots hp.inv) hw).rename_self fun _ _ => rfl
      have hbound : (if n = name then some v else (Γ n).map (Value.rename id)) = some w := by
        rw [if_neg hother, hw, Option.map_some, hself]
      exact ⟨w, hbound, hshows (hmaps.within hcl hr hbound) (hΔ n d hd) hs⟩

/-- A name that is bound for the first time. -/
theorem bound {E : String → Option Nat} {head : Value} (hl : Laws Collector.operations I N)
    (hp : Presents I u S ds Δ) (hE : u.Entries E)
    (hval : ∀ n, Γ n = (E n).map fun e => u.machine.heap.value (e + 2)) (hnone : E name = none)
    (hdata : ∀ n d, Δ n = some d → ∃ v, Γ n = some v ∧ u.machine.heap.Shows v d) (hv : v.Within S)
    (hx : u.machine.heap.Shows v x) (hh : u.machine.roots.globals[u.bucket name]? = some head)
    (hshort : (Text.encode name).length < 0x100000000000000)
    (h : MutatorM.Bound I u u' S (u.bucket name) name v head) :
    ∃ S', Presents I u' S' ds fun n => if n = name then some x else Δ n := by
  obtain ⟨hu', -, u₁, ρ, S₁, S', k, key, entry, link, -, hlink, hleft, hsame, hroots⟩ := h
  have hc := hlink.carried
  have hmaps := hlink.maps hl hh hleft hsame hroots hE hval hnone hshort
  have hcl := (hl.apart hleft.inv).closed
  have hr := hl.roots hleft.inv
  have hΓ : u.Maps Γ := ⟨E, hE, hval⟩
  have hshows : ∀ {w : Value} {d : Datum}, w.Within (u.machine.Live [v]) → (w.rename ρ).Within S' →
    u.machine.heap.Shows w d →
      u'.machine.heap.Shows (w.rename ρ) d :=
        fun hw hw' hs => hl.shows hc.inv hleft.inv hleft.subset hsame hw' (hc.shows hl hw hs)
  refine ⟨S', hleft.inv, hu', ?_, ?_, _, hmaps, fun n d hd => ?_⟩
  · rw [hroots, Roots.set_parked]
    exact hc.roots.parked.trans hp.parked
  · refine same_stack hl hc.inv hleft.inv hleft.subset hsame ?_
    rw [hroots, Roots.fromTop_set_global]
    exact hp.carried_stack hl hc
  · dsimp only at hd ⊢
    split at hd
    · rename_i hname
      cases hd
      have hbound : (if n = name then some (v.rename ρ) else (Γ n).map (Value.rename ρ)) =
        some (v.rename ρ) := if_pos hname
      exact ⟨_, hbound, hshows (Machine.within_live (by simp) hv) (hmaps.within hcl hr hbound) hx⟩
    · rename_i hother
      obtain ⟨w, hw, hs⟩ := hdata n d hd
      have hbound : (if n = name then some (v.rename ρ) else (Γ n).map (Value.rename ρ)) =
          some (w.rename ρ) := by
        rw [if_neg hother, hw, Option.map_some]
      exact ⟨_, hbound, hshows (hΓ.within hc.closed hc.live hw) (hmaps.within hcl hr hbound) hs⟩

/-- A name comes to stand for a datum, on a heap whose data have no texts in them. -/
theorem define (hl : Laws Collector.operations I N) (hp : Presents I u S ds Δ)
    (hroom : ds.length + 2 < tableLimit) (hv : v.Within S) (hx : u.machine.heap.Shows v x)
    (hxt : x.Textless) (hds : ∀ d ∈ ds, d.Textless) (hΔ : ∀ n d, Δ n = some d → d.Textless)
    (hshort : (Text.encode name).length < 0x100000000000000) :
    Ends (MutatorM.define name v) u
    (fun _ u' => ∃ S', Presents I u' S' ds fun n => if n = name then some x else Δ n) fun e _ =>
    Reported e := by
  obtain ⟨Γ, ⟨E, hE, hval⟩, hdata⟩ := hp.globals
  refine MutatorM.Orderly.reported hp.clean ?_
  refine MutatorM.define_ends ?_
  rw [MutatorM.defineAt_eq]
  refine .step (MutatorM.check_run hp.clean)
    (.step (MutatorM.gc_lift (hE.entryAt?_run hl hp.inv name)) ?_)
  cases ho : E name with
  | some o =>
    have hS := hE.mem hl hp.inv ho
    have hpair : u.machine.heap.pairAt? (.ofRef o) = some o :=
      Arena.pairAt?_eq_some.mpr ⟨hl.ref?_ofRef hp.inv hS, hE.entry_pair ho⟩
    refine ((MutatorM.setPairField_ends hl hp.inv hp.clean hp.parked (hl.ofRef_within hp.inv hS) hv
      (.inr rfl) hpair).mono ?_).mono_error
      fun _ _ h => .inl h
    rintro - u' ⟨hu', S', hleft, hst, hroots⟩
    exact ⟨S', hp.redefined hl hE hval ho hdata hx hxt hds hΔ hu' hleft hst hroots⟩
  | none =>
    obtain ⟨head, hh⟩ := hE.head name
    refine ((MutatorM.bindNew_ends hl hp.inv hp.clean hp.parked hv hh name).mono
      fun _ _ h => hp.bound hl hE hval ho hdata hv hx hh hshort h).mono_error fun _ _ h =>
        (h.of_short hshort).imp_right fun h => ?_
    exact Roots.parking_reported (by rw [hp.size_eq]; exact hroom) h

/-- Looking up a name gives a value that stands for what was defined. -/
theorem lookup (hl : Laws Collector.operations I N) (hp : Presents I u S ds Δ)
    (hd : Δ name = some d) :
    ∃ v, MutatorM.lookup? name u.machine = .ok (some v) u.machine ∧ v.Within S ∧
    u.machine.heap.Shows v d := by
  obtain ⟨Γ, hΓ, hdata⟩ := hp.globals
  obtain ⟨v, hv, hs⟩ := hdata name d hd
  refine ⟨v, ?_, hΓ.within (hl.apart hp.inv).closed (hl.roots hp.inv) hv, hs⟩
  rw [← hv, MutatorM.lookup?_eq]
  exact hΓ.lookup_run hl hp.inv name

/-- A new heap has an empty stack, and no names. -/
theorem start {c : Config} (hc : c.Makes u) (hi : I u.machine S) :
    Presents I u S [] fun _ => none := by
  have hmaps : u.Maps fun _ => none := maps_of_create hc
  obtain ⟨hash, rfl, -⟩ := hc.eq
  exact ⟨hi, rfl, rfl, .nil, _, hmaps, fun _ _ h => by cases h⟩

end Presents

end Reclaim
