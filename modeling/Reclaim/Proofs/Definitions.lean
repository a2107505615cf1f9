import Reclaim.Proofs.Relocation

/-!
# Definitions

A definition of a name that has an entry already writes the value into it. Otherwise a text, an
entry and a link are made, with collections in between, and the link goes in front of the bucket; if
there is no room to park values, what was made is given up.

Results:
* `redefine_passes`: a name that is bound already.
* `bound_passes`: a new one.
* `defineAt_passes`: a definition.
-/

namespace Reclaim

open MutatorM

variable {I : Machine Collector → (Nat → Prop) → Prop} {N : Machine Collector → Nat → Nat → Prop}
  {S S' : Nat → Prop}
  {u u' : Mutator} {name : String} {v : Value} {E : String → Option Nat} {Γ : String → Option Value}
  {ρ : Nat → Nat} {T : Nat → Prop} {W : Nat → Nat → Prop}

/-- A new value for a name is written into its entry, and that is all. -/
theorem redefine_keeping (hl : Laws Collector.operations I N) (hi : I u.machine S)
    (hE : u.Entries E) (hval : ∀ n, Γ n = (E n).map fun e => u.machine.heap.value (e + 2)) {e : Nat}
    (he : E name = some e) (hleft : Left Collector.operations I u.machine u'.machine S S')
    (hst : Stored S' (e + 2) v.bits u.machine.heap u'.machine.heap)
    (hroots : u'.machine.roots = u.machine.roots) : Keeping id S' (fun o i => o = e ∧ i = 2) u u' ∧
      u'.Maps fun n => if n = name then some v else (Γ n).map (Value.rename id) := by
  have ht := hE.entry_pair he
  have hkeep : Keeping id S' (fun o i => o = e ∧ i = 2) u u' := by
    refine keeping_of_words hl hi hleft.inv hleft.subset
      (stored_words hl hi hleft.subset (hE.mem hl hi he) ht (.inr rfl) hst) ?_ (by rw [hroots])
    rintro o i ⟨rfl, rfl⟩
    exact ⟨ht, .inr rfl⟩
  have heS' : S' e := (hE.keeping hkeep (hE.spared he)).2 name e he
  have hnew : u'.machine.heap.value (e + 2) = v := by
    have hword := hst e 2 heS' (by rw [Arena.payload_of_pair ht]; omega)
    rw [if_pos rfl] at hword
    rw [Arena.value, hword]
  exact ⟨hkeep, .redefine hE hval he hkeep hnew⟩

/-- A new value for a name. -/
theorem redefine_passes (hl : Laws Collector.operations I N) (hi : I u.machine S) (hE : u.Entries E)
    (hval : ∀ n, Γ n = (E n).map fun e => u.machine.heap.value (e + 2)) {e : Nat}
    (he : E name = some e) (hv : v.Within S)
    (hleft : Left Collector.operations I u.machine u'.machine S S')
    (hst : Stored S' (e + 2) v.bits u.machine.heap u'.machine.heap)
    (hroots : u'.machine.roots = u.machine.roots) : u.Passes (.define name v) true u' Γ := by
  have ht := hE.entry_pair he
  have hrun := hE.entryAt?_run hl hi name
  rw [he] at hrun
  refine ⟨id, relocates_of_words hl hi hleft.inv hleft.subset (W := fun o i => o = e ∧ i = 2)
    (stored_words hl hi hleft.subset (hE.mem hl hi he) ht (.inr rfl) hst) ?_ ?_
      (.of_eq (by rw [hroots])), ?_⟩
  · rintro o i ⟨rfl, rfl⟩
    exact ⟨ht, .inr rfl⟩
  · rintro o i ⟨rfl, rfl⟩
    exact ⟨hrun, rfl⟩
  · have hself : v.rename id = v := hv.rename_self fun _ _ => rfl
    have hcmd : (Command.define name v).rebinds true id Γ = fun n =>
      if n = name then some v else (Γ n).map (Value.rename id) := by
      funext n
      simp [Command.rebinds, hself]
    rw [hcmd]
    exact (redefine_keeping hl hi hE hval he hleft hst hroots).2

/-! ## A new name -/

theorem Follows.payload {h h' : Arena} (hf : Follows ρ T W h h') {o : Nat} (ho : T o) :
    h'.payload (ρ o) = h.payload o :=
  Arena.payload_congr (hf.head ho)

/-- First followed, and then left alone. -/
theorem Follows.tracks_same {h h₁ h' : Arena} (hf : Follows ρ T W h h₁) (hs : Same S' h₁ h') :
    Tracks ρ (fun o => T o ∧ S' (ρ o)) W h h' where
  injective o o' ho ho' := hf.injective o o' ho.1 ho'.1
  word o i ho hlt hno := by
    rw [hs (ρ o) i ho.2 (by rwa [hf.payload ho.1])]
    exact hf.word o i ho.1 hlt hno
  field o i ho ht hi hno := by
    have hp := Arena.payload_of_pair ht
    rw [← hf.field o i ho.1 ht hi hno]
    exact Arena.value_congr (hs (ρ o) i ho.2 (by rw [hf.payload ho.1]; omega))

theorem within_of_rest {head : Value} (h : (rest head).Within T) : head.Within T := by
  rw [rest] at h
  split at h
  · rename_i hu
    rw [eq_of_beq hu]
    exact .of_not_ref rfl
  · exact h

section New

variable {u₁ : Mutator} {S₁ : Nat → Prop} {k key entry link : Nat} {head : Value}
  (hl : Laws Collector.operations I N)
  (hh : u.machine.roots.globals[u.bucket name]? = some head)
  (hlink : MutatorM.LinkMade I u u₁ S S₁ name v head ρ k key entry link)
  (hleft : Left Collector.operations I u₁.machine u'.machine S₁ S')
  (hsame : Same S' u₁.machine.heap u'.machine.heap)
  (hroots : u'.machine.roots = u₁.machine.roots.set (.global (u.bucket name)) (.ofRef link))

include hl hh hlink hleft hsame hroots

/-- When the bucket comes to refer to the new link, this is left where it is, with its entry and the
lists of all buckets. -/
theorem MutatorM.LinkMade.left : Follows id S' NoField u₁.machine.heap u'.machine.heap ∧
    S' link ∧ S' entry ∧
    ∀ (b : Nat) (w : Value), u₁.machine.roots.globals[b]? = some w → w.Within S' := by
  have hc := hlink.carried
  have hn := hl.named hc.inv
  have href : ∀ o, S₁ o → (Value.ofRef o).ref? = some o := fun _ => hl.ref?_ofRef hc.inv
  obtain ⟨head₁, hh₁, rfl⟩ := hc.roots.slot (.global _) head hh
  have hf : Follows id S' NoField u₁.machine.heap u'.machine.heap :=
    follows_of_words (hl.apart hc.inv).closed (hl.apart hleft.inv).closed
      (hl.named hleft.inv) hleft.subset
      (fun o i ho hlt _ => hsame o i ho hlt) fun _ _ h => h.elim
  have hroot : (Value.ofRef link).Within S' := by
    refine hl.roots hleft.inv (.global (u.bucket name)) _ ?_
    rw [hroots]
    exact Roots.get?_set_self hh₁
  have hlinkS : S' link := (hroot link (href link hlink.link_mem)).2
  have hcar := hf.linked link 1 hlinkS hlink.link_tag (.inl rfl) id
  have hcdr := hf.linked link 2 hlinkS hlink.link_tag (.inr rfl) id
  refine ⟨hf, hlinkS, (hcar entry (by rw [hlink.link_car]; exact href entry hlink.entry_mem)).2,
    fun b w hw => ?_⟩
  by_cases hb : b = u.bucket name
  · -- what the bucket held before is behind the new link now
    subst hb
    cases hw.symm.trans hh₁
    refine within_of_rest ?_
    rw [rest_rename (hc.live (.global _) head hh) (hn.image hc.kept), ← hlink.link_cdr]
    exact hcdr
  · refine hl.roots hleft.inv (.global b) w ?_
    rw [hroots, Roots.get?_set_of_ne (by simpa using hb)]
    exact hw

/-- The name has the new entry. -/
theorem MutatorM.LinkMade.insert (hE : u.Entries E) (hnone : E name = none)
    (hshort : (Text.encode name).length < 0x100000000000000) :
    u'.Entries (fun n => if n = name then some entry else (E n).map ρ) ∧ u'.machine.heap.value
    (entry + 2) = v.rename ρ := by
  have hc := hlink.carried
  have hn := hl.named hc.inv
  have href : ∀ o, S₁ o → (Value.ofRef o).ref? = some o := fun _ => hl.ref?_ofRef hc.inv
  have hkeep := hc.keeping hl
  have hbucket : u₁.bucket name = u.bucket name := Mutator.bucket_congr hkeep.table hkeep.hash name
  obtain ⟨hf, hlinkS, hentryS, hheads⟩ := hlink.left hl hh hleft hsame hroots
  obtain ⟨head₁, hh₁, rfl⟩ := hc.roots.slot (.global _) head hh
  have hself : ∀ w : Value, w.Within S' → w.rename id = w :=
    fun w hw => hw.rename_self fun _ _ => rfl
  have hfield : ∀ o i, S' o → u₁.machine.heap.tag o = some .pair → i = 1 ∨ i = 2 →
      u'.machine.heap.value (o + i) = u₁.machine.heap.value (o + i) := fun o i ho ht hi =>
    (hf.field o i ho ht hi id).trans (hself _ (hf.linked o i ho ht hi id))
  have hkey := hf.linked entry 1 hentryS hlink.entry_tag (.inl rfl) id
  have htext : u₁.machine.heap.textAt? (u₁.machine.heap.value (entry + 1)) = some name := by
    rw [hlink.entry_car]
    exact Arena.textAt?_of_holds (href key hlink.mem) hlink.holds
      ((hl.apart hc.inv).closed.known key hlink.mem) hshort
  refine ⟨?_, ?_⟩
  · refine (hE.keeping hkeep u.spared_none).1.insert (by rw [hnone]; rfl)
      (by rw [hbucket]; exact hh₁) hf hheads
      (by rw [hroots, hbucket]) (href link hlink.link_mem)
        ((hf.tag hlinkS).trans hlink.link_tag) ?_ ?_
      ((hf.tag hentryS).trans hlink.entry_tag) ?_
    · rw [hfield link 1 hlinkS hlink.link_tag (.inl rfl), hlink.link_car]
      exact href entry hlink.entry_mem
    · rw [hfield link 2 hlinkS hlink.link_tag (.inr rfl), hlink.link_cdr]
      exact (rest_rename (hc.live (.global _) head hh) (hn.image hc.kept)).symm
    · have hname := hf.textAt? hkey htext
      rwa [hself _ hkey, ← hfield entry 1 hentryS hlink.entry_tag (.inl rfl)] at hname
  · rw [hfield entry 2 hentryS hlink.entry_tag (.inr rfl), hlink.entry_cdr]

/-- The name is bound to what the value has become, and other names follow their values. -/
theorem MutatorM.LinkMade.maps (hE : u.Entries E)
    (hval : ∀ n, Γ n = (E n).map fun e => u.machine.heap.value (e + 2)) (hnone : E name = none)
    (hshort : (Text.encode name).length < 0x100000000000000) :
    u'.Maps fun n => if n = name then some (v.rename ρ) else (Γ n).map (Value.rename ρ) := by
  have hkeep := hlink.carried.keeping hl
  obtain ⟨hE', hentry⟩ := hlink.insert hl hh hleft hsame hroots hE hnone hshort
  refine ⟨_, hE', fun n => ?_⟩
  dsimp only
  split
  · rw [Option.map_some, hentry]
  · rename_i hother
    rw [hval n, Option.map_map, Option.map_map]
    refine Option.map_congr fun e he => ?_
    have he' : (if n = name then some entry else (E n).map ρ) = some (ρ e) := by
      rw [if_neg hother, he, Option.map_some]
    have hS' : S' (ρ e) := hE'.mem hl hleft.inv he'
    have hlive := (hE.keeping hkeep u.spared_none).2 n e he
    exact ((hkeep.follows.tracks_same hsame).field e 2 ⟨hlive, hS'⟩
      (hE.entry_pair he) (.inr rfl) id).symm

end New

/-- A name is bound for the first time. -/
theorem bound_passes {head : Value} (hl : Laws Collector.operations I N) (hi : I u.machine S)
    (hE : u.Entries E) (hval : ∀ n, Γ n = (E n).map fun e => u.machine.heap.value (e + 2))
    (hnone : E name = none) (hv : v.Within S)
    (hh : u.machine.roots.globals[u.bucket name]? = some head)
    (hshort : (Text.encode name).length < 0x100000000000000)
    (h : Bound I u u' S (u.bucket name) name v head) : u.Passes (.define name v) true u' Γ := by
  obtain ⟨-, -, u₁, ρ, S₁, S', k, key, entry, link, hk, hlink, hleft, hsame, hroots⟩ := h
  have hc := hlink.carried
  have hmem : ∀ o, u'.machine.Reachable o → S' o :=
    fun o ho => ho.mem (hl.apart hleft.inv).closed (hl.roots hleft.inv)
  have hcmd : (Command.define name v).rebinds true ρ Γ = fun n => if n = name then some (v.rename ρ)
      else (Γ n).map (Value.rename ρ) := by
    funext n
    simp [Command.rebinds]
  refine ⟨ρ, ⟨?_, ?_, ?_⟩, by
    rw [hcmd]; exact hlink.maps hl hh hleft hsame hroots hE hval hnone hshort⟩
  · exact ((hc.keeping hl).follows.tracks_same hsame).mono (fun o ho => ⟨ho.1, hmem _ ho.2⟩)
      fun _ _ => False.elim
  · intro hcol o ho
    obtain ⟨l, hl1, hcyc⟩ := hleft.cycles
    rw [hcyc, hc.cycles, UInt64.add_assoc, ← UInt64.ofNat_add] at hcol
    have hz := ofNat_eq_zero (by omega) hcol
    exact (hc.quiet (by omega) o
      (Machine.Live.mem (hl.apart hi).closed (hl.roots hi)
        (by simpa [Command.operands] using hv) ho.1)).1
  · intro i w w' hw hw' _
    obtain ⟨w₁, hw₁, rfl⟩ := hc.roots.slot (.stack i) w hw
    rw [hroots] at hw'
    exact Option.some.inj (hw'.symm.trans hw₁)

/-- A definition that fails binds nothing. -/
theorem unbound_fails {e : Fault} (hl : Laws Collector.operations I N) (hi : I u.machine S)
    (hΓ : u.Maps Γ) (h : Unbound I u S name e u') : u.Fails (.define name v) Γ e u' := by
  refine h.reported.imp id fun h f hf => ?_
  obtain ⟨-, ρ, S', k, hk, hmv⟩ := h f hf
  refine hmv.passes hl hi (by omega) rfl hΓ ?_
  funext n
  simp [Command.rebinds]

/-- A definition binds its name and no other, or none at all. -/
theorem defineAt_passes (hl : Laws Collector.operations I N) (hi : I u.machine S)
    (hu : u.poisoned = false) (hpark : u.machine.roots.parked = 0) (hΓ : u.Maps Γ) (hv : v.Within S)
    (hshort : (Text.encode name).length < 0x100000000000000) :
    Ends (defineAt (u.bucket name) name v) u (fun _ u' => u.Passes (.define name v) true u' Γ)
      (u.Fails (.define name v) Γ) := by
  obtain ⟨E, hE, hval⟩ := id hΓ
  rw [defineAt_eq]
  refine .step (check_run hu) (.step (gc_lift (hE.entryAt?_run hl hi name)) ?_)
  cases he : E name with
  | some e =>
    have heS := hE.mem hl hi he
    have hpair : u.machine.heap.pairAt? (.ofRef e) = some e :=
      Arena.pairAt?_eq_some.mpr ⟨hl.ref?_ofRef hi heS, hE.entry_pair he⟩
    have hset := setPairField_ends hl hi hu hpark (hl.ofRef_within hi heS) hv (.inr rfl) hpair
    refine (hset.mono ?_).mono_error fun _ _ h => .inl h
    rintro - u' ⟨-, S', hleft, hst, hroots⟩
    exact redefine_passes hl hi hE hval he hv hleft hst hroots
  | none =>
    obtain ⟨head, hh⟩ := hE.head name
    refine ((bindNew_ends hl hi hu hpark hv hh name).mono fun _ _ h => ?_).mono_error fun _ _ h =>
      unbound_fails hl hi hΓ h
    exact bound_passes hl hi hE hval he hv hh hshort h

end Reclaim
