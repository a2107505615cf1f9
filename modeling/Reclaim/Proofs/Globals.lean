import Reclaim.Proofs.Access

/-!
# Binding a name

A name that is bound for the first time gets a new entry: its text, the pair of the text and the
value, and a link in front of the list of its bucket. Three objects are made one after the other,
each collection in between may move the ones before, and at the end the bucket refers to the new
link.

Results:
* `entryAt?_run`: the search for an entry starts from the bucket.
* `bindNew_ends`: the three objects, and the new value of the bucket.
-/

namespace Reclaim

section Carried

variable {I : Machine Collector → (Nat → Prop) → Prop} {L S S' : Nat → Prop}
  {ρ : Nat → Nat} {k : Nat}
  {m m' : Machine Collector}

/-- What is reached from `R` is found again from the new addresses. -/
theorem Carried.reach {R R' : Nat → Prop} (h : Carried I L m m' S S' ρ k) (hn : Value.Named S')
    (hR : ∀ o, R o → L o) (hR' : ∀ o, R o → R' (ρ o)) {o : Nat} (ho : Reach m.heap R o) :
    Reach m'.heap R' (ρ o) := by
  refine Reach.mono ?_ ((h.renamed.reach h.closed (hn.image h.kept) hR).mpr ⟨o, ho, rfl⟩)
  rintro o' ⟨o, ho, rfl⟩
  exact hR' o ho

theorem Carried.within (h : Carried I L m m' S S' ρ k) (hn : Value.Named S') {v : Value}
    (hv : v.Within L) :
    (v.rename ρ).Within S' := by
  refine (Value.rename_within hv (hn.image h.kept)).mono ?_
  rintro o' ⟨o, ho, rfl⟩
  exact h.kept o ho

theorem Carried.refers (h : Carried I L m m' S S' ρ k) (hn : Value.Named S') {o : Nat}
    (ho : m.roots.Refers o) :
    m'.roots.Refers (ρ o) := (h.roots.refers h.live (hn.image h.kept)).mpr ⟨o, ho, rfl⟩

end Carried

/-- The bucket of a name. -/
def Mutator.bucket (u : Mutator) (name : String) : Nat := u.machine.roots.bucket (Text.encode name)

namespace MutatorM

/-- A name is looked up in its bucket. -/
theorem lookup?_eq (name : String) (u : Mutator) :
    lookup? name u.machine = lookupAt? (u.bucket name) name u.machine := by
  have hbucket : bucketOf name u.machine = .ok (u.bucket name) u.machine := rfl
  rw [lookup?, bind_ok hbucket]

/-- A definition goes to the bucket of its name. -/
theorem define_eq (name : String) (v : Value) (u : Mutator) :
    define name v u = defineAt (u.bucket name) name v u := by
  have hbucket : bucketOf name u.machine = .ok (u.bucket name) u.machine := rfl
  rw [define, bind_ok (gc_lift hbucket), Mutator.withMachine_self]

theorem define_ends {name : String} {v : Value} {u : Mutator} {Q : Unit → Mutator → Prop}
    {E : Fault → Mutator → Prop} (h : Ends (defineAt (u.bucket name) name v) u Q E) :
    Ends (define name v) u Q E := by
  unfold Ends at h ⊢
  rwa [define_eq]

variable {I : Machine Collector → (Nat → Prop) → Prop} {N : Machine Collector → Nat → Nat → Prop}
  {S S' : Nat → Prop} {u : Mutator} {v : Value} {bucket : Nat} {name : String}

/-- The search for an entry starts from the bucket. -/
theorem entryAt?_run {head : Value} {r : Option Value}
    (hh : u.machine.roots.globals[bucket]? = some head)
    (hr : entryFrom? name (u.machine.heap.size + 1) head u.machine.heap = .ok r) :
    entryAt? bucket name u.machine = .ok r u.machine := by
  have hget : getRoot (.global bucket) u.machine.roots = .ok head u.machine.roots := by
    rw [getRoot, Roots.get?, hh]
  have hlift : (liftM (getRoot (.global bucket)) : GcM Collector Value) u.machine =
    .ok head u.machine := Reclaim.roots_lift hget
  rw [entryAt?, bind_ok hlift, bind_ok GcM.run_heapSize]
  exact Reclaim.read_lift hr

theorem entryAt?_error {head : Value} {e : Fault}
    (hh : u.machine.roots.globals[bucket]? = some head)
    (hr : entryFrom? name (u.machine.heap.size + 1) head u.machine.heap = .error e) :
    entryAt? bucket name u.machine = .error e u.machine := by
  have hget : getRoot (.global bucket) u.machine.roots = .ok head u.machine.roots := by
    rw [getRoot, Roots.get?, hh]
  have hlift : (liftM (getRoot (.global bucket)) : GcM Collector Value) u.machine =
    .ok head u.machine := Reclaim.roots_lift hget
  rw [entryAt?, bind_ok hlift, bind_ok GcM.run_heapSize]
  exact read_lift_error hr

/-- What is found in a bucket is found in its list. -/
theorem entryFrom?_of_run {head : Value} {r : Option Value}
    (hh : u.machine.roots.globals[bucket]? = some head)
    (hrun : entryAt? bucket name u.machine = .ok r u.machine) :
    entryFrom? name (u.machine.heap.size + 1) head u.machine.heap = .ok r := by
  cases hr : entryFrom? name (u.machine.heap.size + 1) head u.machine.heap with
  | ok r' =>
    cases (entryAt?_run hh hr).symm.trans hrun
    rfl
  | error e => cases (entryAt?_error hh hr).symm.trans hrun

theorem entryAt?_trap (hh : u.machine.roots.globals[bucket]? = none) :
    entryAt? bucket name u.machine = .error .trap u.machine := by
  have hget : getRoot (.global bucket) u.machine.roots = .error .trap u.machine.roots := by
    rw [getRoot, Roots.get?, hh]
  have hlift : (liftM (getRoot (.global bucket)) : GcM Collector Value) u.machine =
      .error .trap u.machine :=
    Reclaim.roots_lift_error hget
  simp [entryAt?, bind, EStateM.bind, hlift]

/-- The search for an entry finds one that may be used, or none, or does not end. -/
theorem entryAt?_ends (hl : Laws Collector.operations I N) (hi : I u.machine S) (bucket : Nat)
    (name : String) :
    (∃ head r, u.machine.roots.globals[bucket]? = some head ∧ entryAt? bucket name u.machine =
      .ok r u.machine ∧
      ∀ e, r = some e → e.Within S) ∨
    ∃ e, (∀ f, e ≠ .failed f) ∧ entryAt? bucket name u.machine = .error e u.machine := by
  cases hh : u.machine.roots.globals[bucket]? with
  | none => exact .inr ⟨.trap, by simp, entryAt?_trap hh⟩
  | some head =>
    have hw : head.Within S := hl.roots hi (.global bucket) head hh
    rcases entryFrom?_within (hl.apart hi) name (u.machine.heap.size + 1) hw with ⟨r, hr, hrw⟩ | hr
    · exact .inl ⟨head, r, rfl, entryAt?_run hh hr, hrw⟩
    · exact .inr ⟨.endless, by simp, entryAt?_error hh hr⟩

/-- Looking up a name finds a value that may be used, or none, or does not end. -/
theorem lookupAt?_ends (hl : Laws Collector.operations I N) (hi : I u.machine S) (bucket : Nat)
    (name : String) :
    (∃ r, lookupAt? bucket name u.machine = .ok r u.machine ∧ ∀ v, r = some v → v.Within S) ∨
    ∃ e, (∀ f, e ≠ .failed f) ∧ lookupAt? bucket name u.machine = .error e u.machine := by
  rcases entryAt?_ends hl hi bucket name with ⟨head, r, -, hrun, hrw⟩ | ⟨e, hne, hrun⟩
  · rw [lookupAt?, bind_ok hrun]
    cases r with
    | none => exact .inl ⟨none, rfl, by simp⟩
    | some entry =>
      have hread := cdr?_run (hl.apart hi) (hrw entry rfl)
      refine .inl ⟨_, Reclaim.read_lift hread, fun v hv => ?_⟩
      exact Arena.fieldAt?_within (hl.apart hi).closed (hrw entry rfl) (.inr rfl) hv
  · refine .inr ⟨e, hne, ?_⟩
    simp [lookupAt?, bind, EStateM.bind, hrun]

/-- The words of a string with these bytes. -/
def stringWords (bytes : List UInt8) : List Word :=
  objectWord .string (UInt64.ofNat bytes.length) :: Text.pack bytes

/-- The text of the name was made, and `v` came along. -/
structure Keyed (I : Machine Collector → (Nat → Prop) → Prop) (u u' : Mutator) (S S' : Nat → Prop)
    (name : String) (v : Value) (ρ : Nat → Nat) (k key : Nat) : Prop where
  clean : u'.poisoned = false
  carried : Carried I (u.machine.Live [v]) u.machine u'.machine S S' ρ k
  mem : S' key
  tag : u'.machine.heap.tag key ≠ some .pair
  holds : u'.machine.heap.Holds key (stringWords (Text.encode name))
  fresh : ∀ x, u.machine.Live [v] x → ρ x ≠ key

/-- No word counts the bytes of the text of the name. -/
def Lengthy (u : Mutator) (name : String) : Prop :=
  ¬ Collector.operations.Countable u.machine (textWords (Text.encode name).length)

/-- The first object: the text. -/
theorem key_ends_of_countable (hl : Laws Collector.operations I N) (hi : I u.machine S)
    (hu : u.poisoned = false) (hv : v.Within S) (hname : ¬ Lengthy u name) :
    Ends (keeping v (string name)) u
    (fun r u' => ∃ ρ S' k key, k ≤ 3 ∧ Keyed I u u' S S' name v ρ k key ∧
      r = (v.rename ρ, .ofRef key)) (Stops u 1) := by
  let P : Value → Machine Collector → (Nat → Prop) → (Nat → Nat) → Prop :=
    fun w m S' ρ => ∃ key, w = .ofRef key ∧ S' key ∧
    m.heap.tag key ≠ some .pair ∧ m.heap.Holds key (stringWords (Text.encode name)) ∧ ∀ x,
      u.machine.Live [v] x → ρ x ≠ key
  have hcl : Closed u.machine.heap (u.machine.Live [v]) :=
    Machine.closed_live (hl.apart hi).closed (hl.roots hi) (by simpa using hv)
  have hlive : (u.machine.roots.withParked v).Within (u.machine.Live [v]) :=
    (Machine.roots_live (hl.roots hi)).push (Machine.within_live (by simp) hv) _
  have hL : ∀ x, u.machine.Live [v] x → (parkedOn u v).machine.Reachable x :=
    fun x hx => hx.withParked.reachable
  refine (keeping_ends (n := 0) (K := 3) (P := P) (L := u.machine.Live [v]) hl hi hv
    (fun r h => h) fun hi₁ => ?_).mono ?_
  · refine (((text_constructs (.inl rfl) (Text.encode name)).ends hl hi₁ hu).mono ?_).mono_error
      fun _ _ h =>
      .inl (h.elim id fun h => absurd (by rw [Lengthy, textWords_eq]; exact h.2.2) hname)
    rintro w u' ⟨hu', ρ, S', k, key, rfl, hk, hm, ht, hw⟩
    exact ⟨hu', rfl, ρ, S', k, hk, hm.moved.mono hL hcl hlive, key, rfl, hm.mem, ht, hw,
      fun x hx => hm.fresh x (hL x hx)⟩
  · rintro ⟨v', w⟩ u' ⟨hu', -, ρ, S', k, hk, hmv, ⟨key, rfl, hmem, ht, hw, hne⟩, rfl, -⟩
    exact ⟨ρ, S', k, key, hk, ⟨hu', hmv, hmem, ht, hw, hne⟩, rfl⟩

/-- There is no text, and nothing has changed unless the attempt was a trap. -/
theorem key_ends_of_lengthy (hl : Laws Collector.operations I N) (hi : I u.machine S)
    (hu : u.poisoned = false) (hv : v.Within S) (hname : Lengthy u name)
    {Q : Value × Value → Mutator → Prop} :
    Ends (keeping v (string name)) u Q fun e u' =>
      (Roots.parking u.machine.roots.stack.size u.machine.roots.capacity 1 = .error e ∧ u' = u) ∨
      e = .trap := by
  cases hroom : Roots.parking u.machine.roots.stack.size u.machine.roots.capacity 1 with
  | error e => exact .of_error (keeping_full hroom) (.inl ⟨rfl, rfl⟩)
  | ok =>
    obtain ⟨hcap, hlim⟩ := Roots.room_of_parking hroom
    have hi₁ : I (parkedOn u v).machine S := hl.park hi hv hlim
    have hover : ¬ Collector.operations.Countable (parkedOn u v).machine
        ((Text.pack (Text.encode name)).length + 1) := by
      rw [Lengthy, textWords_eq] at hname
      exact hname
    have htrap := allocateWords_overflows hl hi₁ hu (by omega) hover
    obtain ⟨_, hrun, -⟩ := (text_constructs (.inl rfl) (Text.encode name)).run
    exact .of_error (keeping_trap hcap hlim (by rw [string, hrun, bind_error htrap])) (.inr rfl)

theorem key_ends (hl : Laws Collector.operations I N) (hi : I u.machine S) (hu : u.poisoned = false)
    (hv : v.Within S) (name : String) :
    Ends (keeping v (string name)) u
    (fun r u' => ∃ ρ S' k key, k ≤ 3 ∧ Keyed I u u' S S' name v ρ k key ∧
      r = (v.rename ρ, .ofRef key)) (fun e u' => Stops u 1 e u' ∨ e = .trap ∧ Lengthy u name) := by
  by_cases hname : Lengthy u name
  · exact (key_ends_of_lengthy hl hi hu hv hname).mono_error fun e u' h =>
      h.imp (fun h => .inr ⟨h.1, fun _ _ => h.2⟩) fun h => ⟨h, hname⟩
  · exact (key_ends_of_countable hl hi hu hv hname).mono_error fun _ _ h => .inl h

/-- The entry was made of the text and of what `v` has become. -/
structure Entered (I : Machine Collector → (Nat → Prop) → Prop) (u u' : Mutator) (S S' : Nat → Prop)
    (name : String) (v : Value) (ρ : Nat → Nat) (k key entry : Nat) :
    Prop extends Keyed I u u' S S' name v ρ k key where
  entry_mem : S' entry
  entry_tag : u'.machine.heap.tag entry = some .pair
  entry_car : u'.machine.heap.value (entry + 1) = .ofRef key
  entry_cdr : u'.machine.heap.value (entry + 2) = v.rename ρ
  entry_fresh : ∀ x, u.machine.Live [v] x → ρ x ≠ entry

/-- The second object: the entry. -/
theorem Keyed.entry_ends {u₁ : Mutator} {ρ : Nat → Nat} {k key : Nat}
    (hl : Laws Collector.operations I N) (hv : v.Within S) (hk : Keyed I u u₁ S S' name v ρ k key) :
    Ends (cons (.ofRef key) (v.rename ρ)) u₁
    (fun w u' => ∃ τ S'' l key' entry, l ≤ 3 ∧ w = .ofRef entry ∧
      Roots.parking u.machine.roots.stack.size u.machine.roots.capacity 2 = .ok () ∧
      Entered I u u' S S'' name v τ (k + l) key' entry) (Stops u₁ 2) := by
  have hc := hk.carried
  have hn := hl.named hc.inv
  have hkref := hl.ref?_ofRef hc.inv hk.mem
  have hkw := hl.ofRef_within hc.inv hk.mem
  have hvw : (v.rename ρ).Within S' := hc.within hn (Machine.within_live (by simp) hv)
  refine (cons_ends hl hc.inv hk.clean hkw hvw).mono ?_
  rintro w u' ⟨hu', hpark, τ, S'', l, entry, rfl, hl3, hm, hw, hcar, hcdr⟩
  have ht := Arena.tag_of_objectWord hw
  have hc' := hm.moved
  have hn' := hl.named hc'.inv
  -- what was live before is carried along
  have hL : ∀ x, u.machine.Live [v] x → u₁.machine.Live [.ofRef key, v.rename ρ] (ρ x) := by
    intro x hx
    refine hc.reach hn (fun o ho => .root ho) ?_ hx
    rintro o (ho | ⟨w, hw, ho⟩)
    · exact .inl (hc.refers hn ho)
    · obtain rfl := List.mem_singleton.mp hw
      refine .inr ⟨w.rename ρ, by simp, ?_⟩
      rw [Value.ref?_rename (Machine.within_live (by simp) hv) (hn.image hc.kept), ho]
      rfl
  have hkL : u₁.machine.Live [.ofRef key, v.rename ρ] key := .root (.inr ⟨_, by simp, hkref⟩)
  refine ⟨τ ∘ ρ, S'', l, τ key, entry, hl3, rfl, ?_,
    ⟨⟨hu', hc.trans hc' hL hn, hc'.kept _ hkL, ?_, ?_, ?_⟩, hm.mem, ht, ?_, ?_, ?_⟩⟩
  · rw [hc.roots.depth, hc.roots.capacity] at hpark
    exact hpark
  · rw [hc'.renamed.tag hc'.closed hkL]
    exact hk.tag
  · exact hc'.renamed.holds hc'.closed hkL hk.tag hk.holds
  · intro x hx he
    exact hk.fresh x hx (hc'.renamed.injective _ _ (hL x hx) hkL he)
  · rw [hcar]
    exact Value.rename_of_ref hkref
  · rw [hcdr]
    exact Value.rename_rename (Machine.within_live (by simp) hv) (hn.image hc.kept)
  · exact fun x hx => hm.fresh _ (hL x hx)

/-- What follows a new link in front of `head`. -/
def rest (head : Value) : Value := if head.isUndef then .nil else head

theorem rest_rename {T : Nat → Prop} {ρ : Nat → Nat} {head : Value} (hh : head.Within T)
    (hn : Value.Named fun o' => ∃ o, T o ∧ o' = ρ o) :
    rest (head.rename ρ) = (rest head).rename ρ := by
  have hnil : Value.nil.rename ρ = Value.nil := Value.rename_of_not_ref rfl
  cases hr : head.ref? with
  | none =>
    have hself : head.rename ρ = head := Value.rename_of_not_ref (Value.isRef_eq_false hr)
    rw [hself, rest]
    split
    · exact hnil.symm
    · exact hself.symm
  | some o =>
    have hdef : ∀ w : Value, w.isRef = true → w.isUndef = false := by
      intro w hw
      refine Bool.eq_false_iff.mpr fun hu => ?_
      rw [eq_of_beq hu] at hw
      cases hw
    have h1 := hdef _ (Value.isRef_of_ref? hr)
    have h2 : (head.rename ρ).isUndef = false :=
      hdef _ (by rw [Value.isRef_rename hh hn]; exact Value.isRef_of_ref? hr)
    rw [rest, rest, h1, h2]
    rfl

theorem rest_within {T : Nat → Prop} {head : Value} (hh : head.Within T) :
    (rest head).Within T := by
  rw [rest]
  split
  · exact .of_not_ref rfl
  · exact hh

/-- The link was made of the entry and of what the bucket held. -/
structure LinkMade (I : Machine Collector → (Nat → Prop) → Prop) (u u' : Mutator)
    (S S' : Nat → Prop) (name : String) (v head : Value) (ρ : Nat → Nat) (k key entry link : Nat) :
    Prop extends Entered I u u' S S' name v ρ k key entry where
  link_mem : S' link
  link_tag : u'.machine.heap.tag link = some .pair
  link_car : u'.machine.heap.value (link + 1) = .ofRef entry
  link_cdr : u'.machine.heap.value (link + 2) = (rest head).rename ρ
  link_fresh : ∀ x, u.machine.Live [v] x → ρ x ≠ link
  apart : entry ≠ link ∧ key ≠ link ∧ key ≠ entry

/-- The third object: the link. -/
theorem Entered.link_ends {u₁ : Mutator} {ρ : Nat → Nat} {k key entry : Nat} {head : Value}
    (hl : Laws Collector.operations I N) (hv : v.Within S)
    (hh : u.machine.roots.globals[bucket]? = some head)
    (he : Entered I u u₁ S S' name v ρ k key entry) :
    Ends (cons (.ofRef entry) (rest (head.rename ρ))) u₁
    (fun w u' => ∃ τ S'' l key' entry' link, l ≤ 3 ∧ w = .ofRef link ∧
      LinkMade I u u' S S'' name v head τ (k + l) key' entry' link) (Stops u₁ 2) := by
  have hc := he.carried
  have hn := hl.named hc.inv
  have heref := hl.ref?_ofRef hc.inv he.entry_mem
  have hew := hl.ofRef_within hc.inv he.entry_mem
  have hhL : head.Within (u.machine.Live [v]) := hc.live (.global bucket) head hh
  have hrest := rest_rename hhL (hn.image hc.kept)
  have hrw : (rest (head.rename ρ)).Within S' := by
    rw [hrest]
    exact hc.within hn (rest_within hhL)
  refine (cons_ends hl hc.inv he.clean hew hrw).mono ?_
  rintro w u' ⟨hu', -, τ, S'', l, link, rfl, hl3, hm, hw, hcar, hcdr⟩
  have ht := Arena.tag_of_objectWord hw
  have hc' := hm.moved
  have heL : u₁.machine.Live [.ofRef entry, rest (head.rename ρ)] entry :=
    .root (.inr ⟨_, by simp, heref⟩)
  -- the entry refers to the text and to the value
  have hsucc : ∀ c, (u₁.machine.heap.value (entry + 1)).ref? = some c ∨
    (u₁.machine.heap.value (entry + 2)).ref? = some c →
      u₁.machine.Live [.ofRef entry, rest (head.rename ρ)] c :=
        fun c h => heL.step (Arena.mem_succ.mpr ⟨he.entry_tag, h⟩)
  have hkL : u₁.machine.Live [.ofRef entry, rest (head.rename ρ)] key := by
    refine hsucc key (.inl ?_)
    rw [he.entry_car]
    exact hl.ref?_ofRef hc.inv he.mem
  have hL : ∀ x, u.machine.Live [v] x →
      u₁.machine.Live [.ofRef entry, rest (head.rename ρ)] (ρ x) := by
    have hstart : ∀ o, (u.machine.roots.Refers o ∨ ∃ w ∈ [v], w.ref? = some o) →
        u₁.machine.Live [.ofRef entry, rest (head.rename ρ)] (ρ o) := by
      rintro o (ho | ⟨w, hw, ho⟩)
      · exact .root (.inl (hc.refers hn ho))
      · obtain rfl := List.mem_singleton.mp hw
        refine hsucc _ (.inr ?_)
        rw [he.entry_cdr, Value.rename_of_ref ho]
        exact hl.ref?_ofRef hc.inv (hc.kept o (.root (.inr ⟨w, by simp, ho⟩)))
    intro x hx
    induction hx with
    | root hr => exact hstart _ hr
    | step hx hcx ih =>
      exact ih.step ((hc.renamed.mem_succ hc.closed (hn.image hc.kept) hx).mpr ⟨_, hcx, rfl⟩)
  have hkt : u'.machine.heap.tag (τ key) ≠ some .pair := by
    rw [hc'.renamed.tag hc'.closed hkL]
    exact he.tag
  have het : u'.machine.heap.tag (τ entry) = some .pair := by
    rw [hc'.renamed.tag hc'.closed heL]
    exact he.entry_tag
  refine ⟨τ ∘ ρ, S'', l, τ key, τ entry, link, hl3, rfl,
    ⟨⟨⟨hu', hc.trans hc' hL hn, hc'.kept _ hkL, hkt,
      hc'.renamed.holds hc'.closed hkL he.tag he.holds, ?_⟩,
      hc'.kept _ heL, het, ?_, ?_, ?_⟩, hm.mem, ht, ?_, ?_, fun x hx =>
        hm.fresh _ (hL x hx), hm.fresh _ heL, hm.fresh _ hkL, ?_⟩⟩
  · intro x hx hx'
    exact he.fresh x hx (hc'.renamed.injective _ _ (hL x hx) hkL hx')
  · rw [hc'.renamed.field entry 1 heL he.entry_tag (.inl rfl), he.entry_car]
    exact Value.rename_of_ref (hl.ref?_ofRef hc.inv he.mem)
  · rw [hc'.renamed.field entry 2 heL he.entry_tag (.inr rfl), he.entry_cdr]
    exact Value.rename_rename (Machine.within_live (by simp) hv) (hn.image hc.kept)
  · intro x hx hx'
    exact he.entry_fresh x hx (hc'.renamed.injective _ _ (hL x hx) heL hx')
  · rw [hcar]
    exact Value.rename_of_ref heref
  · rw [hcdr, hrest]
    exact Value.rename_rename (rest_within hhL) (hn.image hc.kept)
  · intro hke
    rw [hke] at hkt
    exact hkt het

/-! ## The whole -/

/-- Makes the entry of a name that is not bound yet. -/
def bindNew (bucket : Nat) (name : String) (v : Value) : MutatorM Unit := do
  let (v, key) ← keeping v (string name)
  let entry ← cons key v
  let head ← getRoot (.global bucket)
  let link ← cons entry (rest head)
  writeRoot (.global bucket) link

theorem defineAt_eq (bucket : Nat) (name : String) (v : Value) : defineAt bucket name v = (do
    check
    match ← entryAt? bucket name with
    | some entry => setCdr entry v
    | none => bindNew bucket name v) := rfl

/-- The name is bound by a new entry, the first one of its bucket. -/
def Bound (I : Machine Collector → (Nat → Prop) → Prop) (u u' : Mutator) (S : Nat → Prop)
    (bucket : Nat) (name : String) (v head : Value) : Prop :=
  u'.poisoned = false ∧ Roots.parking u.machine.roots.stack.size
    u.machine.roots.capacity 2 = .ok () ∧
    ∃ u₁ ρ S₁ S' k key entry link, k ≤ 9 ∧ LinkMade I u u₁ S S₁ name v head ρ k key entry link ∧
      Left Collector.operations I u₁.machine u'.machine S₁ S' ∧
        Same S' u₁.machine.heap u'.machine.heap ∧
      u'.machine.roots = u₁.machine.roots.set (.global bucket) (.ofRef link)

/-- The name is not bound, since the stack has no room for the values to park, or the name is too
long to be told that there is no room for it. -/
def Unbound (I : Machine Collector → (Nat → Prop) → Prop) (u : Mutator) (S : Nat → Prop)
    (name : String) (e : Fault) (u' : Mutator) : Prop :=
  (e = .trap ∧ Lengthy u name) ∨ u'.poisoned = true ∨
    (Roots.parking u.machine.roots.stack.size u.machine.roots.capacity 2 = .error e ∧
    ∀ f, e = .failed f → u'.poisoned = false ∧ ∃ ρ S' k, k ≤ 9 ∧
      Moved I u.machine u'.machine S S' ρ k)

/-- A name that fits into memory is bound unless the heap is poisoned or there is no room for the
operands. -/
theorem Unbound.of_short {e : Fault} {u' : Mutator} (h : Unbound I u S name e u')
    (hshort : (Text.encode name).length < 0x100000000000000) :
    u'.poisoned = true ∨ Roots.parking u.machine.roots.stack.size u.machine.roots.capacity
    2 = .error e := by
  rcases h with ⟨-, hlong⟩ | h
  · refine absurd (Collector.countable_of_lt ?_) hlong
    rw [textWords_eq]
    exact text_fits hshort
  · exact h.imp id And.left

/-- If that is reported, what the roots reach was carried along. -/
theorem Unbound.reported {e : Fault} {u' : Mutator} (h : Unbound I u S name e u') :
    u'.poisoned = true ∨
    ∀ f, e = .failed f → u'.poisoned = false ∧ ∃ ρ S' k, k ≤ 9 ∧
    Moved I u.machine u'.machine S S' ρ k := by
  rcases h with ⟨rfl, -⟩ | h
  · exact .inr fun f hf => by cases hf
  · exact h.imp id fun h => h.2

/-- What was made so far is given up. -/
theorem Keyed.stops_unbound {u₁ : Mutator} {ρ : Nat → Nat} {k key : Nat} {e : Fault} {u' : Mutator}
    (hl : Laws Collector.operations I N) (hi : I u.machine S)
    (hk : Keyed I u u₁ S S' name v ρ k key) (hk9 : k ≤ 9) (hs : Stops u₁ 2 e u') :
    Unbound I u S name e u' := by
  have hc := hk.carried
  refine .inr (hs.imp id fun h => ⟨?_, fun f hf => ?_⟩)
  · rw [← hc.roots.depth, ← hc.roots.capacity]
    exact h.1
  · rw [h.2 f hf]
    exact ⟨hk.clean, ρ, S', k, hk9, hc.mono (fun _ ho => ho.live) (hl.closed_reachable hi)
      (Machine.roots_reachable (hl.roots hi))⟩

theorem bindNew_ends {head : Value} (hl : Laws Collector.operations I N) (hi : I u.machine S)
    (hu : u.poisoned = false) (hpark : u.machine.roots.parked = 0) (hv : v.Within S)
    (hh : u.machine.roots.globals[bucket]? = some head) (name : String) :
    Ends (bindNew bucket name v) u (fun _ u' => Bound I u u' S bucket name v head)
    (Unbound I u S name) := by
  have hfirst : ∀ e u', Stops u 1 e u' ∨ e = .trap ∧ Lengthy u name → Unbound I u S name e u' := by
    refine fun e u' hs => hs.symm.imp id fun hs =>
      hs.imp id fun h => ⟨Roots.parking_error h.1 1, fun f hf => ?_⟩
    rw [h.2 f hf]
    exact ⟨hu, id, S, 0, by omega, .refl hi (hl.apart hi).closed (hl.roots hi)⟩
  unfold bindNew
  refine ((key_ends hl hi hu hv name).mono_error hfirst).bind ?_
  rintro ⟨v', w⟩ u₁ ⟨ρ, S₁, k, key, hk, hkey, heq⟩
  cases heq
  refine ((hkey.entry_ends hl hv).mono_error
    fun _ _ hs => hkey.stops_unbound hl hi (by omega) hs).bind ?_
  rintro w u₂ ⟨τ, S₂, l, key', entry, hl3, rfl, hroom, hentry⟩
  obtain ⟨head', hhead', rfl⟩ := hentry.carried.roots.slot (.global bucket) head hh
  have hget : getRoot (.global bucket) u₂.machine.roots = .ok (head.rename τ) u₂.machine.roots := by
    rw [getRoot, hhead']
  refine .step (roots_lift hget) ?_
  refine ((hentry.link_ends hl hv hh).mono_error
    fun _ _ hs => hentry.toKeyed.stops_unbound hl hi (by omega) hs).bind ?_
  rintro w u₃ ⟨κ, S₃, j, key'', entry', link, hj, rfl, hlink⟩
  have hc := hlink.carried
  obtain ⟨head'', hhead'', rfl⟩ := hc.roots.slot (.global bucket) head hh
  refine ((writeRoot_ends hl hc.inv hlink.clean (by rw [hc.roots.parked]; exact hpark) hhead''
    (hl.ofRef_within hc.inv hlink.link_mem)).mono ?_).mono_error fun _ _ h => .inr (.inl h)
  rintro - u' ⟨hu', S', hleft, hsame, hroots⟩
  exact ⟨hu', hroom, u₃, κ, S₃, S', _, key'', entry', link, by omega, hlink, hleft, hsame, hroots⟩

end MutatorM

end Reclaim
