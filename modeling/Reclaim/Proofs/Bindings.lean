import Reclaim.Proofs.Programs

/-!
# The global table as a map

What the lists in the buckets say (`Mutator.Entries`, `Mutator.Maps`), and how it comes through a
change of the heap that leaves them alone but may move them (`Keeping`).

Results:
* `Maps.lookup_run`: looking up a name gives what it is bound to.
* `Maps.keeping`: bindings follow their values.
* `Entries.insert`: a new link in front of a bucket.
-/

namespace Reclaim

/-- The entries of the global table: in the list of each bucket there are entries for names that
fall into it, and for none of them twice. -/
structure Mutator.Entries (u : Mutator) (E : String → Option Nat) : Prop where
  size : 0 < u.machine.roots.globals.size
  bucket : ∀ (b : Nat) (head : Value), u.machine.roots.globals[b]? = some head → ∃ es,
    Chain u.machine.heap head es ∧
    (es.map Prod.fst).Nodup ∧ (∀ x ∈ es, u.bucket x.1 = b) ∧ ∀ name, u.bucket name = b →
      E name = es.lookup name

/-- The global table binds names as `Γ` says. -/
def Mutator.Maps (u : Mutator) (Γ : String → Option Value) : Prop :=
  ∃ E, u.Entries E ∧ ∀ name, Γ name = (E name).map fun e => u.machine.heap.value (e + 2)

/-- The objects of `T`, among them those that the buckets refer to, have the addresses `ρ`, and hold
what they held but for the fields `W`. -/
structure Keeping (ρ : Nat → Nat) (T : Nat → Prop) (W : Nat → Nat → Prop)
    (u u' : Mutator) : Prop where
  follows : Follows ρ T W u.machine.heap u'.machine.heap
  table : u'.machine.roots.globals.size = u.machine.roots.globals.size
  hash : u'.machine.roots.hash = u.machine.roots.hash
  globals : ∀ (b : Nat) (head : Value), u.machine.roots.globals[b]? = some head →
    head.Within T ∧ u'.machine.roots.globals[b]? = some (head.rename ρ)

/-- The global table, and the hash that spreads names over it. -/
def Roots.table (r : Roots) : Array Value × (List UInt8 → UInt64) := (r.globals, r.hash)

/-- The links and the names of the global table are not among the fields `W`. -/
def Mutator.Spared (u : Mutator) (W : Nat → Nat → Prop) : Prop :=
  ∀ (b : Nat) (head : Value), u.machine.roots.globals[b]? = some head →
    (∀ l, u.machine.heap.Link head l → ¬ W l 1 ∧ ¬ W l 2) ∧ ∀ e,
      u.machine.heap.Entry head e → ¬ W e 1

/-- No field at all. -/
abbrev NoField : Nat → Nat → Prop := fun _ _ => False

variable {u u' : Mutator} {E : String → Option Nat} {Γ : String → Option Value} {name : String}
  {ρ : Nat → Nat} {T : Nat → Prop} {W : Nat → Nat → Prop}

theorem Mutator.bucket_congr (htable : u'.machine.roots.globals.size = u.machine.roots.globals.size)
    (hhash : u'.machine.roots.hash = u.machine.roots.hash) (name : String) :
    u'.bucket name = u.bucket name := by
  rw [bucket, bucket, Roots.bucket, Roots.bucket, Roots.tableSize, Roots.tableSize, htable, hhash]

theorem Mutator.spared_none (u : Mutator) : u.Spared NoField :=
  fun _ _ _ => ⟨fun _ _ => ⟨id, id⟩, fun _ _ => id⟩

theorem lookup_map_snd {α : Type} (f : α → α) (es : List (String × α)) (name : String) :
    (es.map fun x => (x.1, f x.2)).lookup name = (es.lookup name).map f := by
  induction es with
  | nil => rfl
  | cons x es ih =>
    rw [List.map_cons, List.lookup_cons, List.lookup_cons, ih]
    cases name == x.1 <;> rfl

theorem mem_of_lookup {α : Type} {es : List (String × α)} {a : α} (h : es.lookup name = some a) :
    (name, a) ∈ es := by
  obtain ⟨before, after, rfl, -⟩ := List.lookup_eq_some_iff.mp h
  simp

theorem not_mem_of_lookup {α : Type} {es : List (String × α)} (h : es.lookup name = none) :
    name ∉ es.map Prod.fst := by
  intro hmem
  obtain ⟨x, hx, rfl⟩ := List.mem_map.mp hmem
  simpa using List.lookup_eq_none_iff.mp h x hx

/-! ## Reading -/

namespace Mutator.Entries

/-- The bucket of a name exists. -/
theorem head (hE : u.Entries E) (name : String) : ∃ head,
    u.machine.roots.globals[u.bucket name]? = some head :=
  ⟨_, Array.getElem?_eq_getElem (Nat.mod_lt _ hE.size)⟩

/-- The entry of a name is in the list of its bucket. -/
theorem of_entry (hE : u.Entries E) {e : Nat} (he : E name = some e) : ∃ head es,
    u.machine.roots.globals[u.bucket name]? = some head ∧ Chain u.machine.heap head es ∧
    (name, e) ∈ es := by
  obtain ⟨head, hh⟩ := hE.head name
  obtain ⟨es, hc, -, -, hlook⟩ := hE.bucket _ head hh
  exact ⟨head, es, hh, hc, mem_of_lookup ((hlook name rfl).symm.trans he)⟩

section Laws

variable {I : Machine Collector → (Nat → Prop) → Prop} {N : Machine Collector → Nat → Nat → Prop}
  {S : Nat → Prop}

/-- The search for a name ends, and finds its entry. -/
theorem entryAt?_run (hl : Laws Collector.operations I N) (hi : I u.machine S) (hE : u.Entries E)
    (name : String) :
    MutatorM.entryAt? (u.bucket name) name u.machine =
    .ok ((E name).map Value.ofRef) u.machine := by
  obtain ⟨head, hh⟩ := hE.head name
  obtain ⟨es, hc, hnodup, -, hlook⟩ := hE.bucket _ head hh
  have hw := hl.roots hi (.global _) head hh
  have hlen := hc.length_le (hl.apart hi) hw hnodup
  rw [hlook name rfl]
  exact MutatorM.entryAt?_run hh (hc.entryFrom?_run (hl.apart hi) hw name _ (by omega))

/-- An entry is an object that may be used. -/
theorem mem (hl : Laws Collector.operations I N) (hi : I u.machine S) (hE : u.Entries E) {e : Nat}
    (he : E name = some e) : S e := by
  obtain ⟨head, es, hh, hc, hmem⟩ := hE.of_entry he
  exact hc.entry_mem (hl.apart hi).closed (hl.roots hi (.global _) head hh) _ hmem

end Laws

/-- Different names have different entries. -/
theorem injective (hE : u.Entries E) {name' : String} {e : Nat} (he : E name = some e)
    (he' : E name' = some e) : name = name' := by
  obtain ⟨_, _, -, hc, hmem⟩ := hE.of_entry he
  obtain ⟨_, _, -, hc', hmem'⟩ := hE.of_entry he'
  exact Option.some.inj ((hc.entry_name _ hmem).2.symm.trans (hc'.entry_name _ hmem').2)

theorem entry_pair (hE : u.Entries E) {e : Nat} (he : E name = some e) :
    u.machine.heap.tag e = some .pair := by
  obtain ⟨_, _, -, hc, hmem⟩ := hE.of_entry he
  exact (hc.entry_name _ hmem).1

/-- Writing to the value of an entry spares the table. -/
theorem spared (hE : u.Entries E) {e : Nat} (he : E name = some e) :
    u.Spared fun o i => o = e ∧ i = 2 := by
  obtain ⟨_, _, -, hc, hmem⟩ := hE.of_entry he
  intro b head hh
  obtain ⟨es, hc', -⟩ := hE.bucket b head hh
  refine ⟨fun l hl => ⟨by simp, fun h => hc'.link_ne_entry hc hl _ hmem h.1⟩, by simp⟩

/-! ## Changes -/

/-- The entries are found again from the buckets. -/
theorem keeping (hE : u.Entries E) (hk : Keeping ρ T W u u') (hW : u.Spared W) :
    u'.Entries (fun name => (E name).map ρ) ∧ ∀ name e, E name = some e → T e := by
  have hsize : ∀ name, u'.bucket name = u.bucket name := Mutator.bucket_congr hk.table hk.hash
  have hchain : ∀ (b : Nat) (head : Value) es, u.machine.roots.globals[b]? = some head →
    Chain u.machine.heap head es →
      (∀ x ∈ es, T x.2) ∧ Chain u'.machine.heap (head.rename ρ) (es.map fun x => (x.1, ρ x.2)) :=
        fun b head es hh hc =>
    hk.follows.chain hc (hk.globals b head hh).1 (hW b head hh).1 (hW b head hh).2
  refine ⟨⟨by rw [hk.table]; exact hE.size, fun b head' hh' => ?_⟩, fun name e he => ?_⟩
  · have hb : b < u.machine.roots.globals.size := by
      rw [← hk.table]
      exact (Array.getElem?_eq_some_iff.mp hh').1
    have hh := Array.getElem?_eq_getElem hb
    obtain ⟨es, hc, hnodup, hin, hlook⟩ := hE.bucket b _ hh
    cases hh'.symm.trans (hk.globals b _ hh).2
    have hnames : (es.map fun x => (x.1, ρ x.2)).map Prod.fst = es.map Prod.fst := by
      rw [List.map_map]
      rfl
    refine ⟨_, (hchain b _ es hh hc).2, by rwa [hnames], fun x hx => ?_, fun name hname => ?_⟩
    · obtain ⟨y, hy, rfl⟩ := List.mem_map.mp hx
      exact (hsize y.1).trans (hin y hy)
    · rw [hlook name ((hsize name).symm.trans hname), lookup_map_snd]
  · obtain ⟨head, es, hh, hc, hmem⟩ := hE.of_entry he
    exact (hchain _ head es hh hc).1 _ hmem

/-- A new link in front of the list of a bucket. -/
theorem insert {link entry : Nat} {head : Value} (hE : u.Entries E) (hnone : E name = none)
    (hh : u.machine.roots.globals[u.bucket name]? = some head)
    (hf : Follows id T NoField u.machine.heap u'.machine.heap)
    (hT : ∀ (b : Nat) (head : Value), u.machine.roots.globals[b]? = some head → head.Within T)
    (hroots : u'.machine.roots = u.machine.roots.set (.global (u.bucket name)) (.ofRef link))
    (hlink : (Value.ofRef link).ref? = some link) (ht : u'.machine.heap.tag link = some .pair)
    (hcar : (u'.machine.heap.value (link + 1)).ref? = some entry)
    (hcdr : u'.machine.heap.value (link + 2) = MutatorM.rest head)
    (hentry : u'.machine.heap.tag entry = some .pair)
    (hname : u'.machine.heap.textAt? (u'.machine.heap.value (entry + 1)) = some name) :
    u'.Entries fun n => if n = name then some entry else E n := by
  have hsize : u'.machine.roots.globals.size = u.machine.roots.globals.size := by
    rw [hroots]
    exact Array.size_setIfInBounds ..
  have hbucket : ∀ n, u'.bucket n = u.bucket n :=
    Mutator.bucket_congr hsize (by rw [hroots, Roots.set_hash])
  -- the lists are where they were
  have hchain : ∀ {v : Value} {es}, v.Within T → Chain u.machine.heap v es →
      Chain u'.machine.heap v es := by
    intro v es hv hc
    have hc' := (hf.chain hc hv (fun _ _ => ⟨id, id⟩) fun _ _ => id).2
    have hself : v.rename id = v := hv.rename_self fun _ _ => rfl
    simpa [hself] using hc'
  refine ⟨by rw [hsize]; exact hE.size, fun b head' hh' => ?_⟩
  by_cases hb : b = u.bucket name
  · subst hb
    obtain ⟨es, hc, hnodup, hin, hlook⟩ := hE.bucket _ head hh
    have hnew : u'.machine.roots.globals[u.bucket name]? = some (.ofRef link) := by
      rw [hroots]
      have hget : u.machine.roots.get? (.global (u.bucket name)) = some head := hh
      exact Roots.get?_set_self hget
    cases hh'.symm.trans hnew
    have hrest : Chain u'.machine.heap (MutatorM.rest head) es := by
      rw [MutatorM.rest]
      split
      · rename_i hundef
        rw [hc.of_plain (by rw [eq_of_beq hundef]; rfl)]
        exact .nil rfl
      · exact hchain (hT _ head hh) hc
    refine ⟨(name, entry) :: es,
      .cons hlink ht hcar hentry hname (hcdr ▸ hrest), ?_, ?_, fun n hn => ?_⟩
    · exact List.nodup_cons.mpr ⟨not_mem_of_lookup ((hlook name rfl).symm.trans hnone), hnodup⟩
    · exact List.forall_mem_cons.mpr ⟨hbucket name, fun x hx => (hbucket x.1).trans (hin x hx)⟩
    · rw [List.lookup_cons, ← hlook n ((hbucket n).symm.trans hn)]
      by_cases hsame : n = name
      · rw [if_pos hsame, hsame, beq_self_eq_true]
      · rw [if_neg hsame, beq_false_of_ne hsame]
  · have hold : u'.machine.roots.globals[b]? = u.machine.roots.globals[b]? := by
      rw [hroots]
      have hne : RootSlot.global b ≠ .global (u.bucket name) := by simpa using hb
      exact Roots.get?_set_of_ne hne
    have hh := hold.symm.trans hh'
    obtain ⟨es, hc, hnodup, hin, hlook⟩ := hE.bucket b head' hh
    refine ⟨es, hchain (hT b head' hh) hc, hnodup,
      fun x hx => (hbucket x.1).trans (hin x hx), fun n hn => ?_⟩
    have hn := (hbucket n).symm.trans hn
    rw [if_neg (by rintro rfl; exact hb hn.symm), hlook n hn]

end Mutator.Entries

/-! ## Bindings -/

/-- What an entry holds follows its object. -/
theorem Mutator.Entries.value (hE : u.Entries E) (hk : Keeping ρ T W u u') (hW : u.Spared W)
    {e : Nat} (he : E name = some e) (hfree : ¬ W e 2) :
    u'.machine.heap.value (ρ e + 2) = (u.machine.heap.value (e + 2)).rename ρ :=
  hk.follows.field e 2 ((hE.keeping hk hW).2 name e he) (hE.entry_pair he) (.inr rfl) hfree

namespace Mutator.Maps

/-- Bindings follow their values. -/
theorem keeping (hΓ : u.Maps Γ) (hk : Keeping ρ T W u u') (hW : u.Spared W)
    (hvalues : ∀ (b : Nat) (head : Value), u.machine.roots.globals[b]? =
      some head → ∀ e, u.machine.heap.Entry head e → ¬ W e 2) :
    u'.Maps fun name => (Γ name).map (Value.rename ρ) := by
  obtain ⟨E, hE, hval⟩ := hΓ
  refine ⟨_, (hE.keeping hk hW).1, fun name => ?_⟩
  dsimp only
  rw [hval name, Option.map_map, Option.map_map]
  refine Option.map_congr fun e he => ?_
  obtain ⟨head, es, hh, hc, hin⟩ := hE.of_entry he
  exact (hE.value hk hW he (hvalues _ head hh e (hc.entry _ hin))).symm

/-- An entry gets another value. -/
theorem redefine (hE : u.Entries E)
    (hval : ∀ n, Γ n = (E n).map fun e => u.machine.heap.value (e + 2)) {e : Nat}
    (he : E name = some e) (hk : Keeping ρ T (fun o i => o = e ∧ i = 2) u u') {w : Value}
    (hw : u'.machine.heap.value (ρ e + 2) = w) :
    u'.Maps fun n => if n = name then some w else (Γ n).map (Value.rename ρ) := by
  refine ⟨_, (hE.keeping hk (hE.spared he)).1, fun n => ?_⟩
  dsimp only
  split
  · rename_i hsame
    rw [hsame, he, Option.map_some, Option.map_some, hw]
  · rename_i hother
    rw [hval n, Option.map_map, Option.map_map]
    refine Option.map_congr fun e' he' => ?_
    refine (hE.value hk (hE.spared he) he' ?_).symm
    rintro ⟨rfl, -⟩
    exact hother (hE.injective he' he)

section Laws

variable {I : Machine Collector → (Nat → Prop) → Prop} {N : Machine Collector → Nat → Nat → Prop}
  {S : Nat → Prop}

/-- Looking up a name ends, and gives what it is bound to. -/
theorem lookup_run (hl : Laws Collector.operations I N) (hi : I u.machine S) (hΓ : u.Maps Γ)
    (name : String) :
    MutatorM.lookupAt? (u.bucket name) name u.machine = .ok (Γ name) u.machine := by
  obtain ⟨E, hE, hval⟩ := hΓ
  rw [MutatorM.lookupAt?, bind_ok (hE.entryAt?_run hl hi name), hval name]
  cases he : E name with
  | none => rfl
  | some e =>
    have hmem := hE.mem hl hi he
    have href := hl.ref?_ofRef hi hmem
    have hread := cdr?_run (hl.apart hi) (hl.ofRef_within hi hmem)
    rw [Arena.fieldAt?, Arena.pairAt?_eq_some.mpr ⟨href, hE.entry_pair he⟩] at hread
    exact Reclaim.read_lift hread

end Laws

end Mutator.Maps

end Reclaim
