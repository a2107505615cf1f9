import Mathlib.Data.List.Nodup
import Reclaim.Proofs.Marking
import Reclaim.Proofs.Names

/-!
# Lists of entries

A bucket of the global table holds a list of links, each a pair of an entry and the next link; an
entry is a pair of a name and a value. What `Chain` says of such a list is kept when objects move,
and when fields change that are no part of it (`Follows`). Links and entries cannot be mistaken for
one another, since the first field of a link refers to a pair and that of an entry to a text.

Results:
* `Chain.entryFrom?_run`: the search for a name goes along the list.
* `Chain.length_le`: a list in which no name occurs twice ends within the arena.
* `Follows.chain`: a list is found again from its new address.
-/

namespace Reclaim

/-- From `v` on, there are entries for these names at these addresses. -/
inductive Chain (h : Arena) : Value → List (String × Nat) → Prop where
  | nil {v : Value} : v.isRef = false → Chain h v []
  | cons {v : Value} {link entry : Nat} {name : String} {es : List (String × Nat)} :
      v.ref? = some link → h.tag link = some .pair → (h.value (link + 1)).ref? = some entry →
        h.tag entry = some .pair →
      h.textAt? (h.value (entry + 1)) = some name → Chain h (h.value (link + 2)) es →
        Chain h v ((name, entry) :: es)

/-- The object `o` is a link of the list from `v` on. -/
inductive Arena.Link (h : Arena) : Value → Nat → Prop where
  | here {v : Value} {o : Nat} : v.ref? = some o → h.Link v o
  | next {v : Value} {l o : Nat} : v.ref? = some l → h.Link (h.value (l + 2)) o → h.Link v o

/-- The object `e` is an entry of the list from `v` on. -/
def Arena.Entry (h : Arena) (v : Value) (e : Nat) : Prop := ∃ l, h.Link v l ∧
    (h.value (l + 1)).ref? = some e

/-- The objects of `T` in `h` have the addresses `ρ` in `h'`, with the same words, but for
references, which are renamed, and for the fields `W`, which may hold anything. -/
structure Tracks (ρ : Nat → Nat) (T : Nat → Prop) (W : Nat → Nat → Prop) (h h' : Arena) : Prop where
  injective : ∀ o o', T o → T o' → ρ o = ρ o' → o = o'
  word : ∀ o i, T o → i < h.payload o → ¬ (h.tag o = some .pair ∧ (i = 1 ∨ i = 2)) →
    h'.word (ρ o + i) = h.word (o + i)
  field : ∀ o i, T o → h.tag o = some .pair → i = 1 ∨ i = 2 → ¬ W o i →
    h'.value (ρ o + i) = (h.value (o + i)).rename ρ

/-- And the objects of `T` refer to objects of `T`, but for the fields `W`. -/
structure Follows (ρ : Nat → Nat) (T : Nat → Prop) (W : Nat → Nat → Prop) (h h' : Arena) :
    Prop extends Tracks ρ T W h h' where
  known : ∀ o, T o → h.tag o ≠ none
  linked : ∀ o i, T o → h.tag o = some .pair → i = 1 ∨ i = 2 → ¬ W o i → (h.value (o + i)).Within T
  named : Value.Named fun o' => ∃ o, T o ∧ o' = ρ o

variable {h h' : Arena} {hd : Nat} {S T : Nat → Prop} {W : Nat → Nat → Prop}
  {ρ : Nat → Nat} {v w : Value}
  {es fs : List (String × Nat)} {name : String}

/-! ## Links and entries -/

namespace Chain

/-- An entry is a pair of its name and something. -/
theorem entry_name (hc : Chain h v es) : ∀ x ∈ es, h.tag x.2 = some .pair ∧
    h.textAt? (h.value (x.2 + 1)) = some x.1 := by
  induction hc with
  | nil => simp
  | cons _ _ _ ht hname _ ih => exact List.forall_mem_cons.mpr ⟨⟨ht, hname⟩, ih⟩

theorem entry (hc : Chain h v es) : ∀ x ∈ es, h.Entry v x.2 := by
  induction hc with
  | nil => simp
  | cons hv _ he _ _ _ ih =>
    refine List.forall_mem_cons.mpr ⟨⟨_, .here hv, he⟩, fun x hx => ?_⟩
    obtain ⟨l, hl, hle⟩ := ih x hx
    exact ⟨l, .next hv hl, hle⟩

/-- A link is a pair, and its first field refers to a pair. -/
theorem link (hc : Chain h v es) {l : Nat} (hl : h.Link v l) :
    h.tag l = some .pair ∧ ∃ e, (h.value (l + 1)).ref? = some e ∧ h.tag e = some .pair := by
  induction hc with
  | nil hv =>
    have hnone := Value.ref?_eq_none hv
    cases hl with
    | here hr => exact absurd (hnone.symm.trans hr) (by simp)
    | next hr => exact absurd (hnone.symm.trans hr) (by simp)
  | cons hv ht he hte _ _ ih =>
    cases hl with
    | here hr =>
      cases hv.symm.trans hr
      exact ⟨ht, _, he, hte⟩
    | next hr hnext =>
      cases hv.symm.trans hr
      exact ih hnext

/-- Links are no entries. -/
theorem link_ne_entry (hc : Chain h v es) (hc' : Chain h w fs) {l : Nat}
    (hl : h.Link v l) : ∀ x ∈ fs, l ≠ x.2 := by
  rintro ⟨name, e⟩ hx rfl
  obtain ⟨-, e', he', ht'⟩ := hc.link hl
  have hname := (hc'.entry_name _ hx).2
  have htext : h.isText e' = false := by
    rw [Arena.isText, ht']
    rfl
  rw [Arena.textAt?, he', Option.filter_some, htext] at hname
  cases hname

theorem of_plain (hc : Chain h v es) (hv : v.isRef = false) : es = [] := by
  cases hc with
  | nil => rfl
  | cons hr => exact absurd ((Value.ref?_eq_none hv).symm.trans hr) (by simp)

/-- Names that occur once have entries of their own. -/
theorem nodup_entries (hc : Chain h v es) (hn : (es.map Prod.fst).Nodup) :
    (es.map Prod.snd).Nodup := by
  have hnames : (es.map Prod.snd).map (fun e => h.textAt? (h.value (e + 1))) =
      (es.map Prod.fst).map some := by
    rw [List.map_map, List.map_map]
    exact List.map_congr_left fun x hx => (hc.entry_name x hx).2
  refine List.Nodup.of_map _
    (?_ : ((es.map Prod.snd).map fun e => h.textAt? (h.value (e + 1))).Nodup)
  rw [hnames]
  exact hn.map fun _ _ => Option.some.inj

end Chain

/-! ## The search for a name -/

section Search

/-- Links and entries are among the objects of a well-formed heap. -/
theorem Arena.Link.mem (hS : Closed h S) (hc : Chain h v es) (hv : v.Within S) {l : Nat}
    (hl : h.Link v l) : S l := by
  induction hl generalizing es with
  | here hr => exact (hv _ hr).2
  | next hr _ ih =>
    cases hc with
    | nil hplain => exact absurd ((Value.ref?_eq_none hplain).symm.trans hr) (by simp)
    | cons hr' ht _ _ _ hrest =>
      cases hr.symm.trans hr'
      exact ih hrest (hS.field _ _ (hv _ hr).2 ht (.inr rfl))

theorem Chain.entry_mem (hS : Closed h S) (hc : Chain h v es)
    (hv : v.Within S) : ∀ x ∈ es, S x.2 := by
  intro x hx
  obtain ⟨l, hl, he⟩ := hc.entry x hx
  exact (hS.field l _ (hl.mem hS hc hv) (hc.link hl).1 (.inl rfl) _ he).2

/-- A list in which no name occurs twice ends within the arena. -/
theorem Chain.length_le (hap : Apart hd h S) (hc : Chain h v es) (hv : v.Within S)
    (hn : (es.map Prod.fst).Nodup) :
    es.length ≤ h.size := by
  have hle := length_le_of_nodup (n := h.size) (hc.nodup_entries hn) fun e he => ?_
  · rwa [List.length_map] at hle
  · obtain ⟨x, hx, rfl⟩ := List.mem_map.mp he
    have hmem := hc.entry_mem hap.closed hv x hx
    have hin := hap.inside _ hmem
    have hpos := Arena.payload_pos (hap.closed.known _ hmem)
    omega

/-- The search goes along the list. -/
theorem Chain.entryFrom?_run (hap : Apart hd h S) (hc : Chain h v es) (hv : v.Within S)
    (name : String) (n : Nat) (hn : es.length < n) :
    entryFrom? name n v h = .ok ((es.lookup name).map Value.ofRef) := by
  induction hc generalizing n with
  | @nil v hplain =>
    obtain ⟨n, rfl⟩ : ∃ k, n = k + 1 := ⟨n - 1, by simp at hn; omega⟩
    rw [entryFrom?_succ hap hv, Arena.fieldAt?, Arena.pairAt?, Value.ref?_eq_none hplain]
    rfl
  | @cons v link entry bound es hr ht he hte hname hrest ih =>
    obtain ⟨n, rfl⟩ : ∃ k, n = k + 1 := ⟨n - 1, by simp at hn; omega⟩
    have hcar := hap.closed.field link _ (hv link hr).2 ht (.inl rfl)
    have hcdr := hap.closed.field link _ (hv link hr).2 ht (.inr rfl)
    have hlink : h.pairAt? v = some link := Arena.pairAt?_eq_some.mpr ⟨hr, ht⟩
    have hentry : h.pairAt? (h.value (link + 1)) = some entry := Arena.pairAt?_eq_some.mpr ⟨he, hte⟩
    rw [entryFrom?_succ hap hv, Arena.fieldAt?, hlink]
    dsimp only [Option.map_some]
    rw [Arena.fieldAt?, hentry, Option.map_some, Option.bind_some, hname, Arena.fieldAt?, hlink]
    dsimp only [Option.map_some]
    by_cases hsame : name = bound
    · rw [if_pos (congrArg some hsame.symm), (hcar entry he).1, hsame, List.lookup_cons_self]
      rfl
    · rw [if_neg (by simpa using Ne.symm hsame), ih hcdr n (by simp at hn; omega), List.lookup_cons,
        beq_false_of_ne hsame]

end Search

/-! ## After a change -/

namespace Follows

theorem head (hf : Follows ρ T W h h') {o : Nat} (ho : T o) : h'.word (ρ o) = h.word o :=
  hf.word o 0 ho (Arena.payload_pos (hf.known o ho)) (by omega)

theorem tag (hf : Follows ρ T W h h') {o : Nat} (ho : T o) : h'.tag (ρ o) = h.tag o :=
  Arena.tag_congr (hf.head ho)

theorem ref? (hf : Follows ρ T W h h') (hv : v.Within T) {o : Nat} (hr : v.ref? = some o) :
    (v.rename ρ).ref? = some (ρ o) := by
  rw [Value.ref?_rename hv hf.named, hr]
  rfl

/-- A text stays the same. -/
theorem textAt? (hf : Follows ρ T W h h') (hv : v.Within T) (ht : h.textAt? v = some name) :
    h'.textAt? (v.rename ρ) = some name := by
  obtain ⟨o, ho, hname⟩ := Option.map_eq_some_iff.mp ht
  obtain ⟨hr, htext⟩ := Option.filter_eq_some_iff.mp ho
  have hmem := (hv o hr).2
  have htag := hf.tag hmem
  have htext' : h'.isText (ρ o) = true := by rwa [Arena.isText, htag]
  have hstring : h.tag o = some .string ∨ h.tag o = some .symbol := by
    simpa [Arena.isText] using htext
  have hnp : h.tag o ≠ some .pair := by rcases hstring with h | h <;> rw [h] <;> decide
  have hpay := Arena.payload_of_text hstring
  have hbytes : h'.bytes (ρ o) = h.bytes o := by
    rw [Arena.bytes, Arena.bytes, hf.head hmem]
    congr 2
    refine List.map_congr_left fun i hi => ?_
    have hlt := List.mem_range.mp hi
    rw [Nat.add_assoc, Nat.add_assoc]
    exact hf.word o (1 + i) hmem (by rw [hpay, textWords]; omega) fun hp => hnp hp.1
  rw [Arena.textAt?, hf.ref? hv hr, Option.filter_some, if_pos htext',
    Option.map_some, hbytes, hname]

/-- A list is found again from its new address, if its links and the names of its entries were not
written to. -/
theorem chain (hf : Follows ρ T W h h') (hc : Chain h v es) (hv : v.Within T)
    (hlinks : ∀ l, h.Link v l → ¬ W l 1 ∧ ¬ W l 2) (hentries : ∀ e, h.Entry v e → ¬ W e 1) :
    (∀ x ∈ es, T x.2) ∧ Chain h' (v.rename ρ) (es.map fun x => (x.1, ρ x.2)) := by
  induction hc with
  | nil hplain => exact ⟨by simp, .nil (by rwa [Value.rename_of_not_ref hplain])⟩
  | @cons v link entry name es hr ht he hte hname hrest ih =>
    have hl := hlinks link (.here hr)
    have hmem := (hv link hr).2
    have hcar := hf.linked link 1 hmem ht (.inl rfl) hl.1
    have hcdr := hf.linked link 2 hmem ht (.inr rfl) hl.2
    have hemem := (hcar entry he).2
    have hWe := hentries entry ⟨link, .here hr, he⟩
    obtain ⟨hes, hchain⟩ := ih hcdr (fun l hl => hlinks l (.next hr hl)) fun e ⟨l, hl, hle⟩ =>
      hentries e ⟨l, .next hr hl, hle⟩
    refine ⟨List.forall_mem_cons.mpr ⟨hemem, hes⟩, .cons (hf.ref? hv hr) ((hf.tag hmem).trans ht) ?_
      ((hf.tag hemem).trans hte) ?_ ?_⟩
    · rw [hf.field link 1 hmem ht (.inl rfl) hl.1]
      exact hf.ref? hcar he
    · rw [hf.field entry 1 hemem hte (.inl rfl) hWe]
      exact hf.textAt? (hf.linked entry 1 hemem hte (.inl rfl) hWe) hname
    · rw [hf.field link 2 hmem ht (.inr rfl) hl.2]
      exact hchain

end Follows

end Reclaim
