import Reclaim.Proofs.Chains
import Reclaim.Proofs.Reading

/-!
# What values stand for

A program thinks of its values as data: immediate values, texts and pairs of data (`Datum`).
`Arena.Shows` says what a value stands for in an arena, whatever the addresses of its objects are.
Objects that move stand for the same data as before, and so do those whose fields are left alone.

A datum is finite, so that each of the nested pairs that show it has an address of its own. That is
why a reader that gives up after as many steps as the arena has words comes to the end of it.

Results:
* `Follows.shows`: data are found again from their new addresses.
* `Shows.height_le`: no datum is deeper than the arena is large.
* `Shows.list?_run`: a list of immediate values is read.
-/

namespace Reclaim

/-- What a value may stand for. -/
inductive Datum where
  /-- An immediate value. -/
  | plain (v : Value)
  | text (s : String)
  | pair (car cdr : Datum)
  deriving DecidableEq

namespace Datum

/-- How deep pairs are nested. -/
def height : Datum → Nat
  | plain _ | text _ => 0
  | pair a b => max a.height b.height + 1

/-- There is no text in it. -/
def Textless : Datum → Prop
  | plain _ => True
  | text _ => False
  | pair a b => a.Textless ∧ b.Textless

/-- A proper list of immediate values. -/
def ofList : List Value → Datum
  | [] => plain .nil
  | v :: vs => pair (plain v) (ofList vs)

theorem height_ofList (vs : List Value) : (ofList vs).height = vs.length := by
  induction vs with
  | nil => rfl
  | cons v vs ih => rw [ofList, height, ih, height, Nat.zero_max, List.length_cons]

end Datum

/-- The value stands for the datum. -/
inductive Arena.Shows (h : Arena) : Value → Datum → Prop where
  | plain {v : Value} : v.isRef = false → h.Shows v (.plain v)
  | text {v : Value} {s : String} : h.textAt? v = some s → h.Shows v (.text s)
  | pair {v a b : Value} {x y : Datum} : h.fieldAt? 1 v = some a → h.fieldAt? 2 v = some b →
      h.Shows a x → h.Shows b y →
      h.Shows v (.pair x y)

namespace Arena

variable {h : Arena} {v w : Value} {o i : Nat}

theorem fieldAt?_eq_some : h.fieldAt? i v = some w ↔ ∃ o, v.ref? = some o ∧ h.tag o = some .pair ∧
    h.value (o + i) = w := by
  rw [fieldAt?, Option.map_eq_some_iff]
  simp only [pairAt?_eq_some, and_assoc]

theorem ref?_of_textAt? {s : String} (ht : h.textAt? v = some s) : ∃ o, v.ref? = some o ∧
    h.tag o ≠ some .pair := by
  obtain ⟨o, ho, -⟩ := Option.map_eq_some_iff.mp ht
  obtain ⟨hr, htext⟩ := Option.filter_eq_some_iff.mp ho
  refine ⟨o, hr, fun hp => ?_⟩
  rw [isText, hp] at htext
  cases htext

end Arena

namespace Arena.Shows

variable {h : Arena} {v w : Value} {d e x y : Datum} {hd : Nat} {S : Nat → Prop}

/-- A datum without a text is not shown by one. -/
theorem not_text (hs : h.Shows v d) (hd : d.Textless) (s : String) : h.textAt? v ≠ some s := by
  intro ht
  obtain ⟨o, hr, hp⟩ := ref?_of_textAt? ht
  cases hs with
  | plain hv => exact absurd ((Value.ref?_eq_none hv).symm.trans hr) (by simp)
  | text => exact hd
  | pair hcar =>
    obtain ⟨o', hr', hp', -⟩ := fieldAt?_eq_some.mp hcar
    cases hr.symm.trans hr'
    exact hp hp'

/-- A pair of an immediate value has that value in its first field. -/
theorem car_plain (hs : h.Shows v (.pair (.plain w) y)) : h.fieldAt? 1 v = some w := by
  cases hs with
  | pair hcar _ hw _ =>
    cases hw
    exact hcar

theorem cdr_plain (hs : h.Shows v (.pair x (.plain w))) : h.fieldAt? 2 v = some w := by
  cases hs with
  | pair _ hcdr _ hw =>
    cases hw
    exact hcdr

/-- A value stands for one datum only. -/
theorem unique (hs : h.Shows v d) (hs' : h.Shows v e) : d = e := by
  induction hs generalizing e with
  | plain hv =>
    have hnone := Value.ref?_eq_none hv
    cases hs' with
    | plain => rfl
    | text ht =>
      obtain ⟨o, hr, -⟩ := ref?_of_textAt? ht
      exact absurd (hnone.symm.trans hr) (by simp)
    | pair hcar =>
      obtain ⟨o, hr, -⟩ := fieldAt?_eq_some.mp hcar
      exact absurd (hnone.symm.trans hr) (by simp)
  | text ht =>
    obtain ⟨o, hr, hp⟩ := ref?_of_textAt? ht
    cases hs' with
    | plain hv => exact absurd ((Value.ref?_eq_none hv).symm.trans hr) (by simp)
    | text ht' => exact congrArg Datum.text (Option.some.inj (ht.symm.trans ht'))
    | pair hcar =>
      obtain ⟨o', hr', hp', -⟩ := fieldAt?_eq_some.mp hcar
      cases hr.symm.trans hr'
      exact absurd hp' hp
  | pair hcar hcdr _ _ ihcar ihcdr =>
    obtain ⟨o, hr, hp, -⟩ := fieldAt?_eq_some.mp hcar
    cases hs' with
    | plain hv => exact absurd ((Value.ref?_eq_none hv).symm.trans hr) (by simp)
    | text ht =>
      obtain ⟨o', hr', hp'⟩ := ref?_of_textAt? ht
      cases hr.symm.trans hr'
      exact absurd hp hp'
    | pair hcar' hcdr' hx hy =>
      cases hcar.symm.trans hcar'
      cases hcdr.symm.trans hcdr'
      rw [ihcar hx, ihcdr hy]

/-! ## Depth -/

/-- Along the deepest path there are as many objects as the datum is deep, since deeper ones stand
for less. -/
theorem path (hS : Closed h S) (hv : v.Within S) (hs : h.Shows v d) :
    ∃ os : List Nat, os.length = d.height ∧ os.Nodup ∧ ∀ o ∈ os, S o ∧ ∃ e, h.Shows (.ofRef o) e ∧
    e.height ≤ d.height := by
  induction hs with
  | plain | text => exact ⟨[], rfl, .nil, by simp⟩
  | @pair v a b x y hcar hcdr hx hy ihx ihy =>
    have hpath : ∃ os : List Nat, os.length = max x.height y.height ∧ os.Nodup ∧
        ∀ o ∈ os, S o ∧ ∃ e, h.Shows (.ofRef o) e ∧ e.height ≤ max x.height y.height := by
      rcases Nat.le_total x.height y.height with hle | hle
      · rw [Nat.max_eq_right hle]
        exact ihy (fieldAt?_within hS hv (.inr rfl) hcdr)
      · rw [Nat.max_eq_left hle]
        exact ihx (fieldAt?_within hS hv (.inl rfl) hcar)
    obtain ⟨os, hlen, hnd, hmem⟩ := hpath
    obtain ⟨o, hr, -⟩ := fieldAt?_eq_some.mp hcar
    obtain ⟨rfl, ho⟩ := hv o hr
    have hself : h.Shows (.ofRef o) (.pair x y) := .pair hcar hcdr hx hy
    refine ⟨o :: os, by rw [List.length_cons, hlen, Datum.height], List.nodup_cons.mpr
      ⟨fun hin => ?_, hnd⟩, ?_⟩
    · obtain ⟨-, e, he, hle⟩ := hmem o hin
      rw [← hself.unique he, Datum.height] at hle
      omega
    · refine List.forall_mem_cons.mpr ⟨⟨ho, _, hself, Nat.le_refl _⟩, fun c hc => ?_⟩
      obtain ⟨hSc, e, he, hle⟩ := hmem c hc
      exact ⟨hSc, e, he, by rw [Datum.height]; omega⟩

/-- No datum is deeper than the arena is large. -/
theorem height_le (hap : Apart hd h S) (hv : v.Within S) (hs : h.Shows v d) :
    d.height ≤ h.size := by
  obtain ⟨os, hlen, hnd, hmem⟩ := hs.path hap.closed hv
  rw [← hlen]
  refine length_le_of_nodup hnd fun o ho => ?_
  have hin := hap.inside o (hmem o ho).1
  have hpos := Arena.payload_pos (hap.closed.known o (hmem o ho).1)
  omega

/-! ## Lists -/

theorem listFrom?_run (hap : Apart hd h S) {vs : List Value} (hv : v.Within S)
    (hs : h.Shows v (.ofList vs)) {n : Nat} (hn : vs.length < n) :
    listFrom? n v h = .ok (some vs) := by
  induction vs generalizing v n with
  | nil =>
    obtain ⟨n, rfl⟩ : ∃ k, n = k + 1 := ⟨n - 1, by omega⟩
    cases hs
    rfl
  | cons item rest ih =>
    obtain ⟨n, rfl⟩ : ∃ k, n = k + 1 := ⟨n - 1, by omega⟩
    rw [List.length_cons] at hn
    cases hs with
    | @pair _ a b _ _ hcar hcdr hitem hrest =>
      cases hitem
      have hnil : v.isNil = false := by
        obtain ⟨o, hr, -⟩ := fieldAt?_eq_some.mp hcar
        refine Bool.eq_false_iff.mpr fun hn => ?_
        rw [eq_of_beq hn] at hr
        cases hr
      have htail := ih (fieldAt?_within hap.closed hv (.inr rfl) hcdr) hrest (n := n) (by omega)
      rw [listFrom?_succ hap hv, hnil, if_neg (by decide), hcar, hcdr]
      dsimp only
      rw [htail]
      rfl

/-- A list is read. -/
theorem list?_run (hap : Apart hd h S) {vs : List Value} (hv : v.Within S)
    (hs : h.Shows v (.ofList vs)) : list? v h = .ok (some vs) := by
  have hle := hs.height_le hap hv
  rw [Datum.height_ofList] at hle
  exact hs.listFrom?_run hap hv (Nat.lt_succ_of_le hle)

end Arena.Shows

/-! ## After a change -/

namespace Follows

variable {h h' : Arena} {T : Nat → Prop} {W : Nat → Nat → Prop} {ρ : Nat → Nat}
  {v w : Value} {d : Datum}

theorem fieldAt? (hf : Follows ρ T W h h') (hv : v.Within T) {i : Nat} (hi : i = 1 ∨ i = 2)
    (hfree : ∀ o, v.ref? = some o → ¬ W o i) (hw : h.fieldAt? i v = some w) : w.Within T ∧
    h'.fieldAt? i (v.rename ρ) = some (w.rename ρ) := by
  obtain ⟨o, hr, ht, rfl⟩ := Arena.fieldAt?_eq_some.mp hw
  have hmem := (hv o hr).2
  exact ⟨hf.linked o i hmem ht hi (hfree o hr),
    Arena.fieldAt?_eq_some.mpr
      ⟨ρ o, hf.ref? hv hr, (hf.tag hmem).trans ht, hf.field o i hmem ht hi (hfree o hr)⟩⟩

/-- Data are found again from their new addresses. If fields were written, they are in objects that
begin with a text, and there is none in the datum. -/
theorem shows (hf : Follows ρ T W h h') (hs : h.Shows v d) (hv : v.Within T)
    (hfree : ∀ o i, W o i → d.Textless ∧ ∃ s, h.textAt? (h.value (o + 1)) = some s) :
    h'.Shows (v.rename ρ) d := by
  induction hs with
  | @plain v hplain =>
    rw [Value.rename_of_not_ref hplain]
    exact .plain hplain
  | text ht => exact .text (hf.textAt? hv ht)
  | @pair v a b x y hcar hcdr hx hy ihx ihy =>
    have hno : ∀ o i, v.ref? = some o → ¬ W o i := by
      intro o i hr hw
      obtain ⟨htl, s, htext⟩ := hfree o i hw
      obtain ⟨o', hr', -, hval⟩ := Arena.fieldAt?_eq_some.mp hcar
      cases hr.symm.trans hr'
      rw [hval] at htext
      exact hx.not_text htl.1 s htext
    obtain ⟨ha, hcar'⟩ := hf.fieldAt? hv (.inl rfl) (fun o hr => hno o 1 hr) hcar
    obtain ⟨hb, hcdr'⟩ := hf.fieldAt? hv (.inr rfl) (fun o hr => hno o 2 hr) hcdr
    exact .pair hcar' hcdr' (ihx ha fun o i hw => ⟨(hfree o i hw).1.1, (hfree o i hw).2⟩)
      (ihy hb fun o i hw => ⟨(hfree o i hw).1.2, (hfree o i hw).2⟩)

/-- Where nothing was written. -/
theorem shows_none (hf : Follows ρ T (fun _ _ => False) h h') (hs : h.Shows v d) (hv : v.Within T) :
    h'.Shows (v.rename ρ) d :=
  hf.shows hs hv fun _ _ => False.elim

end Follows

end Reclaim
