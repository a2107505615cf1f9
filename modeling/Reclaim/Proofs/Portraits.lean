import Reclaim.Proofs.Scripts
import Reclaim.Proofs.Presented

/-!
# Heaps and memories

A heap portrays a memory if its objects show the nodes of the memory, the same values are on the
stack, and names are bound alike (`Portrays`). `R n o` says that node `n` is the object at `o`. Not
every node need have an object: what nothing refers to may be gone. The lists of the global table
are no part of the picture, and no node is among their objects.

Results:
* `Portrays.carried`, `Portrays.left`: where objects move, and where they are left in place.
* `Portrays.add`: a new object is a new node.
* `Portrays.setField`, `Portrays.redefined`, `Portrays.bound`: what is written.
-/

namespace Reclaim

theorem Roots.capacity_set {r : Roots} {slot : RootSlot} {w : Value} :
    (r.set slot w).capacity = r.capacity := by cases slot <;> rfl

theorem Roots.stack_set_global {r : Roots} {i : Nat} {w : Value} :
    (r.set (.global i) w).stack = r.stack := rfl

/-- The part stands for the value. -/
inductive Part.Is (R : Nat → Nat → Prop) : Part → Value → Prop where
  | plain {v : Value} : v.ref? = none → Is R (.plain v) v
  | node {n o : Nat} : (Value.ofRef o).ref? = some o → R n o → Is R (.node n) (.ofRef o)

/-- The object at `o` is this node. -/
def Node.Shown (h : Arena) (R : Nat → Nat → Prop) (o : Nat) : Node → Prop
  | pair a b => h.tag o = some .pair ∧ a.Is R (h.value (o + 1)) ∧ b.Is R (h.value (o + 2))
  | leaf ws => h.tag o ≠ some .pair ∧ h.Holds o ws

/-- The nodes that have an object are shown by it, and have one only. -/
structure Arena.Draws (h : Arena) (R : Nat → Nat → Prop) (nodes : List Node) : Prop where
  functional : ∀ {n o o'}, R n o → R n o' → o = o'
  injective : ∀ {n n' o}, R n o → R n' o → n = n'
  shown : ∀ {n o}, R n o → ∃ x, nodes[n]? = some x ∧ x.Shown h R o

/-- The object belongs to the list of a bucket. -/
def Mutator.Private (u : Mutator) (o : Nat) : Prop :=
  ∃ (b : Nat) (head : Value), u.machine.roots.globals[b]? = some head ∧
    (u.machine.heap.Link head o ∨ u.machine.heap.Entry head o)

/-- Names are bound to values that these parts stand for. -/
def Mutator.Names (u : Mutator) (R : Nat → Nat → Prop) (globals : String → Option Part) : Prop :=
  ∃ Γ, u.Maps Γ ∧ ∀ name, Option.Rel (Part.Is R) (globals name) (Γ name)

/-- The heap is in good order, with nothing parked, and portrays the memory. -/
structure Portrays (I : Machine Collector → (Nat → Prop) → Prop) (u : Mutator) (S : Nat → Prop)
    (R : Nat → Nat → Prop) (m : Memory) :
    Prop where
  inv : I u.machine S
  clean : u.poisoned = false
  parked : u.machine.roots.parked = 0
  capacity : u.machine.roots.capacity = m.capacity
  among : ∀ {n o}, R n o → S o
  apart : ∀ {n o}, R n o → ¬ u.Private o
  draws : u.machine.heap.Draws R m.nodes
  stack : List.Forall₂ (Part.Is R) m.stack u.machine.roots.stack.toList
  globals : u.Names R m.globals

/-- What becomes of `R` when the objects of `T` get the addresses `ρ`. -/
def Along (R : Nat → Nat → Prop) (ρ : Nat → Nat) (T : Nat → Prop) (n o' : Nat) : Prop := ∃ o,
    R n o ∧ T o ∧ o' = ρ o

/-- `R` with one more node. -/
def With (R : Nat → Nat → Prop) (k p : Nat) (n o : Nat) : Prop := R n o ∨ (n = k ∧ o = p)

variable {R R' : Nat → Nat → Prop} {ρ : Nat → Nat} {T : Nat → Prop} {W : Nat → Nat → Prop}
  {h h' : Arena} {nodes : List Node}
  {x : Node} {a b c : Part} {v w : Value} {n o p k : Nat}

/-! ## Parts -/

namespace Part.Is

theorem mono (ha : a.Is R v) (hR : ∀ n o, R n o → R' n o) : a.Is R' v := by
  cases ha with
  | plain hv => exact .plain hv
  | node hr hn => exact .node hr (hR _ _ hn)

theorem within {S : Nat → Prop} (ha : a.Is R v) (hS : ∀ n o, R n o → S o) : v.Within S := by
  cases ha with
  | plain hv => exact .of_not_ref (Value.isRef_eq_false hv)
  | node hr hR =>
    intro c hc
    cases hr.symm.trans hc
    exact ⟨rfl, hS _ _ hR⟩

/-- Values follow their objects. -/
theorem along (ha : a.Is R v) (hv : v.Within T) (hn : Value.Named fun o' => ∃ o, T o ∧ o' = ρ o) :
    a.Is (Along R ρ T) (v.rename ρ) := by
  cases ha with
  | plain hplain =>
    rw [Value.rename_of_not_ref (Value.isRef_eq_false hplain)]
    exact .plain hplain
  | node hr hR =>
    have href := Value.ref?_rename hv hn
    rw [hr, Value.rename_of_ref hr] at href
    rw [Value.rename_of_ref hr]
    exact .node href ⟨_, hR, (hv _ hr).2, rfl⟩

/-- Where nothing moves, values stay the same. -/
theorem left (ha : a.Is R v) (hv : v.Within T) (hn : Value.Named T) : a.Is (Along R id T) v := by
  have hself : v.rename id = v := hv.rename_self fun _ _ => rfl
  have hmoved := ha.along (ρ := id) hv (hn.image fun _ h => h)
  rwa [hself] at hmoved

end Part.Is

/-! ## Objects -/

namespace Node.Shown

theorem mono (hx : x.Shown h R o) (hR : ∀ n o, R n o → R' n o) : x.Shown h R' o := by
  cases x with
  | pair a b => exact ⟨hx.1, hx.2.1.mono hR, hx.2.2.mono hR⟩
  | leaf ws => exact hx

/-- An object without references is the same wherever it is. -/
theorem leaf_along {ws : List Word} (hx : (Node.leaf ws).Shown h R o)
    (hf : Follows ρ T W h h') (ho : T o) :
    (Node.leaf ws).Shown h' R' (ρ o) := by
  refine ⟨by rw [hf.tag ho]; exact hx.1, fun i hi => ?_⟩
  rw [hf.payload ho] at hi
  rw [hf.word o i ho hi fun hp => hx.1 hp.1]
  exact hx.2 i hi

/-- A field that is not written follows its object. -/
theorem field_along {i : Nat} (hf : Follows ρ T W h h') (ho : T o) (ht : h.tag o = some .pair)
    (hi : i = 1 ∨ i = 2) (hW : ¬ W o i) (ha : a.Is R (h.value (o + i))) :
    a.Is (Along R ρ T) (h'.value (ρ o + i)) := by
  rw [hf.field o i ho ht hi hW]
  exact ha.along (hf.linked o i ho ht hi hW) hf.named

theorem along (hx : x.Shown h R o) (hf : Follows ρ T W h h') (ho : T o) (hW : ¬ W o 1 ∧ ¬ W o 2) :
    x.Shown h' (Along R ρ T) (ρ o) := by
  cases x with
  | pair a b =>
    obtain ⟨ht, ha, hb⟩ := hx
    exact ⟨(hf.tag ho).trans ht, field_along hf ho ht (.inl rfl) hW.1 ha, field_along hf ho ht
      (.inr rfl) hW.2 hb⟩
  | leaf ws => exact hx.leaf_along hf ho

/-- An object with the words of another one shows the same. -/
theorem copied (hx : x.Shown h R o) (hknown : h.tag o ≠ none)
    (hcopy : ∀ i, i < h.payload o → h.word (p + i) = h.word (o + i)) : x.Shown h R p := by
  have hhead : h.word p = h.word o := hcopy 0 (Arena.payload_pos hknown)
  have ht : h.tag p = h.tag o := Arena.tag_congr hhead
  cases x with
  | pair a b =>
    have hpay := Arena.payload_of_pair hx.1
    have hfield : ∀ i, i = 1 ∨ i = 2 → h.value (p + i) = h.value (o + i) :=
      fun i hi => Arena.value_congr (hcopy i (by omega))
    refine ⟨ht.trans hx.1, ?_, ?_⟩
    · rw [hfield 1 (.inl rfl)]
      exact hx.2.1
    · rw [hfield 2 (.inr rfl)]
      exact hx.2.2
  | leaf ws =>
    refine ⟨ht ▸ hx.1, fun i hi => ?_⟩
    rw [Arena.payload_congr hhead] at hi
    rw [hcopy i hi]
    exact hx.2 i hi

end Node.Shown

namespace Arena.Draws

/-- A picture of objects that have followed `ρ`. -/
theorem follow {nodes' : List Node} (hd : h.Draws R nodes) (hf : Follows ρ T W h h')
    (hshown : ∀ {n o}, R n o → T o → ∃ x, nodes'[n]? = some x ∧ x.Shown h' (Along R ρ T) (ρ o)) :
    h'.Draws (Along R ρ T) nodes' where
  functional := by
    rintro n _ _ ⟨o, hR, -, rfl⟩ ⟨p, hR', -, rfl⟩
    rw [hd.functional hR hR']
  injective := by
    rintro n n' _ ⟨o, hR, ho, rfl⟩ ⟨p, hR', hp, he⟩
    rw [hf.injective o p ho hp he] at hR
    exact hd.injective hR hR'
  shown := by
    rintro n _ ⟨o, hR, ho, rfl⟩
    exact hshown hR ho

/-- The same picture, if no field of a node is written. -/
theorem along (hd : h.Draws R nodes) (hf : Follows ρ T W h h')
    (hW : ∀ {n o}, R n o → ¬ W o 1 ∧ ¬ W o 2) : h'.Draws (Along R ρ T) nodes := by
  refine hd.follow hf fun hR ho => ?_
  obtain ⟨x, hx, hs⟩ := hd.shown hR
  exact ⟨x, hx, hs.along hf ho (hW hR)⟩

/-- A field of a pair is written. -/
theorem setField {half : Half} (hd : h.Draws R nodes)
    (hf : Follows id T (fun x i => x = o ∧ i = half.field) h h') (hR : R n o)
    (hn : nodes[n]? = some (.pair b c))
    (ha : T o → a.Is (Along R id T) (h'.value (o + half.field))) :
    h'.Draws (Along R id T) (nodes.set n (half.pick (.pair a c) (.pair b a))) := by
  refine hd.follow hf fun {n' o'} hR' ho' => ?_
  by_cases hsame : n' = n
  · subst hsame
    cases hd.functional hR hR'
    obtain ⟨x, hx, hs⟩ := hd.shown hR
    cases hn.symm.trans hx
    obtain ⟨ht, hb, hc⟩ := hs
    refine ⟨_, by rw [List.getElem?_set_self (List.getElem?_eq_some_iff.mp hn).1], ?_⟩
    cases half with
    | car =>
      exact ⟨(hf.tag ho').trans ht, ha ho', Node.Shown.field_along hf ho' ht (.inr rfl)
        (fun h => nomatch h.2) hc⟩
    | cdr =>
      exact ⟨(hf.tag ho').trans ht, Node.Shown.field_along hf ho' ht (.inl rfl)
        (fun h => nomatch h.2) hb, ha ho'⟩
  · obtain ⟨x, hx, hs⟩ := hd.shown hR'
    have hother : o' ≠ o := fun h => hsame (hd.injective (h ▸ hR') hR)
    exact ⟨x, by rw [List.getElem?_set_ne (Ne.symm hsame)]; exact hx,
      hs.along hf ho' ⟨fun h => hother h.1, fun h => hother h.1⟩⟩

/-- The node of an object exists. -/
theorem lt_length (hd : h.Draws R nodes) (hR : R n o) : n < nodes.length := by
  obtain ⟨x, hx, -⟩ := hd.shown hR
  exact (List.getElem?_eq_some_iff.mp hx).1

/-- A new object is a new node. -/
theorem add (hd : h.Draws R nodes) (hp : ∀ {n o}, R n o → o ≠ p)
    (hx : x.Shown h (With R nodes.length p) p) :
    h.Draws (With R nodes.length p) (nodes ++ [x]) where
  functional := by
    rintro n o o' (hR | ⟨rfl, rfl⟩) (hR' | ⟨he, rfl⟩)
    · exact hd.functional hR hR'
    · exact absurd (hd.lt_length hR) (by omega)
    · exact absurd (hd.lt_length hR') (by omega)
    · rfl
  injective := by
    rintro n n' o (hR | ⟨rfl, rfl⟩) (hR' | ⟨rfl, he⟩)
    · exact hd.injective hR hR'
    · exact absurd he (hp hR)
    · exact absurd rfl (hp hR')
    · rfl
  shown := by
    rintro n o (hR | ⟨rfl, rfl⟩)
    · obtain ⟨y, hy, hs⟩ := hd.shown hR
      exact ⟨y, by rw [List.getElem?_append_left (hd.lt_length hR)]; exact hy,
        hs.mono fun _ _ => .inl⟩
    · exact ⟨x, by simp, hx⟩

/-- What is known of a part that is the pair of two others, or of one that is no pair. -/
theorem pair? {m : Memory} (hd : h.Draws R m.nodes) (ha : a.Is R v) :
    (m.pair? a = none ∧ h.pairAt? v = none) ∨
    ∃ n o b c, R n o ∧ a = .node n ∧ v = .ofRef o ∧ m.nodes[n]? = some (.pair b c) ∧
    m.pair? a = some (n, b, c) ∧ h.pairAt? v = some o ∧
      b.Is R (h.value (o + 1)) ∧ c.Is R (h.value (o + 2)) := by
  cases ha with
  | plain hv => exact .inl ⟨rfl, by rw [Arena.pairAt?, hv]; rfl⟩
  | @node n o hr hR =>
    obtain ⟨x, hx, hs⟩ := hd.shown hR
    cases x with
    | pair b c =>
      have hpair : m.pair? (.node n) = some (n, b, c) := by simp only [Memory.pair?, hx]
      exact .inr ⟨n, o, b, c, hR, rfl, rfl, hx, hpair, Arena.pairAt?_eq_some.mpr ⟨hr, hs.1⟩, hs.2⟩
    | leaf ws =>
      refine .inl ⟨by simp only [Memory.pair?, hx],
        Option.eq_none_iff_forall_ne_some.mpr fun p hp => ?_⟩
      obtain ⟨hr', ht⟩ := Arena.pairAt?_eq_some.mp hp
      cases hr.symm.trans hr'
      exact hs.1 ht

end Arena.Draws

/-! ## The lists of the global table -/

section Private

variable {u u' : Mutator} {E : String → Option Nat} {Γ : String → Option Value}
  {es : List (String × Nat)}
  {name : String}

/-- The links of a list that has moved are those that it had before. -/
theorem Follows.link (hf : Follows ρ T W h h') (hc : Chain h v es) (hv : v.Within T)
    (hW : ∀ l, h.Link v l → ¬ W l 2) {l' : Nat} (hl : h'.Link (v.rename ρ) l') : ∃ l, h.Link v l ∧
    T l ∧ l' = ρ l := by
  induction hc with
  | nil hplain =>
    rw [Value.rename_of_not_ref hplain] at hl
    have hnone := Value.ref?_eq_none hplain
    cases hl with
    | here hr => cases hnone.symm.trans hr
    | next hr => cases hnone.symm.trans hr
  | @cons v link entry name es hr ht _ _ _ _ ih =>
    have hmem := (hv link hr).2
    have hr' := hf.ref? hv hr
    cases hl with
    | here h =>
      cases hr'.symm.trans h
      exact ⟨link, .here hr, hmem, rfl⟩
    | next h hnext =>
      cases hr'.symm.trans h
      have hWl := hW link (.here hr)
      rw [hf.field link 2 hmem ht (.inr rfl) hWl] at hnext
      obtain ⟨l, hl, hT, rfl⟩ := ih (hf.linked link 2 hmem ht (.inr rfl) hWl)
        (fun l hl => hW l (.next hr hl)) hnext
      exact ⟨l, .next hr hl, hT, rfl⟩

/-- And so are its entries. -/
theorem Follows.entry (hf : Follows ρ T W h h') (hc : Chain h v es) (hv : v.Within T)
    (hW : ∀ l, h.Link v l → ¬ W l 1 ∧ ¬ W l 2) {e' : Nat} (he : h'.Entry (v.rename ρ) e') : ∃ e,
    h.Entry v e ∧ T e ∧ e' = ρ e := by
  obtain ⟨l', hl', he'⟩ := he
  obtain ⟨l, hl, hT, rfl⟩ := hf.link hc hv (fun l hl => (hW l hl).2) hl'
  have hWl := (hW l hl).1
  obtain ⟨ht, e, he, -⟩ := hc.link hl
  have hcar := hf.linked l 1 hT ht (.inl rfl) hWl
  rw [hf.field l 1 hT ht (.inl rfl) hWl, hf.ref? hcar he] at he'
  cases he'
  exact ⟨e, ⟨l, hl, he⟩, (hcar e he).2, rfl⟩

/-- What belongs to the lists of the table afterwards belonged to them before. -/
theorem Keeping.private (hk : Keeping ρ T W u u') (hE : u.Entries E) (hW : u.Spared W) {o' : Nat}
    (ho : u'.Private o') :
    ∃ o, u.Private o ∧ T o ∧ o' = ρ o := by
  obtain ⟨b, head', hh', hmem⟩ := ho
  have hb : b < u.machine.roots.globals.size := by
    rw [← hk.table]
    exact (Array.getElem?_eq_some_iff.mp hh').1
  have hh := Array.getElem?_eq_getElem hb
  obtain ⟨es, hc, -⟩ := hE.bucket b _ hh
  obtain ⟨hin, hh''⟩ := hk.globals b _ hh
  cases hh'.symm.trans hh''
  rcases hmem with hl | he
  · obtain ⟨l, hold, hT, rfl⟩ := hk.follows.link hc hin (fun l hl => ((hW b _ hh).1 l hl).2) hl
    exact ⟨l, ⟨b, _, hh, .inl hold⟩, hT, rfl⟩
  · obtain ⟨e, hold, hT, rfl⟩ := hk.follows.entry hc hin (hW b _ hh).1 he
    exact ⟨e, ⟨b, _, hh, .inr hold⟩, hT, rfl⟩

theorem Arena.Link.of_rest {head : Value} {l : Nat} (hl : h.Link (MutatorM.rest head) l) :
    h.Link head l := by
  rw [MutatorM.rest] at hl
  split at hl
  · cases hl with
    | here hr => cases hr
    | next hr => cases hr
  · exact hl

theorem Chain.rest {head : Value} (hc : Chain h head es) : Chain h (MutatorM.rest head) es := by
  rw [MutatorM.rest]
  split
  · rename_i hundef
    rw [hc.of_plain (by rw [eq_of_beq hundef]; rfl)]
    exact .nil rfl
  · exact hc

/-- When a name was bound for the first time, the new link and the new entry belong to the lists as
well. -/
theorem MutatorM.LinkMade.private {I : Machine Collector → (Nat → Prop) → Prop}
    {N : Machine Collector → Nat → Nat → Prop} {S S₁ S' : Nat → Prop} {u₁ : Mutator} {head : Value}
    {key entry link : Nat} (hl : Laws Collector.operations I N)
    (hh : u.machine.roots.globals[u.bucket name]? = some head)
    (hlink : MutatorM.LinkMade I u u₁ S S₁ name v head ρ k key entry link)
    (hleft : Left Collector.operations I u₁.machine u'.machine S₁ S')
    (hsame : Same S' u₁.machine.heap u'.machine.heap)
    (hroots : u'.machine.roots = u₁.machine.roots.set (.global (u.bucket name)) (.ofRef link))
    (hE : u₁.Entries E) (ho : u'.Private o) : o = link ∨ o = entry ∨ u₁.Private o := by
  have hc := hlink.carried
  obtain ⟨hf, hlinkS, hentryS, hheads⟩ := hlink.left hl hh hleft hsame hroots
  obtain ⟨head₁, hh₁, rfl⟩ := hc.roots.slot (.global _) head hh
  obtain ⟨b, head', hh', hmem⟩ := ho
  -- a list of the heap before
  have hold : ∀ {w : Value} {es}, w.Within S' → Chain u₁.machine.heap w es →
    (∀ l, u'.machine.heap.Link w l → u₁.machine.heap.Link w l) ∧
      ∀ e, u'.machine.heap.Entry w e → u₁.machine.heap.Entry w e := by
    intro w es hw hchain
    have hself : w.rename id = w := hw.rename_self fun _ _ => rfl
    refine ⟨fun l hl => ?_, fun e he => ?_⟩
    · obtain ⟨l', hl', -, rfl⟩ := hf.link hchain hw (fun _ _ => id) (hself.symm ▸ hl)
      exact hl'
    · obtain ⟨e', he', -, rfl⟩ := hf.entry hchain hw (fun _ _ => ⟨id, id⟩) (hself.symm ▸ he)
      exact he'
  by_cases hb : b = u.bucket name
  · subst hb
    have hnew : u'.machine.roots.get? (.global (u.bucket name)) = some (.ofRef link) := by
      rw [hroots]
      exact Roots.get?_set_self hh₁
    cases hh'.symm.trans hnew
    have hreach := hf.linked link 2 hlinkS hlink.link_tag (.inr rfl) id
    have hcdr := hf.field link 2 hlinkS hlink.link_tag (.inr rfl) id
    rw [hreach.rename_self (ρ := id) fun _ _ => rfl, hlink.link_cdr, ← MutatorM.rest_rename
      (hc.live (.global _) head hh)
      ((hl.named hc.inv).image hc.kept)] at hcdr
    rw [hlink.link_cdr, ← MutatorM.rest_rename (hc.live (.global _) head hh)
      ((hl.named hc.inv).image hc.kept)] at hreach
    obtain ⟨es, hchain, -⟩ := hE.bucket _ _ hh₁
    obtain ⟨hlinks, hentries⟩ := hold hreach hchain.rest
    have href := hl.ref?_ofRef hc.inv hlink.link_mem
    have hfirst : ∀ l, u'.machine.heap.Link (.ofRef link) l → l = link ∨
        u'.machine.heap.Link (MutatorM.rest (head.rename ρ)) l := by
      intro l hl
      cases hl with
      | here hr => exact .inl (Option.some.inj (hr.symm.trans href))
      | next hr hl =>
        cases hr.symm.trans href
        exact .inr (hcdr ▸ hl)
    rcases hmem with hmem | ⟨l, hmem, he⟩
    · exact (hfirst _ hmem).imp_right fun h => .inr ⟨_, _, hh₁, .inl (hlinks _ h).of_rest⟩
    · rcases hfirst l hmem with rfl | hmem
      · have hin := hf.linked l 1 hlinkS hlink.link_tag (.inl rfl) id
        have hcar := hf.field l 1 hlinkS hlink.link_tag (.inl rfl) id
        rw [hin.rename_self (ρ := id) fun _ _ => rfl, hlink.link_car] at hcar
        have href' := hl.ref?_ofRef hc.inv hlink.entry_mem
        exact .inr (.inl (Option.some.inj (he.symm.trans (hcar ▸ href'))))
      · obtain ⟨l', hl', he'⟩ := hentries _ ⟨l, hmem, he⟩
        exact .inr (.inr ⟨_, _, hh₁, .inr ⟨l', hl'.of_rest, he'⟩⟩)
  · have hsame : u₁.machine.roots.globals[b]? = some head' := by
      have hget : u'.machine.roots.get? (.global b) = some head' := hh'
      rw [hroots, Roots.get?_set_of_ne (by simpa using hb)] at hget
      exact hget
    obtain ⟨es, hchain, -⟩ := hE.bucket b head' hsame
    obtain ⟨hlinks, hentries⟩ := hold (hheads b head' hsame) hchain
    exact .inr (.inr ⟨b, head', hsame, hmem.imp (hlinks o) (hentries o)⟩)

/-- An entry belongs to the list of its bucket. -/
theorem Mutator.Entries.private (hE : u.Entries E) {e : Nat} (he : E name = some e) :
    u.Private e := by
  obtain ⟨head, es, hh, hc, hmem⟩ := hE.of_entry he
  exact ⟨_, head, hh, .inr (hc.entry _ hmem)⟩

/-- Fields of objects that belong to no list are no part of the table. -/
theorem Mutator.spared_of_not_private {i : Nat} (ho : ¬ u.Private o) :
    u.Spared fun x j => x = o ∧ j = i := by
  refine fun b head hh => ⟨fun l hl => ?_, fun e he => ?_⟩
  · exact ⟨fun h => ho ⟨b, head, hh, .inl (h.1 ▸ hl)⟩, fun h => ho ⟨b, head, hh, .inl (h.1 ▸ hl)⟩⟩
  · exact fun h => ho ⟨b, head, hh, .inr (h.1 ▸ he)⟩

/-- Whatever a name is bound to is among the objects that the roots reach. -/
theorem Mutator.Maps.all_within {S : Nat → Prop} (hΓ : u.Maps Γ) (hcl : Closed u.machine.heap S)
    (hr : u.machine.roots.Within S) (name : String) (v : Value) (hv : Γ name = some v) :
    v.Within S := hΓ.within hcl hr hv

/-- What names are bound to is kept. -/
theorem Mutator.Maps.within_kept (hΓ : u.Maps Γ) (hk : Keeping ρ T W u u') (hW : u.Spared W)
    (hvalues : ∀ e, u.Private e → ¬ W e 2) (name : String) (v : Value) (hv : Γ name = some v) :
    v.Within T := by
  obtain ⟨E, hE, hval⟩ := hΓ
  obtain ⟨e, he, rfl⟩ := Option.map_eq_some_iff.mp ((hval name).symm.trans hv)
  exact hk.follows.linked e 2 ((hE.keeping hk hW).2 name e he) (hE.entry_pair he) (.inr rfl)
    (hvalues e (hE.private he))

/-- Names are bound to what the values have become. -/
theorem Mutator.Names.along {globals : String → Option Part} (hn : u.Names R globals)
    (hk : Keeping ρ T W u u') (hW : u.Spared W) (hvalues : ∀ e, u.Private e → ¬ W e 2) :
    u'.Names (Along R ρ T) globals := by
  obtain ⟨Γ, hΓ, hrel⟩ := hn
  refine ⟨_, hΓ.keeping hk hW fun b head hh e he =>
    hvalues e ⟨b, head, hh, .inr he⟩, fun name => ?_⟩
  have hname := hrel name
  have hin := hΓ.within_kept hk hW hvalues name
  generalize globals name = a at hname ⊢
  generalize Γ name = v at hname hin ⊢
  cases hname with
  | none => exact .none
  | some ha => exact .some (ha.along (hin _ rfl) hk.follows.named)

end Private

/-! ## Operations -/

namespace Portrays

variable {I : Machine Collector → (Nat → Prop) → Prop} {N : Machine Collector → Nat → Nat → Prop}
  {L S S' : Nat → Prop}
  {u u' : Mutator} {m : Memory} {E : String → Option Nat} {Γ : String → Option Value}
  {name : String}

theorem within (hp : Portrays I u S R m) (ha : a.Is R v) : v.Within S :=
  ha.within fun _ _ => hp.among

/-- A change of the heap that leaves the lists of the global table alone, whatever it does to the
nodes and to the stack. -/
theorem follow (hp : Portrays I u S R m) (hk : Keeping ρ T W u u') (hi' : I u'.machine S')
    (hu' : u'.poisoned = false) (hparked : u'.machine.roots.parked = u.machine.roots.parked)
    (hcap : u'.machine.roots.capacity = u.machine.roots.capacity) (hkept : ∀ o, T o → S' (ρ o))
    (hW : u.Spared W) {globals : String → Option Part} (hglobals : u'.Names (Along R ρ T) globals)
    {nodes : List Node} (hdraws : u'.machine.heap.Draws (Along R ρ T) nodes) {stack : List Part}
    (hstack : List.Forall₂ (Part.Is (Along R ρ T)) stack u'.machine.roots.stack.toList) :
    Portrays I u' S' (Along R ρ T) { m with nodes, stack, globals } where
  inv := hi'
  clean := hu'
  parked := hparked.trans hp.parked
  capacity := hcap.trans hp.capacity
  among := by
    rintro n _ ⟨o, -, ho, rfl⟩
    exact hkept o ho
  apart := by
    rintro n _ ⟨o, hR, ho, rfl⟩ hprivate
    obtain ⟨Γ, ⟨E, hE, -⟩, -⟩ := hp.globals
    obtain ⟨p, hold, hpT, he⟩ := hk.private hE hW hprivate
    rw [hk.follows.injective o p ho hpT he] at hR
    exact hp.apart hR hold
  draws := hdraws
  stack := hstack
  globals := hglobals

/-- What may collect leaves the same memory. -/
theorem carried (hl : Laws Collector.operations I N) (hp : Portrays I u S R m)
    (h : Carried I L u.machine u'.machine S S' ρ k) (hu' : u'.poisoned = false) :
    Portrays I u' S' (Along R ρ L) m := by
  have hk := h.keeping hl
  have hnone : ∀ {n o}, R n o → ¬ NoField o 1 ∧ ¬ NoField o 2 := fun _ => ⟨id, id⟩
  refine hp.follow hk h.inv hu' h.roots.parked h.roots.capacity h.kept u.spared_none
    (hp.globals.along hk u.spared_none fun _ _ => id)
    (hp.draws.along hk.follows hnone) ?_
  have htop := congrArg List.reverse h.roots.fromTop
  rw [Roots.fromTop, Roots.fromTop, List.map_reverse, List.reverse_reverse,
    List.reverse_reverse] at htop
  rw [htop, List.forall₂_map_right_iff]
  refine forall₂_mono_mem hp.stack fun a _ v hv ha => ha.along ?_ hk.follows.named
  obtain ⟨i, hi, rfl⟩ := List.mem_iff_getElem.mp hv
  exact h.live (.stack i) _ (by simp [Roots.get?])

/-- The stack of a heap whose objects are left in place. -/
theorem left_stack (hl : Laws Collector.operations I N) (hi' : I u'.machine S') {stack : List Part}
    (hstack : List.Forall₂ (Part.Is R) stack u'.machine.roots.stack.toList) :
    List.Forall₂ (Part.Is (Along R id S')) stack u'.machine.roots.stack.toList := by
  refine forall₂_mono_mem hstack fun a _ v hv ha => ha.left ?_ (hl.named hi')
  obtain ⟨i, hi, rfl⟩ := List.mem_iff_getElem.mp hv
  exact hl.roots hi' (.stack i) _ (by simp [Roots.get?])

/-- What leaves objects in place, and changes the stack alone. -/
theorem left (hl : Laws Collector.operations I N) (hp : Portrays I u S R m) (hi' : I u'.machine S')
    (hsub : ∀ o, S' o → S o) (hsame : Same S' u.machine.heap u'.machine.heap)
    (hu' : u'.poisoned = false) (hparked : u'.machine.roots.parked = u.machine.roots.parked)
    (hcap : u'.machine.roots.capacity = u.machine.roots.capacity)
    (htable : u'.machine.roots.table = u.machine.roots.table) {stack : List Part}
    (hstack : List.Forall₂ (Part.Is R) stack u'.machine.roots.stack.toList) :
    Portrays I u' S' (Along R id S') { m with stack } := by
  have hk : Keeping id S' NoField u u' :=
    keeping_of_words hl hp.inv hi' hsub (fun o i ho hlt _ => hsame o i ho hlt)
      (fun _ _ h => h.elim) htable
  exact hp.follow hk hi' hu' hparked hcap (fun _ h => h) u.spared_none
    (hp.globals.along hk u.spared_none fun _ _ => id)
    (hp.draws.along hk.follows fun _ => ⟨id, id⟩) (left_stack hl hi' hstack)

/-- A field of a pair of the memory is written. -/
theorem setField {half : Half} (hl : Laws Collector.operations I N) (hp : Portrays I u S R m)
    (hR : R n o) (hn : m.nodes[n]? = some (.pair b c)) (ha : a.Is R v)
    (hleft : Left Collector.operations I u.machine u'.machine S S')
    (hst : Stored S' (o + half.field) v.bits u.machine.heap u'.machine.heap)
    (hroots : u'.machine.roots = u.machine.roots) (hu' : u'.poisoned = false) :
    Portrays I u' S' (Along R id S') { m with
      nodes := m.nodes.set n (half.pick (.pair a c) (.pair b a)) } := by
  have ht : u.machine.heap.tag o = some .pair := by
    obtain ⟨x, hx, hs⟩ := hp.draws.shown hR
    cases hn.symm.trans hx
    exact hs.1
  have hk : Keeping id S' (fun x i => x = o ∧ i = half.field) u u' := by
    refine keeping_of_words hl hp.inv hleft.inv hleft.subset
      (stored_words hl hp.inv hleft.subset (hp.among hR) ht half.field_eq hst) ?_
      (by rw [hroots])
    rintro x i ⟨rfl, rfl⟩
    exact ⟨ht, half.field_eq⟩
  have hspared := Mutator.spared_of_not_private (i := half.field) (hp.apart hR)
  have hvalues : ∀ e, u.Private e → ¬ (e = o ∧ 2 = half.field) := by
    rintro e he ⟨rfl, -⟩
    exact hp.apart hR he
  refine hp.follow hk hleft.inv hu' (by rw [hroots]) (by rw [hroots]) (fun _ h => h) hspared
    (hp.globals.along hk hspared hvalues)
    (hp.draws.setField hk.follows hR hn fun ho => ?_) (left_stack hl hleft.inv (hroots ▸ hp.stack))
  -- the field holds the new value
  have hword := hst o half.field ho (by rw [Arena.payload_of_pair ht]; have := half.field_eq; omega)
  rw [if_pos rfl] at hword
  have hvalue : u'.machine.heap.value (o + half.field) = v := by rw [Arena.value, hword]
  have hin := (hl.apart hleft.inv).closed.field o (o + half.field) ho ((hk.follows.tag ho).trans ht)
    (by have := half.field_eq; omega)
  rw [hvalue] at hin ⊢
  exact ha.left hin (hl.named hleft.inv)

/-- A name that is bound already gets another value. -/
theorem redefined (hl : Laws Collector.operations I N) (hp : Portrays I u S R m) (hE : u.Entries E)
    (hval : ∀ n, Γ n = (E n).map fun e => u.machine.heap.value (e + 2))
    (hrel : ∀ name, Option.Rel (Part.Is R) (m.globals name) (Γ name)) {e : Nat}
    (he : E name = some e) (ha : a.Is R v)
    (hleft : Left Collector.operations I u.machine u'.machine S S')
    (hst : Stored S' (e + 2) v.bits u.machine.heap u'.machine.heap)
    (hroots : u'.machine.roots = u.machine.roots) (hu' : u'.poisoned = false) :
    Portrays I u' S' (Along R id S') (m.assign name a) := by
  obtain ⟨hk, hmaps⟩ := redefine_keeping hl hp.inv hE hval he hleft hst hroots
  have hcl := (hl.apart hleft.inv).closed
  have hn := hl.named hleft.inv
  have hnodes : ∀ {n o}, R n o → ¬ (o = e ∧ 1 = 2) ∧ ¬ (o = e ∧ 2 = 2) := by
    refine fun hR => ⟨fun h => (nomatch h.2), ?_⟩
    rintro ⟨rfl, -⟩
    exact hp.apart hR (hE.private he)
  have hnames : u'.Names (Along R id S') (m.assign name a).globals := by
    refine ⟨_, hmaps, fun name' => ?_⟩
    have hbound := hmaps.all_within hcl (hl.roots hleft.inv) name'
    by_cases hname : name' = name
    · rw [if_pos hname] at hbound ⊢
      rw [Memory.assign_self hname]
      exact .some (ha.left (hbound _ rfl) hn)
    · rw [if_neg hname] at hbound ⊢
      rw [Memory.assign_other hname]
      have hold := hrel name'
      generalize m.globals name' = d at hold ⊢
      generalize Γ name' = w at hold hbound ⊢
      cases hold with
      | none => exact .none
      | @some d w hd =>
        have hself : w.rename id = w := (hp.within hd).rename_self fun _ _ => rfl
        have hin := hbound _ rfl
        rw [hself] at hin
        rw [Option.map_some, hself]
        exact .some (hd.left hin hn)
  exact hp.follow hk hleft.inv hu' (by rw [hroots]) (by rw [hroots]) (fun _ h => h)
    (hE.spared he) hnames
    (hp.draws.along hk.follows hnodes) (left_stack hl hleft.inv (hroots ▸ hp.stack))

/-- A name is bound for the first time. -/
theorem bound {head : Value} (hl : Laws Collector.operations I N) (hp : Portrays I u S R m)
    (hE : u.Entries E) (hval : ∀ n, Γ n = (E n).map fun e => u.machine.heap.value (e + 2))
    (hrel : ∀ name, Option.Rel (Part.Is R) (m.globals name) (Γ name)) (hnone : E name = none)
    (ha : a.Is R v) (hh : u.machine.roots.globals[u.bucket name]? = some head)
    (hshort : (Text.encode name).length < 0x100000000000000)
    (h : MutatorM.Bound I u u' S (u.bucket name) name v head) :
    ∃ S' R', Portrays I u' S' R' (m.assign name a) := by
  obtain ⟨hu', -, u₁, ρ, S₁, S', k, key, entry, link, -, hlink, hleft, hsame, hroots⟩ := h
  have hc := hlink.carried
  have hp₁ := hp.carried hl hc hlink.clean
  have hmaps := hlink.maps hl hh hleft hsame hroots hE hval hnone hshort
  have hf := (hlink.left hl hh hleft hsame hroots).1
  have hcl := (hl.apart hleft.inv).closed
  have hn := hl.named hleft.inv
  have hE₁ := (hE.keeping (hc.keeping hl) u.spared_none).1
  refine ⟨S', Along (Along R ρ (u.machine.Live [v])) id S', hleft.inv, hu', ?_, ?_, ?_, ?_,
    hp₁.draws.along hf fun _ => ⟨id, id⟩,
    left_stack hl hleft.inv ?_, _, hmaps, fun name' => ?_⟩
  · rw [hroots, Roots.set_parked]
    exact hp₁.parked
  · rw [hroots, Roots.capacity_set]
    exact hp₁.capacity
  · rintro n _ ⟨o, -, ho, rfl⟩
    exact ho
  · rintro n _ ⟨_, ⟨o, hR, ho, rfl⟩, -, rfl⟩ hprivate
    rcases hlink.private hl hh hleft hsame hroots hE₁ hprivate with he | he | hold
    · exact hlink.link_fresh o ho he
    · exact hlink.entry_fresh o ho he
    · exact hp₁.apart ⟨o, hR, ho, rfl⟩ hold
  · rw [hroots, Roots.stack_set_global]
    exact hp₁.stack
  · have hbound := hmaps.all_within hcl (hl.roots hleft.inv) name'
    have hmoved : ∀ {d : Part} {w : Value}, d.Is R w → w.Within (u.machine.Live [v]) →
      (w.rename ρ).Within S' →
        d.Is (Along (Along R ρ (u.machine.Live [v])) id S') (w.rename ρ) := fun hd hw hw' =>
      (hd.along hw ((hl.named hc.inv).image hc.kept)).left hw' hn
    by_cases hname : name' = name
    · rw [if_pos hname] at hbound ⊢
      rw [Memory.assign_self hname]
      exact .some (hmoved ha (Machine.within_live (by simp) (hp.within ha)) (hbound _ rfl))
    · rw [if_neg hname] at hbound ⊢
      rw [Memory.assign_other hname]
      have hold := hrel name'
      have hin := Mutator.Maps.all_within ⟨E, hE, hval⟩ hc.closed hc.live name'
      generalize m.globals name' = d at hold ⊢
      generalize Γ name' = w at hold hbound hin ⊢
      cases hold with
      | none => exact .none
      | some hd => exact .some (hmoved hd (hin _ rfl) (hbound _ rfl))

/-- A new object, which nothing refers to yet. -/
theorem add (hp : Portrays I u S R m) {x : Node} (ho : S o) (hfresh : ∀ {n o'}, R n o' → o' ≠ o)
    (hapart : ¬ u.Private o) (hx : x.Shown u.machine.heap (With R m.nodes.length o) o) :
    Portrays I u S (With R m.nodes.length o) { m with nodes := m.nodes ++ [x] } where
  inv := hp.inv
  clean := hp.clean
  parked := hp.parked
  capacity := hp.capacity
  among := by
    rintro n p (hR | ⟨-, rfl⟩)
    · exact hp.among hR
    · exact ho
  apart := by
    rintro n p (hR | ⟨-, rfl⟩)
    · exact hp.apart hR
    · exact hapart
  draws := hp.draws.add hfresh hx
  stack := hp.stack.imp fun _ _ h => h.mono fun _ _ => .inl
  globals := by
    obtain ⟨Γ, hΓ, hrel⟩ := hp.globals
    refine ⟨Γ, hΓ, fun name => ?_⟩
    have hname := hrel name
    generalize m.globals name = a at hname ⊢
    generalize Γ name = v at hname ⊢
    cases hname with
    | none => exact .none
    | some ha => exact .some (ha.mono fun _ _ => .inl)

end Portrays

end Reclaim
