import Reclaim.Proofs.Plain
import Reclaim.Proofs.Generational.Compacted

/-!
# Generational operations

Stores with the write barrier, collections and whatever changes the roots alone keep the state
between collections. `Good` adds to the invariant of a collection what holds along whole runs:
references lead to objects alone, every tenured object counts as usable, the remembered set is
within its capacity, every nursery block still holds an object, even one that nothing refers to, and
the two halves of the nursery are of one size.

Results:
* `writeField_runs`: a store with the write barrier.
* `collect_runs`, `collectFull_runs`: collections on request.
-/

namespace Reclaim.Generational

variable {m m' : Machine Generational} {young old : List (Nat × Nat)} {S : Nat → Prop}

/-- The state between operations. -/
structure Good (m : Machine Generational) (young old : List (Nat × Nat))
    (S : Nat → Prop) : Prop where
  inv : Inv m young old S
  known : ∀ o, S o → m.heap.tag o ≠ none
  old_valid : ∀ b ∈ old, S b.1
  room : m.own.remembered.toList.length ≤ m.own.remembered.capacity
  young_fits : ∀ b ∈ young, m.heap.tag b.1 ≠ none ∧ 3 + m.heap.payload b.1 ≤ b.2
  halves : m.own.survivorSpace.length = m.own.nursery.region.length

/-- The invariant of whole runs: some blocks of the two spaces are in a good state. -/
def Intact (m : Machine Generational) (S : Nat → Prop) : Prop := ∃ young old, Good m young old S

/-- The object `o` lies in the nursery, in a block with room for `n` words. -/
def New (m : Machine Generational) (o n : Nat) : Prop :=
  m.own.nursery.region.contains o = true ∧ 3 + n ≤ (m.heap.word (o - 2)).toNat

namespace Good

theorem closed (hg : Good m young old S) : Closed m.heap S := ⟨hg.known, hg.inv.linked⟩

theorem objects_apart (hg : Good m young old S) : Apart 3 m.heap S :=
  hg.inv.filled.objects_apart (fun _ h => h) hg.closed

end Good

/-! ## Small changes -/

/-- What must hold of another machine with the same blocks. -/
theorem Inv.update (hi : Inv m young old S) (hn : m'.own.nursery = m.own.nursery)
    (hs : m'.own.survivorSpace = m.own.survivorSpace) (ht : m'.own.tenured = m.own.tenured)
    (hsize : m'.heap.size = m.heap.size)
    (hhead : ∀ b, b ∈ young ∨ b ∈ old → m'.heap.word (b.1 - 2) = m.heap.word (b.1 - 2) ∧
      m'.heap.word (b.1 - 3) = m.heap.word (b.1 - 3))
    (hyoung : ∀ b ∈ young, m'.heap.word (b.1 - 1) = m.heap.word (b.1 - 1))
    (hold : ∀ b ∈ old, m'.heap.word (b.1 - 1) &&& ~~~rememberedFlag = m.heap.word (b.1 - 1) &&&
      ~~~rememberedFlag)
    (hflag : ∀ b ∈ old, m'.heap.word (b.1 - 1) &&& rememberedFlag ≠ 0 ↔
      b.1 ∈ m'.own.remembered.toList)
    (hnd : m'.own.remembered.toList.Nodup)
    (hent : ∀ e ∈ m'.own.remembered.toList, S e ∧ ∃ n, (e, n) ∈ old)
    (hrem : ∀ b ∈ old, S b.1 → PointsInto m'.heap m.own.nursery.region b.1 →
      b.1 ∈ m'.own.remembered.toList)
    (hlinked : Linked m'.heap S)
    (hfit : ∀ o n, S o → (o, n) ∈ young ∨ (o, n) ∈ old → 3 + m'.heap.payload o ≤ n)
    (hroots : m'.roots.Within S) : Inv m' young old S := by
  have hsp := hi.spaces
  refine ⟨?_, ?_, ?_, ?_, ?_, ?_, ?_, ?_, ?_, hflag, hnd,
    fun e he => (hent e he).2, ?_, hlinked, ?_, hroots,
    fun e he => (hent e he).1⟩
  · rw [hsize]
    exact ⟨hsp.small, hn ▸ hsp.nursery, hn ▸ hsp.nursery_top, hs ▸ hsp.survivor, hn ▸
      hs ▸ hsp.halves,
      hn ▸ ht ▸ hsp.below, hs ▸ ht ▸ hsp.survivor_below, ht ▸ hsp.tenured_top, ht ▸ hsp.tenured⟩
  · rw [hn]
    exact hi.young_stacked
  · rw [ht]
    exact hi.old_stacked
  · intro b hb
    rw [(hhead b (.inl hb)).1]
    exact hi.young_sized b hb
  · intro b hb
    rw [(hhead b (.inr hb)).1]
    exact hi.old_sized b hb
  · intro b hb
    rw [(hhead b hb).2]
    exact hi.no_forward b hb
  · rintro b (hb | hb)
    · rw [hyoung b hb]
      exact hi.no_mark b (.inl hb)
    · rw [and_eq_of_and_not_eq (hold b hb) (by decide)]
      exact hi.no_mark b (.inr hb)
  · intro b hb
    rw [hyoung b hb]
    exact hi.young_flags b hb
  · intro b hb
    rw [and_eq_of_and_not_eq (hold b hb) (by decide)]
    exact hi.old_flags b hb
  · intro b hb hSb hpt
    rw [hn] at hpt
    exact hrem b hb hSb hpt
  · intro o ho
    obtain ⟨n, hb, -⟩ := hi.placed o ho
    exact ⟨n, hb, hfit o n ho hb⟩

/-- An object fits into its block. -/
theorem Inv.fits (hi : Inv m young old S) {o n : Nat} (ho : S o)
    (hb : (o, n) ∈ young ∨ (o, n) ∈ old) :
    3 + m.heap.payload o ≤ n := by
  obtain ⟨n', hb', hfit⟩ := hi.placed o ho
  have hin := hi.block_inside hb
  have hin' := hi.block_inside hb'
  rcases hi.block_apart hb hb' with h | h | h
  · cases h
    exact hfit
  · simp only at h hin
    omega
  · simp only at h hin'
    omega

/-- The words of one object may change, if it stays well-formed and remembered when it must be. -/
theorem Good.rewrite (hg : Good m young old S) {o n : Nat} {h' : Arena} (ho : S o)
    (hb : (o, n) ∈ young ∨ (o, n) ∈ old) (hsize : h'.size = m.heap.size)
    (hout : ∀ a, a < o ∨ o + n ≤ a + 3 → h'.word a = m.heap.word a) (hcl : Closed h' S)
    (hfit : 3 + h'.payload o ≤ n) (hrem : (o, n) ∈ old → PointsInto h' m.own.nursery.region o →
      o ∈ m.own.remembered.toList) :
    Good (m.withHeap h') young old S := by
  have hi := hg.inv
  have hin := hi.block_inside hb
  simp only at hin
  -- the words of other blocks, and all headers
  have hword : ∀ {c : Nat × Nat}, c ∈ young ∨ c ∈ old → ∀ a, c.1 ≤ a + 3 → a + 3 < c.1 + c.2 →
    c.1 ≠ o ∨ a < o →
      h'.word a = m.heap.word a := by
    intro c hc a h1 h2 h3
    have hcin := hi.block_inside hc
    refine hout a ?_
    rcases hi.block_apart hb hc with rfl | h | h
    · simp only at h1 h2 h3; omega
    · simp only at h; omega
    · simp only at h; omega
  have hheader : ∀ {c : Nat × Nat}, c ∈ young ∨ c ∈ old → ∀ k, 1 ≤ k → k ≤ 3 →
      h'.word (c.1 - k) = m.heap.word (c.1 - k) := by
    intro c hc k h1 h2
    have hcin := hi.block_inside hc
    exact hword hc _ (by omega) (by omega) (by omega)
  have hhead : ∀ {c : Nat × Nat}, c ∈ young ∨ c ∈ old → c.1 ≠ o →
      h'.word c.1 = m.heap.word c.1 := by
    intro c hc hne
    have hcin := hi.block_inside hc
    exact hword hc _ (by omega) (by omega) (.inl hne)
  have huniq : ∀ {c : Nat × Nat}, c ∈ young ∨ c ∈ old → c.1 = o → c = (o, n) := by
    intro c hc he
    have hcin := hi.block_inside hc
    rcases hi.block_apart hb hc with h | h | h
    · exact h.symm
    · simp only at h; omega
    · simp only at h; omega
  refine ⟨hi.update rfl rfl rfl hsize ?_ ?_ ?_ ?_ hi.entries_nodup ?_ ?_
    hcl.linked ?_ hi.roots, hcl.known, hg.old_valid, hg.room, ?_,
    hg.halves⟩
  · intro c hc
    exact ⟨hheader hc 2 (by omega) (by omega), hheader hc 3 (by omega) (by omega)⟩
  · intro c hc
    exact hheader (.inl hc) 1 (by omega) (by omega)
  · intro c hc
    rw [Machine.withHeap_heap, hheader (.inr hc) 1 (by omega) (by omega)]
  · intro c hc
    rw [Machine.withHeap_heap, hheader (.inr hc) 1 (by omega) (by omega)]
    exact hi.flagged c hc
  · intro e he
    exact ⟨hi.entries e he, hi.entries_old e he⟩
  · intro c hc hSc hpt
    by_cases hne : c.1 = o
    · obtain rfl := huniq (.inr hc) hne
      exact hrem hc hpt
    · refine hi.remembers c hc hSc ?_
      have hcfit := hi.fits hSc (.inr hc)
      have hsucc : h'.succ c.1 = m.heap.succ c.1 := by
        refine Arena.succ_congr (hhead (.inr hc) hne) fun ht => ?_
        rw [Arena.payload_of_pair ht] at hcfit
        exact ⟨hword (.inr hc) _ (by omega) (by omega) (.inl hne), hword (.inr hc) _ (by omega)
          (by omega) (.inl hne)⟩
      rwa [PointsInto, Machine.withHeap_heap, hsucc] at hpt
  · intro x k hx hxb
    by_cases hne : x = o
    · subst hne
      cases huniq hxb rfl
      exact hfit
    · rw [Machine.withHeap_heap, Arena.payload_congr (hhead hxb hne)]
      exact hi.fits hx hxb
  · intro c hc
    simp only [Machine.withHeap_heap]
    by_cases hne : c.1 = o
    · obtain rfl := huniq (.inl hc) hne
      exact ⟨hcl.known _ ho, hfit⟩
    · rw [Arena.tag_congr (hhead (.inl hc) hne), Arena.payload_congr (hhead (.inl hc) hne)]
      exact hg.young_fits c hc

/-! ## The write barrier -/

section Barrier

variable {o field : Nat} {v : Value} {kept : List Nat}

/-- No word of an object is the flag word of another one. -/
theorem Good.payload_ne (hg : Good m young old S) {x i e : Nat} (hx : S x)
    (hlt : i < m.heap.payload x) (he : S e) :
    x + i + 1 ≠ e := by
  rcases hg.objects_apart.apart x e hx he with h | h | h <;> omega

/-- No header word but the last one is the flag word of an object. -/
theorem Inv.header_ne (hi : Inv m young old S) {b c : Nat × Nat} (hb : b ∈ young ∨ b ∈ old)
    (hc : c ∈ young ∨ c ∈ old) {k : Nat} (hk : k = 2 ∨ k = 3) : b.1 - k + 1 ≠ c.1 := by
  have hbin := hi.block_inside hb
  have hcin := hi.block_inside hc
  rcases hi.block_apart hb hc with rfl | h | h <;> omega

/-- A field is no header word. -/
theorem Inv.field_ne (hi : Inv m young old S) (ho : S o) (ht : m.heap.tag o = some .pair)
    (hf : field = o + 1 ∨ field = o + 2) {b : Nat × Nat} (hb : b ∈ young ∨ b ∈ old) {k : Nat}
    (h1 : 1 ≤ k) (h3 : k ≤ 3) :
    b.1 - k ≠ field := by
  obtain ⟨n, hbo, hfit⟩ := hi.placed o ho
  rw [Arena.payload_of_pair ht] at hfit
  have hbin := hi.block_inside hb
  have hoin := hi.block_inside hbo
  rcases hi.block_apart hb hbo with rfl | h | h
  · simp only; omega
  · simp only at h hoin; omega
  · simp only at h hoin; omega

/-- Blocks of the two spaces are different. -/
theorem Inv.young_ne_old (hi : Inv m young old S) {b c : Nat × Nat} (hb : b ∈ young)
    (hc : c ∈ old) : b.1 ≠ c.1 := by
  have hbin := hi.young_inside hb
  have hsep := hi.separate hb hc
  omega

/-- Nothing in the nursery is remembered. -/
theorem Inv.young_not_entry (hi : Inv m young old S) {b : Nat × Nat} (hb : b ∈ young) :
    b.1 ∉ m.own.remembered.toList := by
  intro he
  obtain ⟨n, hn⟩ := hi.entries_old _ he
  exact hi.young_ne_old hb hn rfl

/-! A store into a tenured object that is to be remembered. -/

section Relisted

variable (hg : Good m young old S) (ho : S o)
  (hr : Relisted o (m.withHeap (m.heap.put field v.bits)) m')

include hg ho hr

/-- The words of objects are those after the store. -/
theorem Relisted.payload {x i : Nat} (hx : S x) (hlt : i < m.heap.payload x) :
    m'.heap.word (x + i) = (m.heap.put field v.bits).word (x + i) :=
  hr.other _ (hg.payload_ne hx hlt ho) fun he => hg.payload_ne hx hlt (hg.inv.entries _ he) rfl

variable (ht : m.heap.tag o = some .pair) (hf : field = o + 1 ∨ field = o + 2)

include ht hf

theorem Relisted.stored : Stored S field v.bits m.heap m'.heap := by
  have hfs : field < m.heap.size := by
    have hin := hg.objects_apart.inside o ho
    rw [Arena.payload_of_pair ht] at hin
    omega
  intro x i hx hlt
  rw [hr.payload hg ho hx hlt]
  exact stored_put (S := S) hfs x i hx hlt

/-- The first two words of a header stay the same. -/
theorem Relisted.header {b : Nat × Nat} (hb : b ∈ young ∨ b ∈ old) {k : Nat} (hk : k = 2 ∨ k = 3) :
    m'.heap.word (b.1 - k) = m.heap.word (b.1 - k) := by
  have hi := hg.inv
  obtain ⟨n, hbo, -⟩ := hi.placed o ho
  rw [hr.other]
  · exact Arena.word_put_ne _ (hi.field_ne ho ht hf hb (by omega) (by omega))
  · exact hi.header_ne hb hbo hk
  · intro he
    obtain ⟨n', hn'⟩ := hi.entries_old _ he
    exact hi.header_ne hb (.inr hn') hk rfl

end Relisted

section Recalled

variable {n : Nat} (hg : Good m young old S) (ho : S o)
  (hr : Recalled m.own.nursery.region o (m.withHeap (m.heap.put field v.bits)) m' kept)
  (ht : m.heap.tag o = some .pair) (hf : field = o + 1 ∨ field = o + 2)

include hg ho hr ht hf

/-- A tenured object that refers into the nursery is the new entry, or one that was kept. -/
theorem Recalled.remembers {b : Nat × Nat} (hb : b ∈ old) (hSb : S b.1)
    (hpt : PointsInto m'.heap m.own.nursery.region b.1) :
    b.1 ∈ kept ++ [o] := by
  rw [List.mem_append, List.mem_singleton]
  refine or_iff_not_imp_right.mpr fun hbo => Classical.not_not.mp fun hn => ?_
  have hput : ∀ i, i < m.heap.payload b.1 →
      (m.heap.put field v.bits).word (b.1 + i) = m.heap.word (b.1 + i) := fun i hlt =>
    Arena.word_put_ne _ fun he => hbo (hg.objects_apart.field_unique ho ht hf hSb hlt he)
  have hpos := Arena.payload_pos (hg.known _ hSb)
  have htag : (m.heap.put field v.bits).tag b.1 = m.heap.tag b.1 := Arena.tag_congr (hput 0 hpos)
  have hsucc : (m.heap.put field v.bits).succ b.1 = m.heap.succ b.1 := by
    refine Arena.succ_congr (hput 0 hpos) fun htb => ?_
    have hp := Arena.payload_of_pair htb
    exact ⟨hput 1 (by omega), hput 2 (by omega)⟩
  have hsucc' : m'.heap.succ b.1 = (m.heap.put field v.bits).succ b.1 := by
    have hrel := hr.relisted
    refine Arena.succ_congr (hrel.payload hg ho hSb hpos) fun htb => ?_
    rw [htag] at htb
    have hp := Arena.payload_of_pair htb
    exact ⟨hrel.payload hg ho hSb (by omega), hrel.payload hg ho hSb (by omega)⟩
  rw [PointsInto, hsucc'] at hpt
  have hmem : b.1 ∈ m.own.remembered.toList := by
    refine hg.inv.remembers b hb hSb ?_
    rwa [hsucc] at hpt
  exact hr.dropped b.1 hmem hn hpt

/-- The flags change of the new entry, and of those that were dropped. -/
theorem Recalled.flags {b : Nat × Nat} (hb : b ∈ young ∨ b ∈ old) : m'.heap.word (b.1 - 1) =
    if b.1 = o then m.heap.word (b.1 - 1) ||| rememberedFlag
    else if b.1 ∈ m.own.remembered.toList ∧ b.1 ∉ kept then m.heap.word (b.1 - 1) &&&
    ~~~rememberedFlag
    else m.heap.word (b.1 - 1) := by
  have hput : (m.heap.put field v.bits).word (b.1 - 1) = m.heap.word (b.1 - 1) :=
    Arena.word_put_ne _ (hg.inv.field_ne ho ht hf hb (Nat.le_refl _) (by omega))
  split
  · rename_i he
    rw [← hput, he]
    exact hr.flag_self
  · rename_i hne
    split
    · rename_i hdrop
      rw [← hput]
      exact hr.flag_dropped _ hdrop.1 hdrop.2
    · rename_i hkeep
      have hbin := hg.inv.block_inside hb
      have h1 : b.1 - 1 + 1 = b.1 := by omega
      rw [← hput]
      refine hr.other _ (by rwa [h1]) ?_
      rw [h1]
      exact fun he => Classical.not_not.mp fun hn => hkeep ⟨he, hn⟩

/-- The remembered bit is that of the entries. -/
theorem Recalled.flagged {b : Nat × Nat} (hb : b ∈ old) :
    m'.heap.word (b.1 - 1) &&& rememberedFlag ≠ 0 ↔ b.1 ∈ kept ++ [o] := by
  rw [hr.flags hg ho ht hf (.inr hb), List.mem_append, List.mem_singleton]
  split
  · rename_i he
    rw [or_and_self]
    simp [rememberedFlag, he]
  · rename_i hne
    split
    · rename_i hdrop
      rw [and_not_and_self]
      simp [hdrop.2, hne]
    · rename_i hkeep
      rw [hg.inv.flagged b hb]
      constructor
      · exact fun he => .inl (Classical.not_not.mp fun hn => hkeep ⟨he, hn⟩)
      · exact fun he => he.elim (hr.sublist.subset ·) fun h => absurd h hne

variable (hbo : (o, n) ∈ old)

include hbo

/-- The flags of a nursery object stay the same, and so does its object word. -/
theorem Recalled.nursery {b : Nat × Nat} (hb : b ∈ young) :
    m'.heap.word (b.1 - 1) = m.heap.word (b.1 - 1) ∧ m'.heap.word b.1 = m.heap.word b.1 := by
  have hi := hg.inv
  have hnot := hi.young_not_entry hb
  have hbin := hi.young_inside hb
  have hsep := hi.separate hb hbo
  simp only at hsep
  refine ⟨?_, ?_⟩
  · rw [hr.flags hg ho ht hf (.inl hb), if_neg (hi.young_ne_old hb hbo), if_neg fun h => hnot h.1]
  · rw [hr.other _ (by omega)]
    · exact Arena.word_put_ne _ (by omega)
    · intro he
      obtain ⟨n', hn'⟩ := hi.entries_old _ he
      have hsep := hi.separate hb hn'
      simp only at hsep
      omega

end Recalled

theorem Good.recalled (hg : Good m young old S) (ho : S o) (ht : m.heap.tag o = some .pair)
    (hf : field = o + 1 ∨ field = o + 2) (hv : v.Within S) {n : Nat} (hbo : (o, n) ∈ old)
    (hr : Recalled m.own.nursery.region o (m.withHeap (m.heap.put field v.bits)) m' kept)
    (hne : o ∉ m.own.remembered.toList) :
    Good m' young old S ∧ Stored S field v.bits m.heap m'.heap := by
  have hi := hg.inv
  have hap := hg.objects_apart
  have hsub : ∀ e ∈ kept, e ∈ m.own.remembered.toList := fun e he => hr.sublist.subset he
  have hlist : m'.own.remembered.toList = kept ++ [o] := by rw [hr.own, remembering_toList]
  have hrel := hr.relisted
  have hstored := hrel.stored hg ho ht hf
  have hcl := hstored.closed hap ho ht hf hv
  refine ⟨⟨hi.update (by rw [hr.own]; rfl) (by rw [hr.own]; rfl)
    (by rw [hr.own]; rfl) ?_ ?_ ?_ ?_ ?_ ?_ ?_ ?_
    hcl.linked ?_ ?_, hcl.known, hg.old_valid, ?_, ?_, by rw [hr.own]; exact hg.halves⟩, hstored⟩
  · rw [hr.size_eq]
    simp
  · exact fun b hb => ⟨hrel.header hg ho ht hf hb (.inl rfl),
      hrel.header hg ho ht hf hb (.inr rfl)⟩
  · exact fun b hb => (hr.nursery hg ho ht hf hbo hb).1
  · intro b hb
    rw [hr.flags hg ho ht hf (.inr hb)]
    split
    · exact or_and_not_self ..
    · split
      · exact and_not_and_not_self ..
      · rfl
  · rw [hlist]
    exact fun b hb => hr.flagged hg ho ht hf hb
  · rw [hlist]
    refine List.nodup_append.mpr
      ⟨hr.sublist.nodup hi.entries_nodup, by simp, fun a ha b hb hab => ?_⟩
    obtain rfl := List.mem_singleton.mp hb
    exact hne (hab ▸ hsub a ha)
  · intro e he
    rw [hlist, List.mem_append, List.mem_singleton] at he
    rcases he with he | rfl
    · exact ⟨hi.entries e (hsub e he), hi.entries_old e (hsub e he)⟩
    · exact ⟨ho, n, hbo⟩
  · rw [hlist]
    exact fun b hb => hr.remembers hg ho ht hf hb
  · intro x k hx hxb
    rw [Arena.payload_congr (hstored.head hap ho ht hf hx)]
    exact hi.fits hx hxb
  · rw [hr.roots]
    exact hi.roots
  · rw [hlist, hr.own, remembering_capacity, List.length_append]
    have hroom := hr.room
    simp only [Machine.withHeap_own] at hroom
    simp only [Machine.withHeap_own, List.length_singleton]
    omega
  · intro b hb
    have hw := (hr.nursery hg ho ht hf hbo hb).2
    rw [Arena.tag_congr hw, Arena.payload_congr hw]
    exact hg.young_fits b hb

/-- A store into an object that needs no barrier. -/
theorem Good.store (hg : Good m young old S) (ho : S o) (ht : m.heap.tag o = some .pair)
    (hf : field = o + 1 ∨ field = o + 2) (hv : v.Within S)
    (hrem : ∀ n, (o, n) ∈ old → v.ref?.any m.own.nursery.region.contains = true →
      o ∈ m.own.remembered.toList) :
    Good (m.withHeap (m.heap.put field v.bits)) young old S := by
  have hi := hg.inv
  have hap := hg.objects_apart
  obtain ⟨n, hb, hfit⟩ := hi.placed o ho
  have hp3 := Arena.payload_of_pair ht
  have hin := hap.inside o ho
  have hfs : field < m.heap.size := by omega
  have hstored : Stored S field v.bits m.heap (m.heap.put field v.bits) := stored_put hfs
  have hhead := hstored.head hap ho ht hf ho
  refine hg.rewrite ho hb (by simp) (fun a ha => Arena.word_put_ne _ (by omega))
    (hstored.closed hap ho ht hf hv) ?_ ?_
  · rw [Arena.payload_congr hhead]
    exact hfit
  · rintro hbo ⟨c, hc, hcr⟩
    obtain ⟨-, hc⟩ := Arena.mem_succ.mp hc
    -- the reference was there before, or it is the one that is stored
    have hval : ∀ a, a = o + 1 ∨ a = o + 2 → ((m.heap.put field v.bits).value a).ref? = some c →
        o ∈ m.own.remembered.toList := by
      intro a ha hac
      by_cases haf : a = field
      · subst haf
        rw [Arena.value_put_self hfs] at hac
        exact hrem n hbo (by rw [hac]; exact hcr)
      · rw [Arena.value_congr (Arena.word_put_ne _ haf)] at hac
        refine hi.remembers (o, n) hbo ho ⟨c, Arena.mem_succ.mpr ⟨ht, ?_⟩, hcr⟩
        rcases ha with rfl | rfl
        · exact .inl hac
        · exact .inr hac
    rcases hc with hc | hc
    · exact hval _ (.inl rfl) hc
    · exact hval _ (.inr rfl) hc

/-- A store with the write barrier keeps the heap in a good state, or the object cannot be
remembered. -/
theorem writeField_runs (hg : Good m young old S) (ho : S o) (ht : m.heap.tag o = some .pair)
    (hf : field = o + 1 ∨ field = o + 2) (hv : v.Within S) :
    Runs (writeField o field v) m
    (fun _ m' => Good m' young old S ∧ Stored S field v.bits m.heap m'.heap ∧
      m'.roots = m.roots ∧ m'.stress = m.stress ∧ m'.stats = m.stats)
    (fun f m' => f = m.own.remembered.full ∧
      Relisted o (m.withHeap (m.heap.put field v.bits)) m') := by
  have hi := hg.inv
  have hap := hg.objects_apart
  obtain ⟨n, hb, hfit⟩ := hi.placed o ho
  have hin := hap.inside o ho
  have hp3 := Arena.payload_of_pair ht
  have hfs : field < m.heap.size := by omega
  have hstored : Stored S field v.bits m.heap (m.heap.put field v.bits) := stored_put hfs
  have hflags : flags o (m.heap.put field v.bits) = .ok (m.heap.word (o - 1)) := by
    rw [flags_run (by omega) (by simp; omega)]
    exact congrArg Except.ok (Arena.word_put_ne _ (by omega))
  unfold writeField
  refine Runs.step (heap_lift (storeValue_run hfs)) ?_
  refine Runs.step (read_lift (m := m.withHeap (m.heap.put field v.bits)) hflags) ?_
  refine Runs.step GcM.run_own ?_
  dsimp only [Machine.withHeap_own]
  cases hcond : m.heap.word (o - 1) &&& tenuredFlag != 0 && m.heap.word (o - 1) &&&
    rememberedFlag == 0
      && v.ref?.any m.own.nursery.region.contains with
  | true =>
    simp only [if_true]
    simp only [Bool.and_eq_true, bne_iff_ne, beq_iff_eq] at hcond
    obtain ⟨⟨hten, hnr⟩, hyv⟩ := hcond
    have hbo : (o, n) ∈ old := by
      rcases hb with hb | hb
      · exact absurd (hi.young_flags _ hb).1 hten
      · exact hb
    have hne : o ∉ m.own.remembered.toList := fun he => (hi.flagged _ hbo).mpr he hnr
    have hread : ∀ x, S x → ReadableAt (m.heap.put field v.bits) x := by
      intro x hx
      have hw := hstored.head hap ho ht hf hx
      have hxin := hap.inside x hx
      refine ⟨by omega, ?_, ?_⟩
      · rw [Arena.tag_congr hw]
        exact hg.known x hx
      · rw [Arena.payload_congr hw, Arena.size_put]
        exact hxin.2
    have hfa : FlagsApart (m.heap.put field v.bits) m.own.remembered.toList := by
      intro e he x hx
      rw [Arena.payload_congr (hstored.head hap ho ht hf (hi.entries x hx))]
      rcases hap.apart e x (hi.entries e he) (hi.entries x hx) with h | h | h <;> omega
    refine (remember_runs (m := m.withHeap (m.heap.put field v.bits))
      (fun e he => hread e (hi.entries e he)) hfa
      (hread o ho) hne).mono ?_
    rintro - m' ⟨kept, hr⟩
    obtain ⟨hg', hst⟩ := hg.recalled ho ht hf hv hbo hr hne
    exact ⟨hg', hst, hr.roots, hr.stress, hr.stats⟩
  | false =>
    simp only [Bool.false_eq_true, if_false]
    refine Runs.pure ⟨hg.store ho ht hf hv ?_, hstored, rfl, rfl, rfl⟩
    intro n' hbo hyv
    have hten := hi.old_flags _ hbo
    simp only [hyv, Bool.and_true, Bool.and_eq_false_iff, bne_eq_false_iff_eq,
      beq_eq_false_iff_ne] at hcond
    rcases hcond with h | h
    · exact absurd h hten
    · exact (hi.flagged _ hbo).mp h

end Barrier

/-! ## Collections -/

section Collections

variable {ρ : Nat → Nat} {ms : List Nat} {threshold : Nat}

theorem Inv.named (hi : Inv m young old S) : Value.Named S := by
  intro o ho
  obtain ⟨n, hb, -⟩ := hi.placed o ho
  have hin := hi.block_inside hb
  have hsmall := hi.spaces.small
  simp only at hin
  omega

/-- A minor collection keeps what the roots reach. -/
theorem Evacuated.moved {survivors promoted : List (Nat × Nat)} (hg : Good m young old S)
    (he : Evacuated m m' young old survivors promoted threshold S ρ) :
    Good m' survivors (old ++ promoted) (fun o' => ∃ o, KeptByMinor m old S o ∧ o' = ρ o) ∧
      Moved Intact m m' S (fun o' => ∃ o, KeptByMinor m old S o ∧ o' = ρ o) ρ 1 := by
  have hreach : ∀ o, m.Reachable o → KeptByMinor m old S o := fun o ho =>
    .inl (ho.mono fun _ h => .inl h)
  have hgood : Good m' survivors (old ++ promoted)
      fun o' => ∃ o, KeptByMinor m old S o ∧ o' = ρ o := by
    have hkept : Closed m.heap (KeptByMinor m old S) :=
      ⟨fun o ho => hg.known o (ho.elim hg.inv.live_mem And.left), hg.inv.kept_linked⟩
    have hcl := he.renamed.closed hkept he.inv.named
    refine ⟨he.inv, hcl.known, fun b hb => ?_, he.room hg.room, fun b hb => ?_, ?_⟩
    · rcases List.mem_append.mp hb with hb | hb
      · exact ⟨b.1, .inr ⟨hg.old_valid b hb, b.2, hb⟩, (he.tenured b hb).symm⟩
      · obtain ⟨o, -, hl, ho⟩ := he.origin b (.inr hb)
        exact ⟨o, .inl hl, ho.symm⟩
    · obtain ⟨o, -, hl, ho⟩ := he.origin b (.inl hb)
      have hS : ∃ o, KeptByMinor m old S o ∧ b.1 = ρ o := ⟨o, .inl hl, ho.symm⟩
      exact ⟨hcl.known _ hS, he.inv.fits hS (.inl hb)⟩
    · rw [he.nursery, he.survivorSpace, hg.halves]
  refine ⟨hgood, .intro hg.closed hg.inv.roots ⟨_, _, hgood⟩ (he.renamed.mono hreach)
    (fun o ho => ⟨o, hreach o ho, rfl⟩)
    he.roots he.stress ?_ ?_⟩
  · rw [he.cycles]
    rfl
  · intro h
    cases h

theorem Compacted.found (hg : Good m young old S) (hc : Compacted m m' young old ms) :
    Found m young old S ms :=
  ⟨hg.inv.filled, hc.reach, fun o ho =>
    hg.known o (((hc.reach o).mp ho).mem_of_closed hg.closed fun _ h => hg.inv.roots.refers h)⟩

/-- A major collection keeps what the roots reach. -/
theorem Compacted.moved (hg : Good m young old S) (hc : Compacted m m' young old ms) :
    Good m' young ((moves m old ms).map Copy.block)
    (fun o' => ∃ o, o ∈ ms ∧ o' = relocate (moves m old ms) o) ∧
      Moved Intact m m' S (fun o' => ∃ o, o ∈ ms ∧ o' = relocate (moves m old ms) o)
      (relocate (moves m old ms)) 1 := by
  have hreach : ∀ o, m.Reachable o → o ∈ ms := fun o ho => (hc.reach o).mpr ho
  have hf := hc.found hg
  have hgood : Good m' young ((moves m old ms).map Copy.block)
      fun o' => ∃ o, o ∈ ms ∧ o' = relocate (moves m old ms) o := by
    refine ⟨hc.inv, (hc.renamed.closed hf.closed hc.inv.named).known, fun b hb => ?_, hc.room,
      fun b hb => ?_, ?_⟩
    · obtain ⟨p, hp, rfl⟩ := List.mem_map.mp hb
      exact ⟨p.old, (mem_moves hf hp).2.1, (relocate_old hf hp).symm⟩
    · rw [Arena.tag_congr (hc.young_head hg.inv hb), Arena.payload_congr (hc.young_head hg.inv hb)]
      exact hg.young_fits b hb
    · rw [hc.nursery, hc.survivorSpace, hg.halves]
  refine ⟨hgood, .intro hg.closed hg.inv.roots ⟨_, _, hgood⟩ (hc.renamed.mono hreach)
    (fun o ho => ⟨o, hreach o ho, rfl⟩)
    hc.roots hc.stress ?_ ?_⟩
  · rw [hc.cycles]
    rfl
  · intro h
    cases h

/-- What a major collection leaves in tenured space was marked, and the roots reach it. -/
theorem Compacted.tenured_reachable (hg : Good m young old S) (hc : Compacted m m' young old ms)
    {b : Nat × Nat} (hb : b ∈ (moves m old ms).map Copy.block) : m'.Reachable b.1 := by
  obtain ⟨hg', hmv⟩ := hc.moved hg
  have hf := hc.found hg
  obtain ⟨p, hp, rfl⟩ := List.mem_map.mp hb
  exact (hmv.reachable_iff hg'.inv.named).mpr
    ⟨p.old, (hc.reach _).mp (mem_moves hf hp).2.1, (relocate_old hf hp).symm⟩

theorem evacuate_moves (hg : Good m young old S) :
    Runs (evacuate threshold) m
    (fun _ m' => ∃ young' old' S' ρ, Good m' young' old' S' ∧ Moved Intact m m' S S' ρ 1)
      Fatal := by
  refine ((evacuate_runs hg.inv).mono ?_).mono_fail fun _ _ hf => hf.1
  rintro - m' ⟨survivors, promoted, ρ, he⟩
  obtain ⟨hgood, hmv⟩ := he.moved hg
  exact ⟨_, _, _, ρ, hgood, hmv⟩

theorem collectMajor_moves (hg : Good m young old S) :
    Runs collectMajor m (fun _ m' => ∃ young' old' S' ρ, Good m' young' old' S' ∧
      Moved Intact m m' S S' ρ 1) Fatal := by
  refine ((collectMajor_runs hg.inv).mono ?_).mono_fail fun _ _ hf => hf.fatal
  rintro - m' ⟨ms, hc⟩
  obtain ⟨hgood, hmv⟩ := hc.moved hg
  exact ⟨_, _, _, _, hgood, hmv⟩

/-- What is left after one more cycle. -/
theorem Good.cycle {young' old' : List (Nat × Nat)} {S' : Nat → Prop} {x : GcM Generational Unit}
    {k : Nat} (hg' : Good m' young' old' S') (hmv : Moved Intact m m' S S' ρ k)
    (hx : Runs x m' (fun _ m'' => ∃ young'' old'' S'' τ, Good m'' young'' old'' S'' ∧
      Moved Intact m' m'' S' S'' τ 1) Fatal) :
    Runs x m' (fun _ m'' => ∃ young'' old'' S'' ρ, Good m'' young'' old'' S'' ∧
      Moved Intact m m'' S S'' ρ (k + 1)) Fatal := by
  refine hx.mono ?_
  rintro - m'' ⟨young'', old'', S'', τ, hg'', hmv'⟩
  exact ⟨young'', old'', S'', τ ∘ ρ, hg'', Moved.trans hmv hmv' hg'.inv.named⟩

theorem collect_runs (hg : Good m young old S) :
    Runs collect m (fun _ m' => ∃ young' old' S' ρ k, k ≤ 2 ∧ Good m' young' old' S' ∧
      Moved Intact m m' S S' ρ k) Fatal := by
  unfold collect
  refine Runs.bind (evacuate_moves hg) ?_
  rintro - m1 ⟨young1, old1, S1, ρ, hg1, hmv1⟩
  refine Runs.step GcM.run_own ?_
  cases hfit : m1.own.tenured.fits m1.own.nursery.region.length with
  | true =>
    simp only [Bool.not_true, Bool.false_eq_true, if_false]
    exact Runs.pure ⟨_, _, _, _, 1, by decide, hg1, hmv1⟩
  | false =>
    simp only [Bool.not_false, if_true]
    refine (hg1.cycle hmv1 (collectMajor_moves hg1)).mono ?_
    rintro - m2 ⟨young2, old2, S2, τ, hg2, hmv2⟩
    exact ⟨_, _, _, _, 2, by decide, hg2, hmv2⟩

theorem collectFull_runs (hg : Good m young old S) :
    Runs collectFull m (fun _ m' => ∃ young' old' S' ρ, Good m' young' old' S' ∧
      Moved Intact m m' S S' ρ 2) Fatal := by
  unfold collectFull
  refine Runs.bind (evacuate_moves hg) ?_
  rintro - m1 ⟨young1, old1, S1, ρ, hg1, hmv1⟩
  exact hg1.cycle hmv1 (collectMajor_moves hg1)

end Collections

end Reclaim.Generational
