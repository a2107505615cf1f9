import Reclaim.Semispace
import Reclaim.Proofs.Evacuation
import Reclaim.Proofs.Searching

/-!
# Semispace collection

What a collection does to a half that is filled with blocks: everything the roots reach is copied
once into the other half, in the order in which it is found, and the halves change roles. Copies are
visited in the order in which they were made; `Copying` is the state between two steps, with the
list of copies as a ghost.

Results:
* `Copying.room`: the copies never outgrow the half they come from.
* `scanCopies_runs`: the scan ends with every copy visited.
* `evacuate_runs`: a collection always ends, and leaves what `Copied` says.
* `evacuate_searches`: the copies stand in the order in which a search from the roots discovers
  their originals.
-/

namespace Reclaim

/-- Distinct blocks of a list take no more words than all of its blocks. -/
theorem sum_sizes_le {bs cs : List (Nat × Nat)} (hd : bs.Nodup) (hsub : ∀ b ∈ bs, b ∈ cs) :
    (bs.map Prod.snd).sum ≤ (cs.map Prod.snd).sum := by
  induction bs generalizing cs with
  | nil => simp
  | cons b bs ih =>
    obtain ⟨hb, hd⟩ := List.nodup_cons.mp hd
    have hperm : cs.Perm (b :: cs.erase b) := List.perm_cons_erase (hsub b (by simp))
    have hrest : (bs.map Prod.snd).sum ≤ ((cs.erase b).map Prod.snd).sum := by
      refine ih hd fun c hc => ?_
      have hne : c ≠ b := fun he => hb (he ▸ hc)
      exact (List.mem_erase_of_ne hne).mpr (hsub c (by simp [hc]))
    have hsum := (hperm.map Prod.snd).sum_nat
    simp only [List.map_cons, List.sum_cons] at hsum ⊢
    omega

end Reclaim

namespace Reclaim.Semispace

/-- The layout of a header: the size, then the new address. -/
def header : Header := ⟨2, 2, 1⟩

theorem header_distinct : header.Distinct := ⟨by decide, by decide, by decide, by decide, by decide⟩

@[simp] theorem header_words : header.words = 2 := rfl
@[simp] theorem header_size : header.size = 2 := rfl
@[simp] theorem header_forward : header.forward = 1 := rfl

/-- The state between collections: blocks that were not copied fill one half up to its top, and the
roots refer to objects of `S` alone, which lie in these blocks and refer to each other. -/
structure Inv (m : Machine Semispace) (blocks : List (Nat × Nat)) (S : Nat → Prop) : Prop where
  small : m.heap.size < 0x1000000000000000
  top_le : m.own.space.top ≤ m.own.space.region.limit
  inside : m.own.space.region.limit ≤ m.heap.size
  spare : m.own.spare.first ≤ m.own.spare.limit
  spare_inside : m.own.spare.limit ≤ m.heap.size
  apart : m.own.spare.limit ≤ m.own.space.region.first ∨
    m.own.space.region.limit ≤ m.own.spare.first
  length_eq : m.own.spare.length = m.own.space.region.length
  stacked : Stacked 2 m.own.space.region.first blocks m.own.space.top
  sized : Sized 2 m.heap blocks
  unforwarded : ∀ b ∈ blocks, m.heap.word (b.1 - 1) = 0
  placed : ∀ o, S o → ∃ n, (o, n) ∈ blocks ∧ 2 + m.heap.payload o ≤ n
  closed : Closed m.heap S
  roots : m.roots.Within S

/-- The objects that the roots reach. -/
def Live (m : Machine Semispace) : Nat → Prop := Reach m.heap m.roots.Refers

variable {m₀ : Machine Semispace} {blocks : List (Nat × Nat)} {S : Nat → Prop}

namespace Inv

theorem block_inside (hi : Inv m₀ blocks S) {b : Nat × Nat} (hb : b ∈ blocks) :
    2 ≤ b.1 ∧ b.1 + b.2 ≤ m₀.heap.size + 2 ∧ 2 < b.2 := by
  have h1 := hi.stacked.bounds hb
  have h2 := hi.top_le
  have h3 := hi.inside
  omega

theorem block_apart (hi : Inv m₀ blocks S) {b c : Nat × Nat} (hb : b ∈ blocks) (hc : c ∈ blocks) :
    b = c ∨ b.1 + b.2 ≤ c.1 ∨ c.1 + c.2 ≤ b.1 :=
  (hi.stacked.apart hb hc).imp (fun h => Prod.ext h.1 h.2) id

/-- The blocks are what is listed. -/
theorem objects (hi : Inv m₀ blocks S) : Semispace.objects m₀.own m₀.heap = .ok blocks :=
  blocksOf_run hi.stacked hi.sized (by decide) (by decide) (Nat.le_trans hi.top_le hi.inside)

theorem valid (hi : Inv m₀ blocks S) {o : Nat} (ho : Live m₀ o) : S o :=
  ho.mem_of_closed hi.closed fun _ h => hi.roots.refers h

/-- What is reachable is in good order by itself. -/
theorem live (hi : Inv m₀ blocks S) : Inv m₀ blocks (Live m₀) :=
  { hi with
    placed := fun o ho => hi.placed o (hi.valid ho)
    closed := hi.closed.reach fun _ h => hi.roots.refers h
    roots := fun slot v hv c hc => ⟨(hi.roots slot v hv c hc).1, .root ⟨slot, v, hv, hc⟩⟩ }

end Inv

/-! ## One copy -/

theorem blockSize_run {h : Arena} {o : Nat} (h2 : 2 ≤ o) (hs : o - 2 < h.size) :
    blockSize o h = .ok (h.word (o - 2)).toNat :=
  read_bind (loadHeader_run h2 hs)

theorem forwarding_run {h : Arena} {o : Nat} (h1 : 1 ≤ o) (hs : o - 1 < h.size) :
    forwardingAt forwardOffset o h
    = .ok (if (h.word (o - 1)).toNat = 0 then none else some (h.word (o - 1)).toNat) :=
  forwardingAt_run h1 hs

theorem setForwarding_run {h : Arena} {o a : Nat} (h1 : 1 ≤ o) (hs : o - 1 < h.size) :
    setForwarding o a h = .ok () (h.put (o - 1) (UInt64.ofNat a)) := storeHeader_run h1 hs

/-- The heap after the object at `o` was copied to the block at `dst`. -/
def copied (h : Arena) (o dst n : Nat) : Arena :=
  ((h.copy (o - 2) dst n).put (dst + 1) 0).put (o - 1) (UInt64.ofNat (dst + 2))

theorem copied_relocated {h : Arena} {o dst n : Nat} (ho : 2 ≤ o) (hn : 2 < n)
    (hs : o - 2 + n ≤ h.size) (hd : dst + n ≤ h.size) (hsmall : h.size < 0x1000000000000000)
    (hap : dst + n ≤ o - 2 ∨ o - 2 + n ≤ dst) :
    Relocated header h (copied h o dst n) o dst n where
  size_eq := by simp [copied]
  outside a ha hne := by
    simp only [header_forward] at hne
    rw [copied, Arena.word_put_ne _ (by omega), Arena.word_put_ne _ (by omega),
      Arena.word_copy hs hd, if_neg ha]
  payload i hi := by
    simp only [header_words] at hi ⊢
    rw [copied, Arena.word_put_ne _ (by omega), Arena.word_put_ne _ (by omega),
      Arena.word_copy hs hd, if_pos (by omega)]
    congr 1
    omega
  forward := by
    simp only [header_forward, header_words]
    rw [copied, Arena.word_put_self _ (by simp; omega), toNat_ofNat_of_lt (by omega)]
  new_size := by
    simp only [header_size, header_words]
    rw [copied, Arena.word_put_ne _ (by omega), Arena.word_put_ne _ (by omega),
      Arena.word_copy hs hd, if_pos (by omega)]
    congr 1
    omega
  new_forward := by
    simp only [header_forward, header_words]
    rw [copied, Arena.word_put_ne _ (by omega), show dst + 2 - 1 = dst + 1 by omega,
      Arena.word_put_self _ (by simp; omega)]

/-- The state of a collection that began in `m₀`, when the copies `cs` are made and the fields
`done` visited. -/
structure Copying (m₀ : Machine Semispace) (blocks : List (Nat × Nat))
    (m : Machine (Semispace × Bump)) (cs : List Copy) (done : List Nat) : Prop where
  evac : Evac header m₀.heap m.heap blocks (· ∈ cs) done
  own : m.own.1 = m₀.own
  region : m.own.2.region = m₀.own.spare
  stacked : Stacked 2 m₀.own.spare.first (cs.map Copy.block) m.own.2.top
  top_le : m.own.2.top ≤ m₀.own.spare.limit
  source : ∀ c ∈ cs, Live m₀ c.old ∧ (c.old, c.size) ∈ blocks
  nodup : (cs.map Copy.old).Nodup
  stress : m.stress = m₀.stress
  stats : m.stats = m₀.stats

namespace Copying

variable {m : Machine (Semispace × Bump)} {cs : List Copy} {done : List Nat} {o n : Nat}

/-- Room is left for the copy of any block that has none yet. -/
theorem room (hi : Inv m₀ blocks S) (hC : Copying m₀ blocks m cs done) (hb : (o, n) ∈ blocks)
    (hnew : ∀ c ∈ cs, c.old ≠ o) :
    m.own.2.top + n ≤ m₀.own.spare.limit := by
  have hsizes : n + (cs.map Copy.size).sum ≤ (blocks.map Prod.snd).sum := by
    -- the block and the originals of the copies are distinct blocks
    have hdist : ((o, n) :: cs.map fun c => (c.old, c.size)).Nodup := by
      refine List.nodup_cons.mpr ⟨fun hm => ?_, ?_⟩
      · obtain ⟨c, hc, he⟩ := List.mem_map.mp hm
        exact hnew c hc (congrArg Prod.fst he)
      · exact List.pairwise_map.mpr
          ((List.pairwise_map.mp hC.nodup).imp fun hne he => hne (congrArg Prod.fst he))
    have hle := sum_sizes_le hdist fun b hm => by
      rcases List.mem_cons.mp hm with rfl | hm
      · exact hb
      · obtain ⟨c, hc, rfl⟩ := List.mem_map.mp hm
        exact (hC.source c hc).2
    rw [List.map_cons, List.map_map, List.sum_cons] at hle
    exact hle
  have hend := hC.stacked.end_eq
  rw [List.map_map, show Prod.snd ∘ Copy.block = Copy.size from rfl] at hend
  have hfull := hi.stacked.end_eq
  have h1 := hi.top_le
  have h2 := hi.length_eq
  have h3 := hi.spare
  unfold Region.length at h2
  omega

theorem copy_bounds (hC : Copying m₀ blocks m cs done) {c : Copy} (hc : c ∈ cs) :
    m₀.own.spare.first + 2 ≤ c.new ∧ c.new + c.size ≤ m.own.2.top + 2 ∧ 2 < c.size :=
  hC.stacked.bounds (List.mem_map_of_mem hc)

theorem withRoots (hC : Copying m₀ blocks m cs done) (r : Roots) :
    Copying m₀ blocks (m.withRoots r) cs done :=
  ⟨hC.evac, hC.own, hC.region, hC.stacked, hC.top_le, hC.source, hC.nodup, hC.stress, hC.stats⟩

/-- A copy is that of a live object and holds all its words. -/
theorem fits (hi : Inv m₀ blocks S) (hC : Copying m₀ blocks m cs done) {c : Copy} (hc : c ∈ cs) :
    m₀.heap.tag c.old ≠ none ∧ 2 + m₀.heap.payload c.old ≤ c.size := by
  obtain ⟨hlive, hb⟩ := hC.source c hc
  obtain ⟨n, hn, hfit⟩ := hi.placed _ (hi.valid hlive)
  rw [hi.stacked.size_unique hn hb] at hfit
  exact ⟨hi.closed.known _ (hi.valid hlive), hfit⟩

/-- Copying one more object keeps the state. -/
theorem copy (hi : Inv m₀ blocks S) (hC : Copying m₀ blocks m cs done) (hb : (o, n) ∈ blocks)
    (hlive : Live m₀ o) (hnew : ∀ c ∈ cs, c.old ≠ o) :
    Copying m₀ blocks
      ((m.withOwn (m.own.1, { m.own.2 with
        top := m.own.2.top + n })).withHeap (copied m.heap o m.own.2.top n))
      (cs ++ [⟨o, m.own.2.top + 2, n⟩]) done := by
  have hroom := hC.room hi hb hnew
  have hbd := hi.stacked.bounds hb
  have hin := hi.block_inside hb
  have hlo := hC.stacked.le
  have hsize := hC.evac.size_eq
  have h1 := hi.top_le
  have h2 := hi.spare_inside
  have h3 := hi.apart
  have h4 := hi.small
  simp only at hin
  have hrel : Relocated header m.heap (copied m.heap o m.own.2.top n) o m.own.2.top n :=
    copied_relocated (by omega) (by omega) (by omega) (by omega) (by omega) (by omega)
  refine ⟨?_, hC.own, hC.region, ?_, hroom, ?_, ?_, hC.stress, hC.stats⟩
  · refine hC.evac.add header_distinct hb hnew (hi.sized _ hb) hrel (fun b hb' => ?_)
      (fun c hc => ?_) (by omega) fun c => ?_
    · have hbd' := hi.stacked.bounds hb'
      simp only [header_words]
      omega
    · have hcb := hC.copy_bounds hc
      simp only [header_words]
      omega
    · simp only [List.mem_append, List.mem_singleton, header_words]
  · rw [List.map_append]
    exact hC.stacked.snoc (n := n) (by omega)
  · intro c hc
    rcases List.mem_append.mp hc with hc | hc
    · exact hC.source c hc
    · obtain rfl := List.mem_singleton.mp hc
      exact ⟨hlive, hb⟩
  · rw [List.map_append]
    refine List.nodup_append.mpr ⟨hC.nodup, by simp, fun a ha b hb' hab => ?_⟩
    obtain ⟨c, hc, rfl⟩ := List.mem_map.mp ha
    obtain rfl : b = o := by simpa using hb'
    exact hnew c hc hab

/-- Storing an image into a field keeps the state. -/
theorem store (hC : Copying m₀ blocks m cs done) {c : Copy} {i : Nat} {v : Value} (hc : c ∈ cs)
    (hf : c.IsField m₀.heap (c.new + i)) (hs : i + 2 < c.size)
    (hv : ImageIn (· ∈ cs) (m₀.heap.value (c.old + i)) v) :
    Copying m₀ blocks (m.withHeap (m.heap.put (c.new + i) v.bits)) cs ((c.new + i) :: done) := by
  obtain ⟨ht, j, hj, hij, hr⟩ := hf
  obtain rfl : i = j := by omega
  exact ⟨hC.evac.visit header_distinct hc hj hs ht hr hv, hC.own, hC.region, hC.stacked, hC.top_le,
    hC.source, hC.nodup, hC.stress, hC.stats⟩

/-- The visitor answers a reference with its image, after copying the object if need be. It never
fails. -/
theorem forward_runs (hi : Inv m₀ blocks S) (hC : Copying m₀ blocks m cs done) {v : Value}
    (hr : v.isRef = true) (hV : v.Within (Live m₀)) :
    Runs (forward v) m (fun v' m' => ∃ cs',
      (cs <+: cs' ∧ cs'.map Copy.old = discover (cs.map Copy.old) [v]) ∧
      Copying m₀ blocks m' cs' done ∧ ImageIn (· ∈ cs') v v' ∧ m'.roots = m.roots)
        fun _ _ => False := by
  obtain ⟨o, ho⟩ := Value.exists_ref? hr
  obtain ⟨-, hlive⟩ := hV o ho
  obtain ⟨n, hb, -⟩ := hi.placed o (hi.valid hlive)
  have hin := hi.block_inside hb
  have hbd := hi.stacked.bounds hb
  have hsize := hC.evac.size_eq
  simp only at hin
  rw [forward, ho]
  refine Runs.step (read_lift (forwarding_run (by omega) (by omega))) ?_
  by_cases hcopied : ∃ c ∈ cs, c.old = o
  · obtain ⟨c, hc, rfl⟩ := hcopied
    obtain ⟨-, hfw⟩ := hC.evac.moved _ hb c hc rfl
    have hci := hC.evac.inside c hc
    simp only [header_words, header_forward] at hci hfw
    rw [hfw, if_neg (by omega)]
    have hdis : cs.map Copy.old = discover (cs.map Copy.old) [v] := by
      rw [discover_singleton ho, if_pos (List.mem_map_of_mem hc)]
    exact Runs.pure ⟨cs, ⟨List.prefix_refl _, hdis⟩, hC, ⟨c, hc, ho, rfl⟩, rfl⟩
  · have hnew : ∀ c ∈ cs, c.old ≠ o := fun c hc hco => hcopied ⟨c, hc, hco⟩
    have hzero := hC.evac.pending _ hb hnew
    have hw : m.heap.word (o - 2) = m₀.heap.word (o - 2) :=
      hC.evac.source _ hb _ (by simp; omega) (by simp; omega) (by simp; omega)
    have hsz : (m.heap.word (o - 2)).toNat = n := by
      rw [hw]
      exact hi.sized _ hb
    have hroom := hC.room hi hb hnew
    have h2 := hi.spare_inside
    simp only [header_forward] at hzero
    rw [hzero, if_pos (show UInt64.toNat 0 = 0 from rfl)]
    have halloc : m.own.2.allocate? n = some (m.own.2.top, { m.own.2 with
        top := m.own.2.top + n }) :=
      Bump.allocate?_eq_some_iff.mpr
        ⟨(Bump.fits_iff _ _).mpr (by rw [hC.region]; exact hroom), rfl, rfl⟩
    refine Runs.step (read_lift (blockSize_run (by omega) (by omega))) ?_
    refine Runs.step GcM.run_scratch ?_
    rw [hsz, halloc]
    refine Runs.step GcM.run_setScratch ?_
    refine Runs.step (read_lift (back_run hin.1)) ?_
    refine Runs.step (heap_lift
      (copyWords_run (by simp only [headerWords]; simp; omega) (by simp; omega))) ?_
    refine Runs.step (heap_lift
      (setForwarding_run (by simp [headerWords]) (by simp [headerWords]; omega))) ?_
    refine Runs.step (heap_lift (setForwarding_run (by omega) (by simp; omega))) ?_
    have hdis : (cs ++ [(⟨o, m.own.2.top + 2, n⟩ : Copy)]).map Copy.old = discover
        (cs.map Copy.old) [v] := by
      rw [discover_singleton ho, if_neg (by simpa using hnew), List.map_append]
      rfl
    refine Runs.pure ⟨cs ++ [⟨o, m.own.2.top + 2, n⟩], ⟨List.prefix_append _ _, hdis⟩, ?_,
      ⟨⟨o, m.own.2.top + 2, n⟩, by simp, ho, rfl⟩, by simp⟩
    simpa [copied, headerWords] using hC.copy hi hb hlive hnew

end Copying

/-- The visitor copies what it is given. -/
theorem evacuates (hi : Inv m₀ blocks S) :
    Evacuates header m₀.heap blocks forward (Copying m₀ blocks)
    (fun cs c => c ∈ cs) (fun cs c => c ∈ cs)
    (fun cs vs cs' => cs <+: cs' ∧ cs'.map Copy.old = discover (cs.map Copy.old) vs)
    (Value.Within (Live m₀)) fun _ _ => False where
  evac hC := hC.evac
  refl cs := ⟨List.prefix_refl cs, rfl⟩
  trans h h' := ⟨h.1.trans h'.1, by rw [h'.2, h.2, discover_append]⟩
  mono hle hc := hle.1.subset hc
  mono_traced hle hc := hle.1.subset hc
  traced hc := hc
  run _ _ _ _ hC hr hV := hC.forward_runs hi hr hV
  roots hC _ _ := hC.withRoots _
  store hC hc hf hs _ hv := hC.store hc hf hs hv

/-! ## The scan -/

/-- The fields `done` are those of the copies `vs`. -/
def FieldsOf (h₀ : Arena) (vs : List Copy) (done : List Nat) : Prop := ∀ a,
    a ∈ done ↔ ∃ c ∈ vs, c.IsField h₀ a

/-- The scan ends with every copy visited. -/
theorem scanCopies_runs (hi : Inv m₀ blocks S) {m : Machine (Semispace × Bump)} {cs vs : List Copy}
    {done : List Nat} {n scan : Nat} (hC : Copying m₀ blocks m cs done)
    (hdone : FieldsOf m₀.heap vs done) (hpre : vs <+: cs)
    (hpos : Stacked 2 m₀.own.spare.first (vs.map Copy.block) scan)
    (hn : m₀.own.spare.limit < n + scan) :
    Runs (scanCopies n scan) m
    (fun _ m' => ∃ cs' done', cs <+: cs' ∧ Copying m₀ blocks m' cs' done' ∧
      FieldsOf m₀.heap cs' done' ∧ m'.roots = m.roots ∧
      Searched m₀.heap vs.length (cs.map Copy.old) (cs'.map Copy.old)) fun _ _ => False := by
  -- the copies `vs` are visited and end at `scan`; each step visits the next one
  induction n generalizing scan vs m cs done with
  | zero =>
    have hle := (Stacked.all_copies hpre hpos hC.stacked).1
    have htop := hC.top_le
    omega
  | succ n ih =>
    rw [scanCopies]
    refine Runs.step GcM.run_scratch ?_
    by_cases hlt : scan < m.own.2.top
    · rw [if_pos hlt]
      obtain ⟨c, hnext, hnv, hcn, hpos1⟩ := Stacked.next_copy hpre hpos hC.stacked hlt
      have hc : c ∈ cs := hnext.subset (by simp)
      obtain ⟨hknown, hfit⟩ := hC.fits hi hc
      have hlive := (hC.source c hc).1
      have hci := hC.evac.inside c hc
      have hsz := hC.evac.new_size c hc
      have hsize := hC.evac.size_eq
      simp only [header_words, header_size] at hci hsz
      have hV : ∀ i, c.IsField m₀.heap (c.new + i) →
          (m₀.heap.value (c.old + i)).Within (Live m₀) := by
        rintro i ⟨ht, j, hj, hij, -⟩
        exact hi.live.closed.field _ _ hlive ht (by omega)
      have hd : ∀ a ∈ done, ¬ c.IsField m₀.heap a := by
        intro a ha hca
        obtain ⟨d, hdv, hda⟩ := (hdone a).mp ha
        have hdc := hpre.subset hdv
        have hcd := hC.evac.eq_of_isField hc hdc hfit (hC.fits hi hdc).2 hca hda
        exact hnv (hcd ▸ hdv)
      rw [show scan + headerWords = c.new from hcn.symm]
      refine Runs.step (read_lift (blockSize_run (by omega) (by omega))) ?_
      rw [hsz]
      refine ((evacuates hi).traceObject_runs hC hc hknown hfit hV hd).bind ?_
      rintro - m1 ⟨cs1, done1, ⟨hle1, hdis1⟩, hC1, hdone1, hroots1⟩
      have hdone1 : FieldsOf m₀.heap (vs ++ [c]) done1 := by
        intro a
        rw [hdone1 a, hdone a]
        simp only [List.mem_append, List.mem_singleton]
        grind
      refine (ih hC1 hdone1 (hnext.trans hle1) hpos1 (by omega)).mono ?_
      rintro - m2 ⟨cs2, done2, hle2, hC2, hdone2, hroots2, hsearch⟩
      obtain ⟨rest, hcs⟩ := hnext
      refine ⟨cs2, done2, hle1.trans hle2, hC2, hdone2, hroots2.trans hroots1, .next (o := c.old)
        (by simp [← hcs]) ?_⟩
      rwa [List.length_append, hdis1] at hsearch
    · rw [if_neg hlt]
      obtain ⟨rfl, rfl⟩ := (Stacked.all_copies hpre hpos hC.stacked).2 (by omega)
      exact Runs.pure ⟨vs, done, List.prefix_refl _, hC, hdone, rfl, .done (by simp)⟩

/-! ## The whole collection -/

/-- The state in which a collection begins. -/
def begun (m : Machine Semispace) : Machine (Semispace × Bump) :=
  m.withOwn (m.own, Bump.empty m.own.spare)

theorem Copying.start (hi : Inv m₀ blocks S) : Copying m₀ blocks (begun m₀) [] [] := by
  have hnone : ∀ {p : Copy}, p ∉ ([] : List Copy) := List.not_mem_nil
  refine ⟨?_, rfl, rfl, rfl, hi.spare, fun c hc => absurd hc hnone, .nil, rfl, rfl⟩
  refine ⟨rfl, fun _ _ _ _ _ _ => rfl, fun b hb _ => hi.unforwarded b hb,
    fun _ _ p hp => absurd hp hnone,
    fun p hp => absurd hp hnone, fun p hp =>
      absurd hp hnone, fun a ha => absurd ha List.not_mem_nil,
    fun p hp => absurd hp hnone, fun p hp =>
      absurd hp hnone, fun p _ hp => absurd hp hnone, fun p _ hp => absurd hp hnone,
    fun p hp => absurd hp hnone, fun p hp => absurd hp hnone, fun b hb => hi.block_inside hb,
    fun b hb c hc => hi.block_apart hb hc⟩

/-- Roots and copies are all visited. -/
theorem visit_runs (hi : Inv m₀ blocks S) :
    Runs (do
        traceRoots forward
        scanCopies (m₀.own.spare.length + 1) m₀.own.spare.first) (begun m₀)
      (fun _ m' => ∃ cs done, Copying m₀ blocks m' cs done ∧ FieldsOf m₀.heap cs done ∧
        m₀.roots.Mapped (Image (ImageIn (· ∈ cs))) m'.roots ∧
        Searched m₀.heap 0 (discover [] m₀.roots.referring) (cs.map Copy.old))
          fun _ _ => False := by
  refine (traceRoots_runs ((evacuates hi).visits []) (Copying.start hi)
    fun slot v hv _ => hi.live.roots slot v hv).bind ?_
  rintro - m1 ⟨cs1, ⟨-, hdis⟩, hC1, hmap1⟩
  have hnone : FieldsOf m₀.heap [] [] := fun a => by simp
  refine (scanCopies_runs hi hC1 hnone List.nil_prefix rfl ?_).mono ?_
  · have h1 := hi.spare
    unfold Region.length
    omega
  · rintro - m2 ⟨cs2, done2, hle2, hC2, hdone2, hroots2, hsearch⟩
    rw [hdis] at hsearch
    refine ⟨cs2, done2, hC2, hdone2, ?_, hsearch⟩
    rw [hroots2]
    refine ⟨hmap1.depth, hmap1.table, hmap1.capacity, hmap1.parked, hmap1.hash, fun slot v hv => ?_⟩
    obtain ⟨v', hv', him⟩ := hmap1.slot slot v hv
    exact ⟨v', hv', him.imp (fun h => ⟨h.1, h.2.mono fun _ hc => hle2.subset hc⟩) id⟩

/-- What a collection makes of `m`: the blocks `copies`, with `ρ` the addresses of the copies. -/
structure Copied (m m' : Machine Semispace) (blocks copies : List (Nat × Nat))
    (ρ : Nat → Nat) : Prop where
  /-- What the roots reach is copied, with its size, and nothing else is. -/
  image : ∀ o' n, (o', n) ∈ copies ↔ ∃ o, Live m o ∧ (o, n) ∈ blocks ∧ o' = ρ o
  renamed : Renamed ρ (Live m) m.heap m'.heap
  /-- The references in a copy are renamed, all its other words are kept. -/
  word : ∀ o n i, Live m o → (o, n) ∈ blocks → i + 2 < n → m'.heap.word (ρ o + i)
    = if m.heap.tag o = some .pair ∧ (i = 1 ∨ i = 2) then ((m.heap.value (o + i)).rename ρ).bits
      else m.heap.word (o + i)
  roots : m.roots.Mapped (fun v v' => v' = v.rename ρ) m'.roots
  inv : Inv m' copies fun o' => ∃ o, Live m o ∧ o' = ρ o
  region : m'.own.space.region = m.own.spare
  spare : m'.own.spare = m.own.space.region
  size_eq : m'.heap.size = m.heap.size
  stress : m'.stress = m.stress
  cycles : m'.stats.collections = m.stats.collections + 1

/-- The machine after a collection whose visits left `m`. -/
def ended (m₀ : Machine Semispace) (m : Machine (Semispace × Bump)) (stats : Stats) :
    Machine Semispace :=
  ⟨m.heap, m.roots, m.stress, stats, ⟨m.own.2, m₀.own.space.region⟩⟩

section Outcome

variable {m : Machine (Semispace × Bump)} {cs : List Copy} {done : List Nat} {stats : Stats}

/-- The renaming takes an original to its copy. -/
theorem Copying.relocate_old (hC : Copying m₀ blocks m cs done) {c : Copy} (hc : c ∈ cs) :
    relocate cs c.old = c.new :=
  relocate_of_mem hc fun d hd ho => hC.evac.single d c hd hc ho

/-- Everything reachable has a copy when all visits are done. -/
theorem Copying.copy_of_live (hi : Inv m₀ blocks S) (hC : Copying m₀ blocks m cs done)
    (hdone : FieldsOf m₀.heap cs done) (hmap : m₀.roots.Mapped (Image (ImageIn (· ∈ cs))) m.roots)
    {o : Nat} (ho : Live m₀ o) : ∃ c ∈ cs, c.old = o := by
  induction ho with
  | root hroot =>
    obtain ⟨slot, v, hv, hr⟩ := hroot
    obtain ⟨v', -, ⟨-, c, hc, hco, -⟩ | ⟨hn, -⟩⟩ := hmap.slot slot v hv
    · rw [hr] at hco
      cases hco
      exact ⟨c, hc, rfl⟩
    · rw [Value.ref?_eq_none hn] at hr
      cases hr
  | @step o o' _ hsucc ih =>
    obtain ⟨c, hc, rfl⟩ := ih
    obtain ⟨ht, hval⟩ := Arena.mem_succ.mp hsucc
    obtain ⟨i, hi12, hci⟩ : ∃ i, (i = 1 ∨ i = 2) ∧ (m₀.heap.value (c.old + i)).ref? = some o' := by
      rcases hval with hval | hval
      · exact ⟨1, .inl rfl, hval⟩
      · exact ⟨2, .inr rfl, hval⟩
    have hfit := (hC.fits hi hc).2
    rw [Arena.payload_of_pair ht] at hfit
    have hmem : c.new + i ∈ done := (hdone _).mpr ⟨c, hc, ht, i, hi12, rfl, Value.isRef_of_ref? hci⟩
    obtain ⟨d, hd, hdo, -⟩ := hC.evac.visited c hc i (by simp only [header_words]; omega) hmem
    rw [hci] at hdo
    cases hdo
    exact ⟨d, hd, rfl⟩

/-- A word of a copy when all visits are done. -/
theorem Copying.word_copied (hC : Copying m₀ blocks m cs done) (hdone : FieldsOf m₀.heap cs done)
    {c : Copy} (hc : c ∈ cs) {i : Nat} (hs : i + 2 < c.size) : m.heap.word (c.new + i)
      = if m₀.heap.tag c.old = some .pair ∧ (i = 1 ∨ i = 2) then
      ((m₀.heap.value (c.old + i)).rename (relocate cs)).bits
        else m₀.heap.word (c.old + i) :=
  hC.evac.word_visited (fun _ hp => hC.relocate_old hp) hc
    (fun a ha => (hdone a).mpr ⟨c, hc, ha⟩) hs

theorem Copying.renamed (hi : Inv m₀ blocks S) (hC : Copying m₀ blocks m cs done)
    (hdone : FieldsOf m₀.heap cs done) (hmap : m₀.roots.Mapped (Image (ImageIn (· ∈ cs))) m.roots) :
    Renamed (relocate cs) (Live m₀) m₀.heap m.heap := by
  refine ⟨fun o o' ho ho' he => ?_, fun o i ho hlt hnf => ?_, fun o i ho ht hio => ?_⟩
  · obtain ⟨c, hc, rfl⟩ := hC.copy_of_live hi hdone hmap ho
    obtain ⟨d, hd, rfl⟩ := hC.copy_of_live hi hdone hmap ho'
    rw [hC.relocate_old hc, hC.relocate_old hd] at he
    rw [hC.evac.eq_of_new hc hd he]
  · obtain ⟨c, hc, rfl⟩ := hC.copy_of_live hi hdone hmap ho
    have hfit := (hC.fits hi hc).2
    rw [hC.relocate_old hc, hC.word_copied hdone hc (by omega), if_neg hnf]
  · obtain ⟨c, hc, rfl⟩ := hC.copy_of_live hi hdone hmap ho
    have hfit := (hC.fits hi hc).2
    rw [Arena.payload_of_pair ht] at hfit
    rw [hC.relocate_old hc, Arena.value, hC.word_copied hdone hc (by omega), if_pos ⟨ht, hio⟩]

theorem Copying.named (hi : Inv m₀ blocks S) (hC : Copying m₀ blocks m cs done)
    (hdone : FieldsOf m₀.heap cs done) (hmap : m₀.roots.Mapped (Image (ImageIn (· ∈ cs))) m.roots) :
    Value.Named fun o' => ∃ o, Live m₀ o ∧ o' = relocate cs o := by
  rintro o' ⟨o, ho, rfl⟩
  obtain ⟨c, hc, rfl⟩ := hC.copy_of_live hi hdone hmap ho
  have hci := hC.evac.inside c hc
  have hsmall := hi.small
  simp only [header_words] at hci
  rw [hC.relocate_old hc]
  omega

/-- What is left is in good order again. -/
theorem Copying.inv (hi : Inv m₀ blocks S) (hC : Copying m₀ blocks m cs done)
    (hdone : FieldsOf m₀.heap cs done) (hmap : m₀.roots.Mapped (Image (ImageIn (· ∈ cs))) m.roots) :
    Inv (ended m₀ m stats) (cs.map Copy.block) fun o' => ∃ o, Live m₀ o ∧ o' = relocate cs o := by
  have hren := hC.renamed hi hdone hmap
  have hnamed := hC.named hi hdone hmap
  have hcl := hi.live.closed
  have hsize : (ended m₀ m stats).heap.size = m₀.heap.size := hC.evac.size_eq
  have hregion : (ended m₀ m stats).own.space.region = m₀.own.spare := hC.region
  have htop : m₀.own.space.region.first ≤ m₀.own.space.region.limit :=
    Nat.le_trans hi.stacked.le hi.top_le
  refine ⟨by rw [hsize]; exact hi.small, by rw [hregion]; exact hC.top_le, by
    rw [hregion, hsize]; exact hi.spare_inside,
    htop, by
      rw [hsize]; exact hi.inside, by
        rw [hregion]; exact hi.apart.symm, by rw [hregion]; exact hi.length_eq.symm,
    by rw [hregion]; exact hC.stacked, ?_, ?_, ?_, hren.closed hcl hnamed, ?_⟩
  · intro b hb
    obtain ⟨c, hc, rfl⟩ := List.mem_map.mp hb
    exact hC.evac.new_size c hc
  · intro b hb
    obtain ⟨c, hc, rfl⟩ := List.mem_map.mp hb
    exact hC.evac.new_forward c hc
  · rintro o' ⟨o, ho, rfl⟩
    obtain ⟨c, hc, rfl⟩ := hC.copy_of_live hi hdone hmap ho
    refine ⟨c.size, List.mem_map.mpr ⟨c, hc, ?_⟩, ?_⟩
    · rw [hC.relocate_old hc]
      rfl
    · rw [show (ended m₀ m stats).heap = m.heap from rfl, hren.payload hcl ho]
      exact (hC.fits hi hc).2
  · intro slot v' hv'
    obtain ⟨v, hv, him⟩ := hmap.of_slot hv'
    rw [ImageIn.eq_rename (fun _ hp => hC.relocate_old hp) him]
    exact Value.rename_within (hi.live.roots slot v hv) hnamed

/-- What the visits leave is the outcome of a collection. -/
theorem Copying.outcome (hi : Inv m₀ blocks S) (hC : Copying m₀ blocks m cs done)
    (hdone : FieldsOf m₀.heap cs done) (hmap : m₀.roots.Mapped (Image (ImageIn (· ∈ cs))) m.roots)
    (hstats : stats.collections = m₀.stats.collections + 1) :
    Copied m₀ (ended m₀ m stats) blocks (cs.map Copy.block) (relocate cs) where
  image o' n := by
    constructor
    · intro hb
      obtain ⟨c, hc, he⟩ := List.mem_map.mp hb
      cases he
      exact ⟨c.old, (hC.source c hc).1, (hC.source c hc).2, (hC.relocate_old hc).symm⟩
    · rintro ⟨o, ho, hb, rfl⟩
      obtain ⟨c, hc, rfl⟩ := hC.copy_of_live hi hdone hmap ho
      refine List.mem_map.mpr ⟨c, hc, ?_⟩
      rw [hC.relocate_old hc, hi.stacked.size_unique hb (hC.source c hc).2]
      rfl
  renamed := hC.renamed hi hdone hmap
  word o n i ho hb hs := by
    obtain ⟨c, hc, rfl⟩ := hC.copy_of_live hi hdone hmap ho
    rw [hi.stacked.size_unique hb (hC.source c hc).2] at hs
    rw [hC.relocate_old hc]
    exact hC.word_copied hdone hc hs
  roots := by
    refine ⟨hmap.depth, hmap.table, hmap.capacity, hmap.parked, hmap.hash, fun slot v hv => ?_⟩
    obtain ⟨v', hv', him⟩ := hmap.slot slot v hv
    exact ⟨v', hv', ImageIn.eq_rename (fun _ hp => hC.relocate_old hp) him⟩
  inv := hC.inv hi hdone hmap
  region := hC.region
  spare := rfl
  size_eq := hC.evac.size_eq
  stress := hC.stress
  cycles := hstats

end Outcome

/-- The copies that a collection of `m` makes, in the order in which a search from the roots
discovers the originals. -/
structure InOrder (m : Machine Semispace) (blocks : List (Nat × Nat)) (cs : List Copy) : Prop where
  searched : Searched m.heap 0 (discover [] m.roots.referring) (cs.map Copy.old)
  source : ∀ c ∈ cs, Live m c.old ∧ (c.old, c.size) ∈ blocks
  complete : ∀ o, Live m o → ∃ c ∈ cs, c.old = o
  relocated : ∀ c ∈ cs, relocate cs c.old = c.new

/-- A collection always ends, with the copies in the order of a search, and records what it took out
of use and what is left. -/
theorem evacuate_searches {m : Machine Semispace} (hi : Inv m blocks S) :
    Runs evacuate m (fun _ m' =>
      (∃ cs, Copied m m' blocks (cs.map Copy.block) (relocate cs) ∧ InOrder m blocks cs) ∧
      m'.stats = m.stats.recordCycle .full (m.own.space.used - m'.own.space.used) m'.own.space.used)
        fun _ _ => False := by
  unfold evacuate
  refine Runs.step GcM.run_own ?_
  refine (GcM.runs_cycle (visit_runs hi)).bind ?_
  rintro ⟨-, ev⟩ m1 ⟨m2, ⟨cs, done, hC, hdone, hmap, hsearch⟩, rfl, rfl⟩
  refine Runs.step (GcM.run_modifyOwn _) ?_
  refine Runs.of_eq (GcM.run_recordCycle _ _ _) ⟨⟨cs, hC.outcome hi hdone hmap ?_,
    ⟨hsearch, hC.source, fun _ => hC.copy_of_live hi hdone hmap, fun _ => hC.relocate_old⟩⟩, ?_⟩
  · simp only [Stats.recordCycle, Machine.withOwn_stats, hC.stats]
  · simp only [Machine.withOwn_stats, Machine.withOwn_own, hC.stats]

/-- A collection always ends, and records what it took out of use and what is left. -/
theorem evacuate_records {m : Machine Semispace} (hi : Inv m blocks S) :
    Runs evacuate m (fun _ m' => (∃ copies ρ, Copied m m' blocks copies ρ) ∧
      m'.stats = m.stats.recordCycle .full (m.own.space.used - m'.own.space.used) m'.own.space.used)
        fun _ _ => False :=
  (evacuate_searches hi).mono fun _ _ ⟨⟨_, hc, _⟩, hstats⟩ => ⟨⟨_, _, hc⟩, hstats⟩

/-- A collection always ends. -/
theorem evacuate_runs {m : Machine Semispace} (hi : Inv m blocks S) :
    Runs evacuate m (fun _ m' => ∃ copies ρ, Copied m m' blocks copies ρ) fun _ _ => False :=
  (evacuate_records hi).mono fun _ _ h => h.1

/-- A collection ends with one copy of each object that the roots reach, side by side in the other
half, and every reference renamed. -/
theorem evacuate_copies_reachable {m : Machine Semispace} (hi : Inv m blocks S) :
    ∃ m' copies ρ, evacuate m = .ok () m' ∧ Copied m m' blocks copies ρ ∧
      objects m'.own m'.heap = .ok copies ∧ m'.own.space.used = (copies.map Prod.snd).sum := by
  obtain ⟨⟨⟩, m', hrun, copies, ρ, hc⟩ := (evacuate_runs hi).exists_ok
  refine ⟨m', copies, ρ, hrun, hc, hc.inv.objects, ?_⟩
  have hend := hc.inv.stacked.end_eq
  unfold Bump.used
  omega

/-- Two pairs that refer to each other, one of them twice, with a pair between them that nothing
refers to. -/
def ring : Machine Semispace where
  heap :=
    ⟨#[5, 0, 2, 96, 96, 5, 0, 2, 14, 14, 5, 0, 2, 16, 14, 0, 0, 0, 0, 0, 0, 0, 0, 0, 0, 0, 0, 0,
      0, 0, 0, 0]⟩
  roots :=
    { stack := #[.ofRef 12], capacity := 4, parked := 0, globals := #[.undef], hash := fun _ => 0 }
  stress := false
  stats := {}
  own := ⟨⟨⟨0, 16⟩, 15⟩, ⟨16, 32⟩⟩

theorem ring_inv : Inv ring [(2, 5), (7, 5), (12, 5)] fun o => o = 2 ∨ o = 12 where
  small := by decide
  top_le := by decide
  inside := by decide
  spare := by decide
  spare_inside := by decide
  apart := by decide
  length_eq := by decide
  stacked := ⟨rfl, by decide, rfl, by decide, rfl, by decide, rfl⟩
  sized := by unfold Sized; decide
  unforwarded := by decide
  placed := by
    rintro o (rfl | rfl)
    · exact ⟨5, by decide, by decide⟩
    · exact ⟨5, by decide, by decide⟩
  closed := by
    have hlow : (Value.ofRef 2).Within fun o => o = 2 ∨ o = 12 :=
      Value.ofRef_within (by decide) (by decide) (.inl rfl)
    have hhigh : (Value.ofRef 12).Within fun o => o = 2 ∨ o = 12 :=
      Value.ofRef_within (by decide) (by decide) (.inr rfl)
    have hnil : Value.nil.Within fun o => o = 2 ∨ o = 12 := .of_not_ref (by decide)
    refine ⟨?_, ?_⟩
    · rintro o (rfl | rfl) <;> decide
    · rintro o a (rfl | rfl) - (rfl | rfl)
      · exact hhigh
      · exact hhigh
      · exact hlow
      · exact hnil
  roots := Roots.within_of_single rfl rfl (Value.ofRef_within (by decide) (by decide) (.inr rfl))
    (.of_not_ref (v := .undef) (by decide))

/-- The two pairs are copied, the root first, and refer to each other in the other half. -/
theorem ring_copied : ∃ m' copies ρ, evacuate ring = .ok () m' ∧
    Copied ring m' [(2, 5), (7, 5), (12, 5)] copies ρ ∧
    copies = [(18, 5), (23, 5)] ∧ m'.own.space.used = 10 := by
  have hok : (match evacuate ring with
      | .ok _ m' => (objects m'.own m'.heap).toOption == some [(18, 5), (23, 5)]
      | .error _ _ => false) = true := by
    decide +kernel
  obtain ⟨m', copies, ρ, hrun, hc, hobjs, hused⟩ := evacuate_copies_reachable ring_inv
  rw [hrun] at hok
  simp only [hobjs] at hok
  obtain rfl : copies = [(18, 5), (23, 5)] := Option.some.inj (eq_of_beq hok)
  exact ⟨m', _, ρ, hrun, hc, rfl, hused⟩

end Reclaim.Semispace
