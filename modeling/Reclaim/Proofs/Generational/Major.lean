import Reclaim.Proofs.Compaction
import Reclaim.Proofs.Marking
import Reclaim.Proofs.Generational.MinorCollection

/-!
# Major collection: marks, flags and new addresses

The first half of a major collection changes headers alone: it marks what the roots reach, sets the
remembered flag of each marked tenured object by whether it refers into the nursery, and notes the
new addresses. `Prepared` says what the words of the heap are when that is done.

Results:
* `claims`: marking by a flag obeys the laws of the mark phase.
* `prepare`: the heap after the first half, and the number of objects to remember.
* `length_recalled_le`: that is at most the number of entries so far.
-/

namespace Reclaim.Generational

variable {m₀ : Machine Generational} {young old : List (Nat × Nat)} {S : Nat → Prop}

/-- Objects of `S`, with their headers, do not overlap. -/
theorem Filled.objects_apart {T : Nat → Prop} (hi : Filled m₀ young old S) (hT : ∀ o, T o → S o)
    (hcl : Closed m₀.heap T) :
    Apart 3 m₀.heap T := by
  refine ⟨hcl, fun o ho => ?_, fun o o' ho ho' => ?_⟩
  · obtain ⟨n, hb, hfit⟩ := hi.placed o (hT o ho)
    have hin := hi.block_inside hb
    simp only at hin
    omega
  · obtain ⟨n, hb, hfit⟩ := hi.placed o (hT o ho)
    obtain ⟨n', hb', hfit'⟩ := hi.placed o' (hT o' ho')
    rcases hi.block_apart hb hb' with h | h | h
    · exact .inl (congrArg Prod.fst h)
    · exact .inr (.inl (by simp only at h; omega))
    · exact .inr (.inr (by simp only at h; omega))

/-! ## Marks -/

/-- Exactly the objects `ms` are marked, and nothing else has changed since `m₀`. -/
def Marked (m₀ : Machine Generational) (S : Nat → Prop) (m : Machine Generational)
    (ms : List Nat) : Prop :=
  Marking.InHeaders (· ||| markedFlag) m₀ S m ms

theorem claim_flags : Marking.Flags (σ := Generational) claim (fun w => w &&& markedFlag != 0)
    (· ||| markedFlag) where
  test_mark w := by
    simp only [or_and_self]
    decide
  seen m o h1 hs ht := by
    rw [claim, bind_ok (read_lift (hasFlag_run h1 hs)), ht]
    rfl
  fresh m o h1 hs ht := by
    have hset : setFlag markedFlag true o m.heap = .ok ()
        (m.heap.put (o - 1) (m.heap.word (o - 1) ||| markedFlag)) :=
      setFlag_run h1 hs
    rw [claim, bind_ok (read_lift (hasFlag_run h1 hs)), ht]
    simp only [Bool.false_eq_true, if_false]
    rw [bind_ok (heap_lift hset)]
    rfl

theorem Filled.unmarked (hi : Filled m₀ young old S) {b : Nat × Nat} (hb : b ∈ young ∨ b ∈ old) :
    (m₀.heap.word (b.1 - 1) &&& markedFlag != 0) = false := by
  rw [hi.no_mark b hb]
  decide

theorem Filled.spaced (hi : Filled m₀ young old S) :
    Marking.Spaced m₀.heap S fun b => b ∈ young ∨ b ∈ old :=
  ⟨hi.block_inside, hi.block_apart, hi.placed⟩

theorem claims (hi : Filled m₀ young old S) : Marking.Claims claim m₀.heap S (Marked m₀ S) :=
  claim_flags.claims hi.spaced hi.linked fun _ hb => hi.unmarked hb

theorem markedIn_run (hi : Filled m₀ young old S) {m : Machine Generational} {ms : List Nat}
    (hm : Marked m₀ S m ms) {space : Bump} {bs : List (Nat × Nat)}
    (hb : Stacked 3 space.region.first bs space.top) (hz : Sized 2 m₀.heap bs)
    (hsub : ∀ b ∈ bs, b ∈ young ∨ b ∈ old) (htop : space.top ≤ m₀.heap.size) :
    markedIn space m.heap = .ok ((marked ms bs).map Prod.fst) := by
  have hsize := hm.size_eq
  have hz' : Sized 2 m.heap bs := by
    intro b hbs
    have hin := hi.block_inside (hsub b hbs)
    rw [hm.other]
    · exact hz b hbs
    · intro hmem
      obtain ⟨n, hc, -⟩ := hi.placed _ (hm.valid _ hmem)
      have hcin := hi.block_inside hc
      rcases hi.block_apart (hsub b hbs) hc with h | h | h
      · have h1 : b.1 = b.1 - 2 + 1 := congrArg Prod.fst h
        omega
      · simp only at h hcin; omega
      · simp only at h hcin; omega
  have hlist : blocksOf headerWords sizeOffset space m.heap = .ok bs :=
    blocksOf_run hb hz' (by decide) (by decide) (by omega)
  rw [markedIn, read_bind hlist]
  have hflag : ∀ o ∈ bs.map Prod.fst, hasFlag markedFlag o m.heap = .ok (decide (o ∈ ms)) := by
    intro o ho
    obtain ⟨b, hbs, rfl⟩ := List.mem_map.mp ho
    have hin := hi.block_inside (hsub b hbs)
    have htest : (m.heap.word (b.1 - 1) &&& markedFlag != 0) = decide (b.1 ∈ ms) :=
      hm.test_eq claim_flags (by omega) (hi.unmarked (hsub b hbs))
    rw [hasFlag_run (by omega) (by omega), htest]
  rw [filterM_run hflag, marked, List.filter_map]
  rfl

/-! ## Remembered flags -/

/-- The flag word `w` with the remembered bit set or taken off. -/
def flagAs (hit : Bool) (w : Word) : Word :=
  if hit then w ||| rememberedFlag else w &&& ~~~rememberedFlag

theorem flagAs_and_not (hit : Bool) (w : Word) :
    flagAs hit w &&& ~~~rememberedFlag = w &&& ~~~rememberedFlag := by
  cases hit with
  | true => exact or_and_not_self _ _
  | false => exact and_not_and_not_self _ _

theorem flagAs_and (hit : Bool) (w : Word) : flagAs hit w &&& rememberedFlag ≠ 0 ↔ hit = true := by
  cases hit with
  | true => simp [flagAs, or_and_self, rememberedFlag]
  | false => simp [flagAs, and_not_and_self]

/-- The remembered flag of each of `os` says whether it refers into `r`. -/
structure Flagged (r : Region) (h h' : Arena) (os : List Nat) : Prop where
  size_eq : h'.size = h.size
  flag : ∀ o ∈ os, h'.word (o - 1) = flagAs (pointsInto? h r o) (h.word (o - 1))
  other : ∀ a, a + 1 ∉ os → h'.word a = h.word a

theorem flagRemembered_run {r : Region} {os : List Nat} {h : Arena} (hr : ∀ o ∈ os, ReadableAt h o)
    (hap : FlagsApart h os) (hnd : os.Nodup) :
    ∃ h', flagRemembered r os h = .ok (os.filter (pointsInto? h r)).length h' ∧
    Flagged r h h' os := by
  induction os generalizing h with
  | nil => exact ⟨h, rfl, rfl, fun _ ho => absurd ho List.not_mem_nil, fun _ _ => rfl⟩
  | cons o os ih =>
    have ho := hr o (by simp)
    have hos : ∀ x ∈ os, ReadableAt h x := fun x hx => hr x (by simp [hx])
    have hpos := ho.pos
    have hin := ho.inside
    have hpay := Arena.payload_pos ho.known
    obtain ⟨hno, hnd'⟩ := List.nodup_cons.mp hnd
    have hset : setFlag rememberedFlag (pointsInto? h r o) o h
        = .ok () (h.put (o - 1) (flagAs (pointsInto? h r o) (h.word (o - 1)))) :=
          setFlag_run hpos (by omega)
    -- the others are read as before
    have hsame := fun x (hx : x ∈ os) => readable_put hap (o := x) (e := o) (by simp) (by simp [hx])
      (hos x hx) hpos
      (flagAs (pointsInto? h r o) (h.word (o - 1)))
    have hpts : ∀ x ∈ os, pointsInto?
      (h.put (o - 1) (flagAs (pointsInto? h r o) (h.word (o - 1)))) r x
        = pointsInto? h r x := fun x hx => congrArg (fun cs => cs.any r.contains) (hsame x hx).2
    obtain ⟨h', hrun, hf⟩ := ih (h := h.put (o - 1) (flagAs (pointsInto? h r o) (h.word (o - 1))))
      (fun x hx => ⟨(hos x hx).pos, by rw [Arena.tag_congr (hsame x hx).1]; exact (hos x hx).known,
        by rw [Arena.payload_congr (hsame x hx).1, Arena.size_put]; exact (hos x hx).inside⟩)
      (fun x hx y hy => by rw [Arena.payload_congr (hsame y hy).1]; exact hap x (by simp [hx]) y (by
        simp [hy])) hnd'
    refine ⟨h', ?_, ?_⟩
    · rw [flagRemembered, bind_ok (read_heap (pointsInto_run ho)), bind_ok hset, bind_ok hrun,
        List.filter_congr hpts]
      cases hp : pointsInto? h r o <;> simp [hp, Nat.add_comm] <;> rfl
    · refine ⟨by rw [hf.size_eq, Arena.size_put], fun x hx => ?_, fun a ha => ?_⟩
      · rcases List.mem_cons.mp hx with rfl | hx
        · have hx1 : x - 1 + 1 = x := by omega
          rw [hf.other _ (by rw [hx1]; exact hno), Arena.word_put_self _ (by omega)]
        · have hxp := (hos x hx).pos
          have hxo : x ≠ o := fun h => hno (h ▸ hx)
          rw [hf.flag x hx, hpts x hx, Arena.word_put_ne _ (by omega)]
      · simp only [List.mem_cons, not_or] at ha
        rw [hf.other a ha.2, Arena.word_put_ne _ (by omega)]

/-! ## New addresses -/

/-- Assigning addresses notes those of the blocks moved together from `top` on. -/
theorem assign_run {bs : List (Nat × Nat)} {h : Arena} (top : Nat) (hz : Sized 2 h bs)
    (hin : ∀ b ∈ bs, 3 ≤ b.1 ∧ b.1 ≤ h.size ∧ 3 < b.2)
    (hap : ∀ b ∈ bs, ∀ c ∈ bs, c.1 - 2 ≠ b.1 - 3) :
    ∃ top', assign top (bs.map Prod.fst) h = .ok top' (noted 3 h (targets 3 top bs)) ∧
      Stacked 3 top ((targets 3 top bs).map Copy.block) top' := by
  refine assign_noted (L := header) (fun _ _ => rfl) (fun top o os h h1 h2 => ?_) top hz hin hap
  simp only [header_words, header_size, header_forward] at h1 ⊢
  have hfwd : setForwarding o (top + headerWords) h = .ok ()
      (h.put (o - 3) (UInt64.ofNat (top + 3))) :=
    setForwarding_run h1 (by omega)
  have hsz : blockSize o (h.put (o - 3) (UInt64.ofNat (top + 3)))
      = .ok ((h.put (o - 3) (UInt64.ofNat (top + 3))).word (o - 2)).toNat :=
        blockSize_run (by omega) (by simp; omega)
  rw [assign, bind_ok hfwd, bind_ok (read_heap hsz)]

/-! ## What is found -/

/-- The objects that a major collection finds. -/
structure Found (m₀ : Machine Generational) (young old : List (Nat × Nat)) (S : Nat → Prop)
    (ms : List Nat) : Prop where
  inv : Filled m₀ young old S
  reach : ∀ o, o ∈ ms ↔ Reach m₀.heap m₀.roots.Refers o
  known : ∀ o ∈ ms, m₀.heap.tag o ≠ none

namespace Found

variable {ms : List Nat}

theorem valid (hf : Found m₀ young old S ms) (o : Nat) (ho : o ∈ ms) : S o :=
  ((hf.reach o).mp ho).mem_of_linked hf.inv.linked fun _ h => hf.inv.roots.refers h

theorem closed (hf : Found m₀ young old S ms) : Closed m₀.heap (· ∈ ms) := by
  have hl := hf.inv.linked.reach fun _ h => hf.inv.roots.refers h
  exact ⟨hf.known, fun o a ho ht ha => (hl o a ((hf.reach o).mp ho) ht ha).mono
    fun c hc => (hf.reach c).mpr hc⟩

theorem apart (hf : Found m₀ young old S ms) : Apart 3 m₀.heap (· ∈ ms) :=
  hf.inv.objects_apart hf.valid hf.closed

theorem roots (hf : Found m₀ young old S ms) : m₀.roots.Within (· ∈ ms) := by
  intro slot v hv c hc
  exact ⟨(hf.inv.roots slot v hv c hc).1, (hf.reach c).mpr (.root ⟨slot, v, hv, hc⟩)⟩

/-- A marked object lies in a marked block. -/
theorem block (hf : Found m₀ young old S ms) {o : Nat} (ho : o ∈ ms) :
    ∃ n, ((o, n) ∈ marked ms young ∨ (o, n) ∈ marked ms old) ∧ 3 + m₀.heap.payload o ≤ n := by
  obtain ⟨n, hb, hfit⟩ := hf.inv.placed o (hf.valid o ho)
  exact ⟨n, hb.imp (fun h => mem_marked.mpr ⟨h, ho⟩) (fun h => mem_marked.mpr ⟨h, ho⟩), hfit⟩

end Found

/-! ## The first half -/

/-- The heap when the objects `ms` are marked, those of them in tenured space are flagged by whether
they refer into the nursery, and the new addresses of the latter are noted. -/
structure Prepared (m₀ : Machine Generational) (young old : List (Nat × Nat)) (ms : List Nat)
    (h : Arena) : Prop where
  size_eq : h.size = m₀.heap.size
  forward : ∀ p ∈ targets 3 m₀.own.tenured.region.first (marked ms old), h.word (p.old - 3) =
    UInt64.ofNat p.new
  young_flags : ∀ b ∈ marked ms young, h.word (b.1 - 1) = m₀.heap.word (b.1 - 1) ||| markedFlag
  old_flags : ∀ b ∈ marked ms old, h.word (b.1 - 1)
    = flagAs (pointsInto? m₀.heap m₀.own.nursery.region b.1) (m₀.heap.word (b.1 - 1) ||| markedFlag)
  other : ∀ a, a + 1 ∉ ms → (∀ b ∈ marked ms old, a + 3 ≠ b.1) → h.word a = m₀.heap.word a

section Prepare

variable {m : Machine Generational} {ms : List Nat}

theorem Marked.head (hi : Filled m₀ young old S) (hm : Marked m₀ S m ms) {o : Nat} (ho : S o) :
    m.heap.word o = m₀.heap.word o := (claims hi).word hm o 0 ho Arena.extent_pos

theorem Marked.succ_eq (hi : Filled m₀ young old S) (hm : Marked m₀ S m ms) {o : Nat} (ho : S o) :
    m.heap.succ o = m₀.heap.succ o := by
  refine Arena.succ_congr (hm.head hi ho) fun ht => ?_
  have hp3 := Arena.extent_of_pair ht
  exact ⟨(claims hi).word hm o 1 ho (by omega), (claims hi).word hm o 2 ho (by omega)⟩

theorem marked_nodup (hi : Filled m₀ young old S) : ((marked ms old).map Prod.fst).Nodup := by
  refine List.Nodup.sublist ?_ hi.old_stacked.nodup
  exact List.Sublist.map _ List.filter_sublist

/-- The objects to remember are entries already. -/
theorem length_recalled_le (hi : Inv m₀ young old S) (hvalid : ∀ o ∈ ms, S o) :
    (((marked ms old).map Prod.fst).filter (pointsInto? m₀.heap m₀.own.nursery.region)).length
      ≤ m₀.own.remembered.toList.length := by
  refine List.Nodup.length_le_of_subset ((marked_nodup hi.filled).filter _) fun o ho => ?_
  obtain ⟨ho, hp⟩ := List.mem_filter.mp ho
  obtain ⟨b, hb, rfl⟩ := List.mem_map.mp ho
  obtain ⟨hbo, hbm⟩ := mem_marked.mp hb
  exact hi.remembers b hbo (hvalid _ hbm) (pointsInto?_iff.mp hp)

/-- Header words of marked objects in different places are different words. -/
theorem Found.header_ne (hf : Found m₀ young old S ms) {b c : Nat × Nat} (hb : b ∈ marked ms old)
    (hc : c ∈ young ∨ c ∈ old) {k j : Nat} (hk : 1 ≤ k) (hk' : k ≤ 3) (hj : 1 ≤ j) (hj' : j ≤ 3)
    (hne : k ≠ j) : b.1 - k ≠ c.1 - j := by
  have hbo := (mem_marked.mp hb).1
  have hbin := hf.inv.old_inside hbo
  have hcin := hf.inv.block_inside hc
  rcases hf.inv.block_apart (.inr hbo) hc with rfl | h | h <;> omega

/-- Marked objects can be read as before they were marked. -/
theorem Found.readable (hf : Found m₀ young old S ms) (hm : Marked m₀ S m ms) {o : Nat}
    (ho : o ∈ ms) : ReadableAt m.heap o := by
  have hin := hf.apart.inside o ho
  have hhead := hm.head hf.inv (hf.valid o ho)
  refine ⟨by omega, ?_, ?_⟩
  · rw [Arena.tag_congr hhead]
    exact hf.known o ho
  · rw [Arena.payload_congr hhead, hm.size_eq]
    exact hin.2

theorem Found.flagsApart (hf : Found m₀ young old S ms) (hm : Marked m₀ S m ms) {os : List Nat}
    (hos : ∀ o ∈ os, o ∈ ms) :
    FlagsApart m.heap os := by
  intro e he o ho
  rw [Arena.payload_congr (hm.head hf.inv (hf.valid o (hos o ho)))]
  rcases hf.apart.apart e o (hos e he) (hos o ho) with h | h | h <;> omega

theorem Marked.pointsInto_eq (hf : Found m₀ young old S ms) (hm : Marked m₀ S m ms) {r : Region}
    {o : Nat} (ho : o ∈ ms) :
    pointsInto? m.heap r o = pointsInto? m₀.heap r o := by
  rw [pointsInto?, pointsInto?, hm.succ_eq hf.inv (hf.valid o ho)]

/-- Marking and flagging leave the sizes of the marked blocks. -/
theorem Flagged.sized (hf : Found m₀ young old S ms) (hm : Marked m₀ S m ms) {r : Region}
    {h : Arena} (hg : Flagged r m.heap h ((marked ms old).map Prod.fst)) :
    Sized 2 h (marked ms old) := by
  intro b hb
  have hbo := (mem_marked.mp hb).1
  have hbin := hf.inv.old_inside hbo
  have hn : b.1 - 2 + 1 ∉ ms := by
    intro hmem
    obtain ⟨n, hc, -⟩ := hf.inv.placed _ (hf.valid _ hmem)
    have hcin := hf.inv.block_inside hc
    have hne := hf.header_ne hb hc (k := 2) (j := 1) (by omega) (by omega) (by omega)
      (by omega) (by omega)
    simp only at hne hcin
    omega
  rw [hg.other _ fun hmem => hn (mem_of_marked hmem), hm.other _ hn]
  exact hf.inv.old_sized b hbo

/-- The heap after marking, flagging and noting the new addresses. -/
theorem Flagged.prepared (hf : Found m₀ young old S ms) (hm : Marked m₀ S m ms) {h : Arena}
    (hg : Flagged m₀.own.nursery.region m.heap h ((marked ms old).map Prod.fst)) :
    Prepared m₀ young old ms (noted 3 h
      (targets 3 m₀.own.tenured.region.first (marked ms old))) := by
  have hi := hf.inv
  have hps : ∀ p ∈ targets 3 m₀.own.tenured.region.first (marked ms old),
      (p.old, p.size) ∈ marked ms old :=
    fun p hp => mem_targets hp
  have hold : ∀ b ∈ marked ms old, b ∈ old := fun b hb => (mem_marked.mp hb).1
  -- a flag word is no forwarding word
  have hflag : ∀ b, b ∈ young ∨ b ∈ old →
      (noted 3 h (targets 3 m₀.own.tenured.region.first (marked ms old))).word (b.1 - 1) = h.word
        (b.1 - 1) := by
    intro b hb
    exact word_noted_of_ne fun p hp => hf.header_ne (hps p hp) hb (by omega) (by omega) (by omega)
      (by omega) (by omega)
  exact {
    size_eq := by rw [size_noted, hg.size_eq, hm.size_eq]
    forward := fun p hp => by
      have hbin := hi.old_inside (hold _ (hps p hp))
      refine word_noted hp (by rw [hg.size_eq, hm.size_eq]; simp only at hbin; omega)
        fun q hq he => ?_
      have hqin := hi.old_inside (hold _ (hps q hq))
      refine target_unique (marked_nodup hi) hp hq ?_
      simp only at hbin hqin
      omega
    young_flags := fun b hb => by
      obtain ⟨hby, hbm⟩ := mem_marked.mp hb
      have hin := hi.young_inside hby
      have h1 : b.1 - 1 + 1 = b.1 := by omega
      rw [hflag b (.inl hby), hg.other, hm.flag _ hbm]
      intro hmem
      rw [h1] at hmem
      obtain ⟨c, hc, hce⟩ := List.mem_map.mp hmem
      have hsep := hi.separate hby (hold c hc)
      omega
    old_flags := fun b hb => by
      obtain ⟨hbo, hbm⟩ := mem_marked.mp hb
      rw [hflag b (.inr hbo), hg.flag _ (List.mem_map_of_mem hb),
        hm.pointsInto_eq hf hbm, hm.flag _ hbm]
    other := fun a h1 h2 => by
      rw [word_noted_of_ne, hg.other _ fun hmem => h1 (mem_of_marked hmem), hm.other a h1]
      intro p hp he
      have hbin := hi.old_inside (hold _ (hps p hp))
      have hp2 := h2 _ (hps p hp)
      simp only at hbin hp2
      omega }

/-- The first half runs once the objects are marked, and ends with room for what is to be
remembered. -/
theorem prepare (hfnd : Found m₀ young old S ms) (hm : Marked m₀ S m ms) :
    ∃ h₂ top, flagRemembered m₀.own.nursery.region ((marked ms old).map Prod.fst) m.heap
        = .ok (((marked ms old).map Prod.fst).filter
          (pointsInto? m₀.heap m₀.own.nursery.region)).length h₂ ∧
      Flagged m₀.own.nursery.region m.heap h₂ ((marked ms old).map Prod.fst) ∧
      assign m₀.own.tenured.region.first ((marked ms old).map Prod.fst) h₂
        = .ok top (noted 3 h₂ (targets 3 m₀.own.tenured.region.first (marked ms old))) ∧
      Stacked 3 m₀.own.tenured.region.first
        ((targets 3 m₀.own.tenured.region.first (marked ms old)).map Copy.block) top ∧
      Prepared m₀ young old ms (noted 3 h₂
        (targets 3 m₀.own.tenured.region.first (marked ms old))) := by
  have hold : ∀ b ∈ marked ms old, b ∈ old := fun b hb => (mem_marked.mp hb).1
  obtain ⟨h₂, hrun, hf⟩ := flagRemembered_run (r := m₀.own.nursery.region)
    (fun o ho => hfnd.readable hm (mem_of_marked ho))
      (hfnd.flagsApart hm fun o ho => mem_of_marked ho)
    (marked_nodup hfnd.inv)
  rw [List.filter_congr fun o ho => hm.pointsInto_eq hfnd (mem_of_marked ho)] at hrun
  obtain ⟨top, hassign, hst⟩ := assign_run m₀.own.tenured.region.first (hf.sized hfnd hm)
    (fun b hb => by
      have hbin := hfnd.inv.old_inside (hold b hb)
      rw [hf.size_eq, hm.size_eq]
      omega)
    fun b hb c hc => Ne.symm
      (hfnd.header_ne hb (.inr (hold c hc)) (by omega) (by omega) (by omega) (by omega) (by omega))
  exact ⟨h₂, top, hrun, hf, hassign, hst, hf.prepared hfnd hm⟩

end Prepare

end Reclaim.Generational
