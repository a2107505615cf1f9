import Reclaim.Proofs.Carving
import Reclaim.Proofs.Housed

/-!
# Objects in tiles

The tiles of a region that are handed out hold one object each, behind a header (`objectsIn`).
Whoever writes into objects or into the rest of a header leaves the tiles as they are; an allocation
carves one more tile and a reclaimed object gives its tile back, and either keeps every word of the
other objects and their headers.

Results:
* `Tiled.update`: tiles do not depend on the words of objects.
* `Tiled.carve_run`: one more object (`Carved`).
* `Tiled.release_run`: one object less (`Released`).
-/

namespace Reclaim

/-- The objects in the tiles that are handed out, behind headers of `hd` words, with the sizes of
the tiles. -/
def objectsIn (hd : Nat) (ts : List Tile) : List (Nat × Nat) :=
  (usedRuns ts).map fun (a, n) => (a + hd, n)

variable {hd lo hi o a n k : Nat} {l l' : FreeList} {h h' : Arena} {ts us vs : List Tile} {t : Tile}
  {b c : Nat × Nat}

theorem mem_objectsIn : b ∈ objectsIn hd ts ↔ ∃ a n, ⟨a, n, false⟩ ∈ ts ∧ b = (a + hd, n) := by
  simp only [objectsIn, List.mem_map, Prod.exists]
  constructor
  · rintro ⟨a, n, hm, rfl⟩
    exact ⟨a, n, mem_usedRuns.mp hm, rfl⟩
  · rintro ⟨a, n, hm, rfl⟩
    exact ⟨a, n, mem_usedRuns.mpr hm, rfl⟩

/-- The word at `x` belongs to the block of the object, header included. -/
def InBlock (hd : Nat) (b : Nat × Nat) (x : Nat) : Prop := b.1 ≤ x + hd ∧ x + hd < b.1 + b.2

/-- The words of a block stay. -/
def BlockKept (hd : Nat) (h h' : Arena) (b : Nat × Nat) : Prop := ∀ x, InBlock hd b x →
    h'.word x = h.word x

theorem Housed.blockKept_header (hh : Housed hd h (objectsIn hd ts)) (hb : b ∈ objectsIn hd ts)
    (hk : BlockKept hd h h' b) {i : Nat} (hi : i ≤ hd) : h'.word (b.1 - i) = h.word (b.1 - i) := by
  have hin := hh.inside b hb
  have hroom := hh.room hb
  exact hk _ ⟨by omega, by omega⟩

theorem Housed.same (hh : Housed hd h (objectsIn hd ts))
    (hk : ∀ b ∈ objectsIn hd ts, BlockKept hd h h' b) :
    Same (Held (objectsIn hd ts)) h h' := by
  rintro o i ⟨n, hb⟩ hlt
  have hfit := hh.fit hb
  exact hk _ hb _ ⟨by simp only; omega, by simp only; omega⟩

theorem Tiles.housed (ht : Tiles h lo hi ts)
    (hfit : ∀ b ∈ objectsIn hd ts, hd + h.payload b.1 ≤ b.2)
    (hcl : Closed h (Held (objectsIn hd ts))) : Housed hd h (objectsIn hd ts) := by
  have hin := ht.inside
  refine ⟨ht.small, fun b hb => ?_, fun b hb c hc => ?_, hfit, hcl⟩
  · obtain ⟨a, n, hm, rfl⟩ := mem_objectsIn.mp hb
    have hbd := ht.bounds hm
    simp only at hbd ⊢
    omega
  · obtain ⟨a, n, hm, rfl⟩ := mem_objectsIn.mp hb
    obtain ⟨a', n', hm', rfl⟩ := mem_objectsIn.mp hc
    rcases ht.apart hm hm' with he | hap | hap
    · cases he
      exact .inl rfl
    · simp only at hap ⊢
      omega
    · simp only at hap ⊢
      omega

theorem Tiles.nodup_objectsIn (ht : Tiles h lo hi ts) (hd : Nat) : (objectsIn hd ts).Nodup := by
  have hruns : (usedRuns ts).Pairwise fun b c => b.1 ≠ c.1 :=
    (List.pairwise_map.mp ht.stacked.nodup).sublist (List.filter_sublist.map _)
  refine List.Pairwise.map _ (fun b c hne he => hne ?_) hruns
  simp only [Prod.mk.injEq, Nat.add_right_cancel_iff] at he
  exact he.1

/-- Tiles do not depend on the words of objects. -/
theorem Tiled.update (ht : Tiled l h lo hi ts) (hpos : 1 ≤ hd) (hsize : h'.size = h.size)
    (hout : ∀ x, Outside hd (objectsIn hd ts) x → h'.word x = h.word x) : Tiled l h' lo hi ts := by
  refine ht.congr hsize (fun t hm hf x hx => hout x fun b hb => ?_) fun t hm hf =>
    hout _ fun b hb => ?_
  · obtain ⟨a, n, hm', rfl⟩ := mem_objectsIn.mp hb
    obtain ⟨h1, h2⟩ := hx
    rcases ht.apart hm hm' with rfl | hap | hap
    · cases hf
    · simp only at hap ⊢
      omega
    · simp only at hap ⊢
      omega
  · obtain ⟨a, n, hm', rfl⟩ := mem_objectsIn.mp hb
    rcases ht.apart hm hm' with rfl | hap | hap
    · simp only
      omega
    · simp only at hap ⊢
      omega
    · simp only at hap ⊢
      omega

/-- What is not free is handed out. -/
theorem Tiled.words_objectsIn (ht : Tiled l h lo hi ts) (hd : Nat) :
    ((objectsIn hd ts).map Prod.snd).sum = hi - lo - l.freeWords := by
  have hend := ht.stacked.end_eq
  have hsum : ((objectsIn hd ts).map Prod.snd).sum = ((usedRuns ts).map Prod.snd).sum := by
    rw [objectsIn, List.map_map]
    rfl
  rw [sum_runs, ← ht.freeWords] at hend
  omega

theorem Tiled.objectsIn_run (ht : Tiled l h lo hi ts) (hd : Nat) :
    (do return (← l.allocated ⟨lo, hi⟩).map fun (a, n) => (a + hd, n) : ReadM _) h =
    .ok (objectsIn hd ts) :=
  read_bind ht.allocated_run

/-! ## One more object -/

/-- A tile of `k` words at `a` is handed out and `h'` is the arena with a new object in it, beside
those of `h`. -/
structure Carved (hd : Nat) (h : Arena) (ts : List Tile) (a k : Nat) (l' : FreeList) (h' : Arena)
    (ts' : List Tile) : Prop where
  tiled : Tiled l' h' 0 h.size ts'
  size_eq : h'.size = h.size
  inside : a + k ≤ h.size
  mem : ∀ c, c ∈ objectsIn hd ts' ↔ c ∈ objectsIn hd ts ∨ c = (a + hd, k)
  fresh : ¬ Held (objectsIn hd ts) (a + hd)
  kept : ∀ b ∈ objectsIn hd ts, BlockKept hd h h' b
  zero : ∀ x, a < x → x < a + k → h'.word x = 0
  housed : Housed hd h' (objectsIn hd ts')

theorem mem_objectsIn_carve : c ∈ objectsIn hd (carve us a n k vs) ↔
    c ∈ objectsIn hd (us ++ ⟨a, n, true⟩ :: vs) ∨ c = (a + hd, k) := by
  rw [objectsIn, usedRuns_carve, objectsIn, usedRuns_append, usedRuns_cons_free rfl]
  simp only [List.map_append, List.map_cons, List.mem_append, List.mem_cons]
  tauto

/-- One more object, unless all free tiles are too small. -/
theorem Tiled.carve_run (ht : Tiled l h 0 h.size ts) (hh : Housed hd h (objectsIn hd ts))
    (hpos : 1 ≤ hd) {size : Nat} (hsz : hd < size) :
    l.take size h = .ok (none, l) h ∨
    ∃ a k l' h₁ ts', l.take size h = .ok (some (a, k), l') h₁ ∧ size ≤ k ∧ 2 ≤ k ∧ k ≤ max size 2 +
    1 ∧ h₁.size = h.size ∧
      Carved hd h ts a k l' (h₁.handOut a k) ts' := by
  rcases ht.take_run size with hrun
    | ⟨us, a, n, vs, k, l', h₁, rfl, hk, h2, hslack, hkn, hrun, htiled, hsize, hword⟩
  · exact .inl hrun
  · have htm : (⟨a, n, true⟩ : Tile) ∈ us ++ ⟨a, n, true⟩ :: vs := by simp
    have hb := ht.bounds htm
    simp only at hb
    have hkept : ∀ b ∈ objectsIn hd (us ++ ⟨a, n, true⟩ :: vs),
        BlockKept hd h (h₁.handOut a k) b := by
      intro b hbm x hx
      obtain ⟨a', n', hm, rfl⟩ := mem_objectsIn.mp hbm
      obtain ⟨h1, h3⟩ := hx
      exact hword _ hm rfl x ⟨by simp only at h1 ⊢; omega, by simp only at h3 ⊢; omega⟩
    have hap : ∀ c ∈ objectsIn hd (us ++ ⟨a, n, true⟩ :: vs), c.1 + c.2 ≤ a + hd ∨
        a + hd + k ≤ c.1 := by
      intro c hc
      obtain ⟨a', n', hm, rfl⟩ := mem_objectsIn.mp hc
      rcases ht.apart hm htm with he | hap | hap
      · cases he
      · simp only at hap ⊢
        omega
      · simp only at hap ⊢
        omega
    have hz : ∀ x, a < x → x < a + k → (h₁.handOut a k).word x = 0 := fun x h1 h2 =>
      Arena.word_handOut_zero (by omega) h1 h2
    refine .inr ⟨a, k, l', h₁, _, hrun, hk, h2, hslack, hsize, htiled, by simp [hsize], by omega,
      fun c => mem_objectsIn_carve, ?_, hkept, hz, ?_⟩
    · rintro ⟨n', hc⟩
      have hroom := hh.room hc
      have hor := hap _ hc
      simp only at hor hroom
      omega
    · exact hh.add (by simp [hsize]) (hh.same hkept) (fun c => mem_objectsIn_carve)
        ⟨by omega, by omega⟩ (by omega) hap
        (hz _ (by omega) (by omega))

/-- The new object comes to those of before. -/
theorem Carved.objects_perm (hc : Carved hd h ts a k l' h' ts') (ht : Tiles h lo hi ts) :
    (objectsIn hd ts').Perm ((a + hd, k) :: objectsIn hd ts) := by
  have hnew : (a + hd, k) ∉ objectsIn hd ts := fun hm => hc.fresh ⟨k, hm⟩
  refine (List.perm_ext_iff_of_nodup (hc.tiled.nodup_objectsIn hd)
    (List.nodup_cons.mpr ⟨hnew, ht.nodup_objectsIn hd⟩)).mpr fun c => ?_
  rw [hc.mem, List.mem_cons, or_comm]

/-- Its block is what has been taken. -/
theorem Carved.words (hc : Carved hd h ts a k l' h' ts') (ht : Tiles h lo hi ts) :
    ((objectsIn hd ts').map Prod.snd).sum = ((objectsIn hd ts).map Prod.snd).sum + k := by
  rw [((hc.objects_perm ht).map Prod.snd).sum_nat, List.map_cons, List.sum_cons, Nat.add_comm]

/-! ## One object less -/

/-- The tile of one object becomes free. -/
structure Released (hd : Nat) (h : Arena) (ts : List Tile) (b : Nat × Nat) (l' : FreeList)
    (h' : Arena) (ts' : List Tile) : Prop where
  objects : objectsIn hd ts' = (objectsIn hd ts).erase b
  tiled : Tiled l' h' 0 h.size ts'
  size_eq : h'.size = h.size
  kept : ∀ c ∈ objectsIn hd ts', BlockKept hd h h' c

/-- An object gives its block back. -/
theorem Tiled.release_run (ht : Tiled l h 0 h.size ts) (hb : (o, n) ∈ objectsIn hd ts) :
    ∃ l' h' ts', l.give (o - hd) n h = .ok l' h' ∧ Released hd h ts (o, n) l' h' ts' := by
  obtain ⟨a, n, hm, he⟩ := mem_objectsIn.mp hb
  cases he
  obtain ⟨us, vs, rfl⟩ := List.append_of_mem hm
  obtain ⟨l', h', hrun, htiled, hsize, hword⟩ := ht.give_run
  obtain ⟨mid, hus, htail⟩ := ht.toTiles.split
  obtain rfl : a = mid := htail.stacked.1
  have hnew : (a + hd, n) ∉ objectsIn hd us := by
    intro hbm
    obtain ⟨a', n', hm', he⟩ := mem_objectsIn.mp hbm
    have hbd := hus.bounds hm'
    simp only [Prod.mk.injEq] at he hbd
    omega
  have hbefore : objectsIn hd (us ++ ⟨a, n, false⟩ :: vs) = objectsIn hd us ++ (a + hd, n) ::
      objectsIn hd vs := by
    rw [objectsIn, usedRuns_append, usedRuns_cons_used rfl, List.map_append, List.map_cons]
    rfl
  refine ⟨l', h', release us a n vs, by rwa [Nat.add_sub_cancel], ?_, htiled, hsize, ?_⟩
  · rw [hbefore, List.erase_append_right _ hnew, List.erase_cons_head, objectsIn, usedRuns_release,
      List.map_append]
    rfl
  · intro b hbm x hx
    obtain ⟨a', n', hm', rfl⟩ := mem_objectsIn.mp hbm
    have hr : (a', n') ∈ usedRuns us ++ usedRuns vs := by
      rw [← usedRuns_release]
      exact mem_usedRuns.mpr hm'
    rw [← usedRuns_append] at hr
    obtain ⟨h1, h2⟩ := hx
    exact hword _ (mem_usedRuns.mp hr) rfl x
      ⟨by simp only at h1 ⊢; omega, by simp only at h2 ⊢; omega⟩

theorem FreeList.chunks_unlinked {l : FreeList} {h : Arena} (hl : l.head = none) :
    l.chunks h = .ok [] := by
  rw [FreeList.chunks, hl]
  rfl

/-- A region without chunks whose first word is zero holds no blocks. -/
theorem FreeList.allocated_blank (hl : l.head = none) (h0 : h.word 0 = 0) :
    l.allocated ⟨0, h.size⟩ h = .ok [] := by
  rw [FreeList.allocated, hl, FreeList.allocatedFrom]
  by_cases hs : 0 < h.size
  · have hload : loadNat 0 h = .ok 0 := by
      rw [loadNat_run hs, h0]
      rfl
    rw [if_pos hs, read_bind hload]
    rfl
  · rw [if_neg hs]
    rfl

end Reclaim
