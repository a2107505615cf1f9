import Reclaim.Object
import Reclaim.Trace
import Reclaim.Proofs.Runs

/-!
# The words of an arena

Each access of the arena as a function on its words: what is read at an address (`Arena.word`), and
the words after a store, a copy or a clearing. An access inside the arena never stops, so proofs
about collectors read and write through these functions and keep only the bounds.

Results:
* `Arena.word_put`, `Arena.word_copy`, `Arena.word_zero`: every word after a store, a copy, a
  clearing.
* `load_run`, `store_run`, `copyWords_run`, `clearWords_run`, `loadHeader_run`, `storeHeader_run`:
  an access within bounds is the function.
-/

namespace Reclaim

namespace Arena

/-- The word at `a`; zero outside the arena. -/
def word (h : Arena) (a : Nat) : Word := h.words.getD a 0

/-- The arena with `w` at `a`. -/
def put (h : Arena) (a : Nat) (w : Word) : Arena := ⟨h.words.setIfInBounds a w⟩

/-- The arena after `n` words were copied from `src` to `dst`. -/
def copy (h : Arena) (src dst n : Nat) : Arena := h.blit dst (h.slice src n)

/-- The arena with zeroes in the `n` words from `a` on. -/
def zero (h : Arena) (a n : Nat) : Arena := h.blit a (List.replicate n 0)

variable (h : Arena) (a b n src dst : Nat) (w : Word)

@[simp] theorem size_put : (h.put a w).size = h.size := by simp [size, put]

@[simp] theorem size_copy : (h.copy src dst n).size = h.size := size_blit _ _ _

@[simp] theorem size_zero : (h.zero a n).size = h.size := size_blit _ _ _

theorem region_eq : h.region = ⟨0, h.size⟩ := by simp [region, Region.ofLength]

theorem length_region : h.region.length = h.size := Region.length_ofLength 0 h.size

theorem word_eq_getElem? : h.word a = (h.words[a]?).getD 0 := by
  simp [word, Array.getD_eq_getD_getElem?]

theorem word_put : (h.put a w).word b = if a = b ∧ a < h.size then w else h.word b := by
  simp only [word_eq_getElem?, put, Array.getElem?_setIfInBounds, size]
  by_cases hab : a = b
  · subst hab
    by_cases hs : a < h.words.size <;> simp [hs]
  · simp [hab]

variable {h a b n src dst}

theorem word_put_self (ha : a < h.size) : (h.put a w).word a = w := by simp [word_put, ha]

theorem word_put_ne (hne : b ≠ a) : (h.put a w).word b = h.word b := by
  rw [word_put, if_neg fun hab => hne hab.1.symm]

/-- Writing a word over itself. -/
theorem put_word (h : Arena) (a : Nat) : h.put a (h.word a) = h := by
  have hw : h.words.setIfInBounds a (h.word a) = h.words := by
    refine Array.ext (by simp) fun i h1 h2 => ?_
    rw [Array.getElem_setIfInBounds]
    split
    · rename_i hai
      subst hai
      simp [word, Array.getD, h2]
    · rfl
  rw [put, hw]

theorem length_slice (hs : src + n ≤ h.size) : (h.slice src n).length = n := by
  simp only [size] at hs
  simp [slice]
  omega

theorem word_copy (hs : src + n ≤ h.size) (hd : dst + n ≤ h.size) :
    (h.copy src dst n).word b = if dst ≤ b ∧ b < dst + n then h.word (src + (b - dst))
    else h.word b := by
  have hl : (h.slice src n).length = n := length_slice hs
  rw [word_eq_getElem?, copy, getElem?_blit _ _ _ (by rw [hl]; exact hd), hl]
  split
  · rename_i hb
    have hi : b - dst < n := by omega
    simp [word_eq_getElem?, slice, hi]
  · rw [word_eq_getElem?]

theorem word_zero (ha : a + n ≤ h.size) : (h.zero a n).word b = if a ≤ b ∧
    b < a + n then 0 else h.word b := by
  rw [word_eq_getElem?, zero, getElem?_blit _ _ _ (by simpa using ha)]
  simp only [List.length_replicate]
  split
  · rename_i hb
    rw [List.getElem?_replicate, if_pos (by omega)]
    rfl
  · rw [word_eq_getElem?]

end Arena

/-! ## Accesses within bounds -/

section Access

variable {α β : Type} {h : Arena} {a n obj offset src dst : Nat} {w : Word} {v : Value}

theorem read_bind {x : ReadM α} {f : α → ReadM β} {r : α} (hx : x h = .ok r) :
    (x >>= f) h = f r h := by
  change (Except.bind (x h) fun r => f r h) = _
  rw [hx]
  rfl

theorem read_bind_error {x : ReadM α} {f : α → ReadM β} {e : Fault} (hx : x h = .error e) :
    (x >>= f) h = .error e := by
  change (Except.bind (x h) fun r => f r h) = _
  rw [hx]
  rfl

theorem filterM_run {p : α → ReadM Bool} {q : α → Bool} {xs : List α}
    (hp : ∀ x ∈ xs, p x h = .ok (q x)) :
    xs.filterM p h = .ok (xs.filter q) := by
  have haux : ∀ acc, List.filterAuxM p xs acc h = .ok ((xs.filter q).reverse ++ acc) := by
    induction xs with
    | nil => exact fun acc => rfl
    | cons x xs ih =>
      intro acc
      rw [List.filterAuxM, read_bind (hp x (by simp)), ih fun y hy => hp y (by simp [hy])]
      cases hq : q x <;> simp [hq]
  rw [List.filterM, read_bind (haux [])]
  simp
  rfl

theorem load_run (ha : a < h.size) : load a h = .ok (h.word a) := by
  have ha' : a < h.words.size := ha
  simp [load, Arena.word, ha']

theorem loadValue_run (ha : a < h.size) : loadValue a h = .ok ⟨h.word a⟩ := read_bind (load_run ha)

theorem loadNat_run (ha : a < h.size) : loadNat a h = .ok (h.word a).toNat :=
  read_bind (load_run ha)

theorem store_run (ha : a < h.size) : store a w h = .ok () (h.put a w) := if_pos ha

theorem storeValue_run (ha : a < h.size) :
    storeValue a v h = .ok () (h.put a v.bits) := store_run ha

theorem copyWords_run (hs : src + n ≤ h.size) (hd : dst + n ≤ h.size) :
    copyWords src dst n h = .ok () (h.copy src dst n) := if_pos ⟨hs, hd⟩

theorem clearWords_run (ha : a + n ≤ h.size) : clearWords a n h = .ok () (h.zero a n) := if_pos ha

theorem back_run (hn : n ≤ a) : back a n h = .ok (a - n) := by
  simp [back, hn]
  rfl

theorem loadHeader_run (ho : offset ≤ obj) (hs : obj - offset < h.size) :
    loadHeader obj offset h = .ok (h.word (obj - offset)) := by
  rw [loadHeader, read_bind (back_run ho)]
  exact load_run hs

theorem storeHeader_run (ho : offset ≤ obj) (hs : obj - offset < h.size) :
    storeHeader obj offset w h = .ok () (h.put (obj - offset) w) := by
  rw [storeHeader, bind_ok (read_heap (back_run ho))]
  exact store_run hs

theorem forwardingAt_run (ho : offset ≤ obj) (hs : obj - offset < h.size) :
    forwardingAt offset obj h
      = .ok (if (h.word (obj - offset)).toNat = 0 then none
        else some (h.word (obj - offset)).toNat) := by
  rw [forwardingAt, read_bind (loadHeader_run ho hs)]
  rfl

end Access

/-! ## Words as addresses -/

/-- A number below `2^64` is kept by a word. -/
theorem toNat_ofNat_of_lt {n : Nat} (hn : n < 0x10000000000000000) :
    (UInt64.ofNat n).toNat = n := by
  rw [UInt64.toNat_ofNat', Nat.mod_eq_of_lt hn]

end Reclaim
