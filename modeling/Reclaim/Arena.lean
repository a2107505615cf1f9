import Reclaim.Fault
import Reclaim.Region
import Reclaim.Value

/-!
# The arena

The words that hold every object. Reading them is a computation in `ReadM`, which cannot change
them; `HeapM` also writes. Both stop with a trap at an address outside the arena, and a whole range
is checked before any word of it is touched.

Results:
* `getElem?_blit`: the words of an arena after a run of words was written over it.
-/

namespace Reclaim

/-- The word-addressed memory of the heap.
mirrors heap:149-151 -/
structure Arena where
  words : Array Word
  deriving DecidableEq, Repr, Inhabited

namespace Arena

/-- A zeroed arena of `n` words. -/
def zeroed (n : Nat) : Arena := ⟨Array.replicate n 0⟩

/-- A zeroed arena of as many whole words as `bytes` bytes hold.
mirrors heap:155-159 -/
def ofBytes (bytes : Nat) : Arena := zeroed (bytes / wordBytes)

/-- A new arena of `n` words. -/
def create (n : Nat) : Except Fault Arena := do
  reserve n
  return zeroed n

/-- mirrors heap:162-164 -/
def size (h : Arena) : Nat := h.words.size

/-- The region that covers the arena.
mirrors heap:172-174 -/
def region (h : Arena) : Region := Region.ofLength 0 h.size

/-- The arena after its memory was given back.
mirrors heap:211-213 -/
def released : Arena := ⟨#[]⟩

/-- The `n` words from `a` on. -/
def slice (h : Arena) (a n : Nat) : List Word := (h.words.extract a (a + n)).toList

/-- Writes a run of words from `a` on; a word that would fall outside is dropped. -/
def blit (h : Arena) (a : Nat) : List Word → Arena
  | [] => h
  | w :: ws => blit ⟨h.words.setIfInBounds a w⟩ (a + 1) ws

end Arena

/-- Computations that read the arena. -/
abbrev ReadM := ReaderT Arena (Except Fault)

/-- Computations that read and write the arena. -/
abbrev HeapM := EStateM Fault Arena

/-- A reader is a heap computation that leaves the arena as it is. -/
instance : MonadLift ReadM HeapM where
  monadLift x h := match x h with
    | .ok a => .ok a h
    | .error e => .error e h

/-- The address `n` words before `a`, which must not lie below zero.
mirrors heap:28-30 -/
def back (a n : Nat) : ReadM Nat := if n ≤ a then pure (a - n) else throw .trap

/-- mirrors heap:178-180 -/
def load (a : Nat) : ReadM Word := fun h =>
  match h.words[a]? with
  | some w => .ok w
  | none => .error .trap

/-- mirrors heap:184-186 -/
def store (a : Nat) (w : Word) : HeapM Unit := fun h =>
  if a < h.words.size then .ok () ⟨h.words.setIfInBounds a w⟩ else .error .trap h

/-- mirrors heap:190-192 -/
def loadValue (a : Nat) : ReadM Value := do return ⟨← load a⟩

/-- mirrors heap:196-198 -/
def storeValue (a : Nat) (v : Value) : HeapM Unit := store a v.bits

/-- A word read as an address or a length. -/
def loadNat (a : Nat) : ReadM Nat := do return (← load a).toNat

/-- Copies `n` words from `src` to `dst`; the two ranges may overlap.
mirrors heap:201-203 -/
def copyWords (src dst n : Nat) : HeapM Unit := fun h =>
  if src + n ≤ h.size ∧ dst + n ≤ h.size then .ok () (h.blit dst (h.slice src n))
  else .error .trap h

/-- Zeroes the `n` words from `a` on.
mirrors heap:206-208 -/
def clearWords (a n : Nat) : HeapM Unit := fun h =>
  if a + n ≤ h.size then .ok () (h.blit a (List.replicate n 0)) else .error .trap h

/-! ## Access laws -/

namespace Arena

theorem size_blit (h : Arena) (a : Nat) (ws : List Word) : (h.blit a ws).size = h.size := by
  induction ws generalizing h a with
  | nil => rfl
  | cons w ws ih => rw [blit, ih]; simp [size]

/-- A run of words that fits replaces exactly its own range. -/
theorem getElem?_blit (h : Arena) (a : Nat) (ws : List Word)
    (hfit : a + ws.length ≤ h.size) (i : Nat) :
    (h.blit a ws).words[i]? = if a ≤ i ∧ i < a + ws.length then ws[i - a]? else h.words[i]? := by
  induction ws generalizing h a with
  | nil => simp [blit, show ¬ (a ≤ i ∧ i < a) by omega]
  | cons w ws ih =>
    simp only [List.length_cons] at hfit ⊢
    have hs : (⟨h.words.setIfInBounds a w⟩ : Arena).size = h.size := by simp [size]
    rw [blit, ih _ _ (by rw [hs]; omega)]
    by_cases h1 : a + 1 ≤ i ∧ i < a + 1 + ws.length
    · rw [if_pos h1, if_pos (by omega), show i - a = (i - (a + 1)) + 1 by omega,
        List.getElem?_cons_succ]
    · rw [if_neg h1]
      by_cases h2 : i = a
      · subst h2
        rw [if_pos (by omega)]
        simp [Array.getElem?_setIfInBounds_self_of_lt
          (show i < h.words.size by simp only [size] at hfit; omega)]
      · rw [if_neg (by omega)]
        simp [Ne.symm h2]

end Arena

end Reclaim
