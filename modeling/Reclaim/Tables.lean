import Reclaim.Fault

/-!
# The collectors' tables

Bounded tables of objects that the collectors keep outside the heap: the gray stack of a mark phase,
the map of mark bits, the remembered set of a generational heap, and the zero count table of
deferred counting. Whether a table has room is for its owner to ask, who also decides what becomes
of a client when there is none.

Results:
* `MarkStack.pop_push`, `MarkStack.top?_push`: what was put on a stack last is on top of it.
* `MarkBitmap.isMarked_mark`: a mark is set at one address and nowhere else.
* `RememberedSet.toList_insert`: entries are kept in the order in which they were added.
-/

namespace Reclaim

/-! ## Mark stack -/

/-- Objects that are marked and whose fields are still to be visited.
mirrors trace:117-120 -/
structure MarkStack where
  items : Array Nat
  capacity : Nat
  deriving DecidableEq, Repr, Inhabited

namespace MarkStack

def empty (capacity : Nat) : MarkStack := ⟨#[], capacity⟩

def isFull (s : MarkStack) : Bool := s.capacity ≤ s.items.size

/-- Puts an object on top, for which there must be room.
mirrors trace:132-140 -/
def push (s : MarkStack) (obj : Nat) : MarkStack := { s with items := s.items.push obj }

/-- What the owner of a full stack reports. -/
def overflow (s : MarkStack) : Failure := .markStackOverflow s.capacity

def top? (s : MarkStack) : Option Nat := s.items.back?

/-- The stack without its top.
mirrors trace:143-145 -/
def pop (s : MarkStack) : MarkStack := { s with items := s.items.pop }

def clear (s : MarkStack) : MarkStack := empty s.capacity

@[simp] theorem top?_push (s : MarkStack) (obj : Nat) : (s.push obj).top? = some obj := by
  simp [top?, push]

@[simp] theorem pop_push (s : MarkStack) (obj : Nat) : (s.push obj).pop = s := by
  simp [pop, push]

end MarkStack

/-! ## Mark bits -/

/-- One mark for each word of an arena.
mirrors mark_sweep:26-28 -/
structure MarkBitmap where
  marks : Array Bool
  deriving DecidableEq, Repr, Inhabited

namespace MarkBitmap

/-- No marks for `words` words, rounded up to whole groups of 64. -/
def empty (words : Nat) : MarkBitmap := ⟨Array.replicate ((words + 63) / 64 * 64) false⟩

/-- The mark of an address that the map covers. -/
def marked? (m : MarkBitmap) (a : Nat) : Option Bool := m.marks[a]?

/-- mirrors mark_sweep:40-45 -/
def mark (m : MarkBitmap) (a : Nat) : MarkBitmap := ⟨m.marks.setIfInBounds a true⟩

/-- Is the address marked? One that the map does not cover is not.
mirrors mark_sweep:49-51 -/
def isMarked (m : MarkBitmap) (a : Nat) : Bool := (m.marked? a).getD false

def clear (m : MarkBitmap) : MarkBitmap := ⟨Array.replicate m.marks.size false⟩

@[simp] theorem isMarked_empty (words a : Nat) : (empty words).isMarked a = false := by
  simp only [isMarked, marked?, empty, Array.getElem?_replicate]
  split <;> rfl

/-- Marking changes the mark of one address that the map covers and no other. -/
theorem isMarked_mark (m : MarkBitmap) (a b : Nat) :
    (m.mark a).isMarked b = (m.isMarked b || (a == b && decide (a < m.marks.size))) := by
  simp only [isMarked, marked?, mark, Array.getElem?_setIfInBounds]
  by_cases h : a = b
  · subst h
    by_cases hs : a < m.marks.size <;> simp [hs]
  · simp [h]

end MarkBitmap

/-! ## Remembered set -/

/-- Tenured objects that may refer to the nursery, in the order in which they were added.
mirrors barrier:12-15 -/
structure RememberedSet where
  entries : Array Nat
  capacity : Nat
  deriving DecidableEq, Repr, Inhabited

namespace RememberedSet

def empty (capacity : Nat) : RememberedSet := ⟨#[], capacity⟩

/-- A new set, with room for all its entries from the start. -/
def create (capacity : Nat) : Except Fault RememberedSet := do
  reserve capacity
  return empty capacity

def length (s : RememberedSet) : Nat := s.entries.size

def isEmpty (s : RememberedSet) : Bool := s.entries.isEmpty

def toList (s : RememberedSet) : List Nat := s.entries.toList

def isFull (s : RememberedSet) : Bool := s.capacity ≤ s.length

/-- Adds an entry, for which there must be room. -/
def insert (s : RememberedSet) (obj : Nat) : RememberedSet :=
  { s with entries := s.entries.push obj }

/-- What the owner of a full set reports. -/
def full (s : RememberedSet) : Failure := .rememberedSetFull s.capacity

/-- The same set with other entries. -/
def withEntries (s : RememberedSet) (entries : List Nat) : RememberedSet :=
  { s with entries := entries.toArray }

/-- mirrors barrier:38-43 -/
def filter (s : RememberedSet) (keep : Nat → Bool) : RememberedSet :=
  { s with entries := s.entries.filter keep }

def clear (s : RememberedSet) : RememberedSet := empty s.capacity

@[simp] theorem toList_empty (capacity : Nat) : (empty capacity).toList = [] := rfl

@[simp] theorem toList_insert (s : RememberedSet) (obj : Nat) :
    (s.insert obj).toList = s.toList ++ [obj] := by
  simp [toList, insert]

@[simp] theorem toList_withEntries (s : RememberedSet) (entries : List Nat) :
    (s.withEntries entries).toList = entries := by
  simp [toList, withEntries]

@[simp] theorem toList_filter (s : RememberedSet) (keep : Nat → Bool) :
    (s.filter keep).toList = s.toList.filter keep := by
  simp [toList, filter]

@[simp] theorem toList_clear (s : RememberedSet) : s.clear.toList = [] := rfl

end RememberedSet

/-! ## Zero count table -/

/-- Objects whose count has dropped to zero.
mirrors ref_count:46-49 -/
structure ZeroCountTable where
  entries : Array Nat
  capacity : Nat
  deriving DecidableEq, Repr, Inhabited

namespace ZeroCountTable

def empty (capacity : Nat) : ZeroCountTable := ⟨#[], capacity⟩

def length (t : ZeroCountTable) : Nat := t.entries.size

def isEmpty (t : ZeroCountTable) : Bool := t.entries.isEmpty

def isFull (t : ZeroCountTable) : Bool := t.capacity ≤ t.entries.size

/-- Adds an entry, for which there must be room. -/
def insert (t : ZeroCountTable) (obj : Nat) : ZeroCountTable :=
  { t with entries := t.entries.push obj }

/-- What the owner of a full table reports. -/
def full (t : ZeroCountTable) : Failure := .zeroCountTableFull t.capacity

/-- Removes entry `i`; the last entry takes its place.
mirrors ref_count:263 -/
def swapRemove (t : ZeroCountTable) (i : Nat) : ZeroCountTable :=
  { t with entries := (t.entries.swapIfInBounds i (t.entries.size - 1)).pop }

def clear (t : ZeroCountTable) : ZeroCountTable := empty t.capacity

end ZeroCountTable

end Reclaim
