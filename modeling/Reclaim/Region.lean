/-!
# Regions and bump allocation

A region is a half-open range of word addresses. A bump allocator hands out its words from the
bottom, and never beyond its end.
-/

namespace Reclaim

/-- The word addresses from `first` up to, not including, `limit`.
mirrors heap:53-58 -/
structure Region where
  first : Nat
  limit : Nat
  deriving DecidableEq, Repr, Inhabited

namespace Region

/-- The `length` words from `first` on.
mirrors heap:62-67 -/
def ofLength (first length : Nat) : Region := ⟨first, first + length⟩

/-- mirrors heap:70-72 -/
def length (r : Region) : Nat := r.limit - r.first

/-- mirrors heap:75-77 -/
def isEmpty (r : Region) : Bool := r.first == r.limit

/-- mirrors heap:81-83 -/
def contains (r : Region) (a : Nat) : Bool := r.first ≤ a && a < r.limit

theorem length_ofLength (first n : Nat) : (ofLength first n).length = n := by
  simp [ofLength, length]

theorem contains_iff (r : Region) (a : Nat) : r.contains a = true ↔ r.first ≤ a ∧ a < r.limit := by
  simp [contains]

end Region

/-- A bump allocator: the words of `region` below `top` are handed out.
mirrors allocator:7-10 -/
structure Bump where
  region : Region
  top : Nat
  deriving DecidableEq, Repr, Inhabited

namespace Bump

/-- Nothing of `r` is handed out.
mirrors allocator:14-19 -/
def empty (r : Region) : Bump := ⟨r, r.first⟩

/-- mirrors allocator:32-34 -/
def fits (b : Bump) (n : Nat) : Bool := b.top + n ≤ b.region.limit

/-- The next `n` words, if they fit.
mirrors allocator:22-29 -/
def allocate? (b : Bump) (n : Nat) : Option (Nat × Bump) :=
  if b.fits n then some (b.top, { b with top := b.top + n }) else none

/-- Words handed out.
mirrors allocator:48-50 -/
def used (b : Bump) : Nat := b.top - b.region.first

/-- Words still available.
mirrors allocator:53-55 -/
def remaining (b : Bump) : Nat := b.region.limit - b.top

/-- mirrors allocator:63-65 -/
def reset (b : Bump) : Bump := empty b.region

/-- mirrors allocator:42-45 -/
def withTop (b : Bump) (top : Nat) : Bump := { b with top }

theorem fits_iff (b : Bump) (n : Nat) : b.fits n = true ↔ b.top + n ≤ b.region.limit := by
  simp [fits]

theorem allocate?_eq_none_iff (b : Bump) (n : Nat) : b.allocate? n = none ↔ b.fits n = false := by
  simp [allocate?]

theorem allocate?_eq_some_iff {b c : Bump} {n a : Nat} :
    b.allocate? n = some (a, c) ↔ b.fits n = true ∧ a = b.top ∧ c = { b with
      top := b.top + n } := by
  simp only [allocate?, Option.ite_none_right_eq_some, Option.some.injEq, Prod.mk.injEq]
  exact and_congr_right fun _ => and_congr eq_comm eq_comm

end Bump

end Reclaim
