import Reclaim.Mutator

/-!
# Looking at the whole heap

What the collector holds, what the roots reach, and the end of a heap's life.
-/

namespace Reclaim

/-- The objects reachable from those of `pending`, the first one first, without those marked in
`seen`. An object comes before what is reached through it, and the last field is followed first. One
outside the arena cannot be read, so marks for the arena are enough. mirrors runtime:411-432 -/
def reachFrom : Nat → List Nat → MarkBitmap → ReadM (List Nat)
  | 0, _, _ => throw .endless
  | _ + 1, [], _ => return []
  | n + 1, obj :: pending, seen => do
    if seen.isMarked obj then reachFrom n pending seen
    else
      let found ← children obj
      return obj :: (← reachFrom n (found.reverse ++ pending) (seen.mark obj))

namespace Mutator

/-- The objects that the roots refer to, last slot first.
mirrors runtime:411-432 -/
def rootObjects (m : Mutator) : List Nat :=
  (m.machine.roots.slotsUpward.filterMap
    fun slot => (m.machine.roots.get? slot).bind Value.ref?).reverse

/-- The objects reachable from the roots. Each object that is found adds at most two to those still
to be looked at. mirrors runtime:411-432 -/
def reachable (m : Mutator) : Except Fault (List Nat) :=
  let start := m.rootObjects
  let words := m.machine.heap.size
  m.view (reachFrom (start.length + 2 * words + 1) start (MarkBitmap.empty words))

/-- The objects that the collector holds, with their block sizes.
mirrors runtime:395-400 -/
def objects (m : Mutator) : Except Fault (List (Nat × Nat)) := m.view m.machine.own.objects

/-- The words in a list of blocks. -/
def wordsOf : List (Nat × Nat) → Nat
  | [] => 0
  | (_, size) :: rest => size + wordsOf rest

/-- The bytes in a list of blocks. -/
def bytesOf (blocks : List (Nat × Nat)) : UInt64 := byteCount (wordsOf blocks)

/-- mirrors runtime:403-408 -/
def liveBytes (m : Mutator) : Except Fault UInt64 := bytesOf <$> m.objects

/-- mirrors runtime:435-437 -/
def describe (m : Mutator) (obj : Nat) : Except Fault ObjectInfo :=
  m.view (m.machine.own.describe obj)

/-- The heap after its tables, its memory and its roots were given up.
mirrors runtime:456-469 -/
def terminated (m : Mutator) : Mutator :=
  { m with machine := { m.machine with
      own := m.machine.own.released
      heap := Arena.released
      roots := m.machine.roots.cleared } }

end Mutator

end Reclaim
