import Reclaim.Arena

/-!
# The free list

The free chunks of a region are threaded through the arena in address order. A chunk keeps its
length in its first word and the address of the next chunk, or zero, in its second. Neighbours are
merged when a block is given back, so the list holds maximal runs of free words.

The list itself (`FreeList`) is the part outside the arena: the two ends, the policy and the number
of free words. Its operations take it as an argument and hand back what becomes of it.
-/

namespace Reclaim

/-- Which of the chunks that are large enough a request is served from.
mirrors free_list:17-23 -/
inductive Fit where
  /-- The first one. -/
  | first
  /-- The smallest one, the first among equals. -/
  | best
  deriving DecidableEq, Repr, Inhabited

namespace Fit

def ofName? : String → Option Fit
  | "first-fit" => some first
  | "best-fit" => some best
  | _ => none

def name : Fit → String
  | first => "first-fit"
  | best => "best-fit"

theorem ofName?_name (f : Fit) : ofName? f.name = some f := by cases f <;> rfl

end Fit

/-- The ends and the size of a list of free chunks.
mirrors free_list:27-32 -/
structure FreeList where
  fit : Fit
  head : Option Nat
  tail : Option Nat
  freeWords : Nat
  deriving DecidableEq, Repr, Inhabited

namespace FreeList

/-- The shortest chunk that has room for its length and its link.
mirrors free_list:12 -/
def minChunk : Nat := 2

/-- A link as a word: the address of a chunk, or zero. -/
def linkWord (next : Option Nat) : Word := UInt64.ofNat (next.getD 0)

/-- mirrors free_list:35-37 -/
def chunkSize (chunk : Nat) : ReadM Nat := loadNat chunk

/-- mirrors free_list:40-45 -/
def chunkNext (chunk : Nat) : ReadM (Option Nat) := do
  let next ← loadNat (chunk + 1)
  return if next = 0 then none else some next

/-- mirrors free_list:48-51 -/
def writeChunk (chunk size : Nat) (next : Option Nat) : HeapM Unit := do
  store chunk (UInt64.ofNat size)
  store (chunk + 1) (linkWord next)

/-- A bound on the chunks of a list that does not run in a circle: they differ in their addresses,
and one further step sees the end. -/
def walkBound : ReadM Nat := do return (← read).size + 1

/-! ## Building -/

/-- No chunk at all.
mirrors free_list:55-62 -/
def empty (fit : Fit) : FreeList := ⟨fit, none, none, 0⟩

/-- mirrors free_list:79-83 -/
def reset (l : FreeList) : FreeList := empty l.fit

/-- Makes `target` follow the chunk `prev`, or head the list.
mirrors free_list:85-90 -/
def link (l : FreeList) (prev target : Option Nat) : HeapM FreeList := do
  match prev with
  | some p =>
    store (p + 1) (linkWord target)
    return l
  | none => return { l with head := target }

/-- Appends a block that lies above every chunk, or lengthens the last chunk if they touch.
mirrors free_list:181-196 -/
def pushBack (l : FreeList) (block size : Nat) : HeapM FreeList := do
  let l := { l with freeWords := l.freeWords + size }
  let touching ← match l.tail with
    | some tail => do
      let len ← chunkSize tail
      pure (if tail + len = block then some (tail, len) else none)
    | none => pure none
  match touching with
  | some (tail, len) =>
    store tail (UInt64.ofNat (len + size))
    return l
  | none =>
    writeChunk block size none
    let l ← l.link l.tail (some block)
    return { l with tail := some block }

/-- The whole of `region`, a part of the arena, as one chunk if it is long enough for one.
mirrors free_list:65-71 -/
def ofRegion (region : Region) (fit : Fit) (h : Arena) : FreeList × Arena :=
  if minChunk ≤ region.length then
    (⟨fit, some region.first, some region.first, region.length⟩,
      h.blit region.first [UInt64.ofNat region.length, linkWord none])
  else (empty fit, h)

/-! ## Taking -/

/-- A chunk to serve a request from, with the chunk before it. -/
structure Candidate where
  prev : Option Nat
  chunk : Nat
  size : Nat
  deriving DecidableEq, Repr

/-- Should a chunk of `len` words replace the candidate found so far? -/
def improves (len : Nat) : Option Candidate → Bool
  | none => true
  | some best => len < best.size

/-- Looks for a chunk of at least `size` words from `cur` on, where `prev` is the chunk before it.
mirrors free_list:102-115 -/
def search (fit : Fit) (size : Nat) :
    Nat → Option Nat → Option Nat → Option Candidate → ReadM (Option Candidate)
  | 0, _, _, _ => throw .endless
  | _ + 1, _, none, found => pure found
  | n + 1, prev, some chunk, found => do
    let len ← chunkSize chunk
    let found := if size ≤ len && improves len found then some ⟨prev, chunk, len⟩ else found
    if size ≤ len && (fit == .first || len == size) then pure found
    else do
      let next ← chunkNext chunk
      search fit size n (some chunk) next found

/-- Removes a block of at least `size` words and tells its address and length. A chunk is split if
what remains of it is a chunk again, and handed out whole otherwise.
mirrors free_list:96-136 -/
def take (l : FreeList) (size : Nat) : HeapM (Option (Nat × Nat) × FreeList) := do
  let size := max size minChunk
  match ← search l.fit size (← walkBound) none l.head none with
  | none => return (none, l)
  | some c =>
    let next ← chunkNext c.chunk
    if minChunk ≤ c.size - size then
      let rest := c.chunk + size
      writeChunk rest (c.size - size) next
      let l ← l.link c.prev (some rest)
      let tail := if l.tail = some c.chunk then some rest else l.tail
      return (some (c.chunk, size), { l with tail, freeWords := l.freeWords - size })
    else
      let l ← l.link c.prev next
      let tail := if l.tail = some c.chunk then c.prev else l.tail
      return (some (c.chunk, c.size), { l with tail, freeWords := l.freeWords - c.size })

/-! ## Giving back -/

/-- The chunks around `block`: the last one that does not lie above it and the first one that does.
mirrors free_list:140-148 -/
def around (block : Nat) : Nat → Option Nat → Option Nat → ReadM (Option Nat × Option Nat)
  | 0, _, _ => throw .endless
  | _ + 1, prev, none => pure (prev, none)
  | n + 1, prev, some chunk =>
    if block < chunk then pure (prev, some chunk)
    else do
      let next ← chunkNext chunk
      around block n (some chunk) next

/-- The length and the link of the block of `size` words at `block`, which takes in the chunk behind
it if they touch. mirrors free_list:153-160 -/
def nextOf (block size : Nat) (cur : Option Nat) : HeapM (Nat × Option Nat) := do
  match cur with
  | some chunk =>
    if block + size = chunk then do pure (size + (← chunkSize chunk), ← chunkNext chunk)
    else pure (size, cur)
  | none => pure (size, none)

/-- The chunk before the block, with its length, if they touch.
mirrors free_list:162-163 -/
def touching (block : Nat) (prev : Option Nat) : HeapM (Option (Nat × Nat)) := do
  match prev with
  | some p => do
    let plen ← chunkSize p
    pure (if p + plen = block then some (p, plen) else none)
  | none => pure none

/-- Writes a block of known length and link, or lets the chunk before it take it in.
mirrors free_list:162-176 -/
def settle (l : FreeList) (prev : Option Nat) (block len : Nat) (next : Option Nat) :
    HeapM FreeList := do
  match ← touching block prev with
  | some (p, plen) =>
    writeChunk p (plen + len) next
    return if next.isNone then { l with tail := some p } else l
  | none =>
    writeChunk block len next
    let l ← l.link prev (some block)
    return if next.isNone then { l with tail := some block } else l

/-- Gives a block back, merged with the chunks that it touches.
mirrors free_list:139-177 -/
def give (l : FreeList) (block size : Nat) : HeapM FreeList := do
  let (prev, cur) ← around block (← walkBound) none l.head
  let (len, next) ← nextOf block size cur
  settle { l with freeWords := l.freeWords + size } prev block len next

/-! ## Listing -/

/-- The chunks from `cur` on, with their lengths.
mirrors free_list:245-249 -/
def chunksFrom : Nat → Option Nat → ReadM (List (Nat × Nat))
  | 0, _ => throw .endless
  | _ + 1, none => pure []
  | n + 1, some chunk => do
    let next ← chunkNext chunk
    let len ← chunkSize chunk
    return (chunk, len) :: (← chunksFrom n next)

/-- The free chunks in address order.
mirrors free_list:199-204 -/
def chunks (l : FreeList) : ReadM (List (Nat × Nat)) := do chunksFrom (← walkBound) l.head

/-- The length of the longest chunk.
mirrors free_list:207-209 -/
def largest (l : FreeList) : ReadM Nat := do
  return ((← l.chunks).map Prod.snd).foldl max 0

/-- The blocks between `scan` and `limit` that are not chunks, where `cur` is the next chunk. Every
block keeps its length in its first word; a length of zero ends the walk.
mirrors free_list:215-233 -/
def allocatedFrom (limit : Nat) : Nat → Nat → Option Nat → ReadM (List (Nat × Nat))
  | 0, _, _ => throw .endless
  | n + 1, scan, cur =>
    if scan < limit then do
      let size ← loadNat scan
      if size = 0 then pure []
      else do
        let next ← match cur with
          | some chunk => do
            let next ← chunkNext chunk
            let _ ← chunkSize chunk
            pure next
          | none => pure none
        if cur = some scan then allocatedFrom limit n (scan + size) next
        else return (scan, size) :: (← allocatedFrom limit n (scan + size) cur)
    else pure []

/-- The blocks of `region` that are not on the list.
mirrors free_list:215-233 -/
def allocated (l : FreeList) (region : Region) : ReadM (List (Nat × Nat)) :=
  allocatedFrom region.limit (region.length + 1) region.first l.head

end FreeList

end Reclaim
