import Reclaim.Text.Bytes

/-!
# Digests of names

A 64-bit digest of a byte string, used to spread names over a table: the ends of a short string are
folded into two seeds, a long one is absorbed sixteen bytes at a time, and the two halves of a full
product mix the state.
-/

namespace Reclaim.Text.Digest

/-- The two halves of the 128-bit product, combined. -/
def mix (x y : UInt64) : UInt64 :=
  let p := x.toNat * y.toNat
  UInt64.ofNat p ^^^ UInt64.ofNat (p >>> 64)

/-- The `n` bytes of `bs` from `i` on, as a number. -/
def word (bs : List UInt8) (i n : Nat) : UInt64 := UInt64.ofNat (leNat ((bs.drop i).take n))

def seed : UInt64 × UInt64 := (0x243f6a8885a308d3, 0x13198a2e03707344)

/-- Absorbs `n` blocks of sixteen bytes. -/
def absorb : Nat → UInt64 × UInt64 → List UInt8 → UInt64 × UInt64
  | 0, state, _ => state
  | n + 1, state, bs =>
    let mixed := mix (state.1 ^^^ word bs 0 8) (0xa4093822299f31d0 ^^^ word bs 8 8)
    absorb n (state.2, mixed) (bs.drop 16)

/-- The state before the last mixing step. -/
def fold (bs : List UInt8) : UInt64 × UInt64 :=
  let n := bs.length
  if n = 0 then seed
  else if n < 4 then
    (seed.1 ^^^ word bs 0 1, seed.2 ^^^ (word bs (n - 1) 1 <<< 8 ||| word bs (n / 2) 1))
  else if n < 8 then (seed.1 ^^^ word bs 0 4, seed.2 ^^^ word bs (n - 4) 4)
  else if n ≤ 16 then (seed.1 ^^^ word bs 0 8, seed.2 ^^^ word bs (n - 8) 8)
  else
    -- the last byte belongs to no block
    let state := absorb ((n - 1) / 16) seed bs
    (state.1 ^^^ word bs (n - 16) 8, state.2 ^^^ word bs (n - 8) 8)

/-- The raw hash of `bs`. -/
def hash (bs : List UInt8) : UInt64 :=
  let state := fold bs
  mix state.1 state.2 ^^^ UInt64.ofNat bs.length

/-- The digest of `bs`: its hash spread by an odd factor and rotated so that the best bits are
low. -/
def digest (bs : List UInt8) : UInt64 :=
  let x := hash bs * 0xf1357aea2e62a9c5
  x <<< 26 ||| x >>> 38

end Reclaim.Text.Digest
