/-!
# Words, byte counts and addresses

The heap is addressed by words of eight bytes. Addresses and lengths counted in words are natural
numbers; a quantity counted in bytes is kept in one word and so wraps at `2^64`.

Throughout, a definition names the lines that it mirrors as `module:first-last`.
-/

namespace Reclaim

/-- One heap word. -/
abbrev Word := UInt64

/-- Bytes in a word. -/
def wordBytes : Nat := 8

/-- How many values a word takes. -/
def wordValues : Nat := 0x10000000000000000

/-- The bytes in `n` words, as one word. -/
def byteCount (n : Nat) : UInt64 := UInt64.ofNat (n * wordBytes)

/-- The words needed to hold `n` bytes. -/
def wordsFor (n : Nat) : Nat := (n + (wordBytes - 1)) / wordBytes

/-- Lower-case hexadecimal, marked by `0x`. -/
def hex (n : Nat) : String := "0x" ++ String.ofList (Nat.toDigits 16 n)

/-- An address is shown as the byte offset of its word. -/
def showAddress (a : Nat) : String := "@" ++ hex (a * wordBytes)

theorem byteCount_toNat (n : Nat) : (byteCount n).toNat = n * 8 % 0x10000000000000000 := by
  simp [byteCount, wordBytes, UInt64.toNat_ofNat']

/-- Below `2^61` words the byte count is exact. -/
theorem byteCount_toNat_of_lt {n : Nat} (h : n < 0x2000000000000000) :
    (byteCount n).toNat = n * 8 := by
  rw [byteCount_toNat]; omega

end Reclaim
