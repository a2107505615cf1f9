/-!
# Reading bytes as text, whatever they hold

UTF-8 is decoded character by character. Where no character starts, the longest run of bytes that
begins one (at least one byte) is read as a single replacement character.
-/

namespace Reclaim.Text

/-- The character that stands for bytes that spell none. -/
def replacement : Char := '\uFFFD'

/-- The character that `bs` begins with. -/
def decodeChar? (bs : List UInt8) : Option Char := (bs.take 4).toByteArray.utf8DecodeChar? 0

def isContinuation (b : UInt8) : Bool := 0x80 ≤ b && b ≤ 0xBF

/-- May `b` follow the lead byte `lead` of a character of three or four bytes? -/
def canFollow (lead b : UInt8) : Bool :=
  if lead == 0xE0 then 0xA0 ≤ b && b ≤ 0xBF
  else if lead == 0xED then 0x80 ≤ b && b ≤ 0x9F
  else if lead == 0xF0 then 0x90 ≤ b && b ≤ 0xBF
  else if lead == 0xF4 then 0x80 ≤ b && b ≤ 0x8F
  else 0xE1 ≤ lead && lead ≤ 0xF3 && isContinuation b

/-- How many bytes the broken character at the front of `bs` takes up. -/
def brokenLength : List UInt8 → Nat
  | lead :: b :: c :: _ =>
    if canFollow lead b then (if 0xF0 ≤ lead && isContinuation c then 3 else 2) else 1
  | [lead, b] => if canFollow lead b then 2 else 1
  | _ => 1

/-- The characters of `bs`. -/
def decodeChars (bs : List UInt8) : List Char :=
  match bs with
  | [] => []
  | b :: rest =>
    match decodeChar? (b :: rest) with
    | some c => c :: decodeChars (rest.drop (c.utf8Size - 1))
    | none => replacement :: decodeChars (rest.drop (brokenLength (b :: rest) - 1))
termination_by bs.length
decreasing_by all_goals simp only [List.length_cons, List.length_drop]; omega

/-- The text that `bs` spells. -/
def decode (bs : List UInt8) : String := String.ofList (decodeChars bs)

/-- The bytes of a text. -/
def encode (s : String) : List UInt8 := s.toUTF8.toList

end Reclaim.Text
