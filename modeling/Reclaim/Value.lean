import Reclaim.Word

/-!
# Tagged values

A value is one word. The lowest bit marks a small integer; the two lowest bits are clear in a
reference, which is the byte offset of the object it names and is never zero. Five other bit
patterns are the constants of the language: the two booleans, the unbound marker, the stack frame
marker and the empty list.

Results:
* `isRef_ofRef`, `ref?_ofRef`: the reference to a word address reads back as that address.
* `int?_int`: a small integer from `-2^62` up to `2^62` reads back as itself.
-/

namespace Reclaim

/-- One tagged word.
mirrors value:15 -/
structure Value where
  bits : Word
  deriving DecidableEq, Repr, Inhabited

namespace Value

/-- The boolean false. -/
def ff : Value := ⟨0⟩
/-- The boolean true. -/
def tt : Value := ⟨2⟩
/-- Marks an unbound slot. -/
def undef : Value := ⟨6⟩
/-- Marks a stack frame. -/
def frame : Value := ⟨10⟩
/-- The empty list. -/
def nil : Value := ⟨14⟩

def ofBool (b : Bool) : Value := if b then Value.tt else Value.ff

/-- A small integer; the top bit of `n` is lost when it needs more than 63 bits.
mirrors value:50-52 -/
def int (n : Int) : Value := ⟨UInt64.ofInt (2 * n + 1)⟩

/-- The reference to the object at word address `a`.
mirrors value:56-58 -/
def ofRef (a : Nat) : Value := ⟨byteCount a⟩

/-- mirrors value:62-64 -/
def isInt (v : Value) : Bool := v.bits &&& 1 == 1

/-- mirrors value:68-70 -/
def isRef (v : Value) : Bool := v.bits != 0 && v.bits &&& 3 == 0

def isNil (v : Value) : Bool := v == nil

def isUndef (v : Value) : Bool := v == undef

/-- The integer that `v` holds.
mirrors value:86-92 -/
def int? (v : Value) : Option Int := if v.isInt then some (v.bits.toInt64.toInt / 2) else none

/-- The word address that `v` refers to: its byte offset, rounded down to a word.
mirrors value:96-102 -/
def ref? (v : Value) : Option Nat := if v.isRef then some (v.bits.toNat / wordBytes) else none

/-- The written form: `#f`, `#t`, `#<undef>`, `#<frame>`, `()`, a decimal integer, `#<ref @0x18>`,
or the raw bits of anything else. -/
def written (v : Value) : String :=
  if v = Value.ff then "#f"
  else if v = Value.tt then "#t"
  else if v = undef then "#<undef>"
  else if v = frame then "#<frame>"
  else if v = nil then "()"
  else match v.int?, v.ref? with
    | some n, _ => toString n
    | none, some a => s!"#<ref {showAddress a}>"
    | none, none => s!"#<imm {hex v.bits.toNat}>"

instance : ToString Value := ⟨written⟩

/-! ## Reading back -/

theorem and_three (w : Word) : (w &&& 3).toNat = w.toNat % 4 := by
  rw [UInt64.toNat_and, show (3 : UInt64).toNat = 2 ^ 2 - 1 from rfl,
    Nat.and_two_pow_sub_one_eq_mod]

theorem and_one (w : Word) : (w &&& 1).toNat = w.toNat % 2 := by
  rw [UInt64.toNat_and, show (1 : UInt64).toNat = 2 ^ 1 - 1 from rfl,
    Nat.and_two_pow_sub_one_eq_mod]

theorem isRef_iff (v : Value) : v.isRef = true ↔ v.bits.toNat ≠ 0 ∧ v.bits.toNat % 4 = 0 := by
  simp only [isRef, Bool.and_eq_true, bne_iff_ne, beq_iff_eq, ne_eq, ← UInt64.toNat_inj, and_three]
  rfl

theorem isInt_iff (v : Value) : v.isInt = true ↔ v.bits.toNat % 2 = 1 := by
  simp only [isInt, beq_iff_eq, ← UInt64.toNat_inj, and_one]
  rfl

theorem isRef_ofRef {a : Nat} (h0 : a ≠ 0) (h : a < 0x2000000000000000) :
    (ofRef a).isRef = true := by
  rw [isRef_iff, ofRef, byteCount_toNat_of_lt h]; omega

theorem ref?_ofRef {a : Nat} (h0 : a ≠ 0) (h : a < 0x2000000000000000) :
    (ofRef a).ref? = some a := by
  rw [ref?, if_pos (isRef_ofRef h0 h), ofRef, byteCount_toNat_of_lt h]
  simp [wordBytes]

theorem toNat_int (n : Int) : ((int n).bits.toNat : Int) = (2 * n + 1) % 0x10000000000000000 := by
  simp [int, UInt64.ofInt, UInt64.toNat_ofNat']
  omega

/-- A small integer of 63 bits reads back. -/
theorem int?_int {n : Int} (hlo : -0x4000000000000000 ≤ n) (hhi : n < 0x4000000000000000) :
    (int n).int? = some n := by
  have e := toNat_int n
  have hi : (int n).isInt = true := by rw [isInt_iff]; omega
  have ht : (int n).bits.toInt64.toInt = Int.bmod (int n).bits.toNat (2 ^ 64) := by
    simp only [UInt64.toInt64, Int64.toInt, BitVec.toInt_eq_toNat_bmod]
    rfl
  rw [int?, if_pos hi, ht, e, Int.bmod_def]
  congr 1
  omega

end Value

end Reclaim
