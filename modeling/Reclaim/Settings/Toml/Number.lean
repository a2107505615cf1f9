import Reclaim.Setting
import Reclaim.Settings.Toml.Quoted

/-!
# Numbers of TOML documents

Integers in four bases and reals. A single underscore may divide two digits. A number beyond what
128 bits or a double hold is still a number, but one that is too large to be read
(`Setting.tooLarge`).

Results:
* `exceedsReal_iff`: a real is too large exactly if it reaches half a unit above the largest double.
-/

namespace Reclaim.Toml

/-- Goes on reading digits, which a single underscore may divide. -/
def digitsFrom (base : Nat) (acc : Nat) : List Char → Option Nat
  | [] => some acc
  | '_' :: c :: cs => do digitsFrom base (acc * base + (← digit? base c)) cs
  | c :: cs => do digitsFrom base (acc * base + (← digit? base c)) cs

/-- The number that a whole token of digits spells. -/
def digits? (base : Nat) : List Char → Option Nat
  | [] => none
  | c :: cs => do digitsFrom base (← digit? base c) cs

/-- Decimal digits without a leading zero. -/
def decimal? : List Char → Option Nat
  | ['0'] => some 0
  | '0' :: _ => none
  | cs => digits? 10 cs

/-- Splits off a sign. -/
def signed : List Char → Bool × List Char
  | '-' :: cs => (true, cs)
  | '+' :: cs => (false, cs)
  | cs => (false, cs)

def withSign (negative : Bool) (n : Nat) : Int := if negative then -(n : Int) else n

/-! ## Integers -/

/-- An integer of at most 128 bits, signed or not. -/
def ofInteger (n : Int) : Setting :=
  if -0x80000000000000000000000000000000 ≤ n ∧
    n < 0x100000000000000000000000000000000 then .integer n
  else .tooLarge

/-! ## Reals -/

/-- Half a unit above the largest double: from here on a real is too large. -/
def realLimit : Nat := 0x3fffffffffffff <<< 970

/-- The decimal digits of the limit. -/
def limitDigits : Nat := 309

/-- Is `m * 10 ^ e` too large for a double? Only a number as long as the limit is compared with it,
so the exponent may be as large as it likes. -/
def exceedsReal (m : Nat) (e : Int) : Bool :=
  let length : Int := (Nat.toDigits 10 m).length + e
  if m == 0 then false
  else if length < limitDigits then false
  else if limitDigits < length then true
  else realLimit * Nat.pow 10 (-e).toNat ≤ m * Nat.pow 10 e.toNat

/-- The exponent of a real: `e` or `E`, a sign if need be, and digits. None at all stands for
zero. -/
def exponent? : List Char → Option Int
  | [] => some 0
  | 'e' :: cs | 'E' :: cs => (digits? 10 (signed cs).2).map (withSign (signed cs).1)
  | _ => none

def isExponentMark (c : Char) : Bool := c == 'e' || c == 'E'

/-- A real without its sign. It has decimal places, an exponent or both. -/
def real? (cs : List Char) : Option Setting :=
  if cs == ['i', 'n', 'f'] || cs == ['n', 'a', 'n'] then some .real
  else do
    let mantissa := cs.takeWhile (!isExponentMark ·)
    let exponent := cs.dropWhile (!isExponentMark ·)
    let whole ← decimal? (mantissa.takeWhile (· != '.'))
    let e ← exponent? exponent
    match mantissa.dropWhile (· != '.') with
    | [] => if exponent.isEmpty then none else some (ofParts whole e)
    | _ :: places => do
      let n := places.countP (· != '_')
      some (ofParts (whole * Nat.pow 10 n + (← digits? 10 places)) (e - n))
where
  ofParts (m : Nat) (e : Int) : Setting := if exceedsReal m e then .tooLarge else .real

/-! ## Tokens -/

/-- The number that a whole token spells. -/
def number? : List Char → Option Setting
  | '0' :: 'x' :: ds => (digits? 16 ds).map fun n => ofInteger n
  | '0' :: 'o' :: ds => (digits? 8 ds).map fun n => ofInteger n
  | '0' :: 'b' :: ds => (digits? 2 ds).map fun n => ofInteger n
  | token =>
    let (negative, body) := signed token
    match decimal? body with
    | some n => some (ofInteger (withSign negative n))
    | none => real? body

/-! ## The limit of reals -/

theorem pow_length_le {m : Nat} (hm : m ≠ 0) : Nat.pow 10 ((Nat.toDigits 10 m).length - 1) ≤ m := by
  rcases Nat.lt_or_ge 1 (Nat.toDigits 10 m).length with h | h
  · have hk : ¬ (Nat.toDigits 10 m).length ≤ (Nat.toDigits 10 m).length - 1 := by omega
    rw [Nat.length_toDigits_le_iff (by decide) (by omega)] at hk
    exact Nat.le_of_not_lt hk
  · have h0 : (Nat.toDigits 10 m).length - 1 = 0 := by omega
    rw [h0]
    exact Nat.pos_of_ne_zero hm

theorem lt_pow_length (m : Nat) : m < Nat.pow 10 (Nat.toDigits 10 m).length :=
  (Nat.length_toDigits_le_iff (by decide) Nat.length_toDigits_pos).mp (Nat.le_refl _)

theorem realLimit_bounds :
    Nat.pow 10 (limitDigits - 1) < realLimit ∧ realLimit < Nat.pow 10 limitDigits := by
  decide +kernel

/-- The short cuts by length agree with the comparison itself. -/
theorem exceedsReal_iff (m : Nat) (e : Int) :
    exceedsReal m e = true ↔ realLimit * Nat.pow 10 (-e).toNat ≤ m * Nat.pow 10 e.toNat := by
  have hpos (k : Nat) : 0 < Nat.pow 10 k := Nat.pow_pos (by decide)
  have hadd (i j : Nat) : Nat.pow 10 (i + j) = Nat.pow 10 i * Nat.pow 10 j := Nat.pow_add 10 i j
  have hmono {i j : Nat} (h : i ≤ j) : Nat.pow 10 i ≤ Nat.pow 10 j :=
    Nat.pow_le_pow_right (by decide) h
  have hdigits : 0 < limitDigits := by decide
  obtain ⟨hlow, hhigh⟩ := realLimit_bounds
  simp only [exceedsReal]
  by_cases hm : m = 0
  · have := Nat.mul_pos (Nat.zero_lt_of_lt hlow) (hpos (-e).toNat)
    subst hm
    simp only [beq_self_eq_true, if_true, Bool.false_eq_true, false_iff, Nat.zero_mul]
    omega
  rw [if_neg (by simpa using hm)]
  split
  · rename_i hshort
    have h1 : m * Nat.pow 10 e.toNat < Nat.pow 10 (limitDigits - 1 + (-e).toNat) := by
      refine Nat.lt_of_lt_of_le (Nat.mul_lt_mul_of_pos_right (lt_pow_length m) (hpos _)) ?_
      rw [← hadd]
      exact hmono (by omega)
    have h2 := Nat.mul_lt_mul_of_pos_right hlow (hpos (-e).toNat)
    rw [hadd] at h1
    simp only [Bool.false_eq_true, false_iff]
    exact Nat.not_le.mpr (Nat.lt_trans h1 h2)
  · split
    · rename_i hlong
      have h1 : Nat.pow 10 (limitDigits + (-e).toNat) ≤ m * Nat.pow 10 e.toNat := by
        refine Nat.le_trans ?_ (Nat.mul_le_mul_right _ (pow_length_le hm))
        rw [← hadd]
        exact hmono (by omega)
      have h2 := Nat.mul_lt_mul_of_pos_right hhigh (hpos (-e).toNat)
      rw [hadd] at h1
      simp only [true_iff]
      exact Nat.le_of_lt (Nat.lt_of_lt_of_le h2 h1)
    · simp

end Reclaim.Toml
