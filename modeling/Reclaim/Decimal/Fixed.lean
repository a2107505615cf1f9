/-!
# Fixed-point decimal text

A nonnegative fraction is written with a given number of decimal places. It is rounded to the
nearest such decimal, and a tie goes to the even neighbour. A double is first read as the exact
fraction that it is, so no digit is rounded twice.

Results:
* `roundDiv_near`: the rounded quotient lies within half a unit.
-/

namespace Reclaim.Decimal

/-- The quotient rounded to the nearest number, a tie to the even one. -/
def roundDiv (num den : Nat) : Nat :=
  let q := num / den
  let r := num % den
  if 2 * r < den then q
  else if den < 2 * r then q + 1
  else q + q % 2

theorem roundDiv_near (num den : Nat) (h : 0 < den) :
    2 * num ≤ 2 * (roundDiv num den * den) + den ∧ 2 * (roundDiv num den * den) ≤ 2 *
    num + den := by
  have hr := Nat.mod_lt num h
  have hq := Nat.div_add_mod num den
  rw [Nat.mul_comm] at hq
  simp only [roundDiv]
  have e1 : (num / den + 1) * den = num / den * den + den := Nat.succ_mul _ _
  split
  · omega
  · split
    · omega
    · rcases Nat.mod_two_eq_zero_or_one (num / den) with e | e <;> rw [e]
      · rw [Nat.add_zero]; omega
      · omega

/-- The decimal digits of `n`, filled up with zeroes to `width`. -/
def padded (width n : Nat) : String :=
  let digits := Nat.toDigits 10 n
  String.ofList (List.replicate (width - digits.length) '0' ++ digits)

/-- The fraction `num / den` with `places` decimals. -/
def fixed (places num den : Nat) : String :=
  let one := Nat.pow 10 places
  let scaled := roundDiv (num * one) den
  let whole := padded 1 (scaled / one)
  if places = 0 then whole else whole ++ "." ++ padded places (scaled % one)

/-- A finite double without its sign, as a fraction. -/
def fraction (x : Float) : Nat × Nat :=
  let bits := x.toBits.toNat % 0x8000000000000000
  let biased := bits / 0x10000000000000
  let low := bits % 0x10000000000000
  let significand := if biased = 0 then low else low + 0x10000000000000
  -- the double is significand * 2 ^ (exponent - 1075)
  let exponent := max biased 1
  if 1075 ≤ exponent then (significand <<< (exponent - 1075), 1)
  else (significand, 1 <<< (1075 - exponent))

/-- A nonnegative finite double with `places` decimals. -/
def ofFloat (places : Nat) (x : Float) : String :=
  let (num, den) := fraction x
  fixed places num den

end Reclaim.Decimal
