import Reclaim.Word

/-!
# Bytes packed into words

Text is stored eight bytes to a word, the first byte lowest; the last word is padded with zeroes.

Results:
* `length_pack`: a text of `n` bytes takes `wordsFor n` words.
* `take_unpack_pack`: unpacking gives the bytes back, once the padding is dropped.
-/

namespace Reclaim.Text

/-- The number that `bs` spells, lowest byte first. -/
def leNat : List UInt8 → Nat
  | [] => 0
  | b :: bs => b.toNat + 256 * leNat bs

/-- The `n` lowest bytes of `x`, lowest first. -/
def leBytes : Nat → Nat → List UInt8
  | 0, _ => []
  | n + 1, x => UInt8.ofNat x :: leBytes n (x / 256)

/-- The words that hold `bs`. -/
def pack (bs : List UInt8) : List Word :=
  match bs with
  | [] => []
  | b :: rest => UInt64.ofNat (leNat (b :: rest.take 7)) :: pack (rest.drop 7)
termination_by bs.length
decreasing_by simp only [List.length_cons, List.length_drop]; omega

/-- The bytes that `ws` holds, padding included. -/
def unpack (ws : List Word) : List UInt8 := ws.flatMap fun w => leBytes wordBytes w.toNat

theorem leNat_lt (bs : List UInt8) : leNat bs < Nat.pow 256 bs.length := by
  induction bs with
  | nil => exact Nat.one_pos
  | cons b bs ih =>
    have hb := b.toNat_lt
    have hp : Nat.pow 256 (b :: bs).length = Nat.pow 256 bs.length * 256 := rfl
    simp only [leNat]
    omega

/-- Writing out a spelled number restores the bytes and fills up with zeroes. -/
theorem leBytes_leNat (n : Nat) (bs : List UInt8) (h : bs.length ≤ n) :
    leBytes n (leNat bs) = bs ++ List.replicate (n - bs.length) 0 := by
  induction bs generalizing n with
  | nil =>
    simp only [leNat, List.nil_append, List.length_nil, Nat.sub_zero]
    clear h
    induction n with
    | zero => rfl
    | succ n ih => simp [leBytes, ih, List.replicate_succ]
  | cons b bs ih =>
    cases n with
    | zero => simp at h
    | succ n =>
      have hb := b.toNat_lt
      simp only [List.length_cons] at h
      have e1 : UInt8.ofNat (b.toNat + 256 * leNat bs) = b := by
        apply UInt8.toNat_inj.mp; rw [UInt8.toNat_ofNat']; omega
      have e2 : (b.toNat + 256 * leNat bs) / 256 = leNat bs := by omega
      simp only [leNat, leBytes, e1, e2, ih n (by omega), List.length_cons, List.cons_append]
      rw [show n + 1 - (bs.length + 1) = n - bs.length by omega]

theorem length_pack (bs : List UInt8) : (pack bs).length = wordsFor bs.length := by
  fun_induction pack bs with
  | case1 => rfl
  | case2 b rest ih =>
    simp only [List.length_cons, ih, List.length_drop, wordsFor, wordBytes]
    omega

/-- Unpacking packed bytes gives them back, followed by the padding of the last word. -/
theorem unpack_pack (bs : List UInt8) :
    unpack (pack bs) = bs ++ List.replicate (wordsFor bs.length * 8 - bs.length) 0 := by
  fun_induction pack bs with
  | case1 => rfl
  | case2 b rest ih =>
    have hlt := leNat_lt (b :: rest.take 7)
    have hlen : (b :: rest.take 7).length ≤ 8 := by
      simp only [List.length_cons, List.length_take]; omega
    have hpow : Nat.pow 256 (b :: rest.take 7).length ≤ 0x10000000000000000 :=
      Nat.pow_le_pow_right (n := 256) (j := 8) (by decide) hlen
    have hw : (UInt64.ofNat (leNat (b :: rest.take 7))).toNat = leNat (b :: rest.take 7) := by
      rw [UInt64.toNat_ofNat']; exact Nat.mod_eq_of_lt (by omega)
    simp only [unpack, List.flatMap_cons, hw] at ih ⊢
    rw [ih, leBytes_leNat wordBytes _ hlen]
    by_cases h7 : 7 ≤ rest.length
    · have e : (b :: rest.take 7).length = 8 := by simp [List.length_take, h7]
      simp only [e, wordBytes, Nat.sub_self, List.replicate_zero, List.append_nil, List.cons_append,
        List.length_drop, List.length_cons]
      rw [← List.append_assoc, List.take_append_drop]
      congr 3
      simp only [wordsFor, wordBytes]; omega
    · have e : rest.drop 7 = [] := List.drop_eq_nil_of_le (by omega)
      have e' : rest.take 7 = rest := List.take_of_length_le (by omega)
      simp only [e, e', List.length_nil, wordsFor, wordBytes, List.nil_append, List.length_cons]
      rw [show ((0 + (8 - 1)) / 8 * 8 - 0) = 0 from rfl, List.replicate_zero, List.append_nil]
      congr 2
      omega

theorem take_unpack_pack (bs : List UInt8) : (unpack (pack bs)).take bs.length = bs := by
  rw [unpack_pack, List.take_left]

end Reclaim.Text
