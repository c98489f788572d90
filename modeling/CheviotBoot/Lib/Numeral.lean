import Mathlib.Data.Nat.Digits.Defs
import Mathlib.Data.Nat.Digits.Lemmas
import CheviotBoot.Lib.Bytes

namespace CheviotBoot.Lib

/-- A character of the source as a byte. -/
def ch (c : Char) : Byte := BitVec.ofNat 8 c.toNat

/-- The digits 0 to 9, and a to z after them. -/
def digitByte (d : Nat) : Byte := BitVec.ofNat 8 (if d < 10 then 48 + d else 87 + d)

/-- The digits of a number, least significant first; zero has one. -/
def digitsOf (base n : Nat) : List Nat := if n = 0 then [0] else Nat.digits base n

/-- A number as it is written. -/
def numeral (base n : Nat) : List Byte := ((digitsOf base n).map digitByte).reverse

theorem digitsOf_ne_nil (base n : Nat) : digitsOf base n ≠ [] := by
  unfold digitsOf
  by_cases h : n = 0
  · rw [if_pos h]
    exact List.cons_ne_nil _ _
  · rw [if_neg h]
    exact Nat.digits_ne_nil_iff_ne_zero.mpr h

theorem digitsOf_lt {base n d : Nat} (hb : 1 < base) (h : d ∈ digitsOf base n) : d < base := by
  unfold digitsOf at h
  by_cases hn : n = 0
  · rw [if_pos hn, List.mem_singleton] at h
    omega
  · rw [if_neg hn] at h
    exact Nat.digits_lt_base hb h

/-- One digit off a number. -/
theorem digitsOf_step {base n : Nat} (hb : 1 < base) :
    digitsOf base n = n % base :: if 0 < n / base then digitsOf base (n / base) else [] := by
  unfold digitsOf
  by_cases hn : n = 0
  · subst hn
    simp
  · by_cases hq : 0 < n / base
    · rw [if_neg hn, Nat.digits_def' hb (by omega), if_pos hq, if_neg (by omega)]
    · have hzero : n / base = 0 := Nat.eq_zero_of_not_pos hq
      rw [if_neg hn, Nat.digits_def' hb (by omega), if_neg hq, hzero, Nat.digits_zero]

theorem digitByte_ne_zero {d : Nat} (h : d < 16) : digitByte d ≠ 0#8 := by
  have hall : ∀ d : Fin 16, digitByte d ≠ 0#8 := by decide
  exact hall ⟨d, h⟩

theorem ofDigits_digitsOf (base n : Nat) : Nat.ofDigits base (digitsOf base n) = n := by
  unfold digitsOf
  by_cases h : n = 0
  · rw [if_pos h, Nat.ofDigits_singleton, h]
  · rw [if_neg h, Nat.ofDigits_digits]

/-- Reading the digits, the most significant first, gives the number back. -/
theorem foldl_digitsOf (base n : Nat) :
    (digitsOf base n).reverse.foldl (fun value d => value * base + d) 0 = n := by
  rw [List.foldl_reverse]
  calc (digitsOf base n).foldr (fun d value => value * base + d) 0
      = Nat.ofDigits base (digitsOf base n) := by
        rw [Nat.ofDigits_eq_foldr]
        simp only [Nat.cast_id, Nat.mul_comm, Nat.add_comm]
    _ = n := ofDigits_digitsOf base n

/-- Only zero is written with a zero in front. -/
theorem getLast_digitsOf {base n : Nat} (h : (digitsOf base n).getLast (digitsOf_ne_nil base n) = 0) : n = 0 := by
  by_contra hn
  simp only [digitsOf, if_neg hn] at h
  exact Nat.getLast_digit_ne_zero base hn h

end CheviotBoot.Lib
