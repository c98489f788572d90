import Mathlib.Algebra.Order.Ring.Nat

namespace CheviotBoot.Lib

abbrev Byte := BitVec 8
abbrev Word := BitVec 32

/-- The `k` low-order bytes of a number, least significant first. -/
def leBytes : Nat → Nat → List Byte
  | 0, _ => []
  | k + 1, n => BitVec.ofNat 8 n :: leBytes k (n / 256)

/-- The number spelled by bytes, least significant first. -/
def leValue : List Byte → Nat
  | [] => 0
  | b :: bs => b.toNat + 256 * leValue bs

@[simp] theorem leBytes_length (k n : Nat) : (leBytes k n).length = k := by
  induction k generalizing n with
  | zero => rfl
  | succ k ih => simp [leBytes, ih]

theorem leValue_leBytes (k n : Nat) : leValue (leBytes k n) = n % 256 ^ k := by
  induction k generalizing n with
  | zero => simp [leBytes, leValue, Nat.mod_one]
  | succ k ih =>
    have hb : (BitVec.ofNat 8 n).toNat = n % 256 := by simp
    rw [leBytes, leValue, ih, hb, Nat.pow_succ', Nat.mod_mul]

/-- A 32-bit word as it lies in memory or in a file. -/
def le32 (w : Word) : List Byte := leBytes 4 w.toNat

/-- The 32-bit word spelled by four bytes. -/
def word32 (bs : List Byte) : Word := BitVec.ofNat 32 (leValue bs)

@[simp] theorem le32_length (w : Word) : (le32 w).length = 4 := leBytes_length 4 _

@[simp] theorem word32_le32 (w : Word) : word32 (le32 w) = w := by
  apply BitVec.eq_of_toNat_eq
  have hw := w.isLt
  simp only [word32, le32, leValue_leBytes, BitVec.toNat_ofNat]
  omega

theorem le32_injective {v w : Word} (h : le32 v = le32 w) : v = w := by
  rw [← word32_le32 v, h, word32_le32]

theorem leBytes_leValue (bs : List Byte) : leBytes bs.length (leValue bs) = bs := by
  induction bs with
  | nil => rfl
  | cons b bs ih =>
    have hb := b.isLt
    have hhead : BitVec.ofNat 8 (b.toNat + 256 * leValue bs) = b := by
      apply BitVec.eq_of_toNat_eq
      rw [BitVec.toNat_ofNat]
      omega
    have htail : (b.toNat + 256 * leValue bs) / 256 = leValue bs := by omega
    rw [List.length_cons, leBytes, leValue, hhead, htail, ih]

theorem leValue_lt (bs : List Byte) : leValue bs < 256 ^ bs.length := by
  induction bs with
  | nil => exact Nat.one_pos
  | cons b bs ih =>
    have hb := b.isLt
    rw [List.length_cons, leValue, Nat.pow_succ]
    omega

theorem le32_word32 {bs : List Byte} (h : bs.length = 4) : le32 (word32 bs) = bs := by
  have hlt := leValue_lt bs
  have hvalue : (word32 bs).toNat = leValue bs := by
    rw [word32, BitVec.toNat_ofNat]
    exact Nat.mod_eq_of_lt (by rwa [h] at hlt)
  rw [le32, hvalue, ← h, leBytes_leValue]

def alignUp (val alignment : Nat) : Nat := (val + alignment - 1) / alignment * alignment

/-- The same on 32-bit operands, where the sum may wrap. -/
def alignUp32 (val alignment : Word) : Word := (val + alignment - 1) / alignment * alignment

def alignDown32 (val alignment : Word) : Word := val - val % alignment

theorem alignDown32_toNat (val : Word) :
    (alignDown32 val 4096#32).toNat = val.toNat - val.toNat % 4096 := by
  have hval := val.isLt
  have hmod : (val % 4096#32).toNat = val.toNat % 4096 := rfl
  rw [alignDown32, BitVec.toNat_sub, hmod]
  omega

theorem alignUp32_eq (val alignment : Word) :
    (alignUp32 val alignment).toNat = (val + alignment - 1).toNat / alignment.toNat * alignment.toNat := by
  rw [alignUp32, BitVec.toNat_mul, BitVec.toNat_udiv]
  exact Nat.mod_eq_of_lt (Nat.lt_of_le_of_lt (Nat.div_mul_le_self _ _) (val + alignment - 1).isLt)

theorem alignUp32_toNat (val : Word) :
    (alignUp32 val 4096#32).toNat = (val.toNat + 4095) % 2 ^ 32 / 4096 * 4096 := by
  have hval := val.isLt
  have hsum : (val + 4096#32 - 1).toNat = (val.toNat + 4095) % 2 ^ 32 := by bv_omega
  rw [alignUp32_eq, hsum]
  rfl

end CheviotBoot.Lib
