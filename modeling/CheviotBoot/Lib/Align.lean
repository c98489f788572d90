import CheviotBoot.Lib.Bytes

namespace CheviotBoot.Lib

theorem le_alignUp (v : Nat) : v ≤ alignUp v 4096 := by
  simp only [alignUp]
  omega

theorem le_alignUp_of_pos (v : Nat) {alignment : Nat} (h : 0 < alignment) : v ≤ alignUp v alignment := by
  have hlt : v + alignment - 1 < alignUp v alignment + alignment := Nat.lt_div_mul_add h
  omega

theorem alignUp_mod (v : Nat) : alignUp v 4096 % 4096 = 0 := by
  simp [alignUp]

/-- While the rounded value fits 32 bits the macro computes it there too. -/
theorem alignUp32_exact (v : Word) (h : alignUp v.toNat 4096 < 2 ^ 32) :
    (alignUp32 v 4096#32).toNat = alignUp v.toNat 4096 := by
  unfold alignUp at h ⊢
  rw [alignUp32_toNat, Nat.mod_eq_of_lt (by omega)]
  rfl

theorem ofNat_mod (n : Nat) : BitVec.ofNat 32 (n % 2 ^ 32) = BitVec.ofNat 32 n :=
  BitVec.eq_of_toNat_eq (by rw [BitVec.toNat_ofNat, BitVec.toNat_ofNat, Nat.mod_mod])

/-- Where it does not fit it wraps as the exact value does. -/
theorem alignUp32_ofNat (v : Nat) : alignUp32 (BitVec.ofNat 32 v) 4096#32 = BitVec.ofNat 32 (alignUp v 4096) := by
  apply BitVec.eq_of_toNat_eq
  simp only [alignUp32_toNat, BitVec.toNat_ofNat, alignUp]
  omega

theorem alignUp_mono {v w : Nat} (h : v ≤ w) : alignUp v 4096 ≤ alignUp w 4096 := by
  simp only [alignUp]
  omega

theorem alignUp_idem (v : Nat) : alignUp (alignUp v 4096) 4096 = alignUp v 4096 := by
  have hmod := alignUp_mod v
  simp only [alignUp] at hmod ⊢
  omega

theorem alignUp_le_iff (v : Nat) : alignUp v 4096 ≤ v ↔ v % 4096 = 0 := by
  simp only [alignUp]
  omega

theorem alignUp_add {off : Nat} (hoff : off % 4096 = 0) (n : Nat) :
    alignUp (off + n) 4096 = off + alignUp n 4096 := by
  simp only [alignUp]
  omega

end CheviotBoot.Lib
