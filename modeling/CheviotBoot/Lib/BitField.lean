import Mathlib.Data.Nat.Bitwise
import CheviotBoot.Lib.Bytes

namespace CheviotBoot.Lib

/-- The field of `len` bits at `pos`. -/
def getField (w : Word) (pos len : Nat) : BitVec len := w.extractLsb' pos len

/-- A word whose low `len` bits are set. -/
def ones (len : Nat) : Word := BitVec.ofNat 32 (2 ^ len - 1)

/-- A field overwritten in place: masked out, then or'ed in. -/
def setField (w : Word) (pos len : Nat) (f : Word) : Word :=
  (w &&& ~~~(ones len <<< pos)) ||| (f <<< pos)

theorem ones_getLsbD {len i : Nat} (hi : i < 32) : (ones len).getLsbD i = decide (i < len) := by
  rw [ones, BitVec.getLsbD_ofNat, Nat.testBit_two_pow_sub_one]
  simp [hi]

theorem getLsbD_of_lt {f : Word} {len i : Nat} (hf : f.toNat < 2 ^ len) (hi : len ≤ i) :
    f.getLsbD i = false := by
  rw [BitVec.getLsbD]
  exact Nat.testBit_lt_two_pow (Nat.lt_of_lt_of_le hf (Nat.pow_le_pow_right (by decide) hi))

theorem getLsbD_getField (w : Word) (pos len i : Nat) :
    (getField w pos len).getLsbD i = (decide (i < len) && w.getLsbD (pos + i)) := by
  unfold getField
  rw [BitVec.getLsbD_extractLsb']

/-- One bit of a word after a field was overwritten. -/
theorem getLsbD_setField {f : Word} {pos len : Nat} (w : Word) {b : Nat} (hf : f.toNat < 2 ^ len)
    (hb : b < 32) :
    (setField w pos len f).getLsbD b =
      if pos ≤ b ∧ b < pos + len then f.getLsbD (b - pos) else w.getLsbD b := by
  have hones : (ones len).getLsbD (b - pos) = decide (b - pos < len) := ones_getLsbD (by omega)
  simp only [setField, BitVec.getLsbD_or, BitVec.getLsbD_and, BitVec.getLsbD_not,
    BitVec.getLsbD_shiftLeft, hones]
  by_cases hlow : b < pos
  · have hout : ¬ (pos ≤ b ∧ b < pos + len) := by omega
    simp [hlow, hb, hout]
  · by_cases hhigh : b < pos + len
    · have hin : pos ≤ b ∧ b < pos + len := by omega
      have hlt : b - pos < len := by omega
      simp [hlow, hb, hin, hlt]
    · have hout : ¬ (pos ≤ b ∧ b < pos + len) := by omega
      have hge : ¬ b - pos < len := by omega
      have hzero := getLsbD_of_lt hf (by omega : len ≤ b - pos)
      simp [hb, hout, hge, hzero]

/-- The field written is read back. -/
theorem getField_setField_same {f : Word} {pos len : Nat} (w : Word) (hf : f.toNat < 2 ^ len)
    (hp : pos + len ≤ 32) : getField (setField w pos len f) pos len = f.setWidth len := by
  apply BitVec.eq_of_getLsbD_eq
  intro i hi
  have hin : pos ≤ pos + i ∧ pos + i < pos + len := by omega
  have hsub : pos + i - pos = i := by omega
  rw [getLsbD_getField, getLsbD_setField w hf (by omega), if_pos hin, hsub, BitVec.getLsbD_setWidth]

/-- A field that does not meet the one written keeps its value. -/
theorem getField_setField_other {f : Word} {pos len at' len' : Nat} (w : Word)
    (hf : f.toNat < 2 ^ len) (hp : at' + len' ≤ 32) (hd : at' + len' ≤ pos ∨ pos + len ≤ at') :
    getField (setField w pos len f) at' len' = getField w at' len' := by
  apply BitVec.eq_of_getLsbD_eq
  intro i hi
  have hout : ¬ (pos ≤ at' + i ∧ at' + i < pos + len) := by omega
  rw [getLsbD_getField, getLsbD_getField, getLsbD_setField w hf (by omega), if_neg hout]

/-- Writes to fields that do not meet commute. -/
theorem setField_comm {f g : Word} {pos len at' len' : Nat} (w : Word) (hf : f.toNat < 2 ^ len)
    (hg : g.toNat < 2 ^ len') (hd : at' + len' ≤ pos ∨ pos + len ≤ at') :
    setField (setField w pos len f) at' len' g = setField (setField w at' len' g) pos len f := by
  apply BitVec.eq_of_getLsbD_eq
  intro b hb
  simp only [getLsbD_setField _ hf hb, getLsbD_setField _ hg hb]
  by_cases hin : pos ≤ b ∧ b < pos + len
  · have hout : ¬ (at' ≤ b ∧ b < at' + len') := by omega
    rw [if_pos hin, if_neg hout, if_pos hin]
  · rw [if_neg hin, if_neg hin]

theorem ones_toNat {len : Nat} (h : len ≤ 32) : (ones len).toNat = 2 ^ len - 1 := by
  have hle : 2 ^ len ≤ 2 ^ 32 := Nat.pow_le_pow_right (by decide) h
  have hpos := Nat.two_pow_pos len
  rw [ones, BitVec.toNat_ofNat]
  exact Nat.mod_eq_of_lt (by omega)

/-- Masking keeps the low bits. -/
theorem toNat_and_ones (w : Word) {len : Nat} (h : len ≤ 32) :
    (w &&& ones len).toNat = w.toNat % 2 ^ len := by
  rw [BitVec.toNat_and, ones_toNat h, Nat.and_two_pow_sub_one_eq_mod]

/-- A word shifted down and masked is a field of it. -/
theorem shift_and_ones (w : Word) (pos len : Nat) :
    (w >>> pos) &&& ones len = (getField w pos len).setWidth 32 := by
  apply BitVec.eq_of_getLsbD_eq
  intro i hi
  rw [BitVec.getLsbD_and, BitVec.getLsbD_ushiftRight, ones_getLsbD hi, BitVec.getLsbD_setWidth, getLsbD_getField]
  simp [hi, Bool.and_comm]

/-- The test of one bit. -/
theorem and_one_shift_eq_zero (w : Word) {i : Nat} (hi : i < 32) :
    w &&& (1#32 <<< i) = 0#32 ↔ w.getLsbD i = false := by
  rw [← BitVec.twoPow_eq, BitVec.and_twoPow]
  cases w.getLsbD i with
  | false => simp
  | true =>
    have hne : BitVec.twoPow 32 i ≠ 0#32 := by
      intro h
      have hbit := congrArg (·.getLsbD i) h
      simp [hi] at hbit
    simp [hne]

/-- Masking with the complement clears them. -/
theorem toNat_and_not_ones (w : Word) {len : Nat} (h : len ≤ 32) :
    (w &&& ~~~(ones len)).toNat = w.toNat / 2 ^ len * 2 ^ len := by
  apply Nat.eq_of_testBit_eq
  intro i
  change (w &&& ~~~(ones len)).getLsbD i = _
  rw [Nat.testBit_mul_two_pow, Nat.testBit_div_two_pow, BitVec.getLsbD_and, BitVec.getLsbD_not]
  by_cases hi : i < 32
  · rw [ones_getLsbD hi]
    by_cases hlen : i < len
    · simp [hlen, Nat.not_le.mpr hlen]
    · have hle : len ≤ i := Nat.not_lt.mp hlen
      simp [hlen, hi, hle, BitVec.getLsbD]
  · have hle : len ≤ i := by omega
    have hzero : w.toNat.testBit i = false := BitVec.getLsbD_of_ge w i (by omega)
    simp [hi, hle, hzero]

/-- Or'ing a number below the alignment of another adds them. -/
theorem toNat_or_aligned (len : Nat) {w b : Word} (hw : w.toNat % 2 ^ len = 0)
    (hb : b.toNat < 2 ^ len) :
    (w ||| b).toNat = w.toNat + b.toNat := by
  obtain ⟨k, hk⟩ := Nat.dvd_of_mod_eq_zero hw
  rw [BitVec.toNat_or, hk, Nat.two_pow_add_eq_or_of_lt hb]

end CheviotBoot.Lib
