import Mathlib.Logic.Function.Basic
import CheviotBoot.Lib.Loop
import CheviotBoot.Lib.Memory

namespace CheviotBoot.Lib

/-- The address of element `i` of an array of words. -/
def elem (base : Word) (i : Nat) : Word := base + BitVec.ofNat 32 (4 * i)

namespace Mem

def setWord (m : Mem) (a w : Word) : Mem := m.store a (le32 w)

/-- The `size` bytes at `base`, and no others, were written, and begin with this table of `n` words. -/
structure Wrote (m m' : Mem) (base : Word) (size n : Nat) (entry : Nat → Word) : Prop where
  entries : ∀ i, i < n → m'.word (elem base i) = entry i
  outside : ∀ x, ¬ Within x base size → m' x = m x

end Mem

@[simp] theorem elem_zero (base : Word) : elem base 0 = base := BitVec.add_zero base

theorem elem_add (base : Word) (i j : Nat) : elem (elem base i) j = elem base (i + j) := by
  rw [elem, elem, elem, BitVec.add_assoc, ← BitVec.ofNat_add, Nat.mul_add]

/-- An offset from `p` is in a range at another offset exactly between its ends. -/
theorem within_iff {x p : Word} {a n : Nat} (h : a + n ≤ 2 ^ 32) :
    Within x (p + BitVec.ofNat 32 a) n ↔ a ≤ (x - p).toNat ∧ (x - p).toNat < a + n := by
  have hsub : x - (p + BitVec.ofNat 32 a) = x - p - BitVec.ofNat 32 a := by bv_omega
  have hx := (x - p).isLt
  rw [Within, hsub, BitVec.toNat_sub, BitVec.toNat_ofNat]
  omega

theorem within_elem {x base : Word} {i size : Nat} (hi : 4 * i + 4 ≤ size) (hsize : size ≤ 2 ^ 32)
    (h : Within x (elem base i) 4) : Within x base size := by
  have hx := (within_iff (by omega)).mp h
  exact Nat.lt_of_lt_of_le hx.2 hi

theorem Mem.setWord_outside {m : Mem} {a x : Word} (w : Word) (h : ¬ Within x a 4) :
    m.setWord a w x = m x := by
  have hlen : (le32 w).length ≤ (x - a).toNat := by
    rw [le32_length]
    exact Nat.not_lt.mp h
  rw [Mem.setWord, Mem.store, List.getD_eq_getElem?_getD,
    List.getElem?_eq_none hlen, Option.getD_none]

theorem Mem.word_setWord (m : Mem) (a w : Word) : (m.setWord a w).word a = w :=
  (m.store_carries a (by rw [le32_length]; decide)).word

theorem Mem.word_congr {m m' : Mem} {a : Word} (h : ∀ x, Within x a 4 → m' x = m x) :
    m'.word a = m.word a :=
  congrArg word32 (Mem.bytes_congr fun _ hi => h _ (within_offset hi (by omega)))

/-- Another element keeps its value. -/
theorem Mem.word_setWord_elem (m : Mem) (base w : Word) {i j : Nat} (hi : 4 * i + 4 ≤ 2 ^ 32)
    (hj : 4 * j + 4 ≤ 2 ^ 32) (hne : i ≠ j) :
    (m.setWord (elem base i) w).word (elem base j) = m.word (elem base j) := by
  refine Mem.word_congr fun x hx => Mem.setWord_outside w fun hx' => ?_
  have hin := (within_iff (by omega)).mp hx
  have hin' := (within_iff (by omega)).mp hx'
  omega

namespace Mem.Wrote

variable {m m' : Mem} {base : Word} {size n : Nat} {entry : Nat → Word}

theorem refl (m : Mem) (base : Word) (size : Nat) (entry : Nat → Word) :
    m.Wrote m base size 0 entry :=
  ⟨fun i hi => absurd hi (Nat.not_lt_zero i), fun _ _ => rfl⟩

theorem congr {entry' : Nat → Word} (h : m.Wrote m' base size n entry)
    (he : ∀ i, i < n → entry i = entry' i) :
    m.Wrote m' base size n entry' :=
  ⟨fun i hi => (h.entries i hi).trans (he i hi), h.outside⟩

/-- One element is replaced. -/
theorem set (h : m.Wrote m' base size n entry) (hn : 4 * n ≤ size) (hsize : size ≤ 2 ^ 32)
    {i : Nat} (hi : i < n)
    (w : Word) : m.Wrote (m'.setWord (elem base i) w) base size n (Function.update entry i w) := by
  refine ⟨?_, ?_⟩
  · intro j hj
    by_cases he : j = i
    · subst he
      rw [Mem.word_setWord, Function.update_self]
    · rw [Mem.word_setWord_elem _ _ _ (by omega) (by omega) (Ne.symm he),
        Function.update_of_ne he, h.entries j hj]
  · intro x hx
    rw [Mem.setWord_outside w fun hin => hx (within_elem (by omega) hsize hin), h.outside x hx]

/-- The next element is filled in. -/
theorem push (h : m.Wrote m' base size n entry) (hn : 4 * n + 4 ≤ size) (hsize : size ≤ 2 ^ 32) :
    m.Wrote (m'.setWord (elem base n) (entry n)) base size (n + 1) entry := by
  refine ⟨?_, ?_⟩
  · intro j hj
    by_cases he : j = n
    · subst he
      rw [Mem.word_setWord]
    · rw [Mem.word_setWord_elem _ _ _ (by omega) (by omega) (Ne.symm he), h.entries j (by omega)]
  · intro x hx
    rw [Mem.setWord_outside _ fun hin => hx (within_elem hn hsize hin), h.outside x hx]

/-- Bytes past the table are set. -/
theorem memset (h : m.Wrote m' base size n entry) {k : Nat} (hk : 4 * n ≤ k) (len : Word)
    (hsize : k + len.toNat ≤ size) (hsize' : size ≤ 2 ^ 32) (v : Byte) :
    m.Wrote (m'.memset (base + BitVec.ofNat 32 k) v len) base size n entry := by
  refine ⟨?_, ?_⟩
  · intro i hi
    rw [← h.entries i hi]
    refine Mem.word_congr fun x hx => Mem.memset_outside fun hin => ?_
    have hx := (within_iff (by omega)).mp hx
    have hin := (within_iff (by omega)).mp hin
    omega
  · intro x hx
    rw [Mem.memset_outside fun hin => hx ?_, h.outside x hx]
    have hin := (within_iff (by omega)).mp hin
    exact Nat.lt_of_lt_of_le hin.2 hsize

/-- A range that takes in the one written. -/
theorem widen (h : m.Wrote m' base size n entry) {size' : Nat} (hle : size ≤ size') :
    m.Wrote m' base size' n entry :=
  ⟨h.entries, fun x hx => h.outside x fun hin => hx (Nat.lt_of_lt_of_le hin hle)⟩

/-- A table elsewhere keeps its entries. -/
theorem word_apart (h : m.Wrote m' base size n entry) {base' : Word} {size' i : Nat}
    (hi : 4 * i + 4 ≤ size')
    (hsize : size' ≤ 2 ^ 32) (hapart : ∀ x, Within x base' size' → ¬ Within x base size) :
    m'.word (elem base' i) = m.word (elem base' i) :=
  Mem.word_congr fun x hx => h.outside x (hapart x (within_elem hi hsize hx))

/-- So does an element past the range written. -/
theorem word_past (h : m.Wrote m' base size n entry) {i : Nat} (hi : size ≤ 4 * i)
    (hlast : 4 * i + 4 ≤ 2 ^ 32) :
    m'.word (elem base i) = m.word (elem base i) := by
  refine Mem.word_congr fun x hx => h.outside x fun hin => ?_
  have hx := (within_iff (by omega)).mp hx
  exact absurd (Nat.lt_of_lt_of_le hin hi) (Nat.not_lt.mpr hx.1)

end Mem.Wrote

/-- An array filled with one word. -/
theorem forUpTo_fill (base : Word) {size n fuel : Nat} (m : Mem) (w : Word) (hn : 4 * n ≤ size)
    (hsize : size ≤ 2 ^ 32) (hfuel : n < fuel) :
    ∃ m', forUpTo n fuel (fun i m => some (m.setWord (elem base i) w)) m = some m' ∧
      m.Wrote m' base size n (fun _ => w) := by
  refine forUpTo_counts (fun k s => m.Wrote s base size k (fun _ => w)) ?_ hfuel (Mem.Wrote.refl m base size _)
  intro k s hk hs
  exact ⟨_, rfl, hs.push (by omega) hsize⟩

/-- Some of its elements, from `first` on, overwritten in turn. -/
theorem forUpTo_overlay {m m₁ : Mem} {base : Word} {size n fuel first cnt : Nat}
    {entry : Nat → Word}
    (h : m.Wrote m₁ base size n entry) (f : Nat → Word) (hn : 4 * n ≤ size) (hsize : size ≤ 2 ^ 32)
    (hlast : first + cnt ≤ n) (hfuel : cnt < fuel) :
    ∃ m', forUpTo cnt fuel (fun i m => some (m.setWord (elem base (first + i)) (f i))) m₁ = some m' ∧
      m.Wrote m' base size n (fun i => if first ≤ i ∧ i < first + cnt then f (i - first) else entry i) := by
  refine forUpTo_counts (fun k s => m.Wrote s base size n
    (fun i => if first ≤ i ∧ i < first + k then f (i - first) else entry i)) ?_ hfuel ?_
  · intro k s hk hs
    refine ⟨_, rfl, (hs.set hn hsize (by omega) (f k)).congr ?_⟩
    intro i hi
    by_cases he : i = first + k
    · subst he
      simp
    · have hiff : (first ≤ i ∧ i < first + k) ↔ (first ≤ i ∧ i < first + (k + 1)) := by omega
      simp only [Function.update_of_ne he, hiff]
  · refine h.congr ?_
    intro i hi
    rw [if_neg (by omega)]

end CheviotBoot.Lib
