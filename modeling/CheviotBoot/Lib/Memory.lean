import CheviotBoot.Lib.File

namespace CheviotBoot.Lib

/-- Byte-addressed memory; addresses are 32 bits and wrap. -/
abbrev Mem := Word → Byte

/-- An address lies in the range of `n` bytes from `a` on. -/
def Within (x a : Word) (n : Nat) : Prop := (x - a).toNat < n

instance (x a : Word) (n : Nat) : Decidable (Within x a n) := inferInstanceAs (Decidable (_ < _))

namespace Mem

def bytes (m : Mem) (a : Word) (n : Nat) : List Byte :=
  (List.range n).map (fun i => m (a + BitVec.ofNat 32 i))

/-- The little-endian word at an address. -/
def word (m : Mem) (a : Word) : Word := word32 (m.bytes a 4)

/-- C defines `memcpy` for ranges that do not overlap, and it is taken to be called with such. On others
this copies what the source held before. -/
def memcpy (m : Mem) (dst src n : Word) : Mem := fun x =>
  if Within x dst n.toNat then m (src + (x - dst)) else m x

def memset (m : Mem) (dst : Word) (v : Byte) (n : Word) : Mem := fun x =>
  if Within x dst n.toNat then v else m x

/-- Bytes stored from an address on. -/
def store (m : Mem) (a : Word) (bs : List Byte) : Mem := fun x => bs.getD (x - a).toNat (m x)

/-- Memory holds these bytes from an address on. -/
def Carries (m : Mem) (a : Word) (bs : List Byte) : Prop :=
  ∀ i (h : i < bs.length), m (a + BitVec.ofNat 32 i) = bs[i]

/-- The `n` bytes at `dst` in this memory are those at `src` in another. -/
def Copies (m' : Mem) (dst : Word) (m : Mem) (src : Word) (n : Nat) : Prop :=
  ∀ i, i < n → m' (dst + BitVec.ofNat 32 i) = m (src + BitVec.ofNat 32 i)

end Mem

/-- A range that does not wrap. -/
theorem within_toNat {x a : Word} {n : Nat} (h : a.toNat + n ≤ 2 ^ 32) :
    Within x a n ↔ a.toNat ≤ x.toNat ∧ x.toNat < a.toNat + n := by
  have hx := x.isLt
  rw [Within, BitVec.toNat_sub]
  omega

theorem within_offset {a : Word} {i n : Nat} (hi : i < n) (h : i < 2 ^ 32) :
    Within (a + BitVec.ofNat 32 i) a n := by
  have hd : a + BitVec.ofNat 32 i - a = BitVec.ofNat 32 i := by
    rw [BitVec.add_comm, BitVec.add_sub_cancel]
  rw [Within, hd, BitVec.toNat_ofNat, Nat.mod_eq_of_lt h]
  exact hi

/-- An address in a range is an offset into it. -/
theorem Within.offset {x a : Word} {n : Nat} (h : Within x a n) :
    ∃ i, i < n ∧ i < 2 ^ 32 ∧ x = a + BitVec.ofNat 32 i := by
  refine ⟨(x - a).toNat, h, (x - a).isLt, ?_⟩
  rw [BitVec.ofNat_toNat, BitVec.setWidth_eq, BitVec.add_comm, BitVec.sub_add_cancel]

/-- Two ranges have no address in common exactly when neither starts inside the other. -/
theorem ranges_apart_iff {a b : Word} {n k : Nat} (hn : n ≤ 2 ^ 32) (hk : k ≤ 2 ^ 32) :
    (∀ x, Within x a n → ¬ Within x b k) ↔
      n = 0 ∨ k = 0 ∨ k ≤ (a - b).toNat ∧ n ≤ (b - a).toNat := by
  constructor
  · intro h
    by_cases hn' : n = 0
    · exact Or.inl hn'
    · by_cases hk' : k = 0
      · exact Or.inr (Or.inl hk')
      · have hself : ∀ c : Word, (c - c).toNat = 0 := fun c => by rw [BitVec.sub_self]; rfl
        refine Or.inr (Or.inr ⟨?_, ?_⟩)
        · exact Nat.not_lt.mp (h a (by rw [Within, hself]; omega))
        · exact Nat.not_lt.mp fun hin => h b hin (by rw [Within, hself]; omega)
  · intro h x ha hb
    unfold Within at ha hb
    have hab := BitVec.toNat_sub a b
    have hba := BitVec.toNat_sub b a
    rw [BitVec.toNat_sub] at ha hb
    omega

theorem sub_sub_sub_same (a b k : Word) : a - k - (b - k) = a - b := by bv_omega

theorem sub_add_sub_same (a b k i : Word) : a - k + i - (b - k) = a - b + i := by bv_omega

/-- The pages from the one `v` lies in to the one past `v + s` cover the `s` bytes from `v`. -/
theorem within_pages {v s : Word} {i : Nat} (hi : i < s.toNat) (hwrap : v.toNat + s.toNat < 2 ^ 32)
    (hv : 4096 ≤ v.toNat) : (v - alignDown32 v 4096#32 + BitVec.ofNat 32 i).toNat <
      (alignUp32 (v + s) 4096#32 - alignDown32 v 4096#32).toNat := by
  have hdown := alignDown32_toNat v
  have hup := alignUp32_toNat (v + s)
  rw [BitVec.toNat_add_of_lt hwrap] at hup
  obtain ⟨up, hu⟩ : ∃ up, up = alignUp32 (v + s) 4096#32 := ⟨_, rfl⟩
  obtain ⟨down, hd⟩ : ∃ down, down = alignDown32 v 4096#32 := ⟨_, rfl⟩
  rw [← hu] at hup ⊢
  rw [← hd] at hdown ⊢
  clear hu hd
  have hstart : (v - down).toNat = v.toNat % 4096 := by
    rw [BitVec.toNat_sub]
    omega
  have hindex : (v - down + BitVec.ofNat 32 i).toNat = v.toNat % 4096 + i := by
    rw [BitVec.toNat_add, hstart, BitVec.toNat_ofNat]
    omega
  rw [hindex, BitVec.toNat_sub]
  omega

@[simp] theorem Mem.bytes_length (m : Mem) (a : Word) (n : Nat) : (m.bytes a n).length = n := by
  simp [Mem.bytes]

/-- Equal bytes from a range of equal memory. -/
theorem Mem.bytes_congr {m m' : Mem} {a : Word} {n : Nat}
    (h : ∀ i, i < n → m' (a + BitVec.ofNat 32 i) = m (a + BitVec.ofNat 32 i)) : m'.bytes a n = m.bytes a n := by
  refine List.map_congr_left ?_
  intro i hi
  exact h i (List.mem_range.mp hi)

theorem Mem.memcpy_at (m : Mem) (dst src n : Word) {i : Nat} (h : i < n.toNat) :
    (m.memcpy dst src n) (dst + BitVec.ofNat 32 i) = m (src + BitVec.ofNat 32 i) := by
  have hlt := n.isLt
  rw [Mem.memcpy, if_pos (within_offset h (by omega)), BitVec.add_comm dst, BitVec.add_sub_cancel]

theorem Mem.memcpy_copies (m : Mem) (dst src n : Word) :
    (m.memcpy dst src n).Copies dst m src n.toNat :=
  fun _ h => m.memcpy_at dst src n h

theorem Mem.Copies.bytes {m' m : Mem} {dst src : Word} {n : Nat}
    (h : m'.Copies dst m src n) {k l : Nat}
    (hk : k + l ≤ n) : m'.bytes (dst + BitVec.ofNat 32 k) l = m.bytes (src + BitVec.ofNat 32 k) l := by
  refine List.map_congr_left ?_
  intro i hi
  have hi := List.mem_range.mp hi
  have hbyte := h (k + i) (by omega)
  rwa [BitVec.ofNat_add, ← BitVec.add_assoc, ← BitVec.add_assoc] at hbyte

theorem Mem.Copies.word {m' m : Mem} {dst src : Word} {n : Nat}
    (h : m'.Copies dst m src n) {k : Nat}
    (hk : k + 4 ≤ n) : m'.word (dst + BitVec.ofNat 32 k) = m.word (src + BitVec.ofNat 32 k) :=
  congrArg word32 (h.bytes hk)

theorem Mem.memcpy_outside {m : Mem} {dst src n x : Word} (h : ¬ Within x dst n.toNat) :
    (m.memcpy dst src n) x = m x := if_neg h

theorem Mem.memcpy_zero (m : Mem) (dst src : Word) : m.memcpy dst src 0#32 = m := by
  funext x
  exact Mem.memcpy_outside (Nat.not_lt_zero _)

theorem Mem.memset_outside {m : Mem} {dst n x : Word} {v : Byte} (h : ¬ Within x dst n.toNat) :
    (m.memset dst v n) x = m x := if_neg h

theorem Mem.Carries.bytes {m : Mem} {a : Word} {bs : List Byte} (h : m.Carries a bs) :
    m.bytes a bs.length = bs := by
  apply List.ext_getElem (by simp)
  intro i hi hj
  simpa [Mem.bytes] using h i hj

theorem Mem.carries_append {m : Mem} {a : Word} {as bs : List Byte} (h : m.Carries a (as ++ bs)) :
    m.Carries a as ∧ m.Carries (a + BitVec.ofNat 32 as.length) bs := by
  refine ⟨?_, ?_⟩
  · intro i hi
    have hk := h i (by rw [List.length_append]; omega)
    rwa [List.getElem_append_left hi] at hk
  · intro i hi
    have hk := h (as.length + i) (by rw [List.length_append]; omega)
    rw [List.getElem_append_right (by omega)] at hk
    simpa [BitVec.ofNat_add, BitVec.add_assoc] using hk

theorem Mem.carries_cons {m : Mem} {a : Word} {b : Byte} {bs : List Byte} :
    m.Carries a (b :: bs) ↔ m a = b ∧ m.Carries (a + 1#32) bs := by
  constructor
  · intro h
    have hb := h 0 (Nat.zero_lt_succ _)
    rw [(BitVec.add_zero a : a + BitVec.ofNat 32 0 = a)] at hb
    have hrest : m.Carries a ([b] ++ bs) := h
    exact ⟨hb, (Mem.carries_append hrest).2⟩
  · rintro ⟨hb, hbs⟩ i hi
    cases i with
    | zero => simpa using hb
    | succ i =>
      have hk := hbs i (by simpa using hi)
      rw [BitVec.add_assoc, BitVec.add_comm 1#32, ← BitVec.ofNat_add] at hk
      exact hk

/-- At most one string with its NUL is at an address. -/
theorem Mem.Carries.string_unique {m : Mem} {a : Word} {s t : List Byte} (hs : 0#8 ∉ s)
    (ht : 0#8 ∉ t) (h : m.Carries a (s ++ [0#8])) (h' : m.Carries a (t ++ [0#8])) : s = t := by
  induction s generalizing a t with
  | nil =>
    cases t with
    | nil => rfl
    | cons c t =>
      have hz := (Mem.carries_cons.mp h).1
      have hc := (Mem.carries_cons.mp h').1
      exact absurd (hc.symm.trans hz) (fun he => ht (he ▸ List.mem_cons_self))
  | cons b s ih =>
    cases t with
    | nil =>
      have hb := (Mem.carries_cons.mp h).1
      have hz := (Mem.carries_cons.mp h').1
      exact absurd (hb.symm.trans hz) (fun he => hs (he ▸ List.mem_cons_self))
    | cons c t =>
      obtain ⟨hb, hrest⟩ := Mem.carries_cons.mp h
      obtain ⟨hc, hrest'⟩ := Mem.carries_cons.mp h'
      rw [← hb.symm.trans hc, ih (fun hm => hs (List.mem_cons_of_mem _ hm))
        (fun hm => ht (List.mem_cons_of_mem _ hm)) hrest hrest']

/-- Memory that carries a file carries what the file holds. -/
theorem Mem.Carries.holds {m : Mem} {a : Word} {f bs : List Byte} {pos : Nat} (h : m.Carries a f)
    (hf : Holds f pos bs) : m.Carries (a + BitVec.ofNat 32 pos) bs := by
  intro i hi
  obtain ⟨hlt, he⟩ := List.getElem?_eq_some_iff.mp (hf i hi)
  rw [← he, ← h (pos + i) hlt, BitVec.ofNat_add, BitVec.add_assoc]

/-- The word spelled by four carried bytes. -/
theorem Mem.Carries.word {m : Mem} {a w : Word} (h : m.Carries a (le32 w)) : m.word a = w := by
  have hb := h.bytes
  rw [le32_length] at hb
  rw [Mem.word, hb, word32_le32]

/-- A word of carried bytes is their field. -/
theorem Mem.Carries.field {m : Mem} {a : Word} {bs : List Byte} (h : m.Carries a bs) {k : Nat}
    (hk : k + 4 ≤ bs.length) : m.word (a + BitVec.ofNat 32 k) = field bs k := by
  have hb := (h.holds (holds_slice bs k 4)).bytes
  have hl : (slice bs k 4).length = 4 := by
    rw [slice, List.length_take, List.length_drop]
    omega
  rw [hl] at hb
  rw [Mem.word, hb, Lib.field]

theorem Mem.store_carries (m : Mem) (a : Word) {bs : List Byte} (h : bs.length ≤ 2 ^ 32) :
    (m.store a bs).Carries a bs := by
  intro i hi
  have hd : a + BitVec.ofNat 32 i - a = BitVec.ofNat 32 i := by
    rw [BitVec.add_comm, BitVec.add_sub_cancel]
  rw [Mem.store, hd, BitVec.toNat_ofNat, Nat.mod_eq_of_lt (by omega)]
  simp [hi]

/-- A copy takes along what its source carries. -/
theorem Mem.Carries.memcpy {m : Mem} {src : Word} {bs : List Byte} {k : Nat}
    (h : m.Carries (src + BitVec.ofNat 32 k) bs) (dst n : Word) (hn : k + bs.length ≤ n.toNat) :
    (m.memcpy dst src n).Carries (dst + BitVec.ofNat 32 k) bs := by
  intro i hi
  have hcopy := m.memcpy_at dst src n (by omega : k + i < n.toNat)
  rw [BitVec.ofNat_add, ← BitVec.add_assoc, ← BitVec.add_assoc] at hcopy
  rw [hcopy]
  exact h i hi

end CheviotBoot.Lib
