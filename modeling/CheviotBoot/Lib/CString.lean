import CheviotBoot.Lib.Bytes

namespace CheviotBoot.Lib

/-- A `char[n]` object. -/
abbrev CharBuf (n : Nat) := Vector Byte n

/-- The string at the start of some bytes: everything before the first NUL,
or nothing when no NUL is there to end it. -/
def cstr? : List Byte → Option (List Byte)
  | [] => none
  | b :: bs => if b = 0#8 then some [] else (cstr? bs).map (b :: ·)

/-- A buffer holding a string, a NUL and zeros up to its end. -/
def padded (n : Nat) (s : List Byte) : CharBuf n := Vector.ofFn (fun i => s.getD i.val 0#8)

/-- Bytes stored from index `pos` on; what would fall outside is the caller's to exclude. -/
def CharBuf.put {n : Nat} (v : CharBuf n) (pos : Nat) (bs : List Byte) : CharBuf n :=
  Vector.ofFn (fun i => if pos ≤ i.val ∧ i.val < pos + bs.length then bs.getD (i.val - pos) 0#8 else v[i])

/-- `strcpy`; none when the string and its NUL do not fit. -/
def strcpy {n : Nat} (dst : CharBuf n) (src : List Byte) : Option (CharBuf n) :=
  if src.length + 1 ≤ n then some (dst.put 0 (src ++ [0#8])) else none

/-- `strncpy`: exactly `k` bytes, the source up to its NUL and then zeros. -/
def strncpy {n : Nat} (dst : CharBuf n) (src : List Byte) (k : Nat) : CharBuf n :=
  let s := (src.take k).takeWhile (· ≠ 0#8)
  dst.put 0 (s ++ List.replicate (k - s.length) 0#8)

/-- `strncat`; none when the destination has no NUL or the result runs past it. -/
def strncat {n : Nat} (dst : CharBuf n) (src : List Byte) (k : Nat) : Option (CharBuf n) := do
  let s ← cstr? dst.toList
  let t := src.take k
  if s.length + t.length + 1 ≤ n then some (dst.put s.length (t ++ [0#8])) else none

theorem cstr_append_zero {s : List Byte} (hs : 0#8 ∉ s) (r : List Byte) :
    cstr? (s ++ 0#8 :: r) = some s := by
  induction s with
  | nil => simp [cstr?]
  | cons b s ih =>
    simp only [List.mem_cons, not_or] at hs
    simp [cstr?, Ne.symm hs.1, ih hs.2]

/-- A found string is NUL-free and is followed by its NUL. -/
theorem cstr_some {bs s : List Byte} (h : cstr? bs = some s) :
    0#8 ∉ s ∧ ∃ r, bs = s ++ 0#8 :: r := by
  induction bs generalizing s with
  | nil => simp [cstr?] at h
  | cons b bs ih =>
    by_cases hb : b = 0#8
    · simp only [cstr?, hb, if_true, Option.some.injEq] at h
      subst h
      exact ⟨by simp, bs, by simp [hb]⟩
    · simp only [cstr?, hb, if_false, Option.map_eq_some_iff] at h
      obtain ⟨t, ht, rfl⟩ := h
      obtain ⟨hn, r, rfl⟩ := ih ht
      exact ⟨by simp [hn, Ne.symm hb], r, rfl⟩

@[simp] theorem padded_getElem {n : Nat} (s : List Byte) (i : Nat) (h : i < n) :
    (padded n s)[i] = s.getD i 0#8 := by
  simp [padded]

theorem padded_toList {n : Nat} {s : List Byte} (h : s.length ≤ n) :
    (padded n s).toList = s ++ List.replicate (n - s.length) 0#8 := by
  apply List.ext_getElem (by simp; omega)
  intro i hi hj
  rw [Vector.getElem_toList, padded_getElem, List.getD_eq_getElem?_getD, List.getElem_append]
  split
  · rename_i hs
    simp [hs]
  · rename_i hs
    rw [List.getElem?_eq_none (by omega)]
    simp

/-- A string with room for its NUL is read back from the padded buffer. -/
theorem cstr_padded {n : Nat} {s : List Byte} (hs : 0#8 ∉ s) (h : s.length < n) :
    cstr? (padded n s).toList = some s := by
  obtain ⟨k, hk⟩ : ∃ k, n - s.length = k + 1 := ⟨n - s.length - 1, by omega⟩
  rw [padded_toList (by omega), hk, List.replicate_succ]
  exact cstr_append_zero hs _

/-- A copied string is read back, whatever the buffer held before. -/
theorem strcpy_string {n : Nat} {dst b : CharBuf n} {s : List Byte} (h : strcpy dst s = some b)
    (hs : 0#8 ∉ s) : cstr? b.toList = some s := by
  unfold strcpy at h
  by_cases hl : s.length + 1 ≤ n
  · rw [if_pos hl, Option.some.injEq] at h
    have hsplit : b.toList = s ++ 0#8 :: b.toList.drop (s.length + 1) := by
      rw [← List.singleton_append, ← List.append_assoc]
      apply List.ext_getElem?
      intro i
      cases Nat.lt_or_ge i (s.length + 1) with
      | inl hi =>
        have hb : i < n := by omega
        rw [List.getElem?_append_left (by simpa using hi), ← h]
        simp only [CharBuf.put, zero_le, List.length_append, List.length_cons, List.length_nil, zero_add,
          true_and, tsub_zero, List.getD_eq_getElem?_getD, Fin.getElem_fin, Vector.length_toList, hb,
          getElem?_pos, Vector.getElem_toList, Vector.getElem_ofFn, hi, if_true, Option.getD_some]
      | inr hi =>
        rw [List.getElem?_append_right (by simpa using hi), List.getElem?_drop, List.length_append,
          List.length_singleton]
        congr 1
        omega
    rw [hsplit]
    exact cstr_append_zero hs _
  · rw [if_neg hl] at h
    cases h

theorem strcpy_fits {n : Nat} {dst b : CharBuf n} {s : List Byte} (h : strcpy dst s = some b) :
    s.length < n := by
  rw [strcpy] at h
  split at h
  · assumption
  · cases h

theorem strcpy_padded {n : Nat} {s : List Byte} (h : s.length < n) :
    strcpy (padded n []) s = some (padded n s) := by
  have hl : s.length + 1 ≤ n := h
  simp only [strcpy, hl, if_true, Option.some.injEq]
  apply Vector.ext
  intro i hi
  simp only [CharBuf.put, Vector.getElem_ofFn, padded_getElem, List.getD_eq_getElem?_getD,
    Nat.sub_zero, List.length_append, List.length_singleton, Fin.getElem_fin]
  split
  · rename_i hr
    rw [List.getElem?_append]
    split
    · rfl
    · rename_i hn
      rw [List.getElem?_eq_none (by omega : s.length ≤ i)]
      have : i - s.length = 0 := by omega
      simp [this]
  · rename_i hr
    rw [List.getElem?_eq_none (by omega : s.length ≤ i)]
    simp

theorem takeWhile_take_of_nul_free {s : List Byte} (hs : 0#8 ∉ s) {k : Nat} (h : s.length ≤ k)
    (z : Nat) : ((s ++ List.replicate z 0#8).take k).takeWhile (· ≠ 0#8) = s := by
  rw [List.take_append, List.take_of_length_le h, List.takeWhile_append_of_pos]
  · cases hz : min (k - s.length) z with
    | zero => simp [List.take_replicate, hz]
    | succ m => simp [List.take_replicate, hz, List.replicate_succ]
  · intro b hb
    simp only [decide_eq_true_eq]
    exact fun he => hs (he ▸ hb)

/-- Copying a string over a zeroed buffer leaves it padded, whatever zeros follow it. -/
theorem strncpy_zeros {n k z : Nat} {s : List Byte} (hs : 0#8 ∉ s) (hk : s.length ≤ k) :
    strncpy (padded n []) (s ++ List.replicate z 0#8) k = padded n s := by
  simp only [strncpy, takeWhile_take_of_nul_free hs hk]
  apply Vector.ext
  intro i hi
  simp only [CharBuf.put, Vector.getElem_ofFn, padded_getElem, List.getD_eq_getElem?_getD,
    Nat.sub_zero, List.length_append, List.length_replicate, Fin.getElem_fin]
  split
  · rename_i hr
    rw [List.getElem?_append]
    split
    · rfl
    · rename_i hx
      rw [List.getElem?_eq_none (by omega : s.length ≤ i), List.getElem?_replicate]
      split <;> rfl
  · rename_i hr
    rw [List.getElem?_eq_none (by omega : s.length ≤ i)]
    simp

theorem strncpy_padded {n m k : Nat} {s : List Byte} (hs : 0#8 ∉ s) (hk : s.length ≤ k)
    (hm : s.length ≤ m) :
    strncpy (padded n []) (padded m s).toList k = padded n s := by
  rw [padded_toList hm, strncpy_zeros hs hk]

theorem strncpy_string {n k : Nat} {s : List Byte} (hs : 0#8 ∉ s) (hk : s.length ≤ k) :
    strncpy (padded n []) s k = padded n s := by
  have h := strncpy_zeros (n := n) (z := 0) hs hk
  simpa using h

/-- Appending to a padded string gives the padded concatenation. -/
theorem strncat_padded {n k : Nat} {s t : List Byte} (hs : 0#8 ∉ s) (hk : t.length ≤ k)
    (hn : s.length + t.length < n) : strncat (padded n s) t k = some (padded n (s ++ t)) := by
  have hl : s.length + t.length + 1 ≤ n := hn
  simp only [strncat, cstr_padded hs (by omega : s.length < n), List.take_of_length_le hk,
    Option.bind_eq_bind, Option.bind_some, hl, if_true, Option.some.injEq]
  apply Vector.ext
  intro i hi
  simp only [CharBuf.put, Vector.getElem_ofFn, padded_getElem, List.getD_eq_getElem?_getD,
    List.length_append, List.length_singleton, Fin.getElem_fin]
  split
  · rename_i hr
    rw [List.getElem?_append_right hr.1, List.getElem?_append]
    split
    · rfl
    · rename_i hx
      rw [List.getElem?_eq_none (by omega : t.length ≤ i - s.length)]
      have : i - s.length - t.length = 0 := by omega
      simp [this]
  · rename_i hr
    rw [List.getElem?_append]
    split
    · rfl
    · rename_i hx
      rw [List.getElem?_eq_none (by omega), List.getElem?_eq_none (by omega)]

/-- What does not fit runs past the buffer: `k` is no bound on the room left in it. -/
theorem strncat_overruns {n k : Nat} {s t : List Byte} (hs : 0#8 ∉ s) (hl : s.length < n)
    (hk : t.length ≤ k) (h : n ≤ s.length + t.length) : strncat (padded n s) t k = none := by
  have hover : ¬ s.length + t.length + 1 ≤ n := Nat.not_le.mpr (Nat.lt_succ_of_le h)
  simp only [strncat, cstr_padded hs hl, List.take_of_length_le hk, Option.bind_eq_bind, Option.bind_some,
    hover, if_false]

end CheviotBoot.Lib
