import CheviotBoot.Lib.CString

namespace CheviotBoot.Lib

/-- One store, byte by byte: what was stored, the old bytes elsewhere. -/
theorem CharBuf.getElem?_put {n : Nat} (v : CharBuf n) (pos : Nat) (bs : List Byte) {i : Nat} (hi : i < n) :
    (v.put pos bs).toList[i]? = if pos ≤ i ∧ i < pos + bs.length then bs[i - pos]? else v.toList[i]? := by
  have hget : (v.put pos bs)[i] = if pos ≤ i ∧ i < pos + bs.length then bs.getD (i - pos) 0#8 else v[i] :=
    Vector.getElem_ofFn _
  rw [List.getElem?_eq_getElem (by simpa using hi), Vector.getElem_toList, hget]
  by_cases hin : pos ≤ i ∧ i < pos + bs.length
  · rw [if_pos hin, if_pos hin, List.getD_eq_getElem?_getD, List.getElem?_eq_getElem (by omega)]
    rfl
  · rw [if_neg hin, if_neg hin, List.getElem?_eq_getElem (by simpa using hi)]
    rfl

theorem getElem?_getD_padded {n : Nat} (s : List Byte) (i : Nat) (h : i < n) : (padded n s)[i] = (s[i]?).getD 0#8 := by
  rw [padded_getElem, List.getD_eq_getElem?_getD]

/-- Bytes stored where a padded buffer's string ends. -/
theorem put_padded {n pos : Nat} {s : List Byte} (hpos : s.length = pos) (bs : List Byte) :
    (padded n s).put pos bs = padded n (s ++ bs) := by
  apply Vector.ext
  intro i hi
  simp only [CharBuf.put, Vector.getElem_ofFn, Fin.getElem_fin, getElem?_getD_padded, List.getD_eq_getElem?_getD,
    List.getElem?_append]
  by_cases hs : i < s.length
  · rw [if_neg (by omega), if_pos hs]
  · rw [if_neg hs, List.getElem?_eq_none (by omega : s.length ≤ i)]
    by_cases hb : i < pos + bs.length
    · rw [if_pos (by omega), hpos]
    · rw [if_neg (by omega), List.getElem?_eq_none (by omega)]

/-- Zeros stored over the end of a padded buffer's string. -/
theorem put_zeros {n pos k : Nat} {s : List Byte} (hs : s.length ≤ pos + k) :
    (padded n s).put pos (List.replicate k 0#8) = padded n (s.take pos) := by
  apply Vector.ext
  intro i hi
  simp only [CharBuf.put, Vector.getElem_ofFn, Fin.getElem_fin, getElem?_getD_padded, List.getD_eq_getElem?_getD,
    List.getElem?_take, List.length_replicate]
  by_cases hp : i < pos
  · rw [if_neg (by omega), if_pos hp]
  · rw [if_neg hp]
    by_cases hk : i < pos + k
    · rw [if_pos (by omega), List.getElem?_replicate, if_pos (by omega)]
      rfl
    · rw [if_neg (by omega), List.getElem?_eq_none (by omega)]

end CheviotBoot.Lib
