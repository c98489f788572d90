import CheviotBoot.Lib.Bytes

namespace CheviotBoot.Lib

/-- Writing bytes at a position of a file. A gap past the end is filled with zeros;
a write of no bytes leaves the file alone, wherever the position is. -/
def pwrite (f : List Byte) (pos : Nat) (bs : List Byte) : List Byte :=
  if bs = [] then f
  else (f ++ List.replicate (pos - f.length) 0#8).take pos ++ bs ++ f.drop (pos + bs.length)

/-- The file holds these bytes at this position. -/
def Holds (f : List Byte) (pos : Nat) (bs : List Byte) : Prop :=
  ∀ i (h : i < bs.length), f[pos + i]? = some bs[i]

theorem holds_nil (f : List Byte) (pos : Nat) : Holds f pos [] :=
  fun _ h => absurd h (Nat.not_lt_zero _)

theorem Holds.length_le {f bs : List Byte} {pos : Nat} (h : Holds f pos bs) (hb : bs ≠ []) :
    pos + bs.length ≤ f.length := by
  have hpos : 0 < bs.length := List.length_pos_iff.mpr hb
  have hl := h (bs.length - 1) (by omega)
  have hlt := (List.getElem?_eq_some_iff.mp hl).1
  omega

theorem holds_append {f as bs : List Byte} {pos : Nat} :
    Holds f pos (as ++ bs) ↔ Holds f pos as ∧ Holds f (pos + as.length) bs := by
  constructor
  · intro h
    refine ⟨fun i hi => ?_, fun i hi => ?_⟩
    · have := h i (by simp; omega)
      rwa [List.getElem_append_left hi] at this
    · have hk := h (as.length + i) (by simp; omega)
      rw [List.getElem_append_right (by omega)] at hk
      simpa [Nat.add_assoc] using hk
  · rintro ⟨ha, hb⟩ i hi
    cases Nat.lt_or_ge i as.length with
    | inl hl =>
      rw [List.getElem_append_left hl]
      exact ha i hl
    | inr hl =>
      have hk := hb (i - as.length) (by simp at hi; omega)
      rw [List.getElem_append_right hl, ← hk]
      congr 1
      omega

/-- At most `n` bytes of a file from a position on. -/
def slice (f : List Byte) (pos n : Nat) : List Byte := (f.drop pos).take n

/-- Reading where the file holds bytes gives them. -/
theorem Holds.read {f bs : List Byte} {pos : Nat} (h : Holds f pos bs) :
    slice f pos bs.length = bs := by
  apply List.ext_getElem?
  intro i
  rw [slice, List.getElem?_take]
  split
  · rename_i hi
    rw [List.getElem?_drop, h i hi, List.getElem?_eq_getElem hi]
  · rename_i hi
    rw [List.getElem?_eq_none (by omega)]

/-- A write makes a file no longer than it was or than the write reaches. -/
theorem pwrite_length_le {f bs : List Byte} {pos k : Nat} (hf : f.length ≤ k)
    (hb : pos + bs.length ≤ k) :
    (pwrite f pos bs).length ≤ k := by
  unfold pwrite
  split
  · exact hf
  · simp only [List.length_append, List.length_take, List.length_replicate, List.length_drop]
    omega

theorem length_le_pwrite (f : List Byte) (pos : Nat) (bs : List Byte) : f.length ≤ (pwrite f pos bs).length := by
  unfold pwrite
  split_ifs
  · exact Nat.le_refl _
  · simp only [List.length_append, List.length_take, List.length_replicate, List.length_drop]
    omega

/-- One write, byte by byte: what was written, the old bytes elsewhere. -/
theorem getElem?_pwrite (f : List Byte) (pos : Nat) (bs : List Byte) {i : Nat}
    (hi : i < f.length ∨ pos ≤ i) :
    (pwrite f pos bs)[i]? = if pos ≤ i ∧ i < pos + bs.length then bs[i - pos]? else f[i]? := by
  by_cases hb : bs = []
  · subst hb
    rw [if_neg (by simp)]
    simp [pwrite]
  · have hlen : ((f ++ List.replicate (pos - f.length) 0#8).take pos).length = pos := by
      simp only [List.length_take, List.length_append, List.length_replicate]
      omega
    simp only [pwrite, hb, if_false]
    cases Nat.lt_or_ge i pos with
    | inl hlt =>
      rw [if_neg (by omega), List.append_assoc, List.getElem?_append_left (by omega),
        List.getElem?_take_of_lt hlt, List.getElem?_append_left (by omega)]
    | inr hge =>
      rw [List.append_assoc, List.getElem?_append_right (by omega), hlen]
      cases Nat.lt_or_ge i (pos + bs.length) with
      | inl hu =>
        rw [if_pos ⟨hge, hu⟩, List.getElem?_append_left (by omega)]
      | inr hu =>
        rw [if_neg (by omega), List.getElem?_append_right (by omega), List.getElem?_drop]
        congr 1
        omega

/-- What was written is there. -/
theorem holds_pwrite (f : List Byte) (pos : Nat) (bs : List Byte) :
    Holds (pwrite f pos bs) pos bs := by
  intro i hi
  rw [getElem?_pwrite f pos bs (Or.inr (Nat.le_add_right _ _)), if_pos (by omega)]
  simp [hi]

/-- A write leaves alone what the file holds elsewhere. -/
theorem Holds.pwrite {f as : List Byte} {p : Nat} (h : Holds f p as) (pos : Nat) (bs : List Byte)
    (hd : p + as.length ≤ pos ∨ pos + bs.length ≤ p) : Holds (pwrite f pos bs) p as := by
  intro i hi
  have hlt := (List.getElem?_eq_some_iff.mp (h i hi)).1
  rw [getElem?_pwrite f pos bs (Or.inl hlt), if_neg (by omega)]
  exact h i hi

/-- Bytes written at or past the end leave the old ones, with zeros up to the new. -/
theorem holds_pwrite_filled {f bs : List Byte} {pos : Nat} (hf : f.length ≤ pos) (hbs : bs ≠ []) :
    Holds (pwrite f pos bs) 0 (f ++ List.replicate (pos - f.length) 0#8) := by
  have hlen : (f ++ List.replicate (pos - f.length) 0#8).length = pos := by
    rw [List.length_append, List.length_replicate]
    omega
  intro i hi
  rw [pwrite, if_neg hbs, List.take_of_length_le (Nat.le_of_eq hlen), List.append_assoc, Nat.zero_add,
    List.getElem?_append_left hi, List.getElem?_eq_getElem hi]

/-- What a file holds it holds in two parts. -/
theorem Holds.parts {f bs : List Byte} {pos : Nat} (h : Holds f pos bs) (k : Nat) :
    Holds f pos (bs.take k) ∧ Holds f (pos + k) (bs.drop k) := by
  cases Nat.lt_or_ge bs.length k with
  | inl hk =>
    rw [List.take_of_length_le (Nat.le_of_lt hk), List.drop_of_length_le (Nat.le_of_lt hk)]
    exact ⟨h, holds_nil _ _⟩
  | inr hk =>
    have hboth : Holds f pos (bs.take k ++ bs.drop k) := by rwa [List.take_append_drop]
    have hparts := holds_append.mp hboth
    rwa [List.length_take, Nat.min_eq_left hk] at hparts

/-- The file past a position holds what the file holds there. -/
theorem Holds.drop {f bs : List Byte} {base pos : Nat} (h : Holds f (base + pos) bs) :
    Holds (f.drop base) pos bs := by
  intro i hi
  rw [List.getElem?_drop, ← Nat.add_assoc]
  exact h i hi

/-- Bytes laid out in blocks of one size are each at their block's position. -/
theorem Holds.block {f : List Byte} {pos size : Nat} {blocks : List (List Byte)}
    (h : Holds f pos blocks.flatten) (hs : ∀ b ∈ blocks, b.length = size) {i : Nat} {b : List Byte}
    (hi : blocks[i]? = some b) : Holds f (pos + size * i) b := by
  induction blocks generalizing pos i with
  | nil => simp at hi
  | cons c blocks ih =>
    rw [List.flatten_cons, holds_append] at h
    cases i with
    | zero =>
      simp only [List.getElem?_cons_zero, Option.some.injEq] at hi
      subst hi
      simpa using h.1
    | succ i =>
      have hc := hs c List.mem_cons_self
      have hk := ih h.2 (fun b hb => hs b (List.mem_cons_of_mem _ hb)) (by simpa using hi)
      rw [hc] at hk
      have hp : pos + size * (i + 1) = pos + size + size * i := by rw [Nat.mul_succ]; omega
      rw [hp]
      exact hk

/-- Reading such blocks one after the other gives them back. -/
theorem Holds.read_blocks {f : List Byte} {pos size : Nat} {blocks : List (List Byte)}
    (h : Holds f pos blocks.flatten) (hs : ∀ b ∈ blocks, b.length = size) :
    (List.range blocks.length).map (fun i => slice f (pos + size * i) size) = blocks := by
  apply List.ext_getElem (by simp)
  intro i hi hj
  have hb := h.block hs (List.getElem?_eq_getElem hj)
  have hr := hb.read
  rw [hs _ (List.getElem_mem hj)] at hr
  simpa using hr

/-- A file holds its own slices. -/
theorem holds_slice (f : List Byte) (pos n : Nat) : Holds f pos (slice f pos n) := by
  intro i hi
  have hl := hi
  rw [slice, List.length_take, List.length_drop] at hl
  rw [List.getElem?_eq_some_iff]
  refine ⟨by omega, ?_⟩
  simp [slice]

/-- The 32-bit field at an offset of some bytes. -/
def field (bs : List Byte) (off : Nat) : Word := word32 (slice bs off 4)

/-- A field past the first bytes is a field of the rest. -/
theorem field_skip {pre : List Byte} {off : Nat} (h : pre.length ≤ off) (post : List Byte) :
    field (pre ++ post) off = field post (off - pre.length) := by
  rw [field, field, slice, slice, List.drop_append, List.drop_of_length_le h, List.nil_append]

theorem field_head (w : Word) (post : List Byte) : field (le32 w ++ post) 0 = w := by
  have hl := le32_length w
  rw [field, slice, List.drop_zero, List.take_append_of_le_length (by omega),
    List.take_of_length_le (by omega), word32_le32]

theorem field_last (w : Word) : field (le32 w) 0 = w := by
  have h := field_head w []
  rwa [List.append_nil] at h

/-- An open file: its bytes and the position of the next access. -/
structure Fd where
  data : List Byte
  pos : Nat

def Fd.lseek (fd : Fd) (pos : Nat) : Fd := { fd with pos }

def Fd.write (fd : Fd) (bs : List Byte) : Fd := ⟨pwrite fd.data fd.pos bs, fd.pos + bs.length⟩

/-- At most `n` bytes from the current position, and the position moved past them. -/
def Fd.read (fd : Fd) (n : Nat) : List Byte × Fd :=
  let bs := slice fd.data fd.pos n
  (bs, { fd with pos := fd.pos + bs.length })

/-- A write past other bytes is the write to what is behind them. -/
theorem pwrite_behind (front f : List Byte) (pos : Nat) (bs : List Byte) :
    pwrite (front ++ f) (front.length + pos) bs = front ++ pwrite f pos bs := by
  unfold pwrite
  split_ifs
  · rfl
  · have hgap : front.length + pos - (front ++ f).length = pos - f.length := by
      rw [List.length_append]
      omega
    rw [hgap, List.append_assoc front, List.take_length_add_append, Nat.add_assoc, List.drop_length_add_append,
      List.append_assoc, List.append_assoc, List.append_assoc]

/-- A write that does not reach beyond the first bytes is a write to them. -/
theorem pwrite_before {front bs : List Byte} {pos : Nat} (h : pos + bs.length ≤ front.length) (f : List Byte) :
    pwrite (front ++ f) pos bs = pwrite front pos bs ++ f := by
  unfold pwrite
  split_ifs
  · rfl
  · have hgap : pos - (front ++ f).length = 0 := by
      rw [List.length_append]
      omega
    have hnone : pos - front.length = 0 := by omega
    rw [hgap, hnone, List.replicate_zero, List.append_nil, List.append_nil,
      List.take_append_of_le_length (by omega), List.drop_append_of_le_length h, ← List.append_assoc]

/-- An open file that other bytes have been put before. -/
def Fd.behind (front : List Byte) (fd : Fd) : Fd := ⟨front ++ fd.data, front.length + fd.pos⟩

theorem Fd.behind_lseek (front : List Byte) (fd : Fd) (pos : Nat) :
    (fd.behind front).lseek (front.length + pos) = (fd.lseek pos).behind front := rfl

theorem Fd.behind_write (front : List Byte) (fd : Fd) (bs : List Byte) :
    (fd.behind front).write bs = (fd.write bs).behind front := by
  rw [write, behind, pwrite_behind, Nat.add_assoc]
  rfl

/-- Writes one after the other leave all their bytes, in order, and nothing
below the position they started at changes. -/
theorem writes_hold (blocks : List (List Byte)) (fd : Fd) :
    let fd' := blocks.foldl (fun fd b => fd.write b) fd
    fd'.pos = fd.pos + blocks.flatten.length ∧ Holds fd'.data fd.pos blocks.flatten ∧
      ∀ p as, p + as.length ≤ fd.pos → Holds fd.data p as → Holds fd'.data p as := by
  induction blocks generalizing fd with
  | nil => exact ⟨by simp, holds_nil _ _, fun _ _ _ h => h⟩
  | cons b blocks ih =>
    obtain ⟨hpos, hnew, hold⟩ := ih (fd.write b)
    refine ⟨?_, ?_, ?_⟩
    · simp only [List.foldl_cons, hpos, List.flatten_cons, List.length_append]
      simp only [Fd.write]
      omega
    · simp only [List.foldl_cons, List.flatten_cons]
      rw [holds_append]
      exact ⟨hold fd.pos b (Nat.le_refl _) (holds_pwrite _ _ _), hnew⟩
    · intro p as hp h
      exact hold p as (by simp only [Fd.write]; omega) (h.pwrite fd.pos b (Or.inl hp))

theorem writes_length_le (blocks : List (List Byte)) (fd : Fd) {k : Nat} (hf : fd.data.length ≤ k)
    (hb : fd.pos + blocks.flatten.length ≤ k) :
    (blocks.foldl (fun fd b => fd.write b) fd).data.length ≤ k := by
  induction blocks generalizing fd with
  | nil => exact hf
  | cons b blocks ih =>
    rw [List.flatten_cons, List.length_append] at hb
    refine ih (fd.write b) ?_ ?_
    · exact pwrite_length_le hf (by omega)
    · simp only [Fd.write]
      omega

end CheviotBoot.Lib
