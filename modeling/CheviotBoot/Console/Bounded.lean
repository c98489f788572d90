import CheviotBoot.Console.Rendering

namespace CheviotBoot.Console
open Lib

/-- What the sink stores for the characters from position `pos` on. -/
def storesOf (size : Nat) : Nat → List Byte → List (Nat × Byte)
  | _, [] => []
  | pos, c :: cs =>
    (if pos < size then [(pos, c)] else if pos = size then [(size, 0#8)] else []) ++ storesOf size (pos + 1) cs

theorem printChar_eq {size pos : Nat} (stores : List (Nat × Byte)) (c : Byte) (cs : List Byte)
    (h : pos + 1 < 2 ^ 31) :
    ∃ next, snprintfPrintChar ⟨size, pos, stores⟩ c = some ⟨size, pos + 1, next⟩ ∧
      next ++ storesOf size (pos + 1) cs = stores ++ storesOf size pos (c :: cs) := by
  refine ⟨_, if_pos h, ?_⟩
  simp only [storesOf]
  split_ifs <;> simp

/-- Every character is counted, where the count does not overflow. -/
theorem sink_some (size : Nat) (chars : List Byte) {pos : Nat} (stores : List (Nat × Byte))
    (h : pos + chars.length < 2 ^ 31) : chars.foldlM snprintfPrintChar ⟨size, pos, stores⟩ =
      some ⟨size, pos + chars.length, stores ++ storesOf size pos chars⟩ := by
  induction chars generalizing pos stores with
  | nil => simp [storesOf]
  | cons c cs ih =>
    rw [List.length_cons] at h
    obtain ⟨next, hnext, hstores⟩ := printChar_eq stores c cs (by omega : pos + 1 < 2 ^ 31)
    rw [List.foldlM_cons, hnext, Option.bind_eq_bind, Option.bind_some,
      ih next (by omega), hstores, List.length_cons, Nat.add_right_comm, Nat.add_assoc]

theorem sink_stores {size : Nat} {chars : List Byte} {pos : Nat} {stores : List (Nat × Byte)}
    {sa : SnprintfArg} (h : chars.foldlM snprintfPrintChar ⟨size, pos, stores⟩ = some sa) :
    sa.stores = stores ++ storesOf size pos chars := by
  induction chars generalizing pos stores with
  | nil =>
    cases h
    simp [storesOf]
  | cons c cs ih =>
    have hpos : pos + 1 < 2 ^ 31 := by
      by_contra hover
      rw [List.foldlM_cons, snprintfPrintChar, if_neg hover] at h
      cases h
    obtain ⟨next, hnext, hstores⟩ := printChar_eq stores c cs hpos
    rw [List.foldlM_cons, hnext] at h
    rw [ih h, hstores]

/-- The characters that fit are stored one after the other. -/
theorem applyStores_storesOf (size : Nat) (chars front old rest : List Byte)
    (hold : old.length = chars.length) (h : front.length + chars.length ≤ size) :
    applyStores (storesOf size front.length chars) (front ++ old ++ rest) = front ++ chars ++ rest := by
  induction chars generalizing front old with
  | nil =>
    rw [List.eq_nil_of_length_eq_zero hold]
    rfl
  | cons c cs ih =>
    cases old with
    | nil => simp at hold
    | cons b old =>
      simp only [List.length_cons] at h hold
      have hset : (front ++ b :: old ++ rest).set front.length c = front ++ [c] ++ old ++ rest := by
        simp
      have hlength : (front ++ [c]).length = front.length + 1 := by simp
      have hcs := ih (front ++ [c]) old (by omega) (by omega)
      rw [storesOf, if_pos (by omega), List.singleton_append, applyStores,
        List.foldl_cons, hset, ← hlength]
      simpa [applyStores] using hcs

theorem storesOf_inside {size pos : Nat} {chars : List Byte} (h : pos + chars.length ≤ size) :
    ∀ store ∈ storesOf size pos chars, store.1 < size := by
  induction chars generalizing pos with
  | nil => exact fun store hmem => absurd hmem List.not_mem_nil
  | cons c cs ih =>
    rw [List.length_cons] at h
    intro store hmem
    rw [storesOf, if_pos (by omega), List.singleton_append, List.mem_cons] at hmem
    obtain rfl | hmem := hmem
    · exact Nat.lt_of_lt_of_le (by omega) h
    · exact ih (by omega) store hmem

/-- One character too many puts a NUL behind the buffer. -/
theorem storesOf_over {size pos : Nat} {chars : List Byte} (hpos : pos ≤ size)
    (h : size < pos + chars.length) :
    (size, 0#8) ∈ storesOf size pos chars := by
  induction chars generalizing pos with
  | nil =>
    rw [List.length_nil] at h
    omega
  | cons c cs ih =>
    rw [List.length_cons] at h
    rw [storesOf, List.mem_append]
    cases Nat.lt_or_eq_of_le hpos with
    | inl hlt => exact Or.inr (ih (by omega) (by omega))
    | inr heq =>
      refine Or.inl ?_
      rw [if_neg (by omega), if_pos heq]
      exact List.mem_singleton_self _

/-- What a caller of `Snprintf` can rely on: the stores stay in its buffer, whatever that held it
then holds the text as far as it fits, and the text is counted. -/
structure Bounded (size : Nat) (text : List Byte) (printed : Printed) : Prop where
  inside : ∀ store ∈ printed.stores, store.1 < size
  string : ∀ str : List Byte, str.length = size →
    cstr? (applyStores printed.stores str) = some (text.take (size - 1))
  ret : printed.ret = text.length

/-- A text that leaves room for its NUL is stored as it should be. -/
theorem vsnprintf_fits (items : List Item) {size : Nat} (hsize : size < 2 ^ 31)
    (h : (render items).length < size) :
    ∃ printed, vsnprintf size (formatOf items) (argsOf items) = some printed ∧
      Bounded size (render items) printed := by
  have hlength : (render items ++ [0#8]).length = (render items).length + 1 := by simp
  have hsink := sink_some size (render items ++ [0#8]) [] (by omega : 0 + (render items ++ [0#8]).length < 2 ^ 31)
  refine ⟨_, by rw [vsnprintf, doPrintf_eq, Option.bind_some, hsink, Option.map_some], ?_, ?_, ?_⟩
  · simp only [List.nil_append]
    exact storesOf_inside (by omega)
  · intro str hstr
    have hsplit := applyStores_storesOf size (render items ++ [0#8]) [] (str.take ((render items).length + 1))
      (str.drop ((render items).length + 1)) (by simp; omega) (by simp; omega)
    rw [List.nil_append, List.take_append_drop, List.length_nil] at hsplit
    simp only [List.nil_append, hsplit]
    rw [List.append_assoc, List.singleton_append, cstr_append_zero (render_not_nul items),
      List.take_of_length_le (by omega)]
  · simp only [hlength]
    omega

/-- A text that fills the buffer puts its NUL behind it. -/
theorem vsnprintf_over (items : List Item) {size : Nat} (h : size ≤ (render items).length)
    {printed : Printed}
    (hprinted : vsnprintf size (formatOf items) (argsOf items) = some printed) : (size, 0#8) ∈ printed.stores := by
  rw [vsnprintf, doPrintf_eq, Option.bind_some, Option.map_eq_some_iff] at hprinted
  obtain ⟨sa, hsa, rfl⟩ := hprinted
  rw [sink_stores hsa, List.nil_append]
  exact storesOf_over (Nat.zero_le _) (by simp; omega)

theorem vsnprintf_bounded_iff (items : List Item) {size : Nat} (hsize : size < 2 ^ 31) :
    (∃ printed, vsnprintf size (formatOf items) (argsOf items) = some printed ∧
      Bounded size (render items) printed) ↔ (render items).length < size := by
  constructor
  · rintro ⟨printed, hprinted, hbounded⟩
    by_contra hlong
    exact Nat.lt_irrefl _ (hbounded.inside _ (vsnprintf_over items (Nat.le_of_not_lt hlong) hprinted))
  · exact vsnprintf_fits items hsize

theorem bootDebugPrintf_inside_iff (klogEntry : List Byte) (items : List Item) :
    (∃ stores uart, bootDebugPrintf klogEntry (formatOf items) (argsOf items) = some (stores, uart) ∧
      ∀ store ∈ stores, store.1 < klogWidth) ↔ (render items).length < klogWidth := by
  constructor
  · rintro ⟨stores, uart, hrun, hinside⟩
    by_contra hlong
    rw [bootDebugPrintf, Option.map_eq_some_iff] at hrun
    obtain ⟨printed, hprinted, heq⟩ := hrun
    cases heq
    exact Nat.lt_irrefl _ (hinside _ (vsnprintf_over items (Nat.le_of_not_lt hlong) hprinted))
  · intro hfits
    obtain ⟨printed, hprinted, hbounded⟩ := vsnprintf_fits items (by decide : klogWidth < 2 ^ 31) hfits
    refine ⟨printed.stores,
      bootDebugWriteString (applyStores printed.stores klogEntry), ?_, hbounded.inside⟩
    rw [bootDebugPrintf, hprinted, Option.map_some]

/-- The formatter keeps within its buffer where the full rendering leaves room for a NUL, and
nowhere else. -/
theorem printf_bounded_iff (items : List Item) {size : Nat} (hsize : size < 2 ^ 31)
    (klogEntry : List Byte) :
    ((∃ printed, vsnprintf size (formatOf items) (argsOf items) = some printed ∧
        Bounded size (render items) printed) ↔ (render items).length < size) ∧
      ((∃ printed, snprintf size (formatOf items) (argsOf items) = some printed ∧
        Bounded size (render items) printed) ↔ (render items).length < size) ∧
      ((∃ stores uart, bootDebugPrintf klogEntry (formatOf items) (argsOf items) = some (stores, uart) ∧
        ∀ store ∈ stores, store.1 < klogWidth) ↔ (render items).length < klogWidth) :=
  ⟨vsnprintf_bounded_iff items hsize, vsnprintf_bounded_iff items hsize, bootDebugPrintf_inside_iff klogEntry items⟩

/-- "%#010x", as the format specification has it. -/
def hexExample : Item := .int ⟨[.hash, .zero], some ⟨10, by decide⟩⟩ .x 15#32

theorem printf_bounded_hexExample : render [hexExample] = "0x0000000f".toList.map ch ∧
    ∃ printed, vsnprintf 11 (formatOf [hexExample]) (argsOf [hexExample]) = some printed ∧
      Bounded 11 (render [hexExample]) printed :=
  ⟨by decide, (printf_bounded_iff [hexExample] (by decide) []).1.mpr (by decide)⟩

/-- A line of 80 characters. -/
def fullLine : List Item := List.replicate klogWidth (.lit (ch 'a') (by decide) (by decide))

/-- Its NUL is stored behind `klog_entry`. -/
theorem fullLine_overrun :
    ∃ printed, vsnprintf klogWidth (formatOf fullLine) (argsOf fullLine) = some printed ∧
      (klogWidth, 0#8) ∈ printed.stores ∧ ¬ Bounded klogWidth (render fullLine) printed ∧
      ∃ uart, bootDebugPrintf (List.replicate klogWidth 0#8) (formatOf fullLine) (argsOf fullLine) =
        some (printed.stores, uart) := by
  have hlength : (render fullLine).length = 80 := by decide
  have hsink := sink_some klogWidth (render fullLine ++ [0#8]) []
    (by simp [hlength] : 0 + (render fullLine ++ [0#8]).length < 2 ^ 31)
  obtain ⟨printed, hprinted⟩ : ∃ printed, vsnprintf klogWidth (formatOf fullLine) (argsOf fullLine) = some printed :=
    ⟨_, by rw [vsnprintf, doPrintf_eq, Option.bind_some, hsink, Option.map_some]⟩
  have hover := vsnprintf_over fullLine (by rw [hlength]; exact Nat.le_refl _) hprinted
  exact ⟨printed, hprinted, hover, fun h => Nat.lt_irrefl _ (h.inside _ hover), _, by
    rw [bootDebugPrintf, hprinted, Option.map_some]⟩

end CheviotBoot.Console
