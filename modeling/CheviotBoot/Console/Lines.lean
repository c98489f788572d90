import CheviotBoot.Console.Bounded
import CheviotBoot.Console.Uart

namespace CheviotBoot.Console
open Lib

/-- Some calls of `boot_debug_printf`, one after the other: the bytes from `klog_entry` on, and the
characters `aux_uart_write_byte` is called with. -/
def bootDebugPrintfs (klogEntry : List Byte) : List (List Byte × List Arg) → Option (List Byte × List Byte)
  | [] => some (klogEntry, [])
  | (format, args) :: calls => do
    let (stores, uart) ← bootDebugPrintf klogEntry format args
    let chars ← uart
    let (klogEntry, more) ← bootDebugPrintfs (applyStores stores klogEntry) calls
    some (klogEntry, chars ++ more)

/-- `boot_panic`, up to the loop it stays in. -/
def bootPanic (klogEntry : List Byte) (string : Option CStr) : Option (List Byte × List Byte) :=
  bootDebugPrintfs klogEntry (string.elim [] fun s => [([ch '%', ch 's'], [.string s])])

/-- The line a call is to print. -/
def lineOf (items : List Item) : List Byte := (render items).take klogWidth ++ [ch '\n']

theorem storesOf_append (size pos : Nat) (a b : List Byte) :
    storesOf size pos (a ++ b) = storesOf size pos a ++ storesOf size (pos + a.length) b := by
  induction a generalizing pos with
  | nil => rfl
  | cons c a ih =>
    rw [List.cons_append, storesOf, storesOf, ih, List.append_assoc, List.length_cons]
    congr 3
    omega

theorem storesOf_past {size pos : Nat} (h : size < pos) (chars : List Byte) : storesOf size pos chars = [] := by
  induction chars generalizing pos with
  | nil => rfl
  | cons c chars ih => rw [storesOf, if_neg (by omega), if_neg (by omega), ih (by omega), List.append_nil]

theorem applyStores_append (a b : List (Nat × Byte)) (bytes : List Byte) :
    applyStores (a ++ b) bytes = applyStores b (applyStores a bytes) := List.foldl_append

/-- A text behind which there is memory can be read back as far as its buffer holds it. -/
theorem stored_string {size : Nat} {text str : List Byte} (htext : 0#8 ∉ text) (hstr : size < str.length) :
    cstr? (applyStores (storesOf size 0 (text ++ [0#8])) str) = some (text.take size) := by
  by_cases hfits : text.length < size
  · have hstores := applyStores_storesOf size (text ++ [0#8]) [] (str.take (text.length + 1))
      (str.drop (text.length + 1)) (by simp; omega) (by simp; omega)
    rw [List.nil_append, List.take_append_drop, List.nil_append, List.length_nil] at hstores
    rw [hstores, List.append_assoc, List.singleton_append, cstr_append_zero htext,
      List.take_of_length_le (Nat.le_of_lt hfits)]
  · have hlength : (text.take size).length = size := List.length_take_of_le (Nat.le_of_not_lt hfits)
    obtain ⟨b, rest, hrest⟩ : ∃ b rest, str.drop size = b :: rest :=
      List.exists_cons_of_ne_nil (List.ne_nil_of_length_pos (by rw [List.length_drop]; omega))
    obtain ⟨c, cs, hcs⟩ : ∃ c cs, text.drop size ++ [0#8] = c :: cs :=
      List.exists_cons_of_ne_nil (List.append_ne_nil_of_right_ne_nil _ (List.cons_ne_nil _ _))
    have hfront := applyStores_storesOf size (text.take size) [] (str.take size) (b :: rest)
      (by rw [hlength, List.length_take_of_le (Nat.le_of_lt hstr)]) (by rw [hlength, List.length_nil, Nat.zero_add])
    rw [List.nil_append, ← hrest, List.take_append_drop, List.nil_append, List.length_nil, hrest] at hfront
    have hsplit : text ++ [0#8] = text.take size ++ c :: cs := by
      rw [← hcs, ← List.append_assoc, List.take_append_drop]
    have hstores : storesOf size 0 (text ++ [0#8]) = storesOf size 0 (text.take size) ++ [(size, 0#8)] := by
      rw [hsplit, storesOf_append, hlength, Nat.zero_add, storesOf, if_neg (Nat.lt_irrefl size), if_pos rfl,
        storesOf_past (Nat.lt_succ_self size), List.append_nil]
    have hset : (text.take size ++ b :: rest).set size 0#8 = text.take size ++ 0#8 :: rest := by
      rw [List.set_append_right _ _ (by omega), hlength, Nat.sub_self, List.set_cons_zero]
    rw [hstores, applyStores_append, hfront, applyStores, List.foldl_cons, List.foldl_nil, hset,
      cstr_append_zero (fun hmem => htext (List.mem_of_mem_take hmem))]

theorem applyStores_length (stores : List (Nat × Byte)) (bytes : List Byte) :
    (applyStores stores bytes).length = bytes.length := by
  induction stores generalizing bytes with
  | nil => rfl
  | cons w stores ih => exact (ih (bytes.set w.1 w.2)).trans List.length_set

/-- One call prints its line, whatever `klog_entry` holds. -/
theorem bootDebugPrintf_line {items : List Item} (hitems : (render items).length + 1 < 2 ^ 31)
    {klogEntry : List Byte} (hmem : klogWidth < klogEntry.length) :
    ∃ stores, bootDebugPrintf klogEntry (formatOf items) (argsOf items) = some (stores, some (lineOf items)) := by
  have hsink := sink_some klogWidth (render items ++ [0#8]) []
    (by simpa using hitems : 0 + (render items ++ [0#8]).length < 2 ^ 31)
  refine ⟨storesOf klogWidth 0 (render items ++ [0#8]), ?_⟩
  rw [bootDebugPrintf, vsnprintf, doPrintf_eq, Option.bind_some, hsink, Option.map_some, Option.map_some,
    List.nil_append, bootDebugWriteString, stored_string (render_not_nul items) hmem]
  rfl

/-- Some calls print their lines. -/
theorem bootDebugPrintfs_lines {calls : List (List Item)}
    (hcalls : ∀ items ∈ calls, (render items).length + 1 < 2 ^ 31) {klogEntry : List Byte}
    (hmem : klogWidth < klogEntry.length) :
    ∃ klogEntry', bootDebugPrintfs klogEntry (calls.map fun items => (formatOf items, argsOf items)) =
      some (klogEntry', calls.flatMap lineOf) := by
  induction calls generalizing klogEntry with
  | nil => exact ⟨klogEntry, rfl⟩
  | cons items calls ih =>
    obtain ⟨stores, hline⟩ := bootDebugPrintf_line (hcalls items List.mem_cons_self) hmem
    obtain ⟨after, hrest⟩ := ih (fun i hi => hcalls i (List.mem_cons_of_mem items hi))
      (by rw [applyStores_length]; exact hmem : klogWidth < (applyStores stores klogEntry).length)
    refine ⟨after, ?_⟩
    simp only [List.map_cons, bootDebugPrintfs, hline, hrest, Option.bind_eq_bind, Option.bind_some,
      List.flatMap_cons]

/-- On the Raspberry Pi 4 what is printed comes out, line after line, however slow the line is. -/
theorem printed_comes_out {depth : Nat} (hdepth : 0 < depth) {calls : List (List Item)}
    (hcalls : ∀ items ∈ calls, (render items).length + 1 < 2 ^ 31) {klogEntry : List Byte}
    (hmem : klogWidth < klogEntry.length) :
    ∃ klogEntry' chars, chars = calls.flatMap lineOf ∧
      bootDebugPrintfs klogEntry (calls.map fun items => (formatOf items, argsOf items)) =
        some (klogEntry', chars) ∧
      (∃ sch : Schedule (@RaspberryPi4.step depth), sch.state 0 = .start depth chars) ∧
      ∀ sch : Schedule (@RaspberryPi4.step depth), sch.state 0 = .start depth chars →
        (∀ n, (sch.state n).text = chars ∧ (sch.state n).tx.out <+: chars) ∧
        ∃ n, ∀ m, n ≤ m → (sch.state m).tx.out = chars := by
  obtain ⟨after, hprints⟩ := bootDebugPrintfs_lines hcalls hmem
  exact ⟨after, _, rfl, hprints, RaspberryPi4.exists_schedule hdepth _,
    fun sch hstart => RaspberryPi4.comes_out hdepth sch hstart⟩

/-- "%s" and the panic of a boot without a kernel. -/
def panicItems : List Item :=
  [.str ⟨[], none⟩ ⟨"Cannot load kernel".toList.map ch, by decide⟩]

theorem panic_comes_out : ∃ klogEntry' chars, chars = "Cannot load kernel\n".toList.map ch ∧
    bootPanic (List.replicate 96 0#8) (some ⟨"Cannot load kernel".toList.map ch, by decide⟩) =
      some (klogEntry', chars) ∧
    ∀ sch : Schedule (@RaspberryPi4.step 8), sch.state 0 = .start 8 chars →
      ∃ n, ∀ m, n ≤ m → (sch.state m).tx.out = chars := by
  obtain ⟨after, chars, hchars, hprints, -, hout⟩ :=
    printed_comes_out (by decide : 0 < 8) (by decide : ∀ items ∈ [panicItems], (render items).length + 1 < 2 ^ 31)
      (by decide : klogWidth < (List.replicate 96 0#8).length)
  exact ⟨after, chars, hchars, hprints, fun sch hstart => (hout sch hstart).2⟩

/-- On the Raspberry Pi 1 it does where the transmitter's queue holds all of it at once. -/
theorem printed_comes_out_iff {depth : Nat} {calls : List (List Item)}
    (hcalls : ∀ items ∈ calls, (render items).length + 1 < 2 ^ 31) {klogEntry : List Byte}
    (hmem : klogWidth < klogEntry.length) :
    ∃ klogEntry' chars, chars = calls.flatMap lineOf ∧
      bootDebugPrintfs klogEntry (calls.map fun items => (formatOf items, argsOf items)) =
        some (klogEntry', chars) ∧
      (∀ sch : Schedule (@RaspberryPi1.step depth), sch.state 0 = .start depth chars →
        (∀ n, (sch.state n).tx.out.Sublist chars) ∧ ∃ n, ∀ m, n ≤ m → (sch.state m).Done) ∧
      ((∀ sch : Schedule (@RaspberryPi1.step depth), sch.state 0 = .start depth chars →
        ∃ n, ∀ m, n ≤ m → (sch.state m).tx.out = chars) ↔ chars.length ≤ depth) := by
  obtain ⟨after, hprints⟩ := bootDebugPrintfs_lines hcalls hmem
  refine ⟨after, _, rfl, hprints, fun sch hstart => ⟨fun n => ?_, RaspberryPi1.schedule_done sch⟩, ?_, ?_⟩
  · have hsublist := RaspberryPi1.schedule_sublist sch n
    rw [hstart, Uart.text, Channel.text, List.append_assoc] at hsublist
    exact (List.sublist_append_left _ _).trans hsublist
  · intro hall
    obtain ⟨sch, hstart, hshort⟩ := @RaspberryPi1.exists_short depth (calls.flatMap lineOf)
    obtain ⟨n, hout⟩ := hall sch hstart
    rw [← hout n (Nat.le_refl n)]
    exact hshort n
  · intro hroom sch hstart
    obtain ⟨n, hdone⟩ := RaspberryPi1.schedule_done sch
    refine ⟨n, fun m hm => (hdone m hm).out.trans ?_⟩
    have hfits : (sch.state 0).tx.queue.length + (sch.state 0).rest.length ≤ depth := by
      rw [hstart]
      exact (Nat.zero_add _).trans_le hroom
    rw [(RaspberryPi1.schedule_text sch hfits m).2, hstart]
    rfl

theorem panic_lost : ∃ klogEntry' chars,
    bootPanic (List.replicate 96 0#8) (some ⟨"Cannot load kernel".toList.map ch, by decide⟩) =
      some (klogEntry', chars) ∧
    ¬ ∀ sch : Schedule (@RaspberryPi1.step 8), sch.state 0 = .start 8 chars →
      ∃ n, ∀ m, n ≤ m → (sch.state m).tx.out = chars := by
  obtain ⟨after, chars, hchars, hprints, -, hiff⟩ :=
    @printed_comes_out_iff 8 _ (by decide : ∀ items ∈ [panicItems], (render items).length + 1 < 2 ^ 31) _
      (by decide : klogWidth < (List.replicate 96 0#8).length)
  refine ⟨after, chars, hprints, fun hall => ?_⟩
  have hfits := hiff.mp hall
  rw [hchars] at hfits
  exact absurd hfits (by decide)

end CheviotBoot.Console
