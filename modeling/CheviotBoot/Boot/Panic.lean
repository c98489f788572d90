import CheviotBoot.Board.Mapping
import CheviotBoot.Boot.Main
import CheviotBoot.Console.Lines

namespace CheviotBoot.Boot
open Lib Loader Board Console

/-- The strings `Main` calls `boot_panic` with. -/
theorem mainLoaded_panic {hal : Hal} {bi : BootInfo} {ifsImage bootinfo noValue : Word} {fuel : Nat} {s : Step}
    {string : String} (h : mainLoaded hal bi ifsImage bootinfo noValue fuel s = some (.panic string)) :
    string ∈ ["Cannot load kernel", "cannot find IFS.exe in IFS image"] := by
  unfold mainLoaded at h
  split at h
  · cases h
    exact List.mem_cons_self
  · split at h
    · cases h
      exact List.mem_cons_of_mem _ List.mem_cons_self
    · split at h
      · cases h
        exact List.mem_cons_of_mem _ List.mem_cons_self
      · obtain ⟨r, -, hr⟩ := Option.bind_eq_some_iff.mp h
        cases hr

/-- They are strings of C and fit into `klog_entry`. -/
theorem panicStrings_fit : ∀ string ∈ ["Cannot load kernel", "cannot find IFS.exe in IFS image"],
    0#8 ∉ string.toList.map ch ∧ string.toList.length ≤ klogWidth := by
  decide

/-- "%s". -/
def stringItem (s : CStr) : Item := .str ⟨[], none⟩ s

theorem render_stringItem (s : CStr) : render [stringItem s] = s.val :=
  List.flatMap_singleton Item.render (stringItem s)

theorem bootPanic_line {s : CStr} (hfits : s.val.length ≤ klogWidth) {klogEntry : List Byte}
    (hmem : klogWidth < klogEntry.length) :
    ∃ klogEntry', bootPanic klogEntry (some s) = some (klogEntry', s.val ++ [ch '\n']) := by
  have hrender := render_stringItem s
  have hshort : ∀ items ∈ [[stringItem s]], (render items).length + 1 < 2 ^ 31 := by
    intro items hitems
    rw [List.mem_singleton.mp hitems, hrender]
    have hwidth : klogWidth = 80 := rfl
    omega
  obtain ⟨after, hprints⟩ := bootDebugPrintfs_lines hshort hmem
  refine ⟨after, hprints.trans ?_⟩
  rw [List.flatMap_singleton, lineOf, hrender, List.take_of_length_le hfits]

/-- A boot that fails on the Raspberry Pi 4 tells why: behind the line feed of `board_init` the
panic's string comes out, all of it. -/
theorem panic_heard {hal : Hal} {mailbox : Mailbox} {bootinfo noValue : Word} {fuel : Nat} {m : Mem}
    {string : String} (h : main hal mailbox bootinfo noValue fuel m = some (.panic string)) {depth : Nat}
    (hdepth : 0 < depth) {klogEntry : List Byte} (hmem : klogWidth < klogEntry.length) :
    ∃ (s : CStr) (klogEntry' chars : List Byte), s.val = string.toList.map ch ∧
      chars = s.val ++ [ch '\n'] ∧ bootPanic klogEntry (some s) = some (klogEntry', chars) ∧
      ∀ sch : Schedule (@RaspberryPi4.step depth), sch.state 0 = .start depth (ch '\n' :: chars) →
        (∀ n, (sch.state n).tx.out <+: ch '\n' :: chars) ∧
          ∃ n, ∀ m, n ≤ m → (sch.state m).tx.out = ch '\n' :: chars := by
  rw [main_eq] at h
  obtain ⟨hnul, hfits⟩ := panicStrings_fit string (mainLoaded_panic h)
  obtain ⟨after, hprints⟩ := @bootPanic_line ⟨string.toList.map ch, hnul⟩ (by rw [List.length_map]; exact hfits)
    klogEntry hmem
  refine ⟨_, after, _, rfl, rfl, hprints, fun sch hstart => ?_⟩
  obtain ⟨hbefore, hall⟩ := RaspberryPi4.comes_out hdepth sch hstart
  exact ⟨fun n => (hbefore n).2, hall⟩

/-- A Raspberry Pi with nothing but zeros for an image. -/
theorem zeros_heard : ∃ (s : CStr) (klogEntry' chars : List Byte), s.val = "Cannot load kernel".toList.map ch ∧
    chars = s.val ++ [ch '\n'] ∧ bootPanic (List.replicate 96 0#8) (some s) = some (klogEntry', chars) ∧
    ∀ sch : Schedule (@RaspberryPi4.step 8), sch.state 0 = .start 8 (ch '\n' :: chars) →
      (∀ n, (sch.state n).tx.out <+: ch '\n' :: chars) ∧
        ∃ n, ∀ m, n ≤ m → (sch.state m).tx.out = ch '\n' :: chars :=
  panic_heard (rfl : main sampleHal ⟨0#32, 0#32, 0#32⟩ 0x9000#32 0#32 0 (fun _ => 0#8) =
    some (.panic "Cannot load kernel")) (by decide) (by decide)

end CheviotBoot.Boot
