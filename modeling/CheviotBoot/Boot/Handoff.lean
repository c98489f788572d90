import CheviotBoot.Boot.Main
import CheviotBoot.Board.Mapping

namespace CheviotBoot.Boot
open Lib Loader Board

/-- The ceiling once a segment is placed. -/
def raise (ceiling : Word) (h : Phdr) : Word :=
  if h.Loads ∧ ceiling < h.segmentCeiling vmKernelBase then h.segmentCeiling vmKernelBase else ceiling

/-- The highest end of the page-rounded ranges of some headers' segments, 0 where none is loaded. -/
def highestCeiling (hs : List Phdr) : Word := hs.foldl raise 0#32

/-- The lowest start of those ranges. -/
def lowestBase (hs : List Phdr) : Word :=
  hs.foldl (fun base h =>
    if h.Loads ∧ h.segmentBase vmKernelBase < base then h.segmentBase vmKernelBase else base) (-1)

/-- The address is this physical one, or the one where the kernel will see it. -/
def AddressOf (a physical : Word) : Prop := a = physical ∨ a = physical + vmKernelBase

/-- What is handed over describes the kernel file and the image it came from. Memory is as
`elf_load` found it and as the kernel finds it. -/
structure Describes (m : Mem) (f : ElfFile) (bootinfo : Word) (bi : BootInfo) (m' : Mem) :
    Prop where
  phdrCnt : bi.kernelPhdrCnt.toNat = ePhnum m f.elfBase
  phdrs : ∀ t, t < bi.kernelPhdrCnt.toNat → m'.bytes (phdrAt (kernelPhdr bootinfo) t) 32 =
    m.bytes (phdrAt (f.elfBase + ePhoff m f.elfBase) t) 32
  ceiling : AddressOf bi.kernelCeiling (highestCeiling (programHeaders m f))
  base : AddressOf bi.kernelBase (lowestBase (programHeaders m f))
  tables : highestCeiling (programHeaders m f) ≤ bi.tables.pagetableBase - vmKernelBase
  ifsExe : ∀ x, Within x bi.ifsExeBase bi.ifsExeSize.toNat →
    Within x bi.ifsImage bi.ifsImageSize.toNat

/-- A kernel that is loaded is a file with a header the loader takes, so with program headers. -/
theorem elfLoad_ok {base : Word} {m : Mem} {ifsImage : Word} {filename : List Byte} {ehdr phdrTable : Word}
    (h : (elfLoad base m ifsImage filename ehdr phdrTable).ok = true) :
    ∃ f, kernelFile m ifsImage filename = some f ∧ Accepted m f ∧ 0 < ePhnum m f.elfBase := by
  cases hf : kernelFile m ifsImage filename with
  | none =>
    unfold elfLoad at h
    rw [hf] at h
    cases h
  | some f =>
    rw [elfLoad_eq hf] at h
    by_cases ha : Accepted m f
    · refine ⟨f, rfl, ha, ?_⟩
      have hsupported := ha.1
      simp only [supportedElf, Bool.and_eq_true, decide_eq_true_eq] at hsupported
      exact hsupported.2
    · rw [if_neg ha] at h
      cases h

/-- In every run that calls the kernel the count, the base and the ceiling handed over are zero,
so nothing handed over ever describes the kernel. -/
theorem main_never_describes {hal : Hal} {mailbox : Mailbox} {bootinfo noValue : Word} {fuel : Nat}
    {m m' : Mem} {entry : Word} {bi : BootInfo}
    (h : main hal mailbox bootinfo noValue fuel m = some (.calls entry bi m')) :
    bi.kernelPhdrCnt = 0#32 ∧ bi.kernelBase = 0#32 ∧ bi.kernelCeiling = 0#32 ∧
      ∃ f, kernelFile (relocate m (imageBase mailbox m)) (imageBase mailbox m) kernelString = some f ∧
        ¬ Describes (relocate m (imageBase mailbox m)) f bootinfo bi m' := by
  have hreached := main_calls h
  have hloaded := hreached.loaded
  rw [kernelLoad, loadKernel] at hloaded
  obtain ⟨f, hf, _, hphnum⟩ := elfLoad_ok hloaded
  refine ⟨hreached.kernelPhdrCnt, hreached.kernelBase, hreached.kernelCeiling, f, hf, ?_⟩
  intro hdescribes
  have hcnt := hdescribes.phdrCnt
  rw [hreached.kernelPhdrCnt] at hcnt
  rw [← hcnt] at hphnum
  exact absurd hphnum (by decide)

/-- An image of `boot/kernel` and an empty `filesystems/ifs`. -/
def bootImage (elf : List Byte) : List Byte :=
  zeros 4 ++ leBytes 4 16 ++ leBytes 4 4 ++ leBytes 4 (256 + elf.length) ++
    sampleNode bootName 1 0 0 0 ++ sampleNode kernelString 2 1 256 elf.length ++
    sampleNode filesystemsString 3 0 0 0 ++ sampleNode ifsString 4 3 256 0 ++ elf

/-- A bootloader of 32 bytes with this image after it, as the firmware loads the two. -/
def bootRam (elf : List Byte) : Mem :=
  Mem.store (fun _ => 0#8) 0x8000#32
    (zeros 16 ++ leBytes 4 32 ++ leBytes 4 (bootImage elf).length ++ zeros 8 ++ bootImage elf)

/-- A board that names its revision the old way: 128 MiB. -/
def oldBoard : Mailbox := ⟨0#32, 0x8000000#32, 0#32⟩

/-- A kernel of one segment of eight bytes at `vaddr`. -/
def kernelAt (vaddr : Nat) : List Byte :=
  sampleEhdr 52 1 ++ samplePhdr 1 84 vaddr 8 8 ++ List.replicate 8 7#8

theorem kernelAt_reaches (vaddr : Nat)
    (hok : (kernelLoad oldBoard 0x9000#32 (bootRam (kernelAt vaddr))).ok = true)
    (hfound : elfFind (kernelLoad oldBoard 0x9000#32 (bootRam (kernelAt vaddr))).mem
      (imageBase oldBoard (bootRam (kernelAt vaddr))) filesystemsString ifsString =
        .found 0x7FF0100#32 0#32) :
    ∃ entry bi m', main sampleHal oldBoard 0x9000#32 0#32 (2 ^ 20) (bootRam (kernelAt vaddr)) =
      some (.calls entry bi m') :=
  main_reaches sampleHal hok hfound (by decide) (Nat.le_refl _)

theorem lowKernel_loads : (kernelLoad oldBoard 0x9000#32 (bootRam (kernelAt 0x80100000))).ok = true := by
  decide +kernel

theorem lowKernel_found : elfFind (kernelLoad oldBoard 0x9000#32 (bootRam (kernelAt 0x80100000))).mem
    (imageBase oldBoard (bootRam (kernelAt 0x80100000))) filesystemsString ifsString =
      .found 0x7FF0100#32 0#32 := by
  decide +kernel

theorem lowKernel_handoff : ∃ entry bi m',
    main sampleHal oldBoard 0x9000#32 0#32 (2 ^ 20) (bootRam (kernelAt 0x80100000)) =
      some (.calls entry bi m') ∧ bi.kernelCeiling = 0#32 := by
  obtain ⟨entry, bi, m', hrun⟩ := kernelAt_reaches _ lowKernel_loads lowKernel_found
  exact ⟨entry, bi, m', hrun, (main_never_describes hrun).2.2.1⟩

/-- Of a kernel of one program header none is handed over. -/
theorem lowKernel_undescribed : ¬ ∀ hal mailbox bootinfo noValue fuel m entry bi m' f,
    main hal mailbox bootinfo noValue fuel m = some (.calls entry bi m') →
      kernelFile (relocate m (imageBase mailbox m)) (imageBase mailbox m) kernelString = some f →
        Describes (relocate m (imageBase mailbox m)) f bootinfo bi m' := by
  intro hall
  obtain ⟨entry, bi, m', hrun⟩ := kernelAt_reaches _ lowKernel_loads lowKernel_found
  have hreached := main_calls hrun
  have hdescribes := hall _ _ _ _ _ _ _ _ _ ⟨0x7FF0100#32, 0#32, 92#32⟩ hrun (by decide +kernel)
  have hcnt := hdescribes.phdrCnt
  rw [hreached.kernelPhdrCnt] at hcnt
  exact absurd hcnt (by decide +kernel)

end CheviotBoot.Boot
