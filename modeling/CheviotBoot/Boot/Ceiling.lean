import CheviotBoot.Lib.Align
import CheviotBoot.Loader.Placement
import CheviotBoot.Boot.Regions

namespace CheviotBoot.Boot
open Lib Loader Board

/-- Where the pages of a segment end in physical memory. -/
def physicalEnd (h : Phdr) : Nat := alignUp (h.vaddr.toNat + h.memsz.toNat) 4096 - vmKernelBase.toNat

/-- A segment in the kernel's half of the address space that leaves the last page free. -/
structure HighHalf (h : Phdr) : Prop where
  above : vmKernelBase.toNat ≤ h.vaddr.toNat
  below : alignUp (h.vaddr.toNat + h.memsz.toNat) 4096 ≤ 2 ^ 32 - 4096

/-- The address is zeroed for a segment, gets a byte of its file, or is that of one of its bytes. -/
def Touches (h : Phdr) (x : Word) : Prop :=
  h.Wipes vmKernelBase x ∨ h.Fills vmKernelBase x ∨ Within x (h.vaddr - vmKernelBase) h.memsz.toNat

section
variable {h : Phdr} (hhigh : HighHalf h)
include hhigh

theorem HighHalf.segmentBase_toNat : (h.segmentBase vmKernelBase).toNat =
    h.vaddr.toNat - h.vaddr.toNat % 4096 - 0x80000000 := by
  have hlt := h.vaddr.isLt
  have habove : 0x80000000 ≤ h.vaddr.toNat := hhigh.above
  have hbase : vmKernelBase.toNat = 0x80000000 := rfl
  rw [Phdr.segmentBase, BitVec.toNat_sub, alignDown32_toNat, hbase]
  omega

theorem HighHalf.segmentCeiling_toNat : (h.segmentCeiling vmKernelBase).toNat = physicalEnd h := by
  have habove : 0x80000000 ≤ h.vaddr.toNat := hhigh.above
  have hbelow := hhigh.below
  have hcovers := le_alignUp (h.vaddr.toNat + h.memsz.toNat)
  have hbase : vmKernelBase.toNat = 0x80000000 := rfl
  have hsum : (h.vaddr + h.memsz).toNat = h.vaddr.toNat + h.memsz.toNat :=
    BitVec.toNat_add_of_lt (by omega)
  have hexact := alignUp32_exact (h.vaddr + h.memsz) (by rw [hsum]; omega)
  rw [Phdr.segmentCeiling, physicalEnd, BitVec.toNat_sub, hexact, hsum, hbase]
  omega

theorem HighHalf.physicalEnd_le : physicalEnd h ≤ 2 ^ 31 - 4096 := by
  have hbelow := hhigh.below
  have hbase : vmKernelBase.toNat = 0x80000000 := rfl
  rw [physicalEnd, hbase]
  omega

/-- The pages of a segment run from its base to its end. -/
theorem HighHalf.wipes_iff (x : Word) : h.Wipes vmKernelBase x ↔
    (h.segmentBase vmKernelBase).toNat ≤ x.toNat ∧ x.toNat < physicalEnd h := by
  have hbase := hhigh.segmentBase_toNat
  have hend := hhigh.physicalEnd_le
  have hceiling := hhigh.segmentCeiling_toNat
  have hcovers := le_alignUp (h.vaddr.toNat + h.memsz.toNat)
  have hphysical : physicalEnd h = alignUp (h.vaddr.toNat + h.memsz.toNat) 4096 - 0x80000000 := rfl
  have hspan : (h.span vmKernelBase).toNat = physicalEnd h - (h.segmentBase vmKernelBase).toNat := by
    rw [Phdr.span, BitVec.toNat_sub, hceiling]
    omega
  rw [Phdr.Wipes, within_toNat (by omega), hspan]
  omega

/-- All that is written for a segment, and the segment itself, lie in its pages. -/
theorem HighHalf.touches (hsound : h.filesz.toNat ≤ h.memsz.toNat) {x : Word} (hx : Touches h x) :
    h.Wipes vmKernelBase x := by
  have hbytes : ∀ n, n ≤ h.memsz.toNat → Within x (h.vaddr - vmKernelBase) n →
      h.Wipes vmKernelBase x := by
    intro n hn hin
    have hbase := hhigh.segmentBase_toNat
    have hlt := h.vaddr.isLt
    have habove : 0x80000000 ≤ h.vaddr.toNat := hhigh.above
    have hbelow := hhigh.below
    have hcovers := le_alignUp (h.vaddr.toNat + h.memsz.toNat)
    have hphysical : physicalEnd h = alignUp (h.vaddr.toNat + h.memsz.toNat) 4096 - 0x80000000 := rfl
    have hstart : (h.vaddr - vmKernelBase).toNat = h.vaddr.toNat - 0x80000000 := by
      have hkernel : vmKernelBase.toNat = 0x80000000 := rfl
      rw [BitVec.toNat_sub, hkernel]
      omega
    have hrange := (within_toNat (by omega)).mp hin
    rw [hhigh.wipes_iff]
    omega
  rcases hx with hwipes | hfills | hin
  · exact hwipes
  · exact hbytes _ hsound hfills
  · exact hbytes _ (Nat.le_refl _) hin

theorem HighHalf.raise_toNat (hl : h.Loads) (ceiling : Word) :
    (raise ceiling h).toNat = max ceiling.toNat (physicalEnd h) := by
  have hceiling := hhigh.segmentCeiling_toNat
  unfold raise
  by_cases hlt : ceiling < h.segmentCeiling vmKernelBase
  · have hnat : ceiling.toNat < physicalEnd h := hceiling ▸ hlt
    rw [if_pos ⟨hl, hlt⟩, hceiling]
    exact (Nat.max_eq_right (Nat.le_of_lt hnat)).symm
  · have hnat : physicalEnd h ≤ ceiling.toNat := hceiling ▸ Nat.not_lt.mp hlt
    rw [if_neg fun hboth => hlt hboth.2]
    exact (Nat.max_eq_left hnat).symm

end

/-- The ceiling of some headers is the greatest of their segments' ends. -/
theorem highestCeiling_isGreatest {hs : List Phdr} (hhigh : ∀ h ∈ hs, h.Loads → HighHalf h) :
    IsGreatest {n | n = 0 ∨ ∃ h ∈ hs, h.Loads ∧ n = physicalEnd h} (highestCeiling hs).toNat :=
  isGreatest_foldl (fun ceiling h hh hl => (hhigh h hh hl).raise_toNat hl ceiling)
    (fun _ _ _ hl => by rw [raise, if_neg fun hboth => hl hboth.1]) 0#32

/-- The headers as `elf_load` has them once it has read them into its table. -/
def copiedHeaders (m : Mem) (f : ElfFile) (ehdr phdrTable : Word) : List Phdr :=
  (List.range (ePhnum m f.elfBase)).map fun t => readPhdr (tableCopied m f ehdr phdrTable) (phdrAt phdrTable t)

/-- They are the file's where the copy of its ELF header is not over them. -/
theorem copiedHeaders_eq {m : Mem} {f : ElfFile} {ehdr : Word} (phdrTable : Word) (h : Accepted m f)
    (hclear : ∀ x, Within x (f.elfBase + ePhoff m f.elfBase) (32 * ePhnum m f.elfBase) →
      ¬ Within x ehdr 52) : copiedHeaders m f ehdr phdrTable = programHeaders m f := by
  have hmax : ePhnum m f.elfBase ≤ 64 := h.2
  refine List.map_congr_left fun t ht => ?_
  have ht := List.mem_range.mp ht
  refine readPhdr_copies (n := 32 * ePhnum m f.elfBase) (fun i hi => ?_) (by omega)
  rw [tableCopied_copies ehdr phdrTable h i hi]
  exact ehdrCopied_outside (hclear _ (within_offset hi (by omega)))

theorem copiedHeaders_at (m : Mem) (f : ElfFile) (ehdr phdrTable : Word) :
    HeadersAt (tableCopied m f ehdr phdrTable) phdrTable 0 (copiedHeaders m f ehdr phdrTable) := by
  have hsame : (tableCopied m f ehdr phdrTable).Copies phdrTable (tableCopied m f ehdr phdrTable) phdrTable
    (32 * ePhnum m f.elfBase) := fun _ _ => rfl
  rw [copiedHeaders, List.range_eq_range']
  exact headersAt_copies hsame (by omega)

/-- The ceiling bounds what is in memory for these headers, and the page tables start above it.
Memory is as the segments found and left it. -/
structure Bounds (hs : List Phdr) (m m' : Mem) (ceiling : Word) : Prop where
  aligned : ceiling.toNat % 4096 = 0
  greatest : IsGreatest {n | n = 0 ∨ ∃ h ∈ hs, h.Loads ∧ n = physicalEnd h} ceiling.toNat
  below : ∀ h ∈ hs, h.Loads → ∀ x, Touches h x →
    (h.segmentBase vmKernelBase).toNat ≤ x.toNat ∧ x.toNat < ceiling.toNat
  outside : ∀ x, (∀ h ∈ hs, h.Loads →
    ¬ ((h.segmentBase vmKernelBase).toNat ≤ x.toNat ∧ x.toNat < ceiling.toNat)) → m' x = m x
  rootAligned : (layTables ceiling).rootPagedir.toNat % 16384 = 0
  rootAbove : ceiling.toNat ≤ (layTables ceiling).rootPagedir.toNat
  tables : ∀ h ∈ hs, h.Loads → ∀ x, Touches h x →
    ∀ a ∈ (layTables ceiling).areas, ¬ Within x a.1 a.2
  noWrap : (layTables ceiling).pagetableCeiling.toNat = (layTables ceiling).rootPagedir.toNat + 2121728

/-- Sound segments of the high half are bounded by their ceiling. -/
theorem placeAll_bounds {f : ElfFile} {hs : List Phdr} (m : Mem)
    (hhigh : ∀ h ∈ hs, h.Loads → HighHalf h) (hsound : ∀ h ∈ hs, h.Sound) :
    Bounds hs m (placeAll vmKernelBase f m hs) (highestCeiling hs) := by
  have hgreatest := highestCeiling_isGreatest hhigh
  have hlow : (highestCeiling hs).toNat ≤ 2 ^ 31 := by
    rcases hgreatest.1 with hzero | ⟨h, hh, hl, hend⟩
    · omega
    · have hle := (hhigh h hh hl).physicalEnd_le
      omega
  obtain ⟨habove, haligned, _, hceiling⟩ := layTables_noWrap hlow
  have hbelow : ∀ h ∈ hs, h.Loads → ∀ x, Touches h x →
      (h.segmentBase vmKernelBase).toNat ≤ x.toNat ∧ x.toNat < (highestCeiling hs).toNat := by
    intro h hh hl x hx
    have hwipes := (hhigh h hh hl).touches (hsound h hh hl) hx
    obtain ⟨hstart, hend⟩ := ((hhigh h hh hl).wipes_iff x).mp hwipes
    exact ⟨hstart, Nat.lt_of_lt_of_le hend (hgreatest.2 (Or.inr ⟨h, hh, hl, rfl⟩))⟩
  refine ⟨?_, hgreatest, hbelow, ?_, haligned, habove, ?_, hceiling⟩
  · rcases hgreatest.1 with hzero | ⟨h, _, _, hend⟩
    · rw [hzero]
    · have hmod := alignUp_mod (h.vaddr.toNat + h.memsz.toNat)
      have hbase : vmKernelBase.toNat = 0x80000000 := rfl
      rw [hend, physicalEnd, hbase]
      omega
  · intro x hx
    refine placeAll_outside m fun h hh hl => ?_
    have hno := fun ht => hx h hh hl (hbelow h hh hl x ht)
    exact ⟨fun hw => hno (Or.inl hw), fun hf => hno (Or.inr (Or.inl hf))⟩
  · intro h hh hl x hx a ha hin
    exact absurd (hbelow h hh hl x hx).2 (Nat.not_lt.mpr (layTables_above hlow ha hin))

/-- The ceiling that `elf_load` returns for a kernel in the high half, the pages of whose
segments are off `kernel_phdr`. -/
theorem elfLoad_bounds {m : Mem} {ifsImage ehdr phdrTable : Word} {filename : List Byte} {f : ElfFile}
    (hf : kernelFile m ifsImage filename = some f) (hphnum : ePhnum m f.elfBase ≤ maxBootinfoPhdrs)
    (hhigh : ∀ h ∈ copiedHeaders m f ehdr phdrTable, h.Loads → HighHalf h)
    (hclear : ∀ h ∈ copiedHeaders m f ehdr phdrTable, h.Loads →
      ∀ x, h.Wipes vmKernelBase x → ¬ Within x phdrTable (32 * maxBootinfoPhdrs))
    (hok : (elfLoad vmKernelBase m ifsImage filename ehdr phdrTable).ok = true) :
    Bounds (copiedHeaders m f ehdr phdrTable) (tableCopied m f ehdr phdrTable)
        (elfLoad vmKernelBase m ifsImage filename ehdr phdrTable).mem
        (elfLoad vmKernelBase m ifsImage filename ehdr phdrTable).ceiling ∧
      ((∀ x, Within x (f.elfBase + ePhoff m f.elfBase) (32 * ePhnum m f.elfBase) → ¬ Within x ehdr 52) →
        copiedHeaders m f ehdr phdrTable = programHeaders m f) := by
  have haccepted : Accepted m f := by
    obtain ⟨f', hf', ha, _⟩ := elfLoad_ok hok
    cases hf.symm.trans hf'
    exact ha
  refine ⟨?_, copiedHeaders_eq phdrTable haccepted⟩
  have hoff : ∀ h ∈ copiedHeaders m f ehdr phdrTable, h.Sound →
      h.KeepsOff vmKernelBase phdrTable (32 * ePhnum m f.elfBase) := by
    intro h hh hs hl x hx
    have hpages : ¬ h.Wipes vmKernelBase x := fun hw =>
      hclear h hh hl x hw (Nat.lt_of_lt_of_le hx (Nat.mul_le_mul_left 32 hphnum))
    exact ⟨hpages, fun hfills => hpages ((hhigh h hh hl).touches (hs hl) (Or.inr (Or.inl hfills)))⟩
  have hat := copiedHeaders_at m f ehdr phdrTable
  have hlen : (copiedHeaders m f ehdr phdrTable).length = ePhnum m f.elfBase := by simp [copiedHeaders]
  rw [elfLoad_eq hf, if_pos haccepted, ← hlen] at hok ⊢
  rw [← hlen] at hoff
  have hcnt : (copiedHeaders m f ehdr phdrTable).length ≤ maxPhdr := hlen ▸ haccepted.2
  have hsound := loadSegments_sound hat hoff (by omega) hcnt hok
  have hkeeps := fun h hh => hoff h hh (hsound h hh)
  have hmem := (loadSegments_eq (f := f) 0#32 hat hkeeps (by omega) hcnt).2 hsound
  rw [hmem, loadSegments_ceiling hok, roundHeaders_eq hat hkeeps (by omega) hcnt hok]
  exact placeAll_bounds _ hhigh hsound

/-- Of two segments the first ends higher; the tables start past it, not past the last. -/
theorem descendingSegments_bounds : Bounds (twoHeaders 0x800FF000#32)
    (tableCopied (sampleMem (twoSegments 0x800FF000)) sampleFile 0x9000#32 0x9100#32)
    (elfLoad vmKernelBase (sampleMem (twoSegments 0x800FF000)) 0x200000#32 kernelString 0x9000#32 0x9100#32).mem
    0x101000#32 := by
  have hheaders : copiedHeaders (sampleMem (twoSegments 0x800FF000)) sampleFile 0x9000#32 0x9100#32 =
      twoHeaders 0x800FF000#32 := by decide +kernel
  have hceiling : (elfLoad vmKernelBase (sampleMem (twoSegments 0x800FF000)) 0x200000#32 kernelString
      0x9000#32 0x9100#32).ceiling = 0x101000#32 := by decide +kernel
  have hpages : ∀ p ∈ twoHeaders 0x800FF000#32, 0x9100 + 512 ≤ (p.segmentBase vmKernelBase).toNat ∧
      (p.segmentBase vmKernelBase).toNat + (p.span vmKernelBase).toNat ≤ 2 ^ 32 := by decide
  have hhigh : ∀ p ∈ twoHeaders 0x800FF000#32, vmKernelBase.toNat ≤ p.vaddr.toNat ∧
      alignUp (p.vaddr.toNat + p.memsz.toNat) 4096 ≤ 2 ^ 32 - 4096 := by decide
  have hf : kernelFile (sampleMem (twoSegments 0x800FF000)) 0x200000#32 kernelString = some sampleFile := by
    decide +kernel
  have hok : (elfLoad vmKernelBase (sampleMem (twoSegments 0x800FF000)) 0x200000#32 kernelString
      0x9000#32 0x9100#32).ok = true := by decide +kernel
  have hbounds := (elfLoad_bounds hf (by decide +kernel) ?_ ?_ hok).1
  · rwa [hheaders, hceiling] at hbounds
  · rw [hheaders]
    exact fun p hp _ => ⟨(hhigh p hp).1, (hhigh p hp).2⟩
  · rw [hheaders]
    intro p hp _ x hw
    exact within_clear hw (Or.inr (hpages p hp).1) (hpages p hp).2 (by decide)

end CheviotBoot.Boot
