import CheviotBoot.Boot.Handoff

namespace CheviotBoot.Boot
open Lib Loader Board

/-- The program headers as the rounds of the loop find them, each in the memory that the rounds
before left. -/
def roundHeaders (f : ElfFile) (phdrTable : Word) : Nat → Nat → Mem → Word → List Phdr
  | 0, _, _, _ => []
  | cnt + 1, t, m, ceiling =>
    let s := loadSegment vmKernelBase f (phdrAt phdrTable t) m ceiling
    readPhdr m (phdrAt phdrTable t) :: roundHeaders f phdrTable cnt (t + 1) s.mem s.ceiling

theorem loadSegment_ceiling {f : ElfFile} {phdr : Word} {m : Mem} {ceiling : Word}
    (h : (loadSegment vmKernelBase f phdr m ceiling).ok = true) :
    (loadSegment vmKernelBase f phdr m ceiling).ceiling = raise ceiling (readPhdr m phdr) := by
  unfold loadSegment raise at *
  by_cases hl : pType m phdr = ptLoad
  · have hloads : (readPhdr m phdr).Loads := hl
    rw [if_neg (fun hn => hn hl)] at h ⊢
    by_cases hs : pMemsz m phdr < pFilesz m phdr
    · rw [if_pos hs] at h
      cases h
    · have hceiling : (readPhdr m phdr).segmentCeiling vmKernelBase =
          alignUp32 (pVaddr m phdr + pMemsz m phdr) 4096#32 - vmKernelBase := rfl
      rw [if_neg hs] at h ⊢
      simp only [hloads, true_and, hceiling]
      split
      · split <;> rfl
      · rfl
  · have hloads : ¬ (readPhdr m phdr).Loads := hl
    rw [if_pos hl, if_neg (fun hn => hloads hn.1)]

/-- The ceiling that a finished loop leaves is the highest of its rounds'. -/
theorem loadSegments_ceiling {f : ElfFile} {phdrTable : Word} {cnt t : Nat} {m : Mem} {ceiling : Word}
    (h : (loadSegments vmKernelBase f phdrTable cnt t m ceiling).ok = true) :
    (loadSegments vmKernelBase f phdrTable cnt t m ceiling).ceiling =
      (roundHeaders f phdrTable cnt t m ceiling).foldl raise ceiling := by
  induction cnt generalizing t m ceiling with
  | zero => rfl
  | succ cnt ih =>
    obtain ⟨hfirst, hrest⟩ := loadSegments_succ h
    rw [hrest] at h ⊢
    rw [roundHeaders, List.foldl_cons, ← loadSegment_ceiling hfirst]
    exact ih h

/-- Where the table keeps its headers the rounds find those of the file. -/
theorem roundHeaders_eq {f : ElfFile} {phdrTable : Word} {cnt t : Nat} {hs : List Phdr} {m : Mem}
    {ceiling : Word} (hat : HeadersAt m phdrTable t hs)
    (hoff : ∀ h ∈ hs, h.KeepsOff vmKernelBase phdrTable (32 * cnt)) (ht : t + hs.length ≤ cnt)
    (hcnt : cnt ≤ maxPhdr)
    (hok : (loadSegments vmKernelBase f phdrTable hs.length t m ceiling).ok = true) :
    roundHeaders f phdrTable hs.length t m ceiling = hs := by
  have hmax : cnt ≤ 64 := hcnt
  induction hs generalizing t m ceiling with
  | nil => rfl
  | cons h hs ih =>
    rw [List.length_cons] at ht hok
    have hhere : (readPhdr m (phdrAt phdrTable t)).KeepsOff vmKernelBase (phdrAt phdrTable t) 32 := by
      rw [hat.1]
      exact (hoff h List.mem_cons_self).entry (by omega) hmax
    obtain ⟨hround, hmem⟩ := loadSegment_eq (f := f) ceiling hhere
    rw [hat.1] at hround hmem
    obtain ⟨hfirst, hrest⟩ := loadSegments_succ hok
    rw [hrest] at hok
    rw [List.length_cons, roundHeaders, hat.1]
    have hsound : h.Sound := of_decide_eq_true (hround.symm.trans hfirst)
    have hcopies := (hoff h List.mem_cons_self).copies (by omega) f m
    refine congrArg (h :: ·) (ih ?_ (fun k hk => hoff k (List.mem_cons_of_mem h hk)) (by omega) hok)
    rw [hmem hsound]
    exact hat.2.mono hcopies (by omega)

/-- Nothing that is placed at boot reaches past memory or into the image, and the image was copied
from a range apart from its own. -/
structure RegionsApart (memSize : Nat) (source ifsImage size pagetableBase : Word)
    (hs : List Phdr) : Prop where
  image : ifsImage.toNat + size.toNat ≤ memSize
  copy : ∀ x, Within x source size.toNat → ¬ Within x ifsImage size.toNat
  segments : ∀ h ∈ hs, h.Loads → ∀ x, h.Wipes vmKernelBase x →
    x.toNat < memSize ∧ ¬ Within x ifsImage size.toNat
  tables : ∀ x, Within x pagetableBase 2121728 → x.toNat < memSize ∧ ¬ Within x ifsImage size.toNat

/-- A range that starts at `a` and does not wrap lies below `memSize` and off what the image takes of
the top. -/
def Clear (memSize size a n : Nat) : Prop :=
  a + n ≤ memSize - alignUp size 0x10000 ∨
    memSize - alignUp size 0x10000 + size ≤ a ∧ a + n ≤ memSize

/-- There is room for everything: for the image in memory and between it and its source, and for
the pages of each segment and of the page tables. -/
structure Roomy (memSize : Nat) (source size : Word) (hs : List Phdr) : Prop where
  image : size.toNat ≤ memSize
  copy : size = 0#32 ∨ source.toNat + size.toNat ≤ memSize - alignUp size.toNat 0x10000 ∨
    memSize - alignUp size.toNat 0x10000 + size.toNat ≤ source.toNat ∧
      source.toNat + size.toNat ≤ 2 ^ 32 + (memSize - alignUp size.toNat 0x10000)
  segments : ∀ h ∈ hs, h.Loads → h.span vmKernelBase = 0#32 ∨
    Clear memSize size.toNat (h.segmentBase vmKernelBase).toNat (h.span vmKernelBase).toNat
  tables : (alignUp32 (highestCeiling hs) 16384#32).toNat + 2121728 ≤
    memSize - alignUp size.toNat 0x10000

/-- A range is below memory's end and off the image exactly when it is clear. -/
theorem clear_iff {memSize : Nat} {ifsImage size a : Word} {n : Nat} (hn : 0 < n) (hn' : n ≤ 2 ^ 32)
    (hmem : memSize ≤ 0x7FF00000) (hunits : memSize % 0x10000 = 0) (hsize : size.toNat ≤ memSize)
    (himage : ifsImage.toNat = memSize - alignUp size.toNat 0x10000) :
    (∀ x, Within x a n → x.toNat < memSize ∧ ¬ Within x ifsImage size.toNat) ↔
      Clear memSize size.toNat a.toNat n := by
  have hup : size.toNat ≤ alignUp size.toNat 0x10000 ∧
      (size.toNat = 0 → alignUp size.toNat 0x10000 = 0) ∧ alignUp size.toNat 0x10000 ≤ memSize := by
    simp only [alignUp]
    omega
  have hbelow : (∀ x, Within x a n → x.toNat < memSize) ↔ a.toNat + n ≤ memSize := by
    constructor
    · intro h
      have hlt := a.isLt
      by_cases hwrap : 2 ^ 32 ≤ a.toNat + n
      · have hlast := h (-1) (by rw [Within, BitVec.toNat_sub]; simp; omega)
        simp at hlast
        omega
      · have hlast := h (a + BitVec.ofNat 32 (n - 1)) (within_offset (by omega) (by omega))
        rw [BitVec.toNat_add, BitVec.toNat_ofNat] at hlast
        omega
    · intro h x hx
      obtain ⟨i, hi, _, rfl⟩ := hx.offset
      rw [BitVec.toNat_add, BitVec.toNat_ofNat]
      omega
  have happart := ranges_apart_iff (a := a) (b := ifsImage) hn' (Nat.le_of_lt size.isLt)
  rw [BitVec.toNat_sub, BitVec.toNat_sub] at happart
  rw [forall_congr' fun x => imp_and, forall_and, happart, hbelow, Clear, ← himage]
  omega

section
variable {memSize : Nat} {ifsImage size ceiling : Word} {hs : List Phdr}
    (hmem : memSize ≤ 0x7FF00000) (hunits : memSize % 0x10000 = 0) (hsize : size.toNat ≤ memSize)
    (himage : ifsImage.toNat = memSize - alignUp size.toNat 0x10000)
include hmem hunits hsize himage

theorem copy_apart_iff (source : Word) :
    (∀ x, Within x source size.toNat → ¬ Within x ifsImage size.toNat) ↔
      size = 0#32 ∨ source.toNat + size.toNat ≤ memSize - alignUp size.toNat 0x10000 ∨
        memSize - alignUp size.toNat 0x10000 + size.toNat ≤ source.toNat ∧
          source.toNat + size.toNat ≤ 2 ^ 32 + (memSize - alignUp size.toNat 0x10000) := by
  have hle := Nat.le_of_lt size.isLt
  have happart := ranges_apart_iff (a := source) (b := ifsImage) hle hle
  have hzero : size = 0#32 ↔ size.toNat = 0 := BitVec.toNat_inj.symm
  have hlt := source.isLt
  rw [BitVec.toNat_sub, BitVec.toNat_sub] at happart
  rw [happart, hzero, ← himage]
  omega

theorem segment_clear_iff (h : Phdr) : (∀ x, h.Wipes vmKernelBase x →
    x.toNat < memSize ∧ ¬ Within x ifsImage size.toNat) ↔ h.span vmKernelBase = 0#32 ∨
      Clear memSize size.toNat (h.segmentBase vmKernelBase).toNat (h.span vmKernelBase).toNat := by
  have hzero : h.span vmKernelBase = 0#32 ↔ (h.span vmKernelBase).toNat = 0 := BitVec.toNat_inj.symm
  by_cases hspan : (h.span vmKernelBase).toNat = 0
  · refine iff_of_true ?_ (Or.inl (hzero.mpr hspan))
    intro x hx
    rw [Phdr.Wipes, hspan] at hx
    exact absurd hx (Nat.not_lt_zero _)
  · rw [hzero, or_iff_right hspan]
    exact clear_iff (by omega) (Nat.le_of_lt (h.span vmKernelBase).isLt) hmem hunits hsize himage

theorem tables_clear_iff (pagetableBase : Word) : (∀ x, Within x pagetableBase 2121728 →
    x.toNat < memSize ∧ ¬ Within x ifsImage size.toNat) ↔
      pagetableBase.toNat + 2121728 ≤ memSize - alignUp size.toNat 0x10000 := by
  have hgap : alignUp size.toNat 0x10000 < size.toNat + 0x10000 := by
    simp only [alignUp]
    omega
  rw [clear_iff (by decide) (by decide) hmem hunits hsize himage, Clear]
  omega

/-- Nothing collides exactly where there is room. -/
theorem regionsApart_iff (source : Word) (hceiling : ceiling = highestCeiling hs) :
    RegionsApart memSize source ifsImage size (alignUp32 ceiling 16384#32) hs ↔
      Roomy memSize source size hs := by
  have hup : size.toNat ≤ alignUp size.toNat 0x10000 ∧ alignUp size.toNat 0x10000 ≤ memSize := by
    simp only [alignUp]
    omega
  have hcopy := copy_apart_iff hmem hunits hsize himage source
  have hsegment := segment_clear_iff hmem hunits hsize himage
  have htables := tables_clear_iff hmem hunits hsize himage (alignUp32 (highestCeiling hs) 16384#32)
  rw [hceiling]
  constructor
  · intro h
    exact ⟨hsize, hcopy.mp h.copy, fun p hp hl => (hsegment p).mp (h.segments p hp hl),
      htables.mp h.tables⟩
  · intro h
    refine ⟨?_, hcopy.mpr h.copy, fun p hp hl => (hsegment p).mpr (h.segments p hp hl),
      htables.mpr h.tables⟩
    rw [himage]
    omega

end

/-- The headers that the rounds of `elf_load` find for the kernel. -/
def kernelHeaders (bootinfo : Word) (m : Mem) (f : ElfFile) : List Phdr :=
  roundHeaders f (kernelPhdr bootinfo) (ePhnum m f.elfBase) 0
    (tableCopied m f (kernelEhdr bootinfo) (kernelPhdr bootinfo)) 0#32

theorem loadKernel_ceiling {m : Mem} {ifsImage bootinfo : Word}
    (h : (loadKernel vmKernelBase m ifsImage bootinfo).ok = true) :
    ∃ f, kernelFile m ifsImage kernelString = some f ∧
      (loadKernel vmKernelBase m ifsImage bootinfo).ceiling = highestCeiling (kernelHeaders bootinfo m f) ∧
      (TableKept vmKernelBase m f (kernelEhdr bootinfo) (kernelPhdr bootinfo) →
        kernelHeaders bootinfo m f = programHeaders m f) := by
  rw [loadKernel] at h ⊢
  obtain ⟨f, hf, ha, _⟩ := elfLoad_ok h
  rw [elfLoad_eq hf, if_pos ha] at h ⊢
  refine ⟨f, hf, ?_, ?_⟩
  · rw [highestCeiling, kernelHeaders]
    exact loadSegments_ceiling h
  · intro hkept
    have hat := tableCopied_headersAt (kernelPhdr bootinfo) ha hkept.clear
    have hlen := programHeaders_length m f
    rw [kernelHeaders]
    rw [← hlen] at h ⊢
    refine roundHeaders_eq hat hkept.off ?_ ha.2 h
    rw [hlen, Nat.zero_add]

/-- In every run that calls the kernel the regions are apart exactly where there is room: `Main`
checks none of it. Where the kernel's segments keep off `kernel_phdr` the headers are the file's. -/
theorem main_regionsApart_iff {hal : Hal} {mailbox : Mailbox} {bootinfo noValue : Word} {fuel : Nat}
    {m m' : Mem} {entry : Word} {bi : BootInfo}
    (h : main hal mailbox bootinfo noValue fuel m = some (.calls entry bi m')) :
    ∃ f, kernelFile (relocate m (imageBase mailbox m)) (imageBase mailbox m) kernelString = some f ∧
      (RegionsApart (boardMemory mailbox.revision) (0x8000#32 + rootfsImageOffset m) bi.ifsImage
          (rootfsImageSize m) (bi.tables.pagetableBase - vmKernelBase)
          (kernelHeaders bootinfo (relocate m (imageBase mailbox m)) f) ↔
        Roomy (boardMemory mailbox.revision) (0x8000#32 + rootfsImageOffset m) (rootfsImageSize m)
          (kernelHeaders bootinfo (relocate m (imageBase mailbox m)) f)) ∧
      (TableKept vmKernelBase (relocate m (imageBase mailbox m)) f (kernelEhdr bootinfo) (kernelPhdr bootinfo) →
        kernelHeaders bootinfo (relocate m (imageBase mailbox m)) f =
          programHeaders (relocate m (imageBase mailbox m)) f) := by
  have hreached := main_calls h
  obtain ⟨hunits, _, hmem⟩ := boardMemory_units mailbox.revision
  have hloaded := hreached.loaded
  rw [kernelLoad] at hloaded
  obtain ⟨f, hf, hceiling, hheaders⟩ := loadKernel_ceiling hloaded
  rw [← kernelLoad] at hceiling
  obtain ⟨io, htables⟩ := hreached.tables
  have hbase : bi.tables.pagetableBase - vmKernelBase =
      alignUp32 (kernelLoad mailbox bootinfo m).ceiling 16384#32 := by
    rw [htables]
    exact BitVec.add_sub_cancel _ _
  refine ⟨f, hf, ?_, hheaders⟩
  rw [hreached.ifsImage, hbase]
  by_cases hsize : (rootfsImageSize m).toNat ≤ boardMemory mailbox.revision
  · exact regionsApart_iff hmem hunits hsize (ifsImageAt_toNat hunits hmem hsize) _ hceiling
  · refine iff_of_false (fun hapart => hsize ?_) (fun hroomy => hsize hroomy.image)
    exact Nat.le_trans (Nat.le_add_left _ _) hapart.image

/-- The file of a sample kernel in the copied image. -/
def kernelElf : ElfFile := ⟨0x7FF0100#32, 0#32, 92#32⟩

/-- Where the kernel ends at 2 MiB there is room. -/
theorem lowKernel_apart : ∃ entry bi m',
    main sampleHal oldBoard 0x9000#32 0#32 (2 ^ 20) (bootRam (kernelAt 0x80100000)) =
        some (.calls entry bi m') ∧
      RegionsApart 0x8000000 0x8020#32 bi.ifsImage 348#32 (bi.tables.pagetableBase - vmKernelBase)
        [⟨1#32, 84#32, 0x80100000#32, 8#32, 8#32⟩] := by
  obtain ⟨entry, bi, m', hrun⟩ := kernelAt_reaches _ lowKernel_loads lowKernel_found
  obtain ⟨f, hf, hiff, _⟩ := main_regionsApart_iff hrun
  have hsize : rootfsImageSize (bootRam (kernelAt 0x80100000)) = 348#32 := by decide +kernel
  have hsource : 0x8000#32 + rootfsImageOffset (bootRam (kernelAt 0x80100000)) = 0x8020#32 := by
    decide +kernel
  have hfile : kernelFile (relocate (bootRam (kernelAt 0x80100000)) (imageBase oldBoard
      (bootRam (kernelAt 0x80100000)))) (imageBase oldBoard (bootRam (kernelAt 0x80100000))) kernelString =
      some kernelElf := by decide +kernel
  obtain rfl := Option.some.inj (hf.symm.trans hfile)
  have hheaders : kernelHeaders 0x9000#32 (relocate (bootRam (kernelAt 0x80100000)) (imageBase oldBoard
      (bootRam (kernelAt 0x80100000)))) kernelElf = [⟨1#32, 84#32, 0x80100000#32, 8#32, 8#32⟩] := by
    decide +kernel
  have hmem : boardMemory oldBoard.revision = 0x8000000 := by decide
  rw [hsize, hsource, hheaders, hmem] at hiff
  refine ⟨entry, bi, m', hrun, hiff.mpr ⟨by decide, Or.inr (Or.inl (by decide)), ?_, by decide⟩⟩
  intro h hh _
  obtain rfl := List.mem_singleton.mp hh
  exact Or.inr (Or.inl (by decide))

/-- A kernel loaded at 126 MiB of 128 has its page tables over the image. -/
theorem highKernel_collides : ¬ ∀ hal mailbox bootinfo noValue fuel m entry bi m' f,
    main hal mailbox bootinfo noValue fuel m = some (.calls entry bi m') →
      kernelFile (relocate m (imageBase mailbox m)) (imageBase mailbox m) kernelString = some f →
        RegionsApart (boardMemory mailbox.revision) (0x8000#32 + rootfsImageOffset m) bi.ifsImage
          (rootfsImageSize m) (bi.tables.pagetableBase - vmKernelBase)
          (kernelHeaders bootinfo (relocate m (imageBase mailbox m)) f) := by
  intro hall
  obtain ⟨entry, bi, m', hrun⟩ := kernelAt_reaches 0x87E00000 (by decide +kernel) (by decide +kernel)
  have hreached := main_calls hrun
  have hapart := hall _ _ _ _ _ _ _ _ _ kernelElf hrun (by decide +kernel)
  obtain ⟨io, htables⟩ := hreached.tables
  have hceiling : (kernelLoad oldBoard 0x9000#32 (bootRam (kernelAt 0x87E00000))).ceiling = 0x7E01000#32 := by
    decide +kernel
  have himage : imageBase oldBoard (bootRam (kernelAt 0x87E00000)) = 0x7FF0000#32 := by decide +kernel
  have hsize : rootfsImageSize (bootRam (kernelAt 0x87E00000)) = 348#32 := by decide +kernel
  have hbase : bi.tables.pagetableBase - vmKernelBase = 0x7E04000#32 := by
    rw [htables, hceiling]
    exact (BitVec.add_sub_cancel _ _).trans (by decide)
  have htop := (hapart.tables 0x7FF0000#32 (by rw [hbase]; decide)).2
  rw [hreached.ifsImage, himage, hsize] at htop
  exact htop (by decide)

/-- The copied image and the range that the VideoCore keeps have no address in common. -/
def VideocoreSpared (mailbox : Mailbox) (size : Word) : Prop :=
  let ifsImage := ifsImageAt (boardInit mailbox zeroBootInfo).board.memSize size
  ∀ a, ¬ ((ifsImage.toNat ≤ a ∧ a < ifsImage.toNat + size.toNat) ∧
    (mailbox.videocoreBase.toNat ≤ a ∧ a < mailbox.videocoreBase.toNat + mailbox.videocoreSize.toNat))

/-- That is so exactly where the range ends below the image's place at the top of memory or starts
past the image. -/
theorem videocoreSpared_iff (mailbox : Mailbox) (size : Word) (hsize : size.toNat ≤ 64 * 1024 * 1024) :
    VideocoreSpared mailbox size ↔
      size = 0#32 ∨ mailbox.videocoreSize = 0#32 ∨
        mailbox.videocoreBase.toNat + mailbox.videocoreSize.toNat + alignUp size.toNat 0x10000 ≤
          boardMemory mailbox.revision ∨
        boardMemory mailbox.revision + size.toNat ≤
          mailbox.videocoreBase.toNat + alignUp size.toNat 0x10000 := by
  obtain ⟨hunits, hleast, hmem⟩ := boardMemory_units mailbox.revision
  have himage := ifsImageAt_toNat hunits hmem (by omega : size.toNat ≤ boardMemory mailbox.revision)
  have hup : alignUp size.toNat 0x10000 ≤ boardMemory mailbox.revision := by
    simp only [alignUp]
    omega
  have hzero : ∀ w : Word, w = 0#32 ↔ w.toNat = 0 := fun w => BitVec.toNat_inj.symm
  rw [VideocoreSpared, boardInit_memSize, himage, hzero, hzero]
  generalize boardMemory mailbox.revision = memSize at *
  generalize mailbox.videocoreBase.toNat = base
  generalize mailbox.videocoreSize.toNat = range
  constructor
  · intro h
    have hlow := h (memSize - alignUp size.toNat 0x10000)
    have hhigh := h base
    omega
  · intro h a
    omega

/-- A board whose VideoCore keeps the last 76 MiB of its 1 GiB. -/
def videocoreAtTop (revision : Word) : Mailbox := ⟨revision, 0x3B400000#32, 0x04C00000#32⟩

theorem halfGigabyte_spared : VideocoreSpared (videocoreAtTop 0x903111#32) 0x1000000#32 :=
  (videocoreSpared_iff (videocoreAtTop 0x903111#32) 0x1000000#32 (by decide)).mpr (by decide)

/-- With the revision of a board of 1 GiB an image of 16 MiB is copied into that range. -/
theorem gigabyte_overrun : ¬ ∀ (mailbox : Mailbox) (size : Word),
    0x8000000 ≤ mailbox.videocoreBase.toNat → size.toNat ≤ 64 * 1024 * 1024 →
      VideocoreSpared mailbox size := by
  intro hall
  have himage : (ifsImageAt (boardInit (videocoreAtTop 0xA03111#32) zeroBootInfo).board.memSize
      0x1000000#32).toNat = 0x3F000000 := by decide
  have hboth := hall (videocoreAtTop 0xA03111#32) 0x1000000#32 (by decide) (by decide) 0x3F000000
  rw [himage] at hboth
  exact hboth (by decide)

end CheviotBoot.Boot
