import CheviotBoot.Boot.Ceiling

namespace CheviotBoot.Loader
open Lib Boot Board

section
variable {m : Mem} {f : ElfFile} {ifsImage ifsSize ehdr phdrTable : Word} {Bootloader : Word → Prop}
    (h : Loadable vmKernelBase m f ifsImage ifsSize ehdr phdrTable Bootloader)
include h

theorem Loadable.accepted : Accepted m f := ⟨h.supported, Nat.le_trans h.phnum (by decide)⟩

theorem Loadable.table_le {x : Word} (hx : Within x phdrTable (32 * ePhnum m f.elfBase)) :
    Within x phdrTable (32 * maxBootinfoPhdrs) := Nat.lt_of_lt_of_le hx (Nat.mul_le_mul_left 32 h.phnum)

/-- Reading the headers leaves the image alone. -/
theorem Loadable.image_kept {x : Word} (hx : Within x ifsImage ifsSize.toNat) :
    tableCopied m f ehdr phdrTable x = m x :=
  tableCopied_outside h.accepted (fun he => h.imageApart x hx (h.ehdrIn x he))
    fun ht => h.imageApart x hx (h.tableIn x (h.table_le ht))

/-- No byte of a segment that loads goes to the bootloader. -/
theorem Loadable.spares_bootloader {p : Phdr} (hp : p ∈ programHeaders m f) (hl : p.Loads) {x : Word}
    (hx : Bootloader x) : ¬ p.Wipes vmKernelBase x ∧ ¬ p.Fills vmKernelBase x := by
  have hfit := h.segments p hp hl
  refine ⟨fun hw => (hfit.clear x hw).2 hx, fun hfills => ?_⟩
  obtain ⟨i, hi, _, rfl⟩ := hfills.offset
  exact (hfit.clear _ (hfit.wipes h.kernelBase (Nat.lt_of_lt_of_le hi hfit.sound))).2 hx

theorem Loadable.keeps_table : TableKept vmKernelBase m f ehdr phdrTable := by
  refine ⟨fun x hx he => ?_, fun p hp hl x hx => h.spares_bootloader hp hl (h.tableIn x (h.table_le hx))⟩
  have htable := h.table
  have hlt := f.elfSize.isLt
  obtain ⟨i, hi, _, rfl⟩ := hx.offset
  have hfile := within_offset (a := f.elfBase) (by omega : (ePhoff m f.elfBase).toNat + i < f.elfSize.toNat)
    (by omega)
  rw [BitVec.ofNat_add, BitVec.ofNat_toNat, BitVec.setWidth_eq, ← BitVec.add_assoc] at hfile
  exact h.imageApart _ (h.inImage _ hfile) (h.ehdrIn _ he)

/-- `elf_load` returns 0 with the file's segments placed in order, and their ceiling. -/
theorem Loadable.loads {filename : List Byte} (hf : kernelFile m ifsImage filename = some f) :
    (elfLoad vmKernelBase m ifsImage filename ehdr phdrTable).ok = true ∧
      (elfLoad vmKernelBase m ifsImage filename ehdr phdrTable).mem =
        placeAll vmKernelBase f (tableCopied m f ehdr phdrTable) (programHeaders m f) ∧
      (elfLoad vmKernelBase m ifsImage filename ehdr phdrTable).ceiling =
        highestCeiling (programHeaders m f) := by
  have hkept := h.keeps_table
  have hsound : ∀ p ∈ programHeaders m f, p.Sound := fun p hp hl => (h.segments p hp hl).sound
  have hat := tableCopied_headersAt phdrTable h.accepted hkept.clear
  have hlen := programHeaders_length m f
  have hcnt : (programHeaders m f).length ≤ maxPhdr := hlen ▸ h.accepted.2
  have hoff := hkept.off
  rw [← hlen] at hoff
  obtain ⟨hok, hmem⟩ := loadSegments_eq (f := f) 0#32 hat hoff (by omega) hcnt
  have hdone := hok.trans (decide_eq_true hsound)
  rw [elfLoad_eq hf, if_pos h.accepted, ← hlen, hmem hsound, loadSegments_ceiling hdone,
    roundHeaders_eq hat hoff (by omega) hcnt hdone]
  exact ⟨hdone, rfl, rfl⟩

end

end CheviotBoot.Loader

namespace CheviotBoot.Boot
open Lib Loader Board

/-- Memory that holds one file from address 0 on. -/
def fileMem (bs : List Byte) : Mem := Mem.store (fun _ => 0#8) 0#32 bs

def fileElf (bs : List Byte) : ElfFile := ⟨0#32, 0#32, BitVec.ofNat 32 bs.length⟩

/-- The program headers that a file spells. -/
def fileHeaders (bs : List Byte) : List Phdr := programHeaders (fileMem bs) (fileElf bs)

/-- What a segment is in memory: its bytes of the file, and zeros after them. -/
def segmentBytes (bs : List Byte) (h : Phdr) : List Byte :=
  slice bs h.offset.toNat h.filesz.toNat ++ zeros (h.memsz.toNat - h.filesz.toNat)

/-- A kernel as the linker makes it: a file with a header that is supported, its segments inside it
and in the kernel's half, and none zeroed over by a later one. -/
structure KernelElf (bs : List Byte) : Prop where
  header : 52 ≤ bs.length
  short : bs.length < 2 ^ 32
  supported : supportedElf (fileMem bs) 0#32 = true
  phnum : ePhnum (fileMem bs) 0#32 ≤ maxBootinfoPhdrs
  table : (ePhoff (fileMem bs) 0#32).toNat + 32 * ePhnum (fileMem bs) 0#32 ≤ bs.length
  sound : ∀ h ∈ fileHeaders bs, h.Loads → h.filesz.toNat ≤ h.memsz.toNat
  inFile : ∀ h ∈ fileHeaders bs, h.Loads → h.offset.toNat + h.filesz.toNat ≤ bs.length
  high : ∀ h ∈ fileHeaders bs, h.Loads → HighHalf h
  apart : (fileHeaders bs).Pairwise Phdr.Apart
  spares : (fileHeaders bs).Pairwise (Phdr.Spares vmKernelBase (fileMem bs) (fileElf bs))

theorem fileMem_carries {bs : List Byte} (h : bs.length < 2 ^ 32) : (fileMem bs).Carries 0#32 bs :=
  Mem.store_carries _ _ (Nat.le_of_lt h)

/-- Where memory carries a file it is a copy of the memory that holds only the file. -/
theorem copies_file {m : Mem} {a : Word} {bs : List Byte} (hm : m.Carries a bs) (h : bs.length < 2 ^ 32) :
    m.Copies a (fileMem bs) 0#32 bs.length := by
  intro i hi
  rw [hm i hi, fileMem_carries h i hi]

theorem copies_mono {m' m : Mem} {dst src : Word} {n k : Nat} (h : m'.Copies dst m src n) (hk : k ≤ n) :
    m'.Copies dst m src k := fun i hi => h i (Nat.lt_of_lt_of_le hi hk)

section
variable {m : Mem} {a : Word} {bs : List Byte} (hkernel : KernelElf bs) (hm : m.Carries a bs)
include hkernel hm

/-- The header of a kernel in memory reads as the file's. -/
theorem KernelElf.header_read : supportedElf m a = supportedElf (fileMem bs) 0#32 ∧
    ePhnum m a = ePhnum (fileMem bs) 0#32 ∧ ePhoff m a = ePhoff (fileMem bs) 0#32 :=
  header_copies (copies_mono (copies_file hm hkernel.short) hkernel.header)

theorem KernelElf.entry_read : eEntry m a = field bs 24 :=
  hm.field (by have hlen := hkernel.header; omega)

/-- So do its program headers. -/
theorem KernelElf.headers_read (size : Word) : programHeaders m ⟨a, 0#32, size⟩ = fileHeaders bs := by
  obtain ⟨_, hphnum, hphoff⟩ := hkernel.header_read hm
  have hcopies := copies_file hm hkernel.short
  unfold programHeaders fileHeaders
  change (List.range (ePhnum m a)).map (fun t => readPhdr m (phdrAt (a + ePhoff m a) t)) =
    (List.range (ePhnum (fileMem bs) 0#32)).map fun t =>
      readPhdr (fileMem bs) (phdrAt (0#32 + ePhoff (fileMem bs) 0#32) t)
  rw [hphnum, hphoff]
  refine List.map_congr_left fun t ht => ?_
  have htable := hkernel.table
  have ht := List.mem_range.mp ht
  have hread := readPhdr_copies hcopies
    (by omega : (ePhoff (fileMem bs) 0#32).toNat + 32 * t + 32 ≤ bs.length)
  rwa [BitVec.ofNat_add, BitVec.ofNat_toNat, BitVec.setWidth_eq, ← BitVec.add_assoc, ← BitVec.add_assoc] at hread

/-- A segment's bytes in memory are the file's. -/
theorem KernelElf.source_read (size : Word) {h : Phdr} (hh : h ∈ fileHeaders bs) (hl : h.Loads) {i : Nat}
    (hi : i < h.filesz.toNat) : m (h.source ⟨a, 0#32, size⟩ i) = fileMem bs (h.source (fileElf bs) i) := by
  have hfile := hkernel.inFile h hh hl
  have hbyte := copies_file hm hkernel.short (h.offset.toNat + i) (by omega)
  rwa [BitVec.ofNat_add, BitVec.ofNat_toNat, BitVec.setWidth_eq, ← BitVec.add_assoc, ← BitVec.add_assoc] at hbyte

omit hm in
theorem KernelElf.segmentBytes_length {h : Phdr} (hh : h ∈ fileHeaders bs) (hl : h.Loads) :
    (segmentBytes bs h).length = h.memsz.toNat := by
  have hsound := hkernel.sound h hh hl
  have hfile := hkernel.inFile h hh hl
  rw [segmentBytes, List.length_append, slice, List.length_take, List.length_drop, zeros, List.length_replicate]
  omega

/-- A placed segment carries its bytes. -/
theorem KernelElf.placed_carries {size : Word} {h : Phdr} (hh : h ∈ fileHeaders bs) (hl : h.Loads) {m' : Mem}
    (hplaced : h.Placed vmKernelBase m ⟨a, 0#32, size⟩ m') :
    m'.Carries (h.vaddr - vmKernelBase) (segmentBytes bs h) := by
  have hfile := hkernel.inFile h hh hl
  have hslice : (slice bs h.offset.toNat h.filesz.toNat).length = h.filesz.toNat := by
    rw [slice, List.length_take, List.length_drop]
    omega
  intro i hi
  have hlen : i < h.memsz.toNat := hkernel.segmentBytes_length hh hl ▸ hi
  have hbyte := hplaced hl i hlen
  rw [Phdr.home] at hbyte
  rw [hbyte]
  by_cases hin : i < h.filesz.toNat
  · have hsource := hkernel.source_read hm size hh hl hin
    have hread := fileMem_carries hkernel.short (h.offset.toNat + i) (by omega)
    rw [BitVec.ofNat_add, BitVec.ofNat_toNat, BitVec.setWidth_eq, ← BitVec.add_assoc] at hread
    rw [if_pos hin, hsource, Phdr.source, fileElf, hread]
    simp only [segmentBytes]
    rw [List.getElem_append_left (by rwa [hslice])]
    simp [slice]
  · rw [if_neg hin]
    simp only [segmentBytes, zeros]
    rw [List.getElem_append_right (by rw [hslice]; omega), List.getElem_replicate]

end

/-- Room in memory for a bootloader of `base` bytes at 0x8000, an image of `size` bytes behind it and
again at the top, and for the segments and page tables of a kernel between the two. -/
structure Room (memSize base size : Nat) (hs : List Phdr) : Prop where
  image : 0x8000 + base + size ≤ memSize - alignUp size 0x10000
  keepsOff : ∀ h ∈ hs, h.Loads → ∀ x, h.Wipes vmKernelBase x → ¬ Within x 0x8000#32 base
  above : 0x8000 + base ≤ (highestCeiling hs).toNat
  tables : alignUp (highestCeiling hs).toNat 16384 + 2121728 ≤ memSize - alignUp size 0x10000

/-- `bootinfo` lies in the bootloader, past its boot header. -/
structure BootinfoIn (base : Nat) (bootinfo : Word) : Prop where
  low : 0x8018 ≤ bootinfo.toNat
  high : bootinfo.toNat + kernelPhdrOffset + 32 * maxBootinfoPhdrs ≤ 0x8000 + base

/-- A kernel's file was read: its segments are in memory, its headers in `bootinfo`, and what is
neither is as it was. -/
structure KernelLoaded (bs : List Byte) (m : Mem) (bootinfo : Word) (s : Step) : Prop where
  ok : s.ok = true
  ceiling : s.ceiling = highestCeiling (fileHeaders bs)
  segments : ∀ h ∈ fileHeaders bs, h.Loads → s.mem.Carries (h.vaddr - vmKernelBase) (segmentBytes bs h)
  entry : eEntry s.mem (kernelEhdr bootinfo) = field bs 24
  outside : ∀ x, (∀ h ∈ fileHeaders bs, h.Loads → ¬ h.Wipes vmKernelBase x) →
    ¬ Within x (kernelEhdr bootinfo) 52 → ¬ Within x (kernelPhdr bootinfo) (32 * maxBootinfoPhdrs) →
      s.mem x = m x

section
variable {memSize base size : Nat} {hs : List Phdr} {bootinfo : Word}

/-- Where the two copies of headers lie in the bootloader. -/
theorem BootinfoIn.places (hin : BootinfoIn base bootinfo) (hbase : 0x8000 + base < 2 ^ 32) :
    (kernelEhdr bootinfo).toNat = bootinfo.toNat + kernelEhdrOffset ∧
      (kernelPhdr bootinfo).toNat = bootinfo.toNat + kernelPhdrOffset := by
  have hhigh := hin.high
  have hehdr : kernelEhdrOffset = 136 := rfl
  have hphdr : kernelPhdrOffset = 188 := rfl
  rw [hphdr] at hhigh
  refine ⟨?_, ?_⟩
  · rw [kernelEhdr, BitVec.toNat_add, BitVec.toNat_ofNat, hehdr]
    omega
  · rw [kernelPhdr, BitVec.toNat_add, BitVec.toNat_ofNat, hphdr]
    omega

theorem BootinfoIn.inside (hin : BootinfoIn base bootinfo) (hbase : 0x8000 + base < 2 ^ 32) {x : Word}
    (hx : Within x (kernelEhdr bootinfo) 52 ∨ Within x (kernelPhdr bootinfo) (32 * maxBootinfoPhdrs)) :
    Within x 0x8000#32 base ∧ 0x8018 ≤ x.toNat := by
  obtain ⟨hehdr, hphdr⟩ := hin.places hbase
  have hlow := hin.low
  have hhigh := hin.high
  have hfirst : kernelEhdrOffset = 136 := rfl
  have hsecond : kernelPhdrOffset = 188 := rfl
  have hmax : 32 * maxBootinfoPhdrs = 512 := rfl
  have hstart : (0x8000#32 : Word).toNat = 0x8000 := rfl
  rw [hsecond, hmax] at hhigh
  rw [hfirst] at hehdr
  rw [hsecond] at hphdr
  rw [hmax] at hx
  rw [within_toNat (by omega)]
  rcases hx with hx | hx
  · have hrange := (within_toNat (by omega)).mp hx
    omega
  · have hrange := (within_toNat (by omega)).mp hx
    omega

/-- The first copy ends where the second begins. -/
theorem BootinfoIn.copies_apart (hin : BootinfoIn base bootinfo) (hbase : 0x8000 + base < 2 ^ 32) {x : Word}
    (hx : Within x (kernelEhdr bootinfo) 52) : ¬ Within x (kernelPhdr bootinfo) (32 * maxBootinfoPhdrs) := by
  intro hx'
  obtain ⟨hehdr, hphdr⟩ := hin.places hbase
  have hhigh := hin.high
  have hfirst : kernelEhdrOffset = 136 := rfl
  have hsecond : kernelPhdrOffset = 188 := rfl
  have hmax : 32 * maxBootinfoPhdrs = 512 := rfl
  rw [hmax] at hhigh hx'
  have hrange := (within_toNat (by omega)).mp hx
  have hrange' := (within_toNat (by omega)).mp hx'
  omega

/-- A segment's pages end below the image. -/
theorem Room.wipes_below (hroom : Room memSize base size hs) (hhigh : ∀ h ∈ hs, h.Loads → HighHalf h)
    {h : Phdr} (hh : h ∈ hs) (hl : h.Loads) {x : Word} (hx : h.Wipes vmKernelBase x) :
    x.toNat < (highestCeiling hs).toNat ∧ x.toNat < memSize - alignUp size 0x10000 := by
  have hend := (((hhigh h hh hl).wipes_iff x).mp hx).2
  have hle := (highestCeiling_isGreatest hhigh).2 (Or.inr ⟨h, hh, hl, rfl⟩)
  have htables := hroom.tables
  simp only [alignUp] at htables ⊢
  omega

variable {bs : List Byte} {m : Mem} {ifsImage : Word} {o : Nat} (hkernel : KernelElf bs)
    (hin : BootinfoIn base bootinfo) (hroom : Room memSize base size (fileHeaders bs)) (hmem : memSize ≤ 0x7FF00000)
    (himage : ifsImage.toNat = memSize - alignUp size 0x10000) (ho : o + bs.length ≤ size)
    (hm : m.Carries (ifsImage + BitVec.ofNat 32 o) bs)
include hkernel hin hroom hmem himage ho hm

theorem kernel_loadable :
    Loadable vmKernelBase m ⟨ifsImage + BitVec.ofNat 32 o, 0#32, BitVec.ofNat 32 bs.length⟩ ifsImage
      (BitVec.ofNat 32 size) (kernelEhdr bootinfo) (kernelPhdr bootinfo) (fun x => Within x 0x8000#32 base) := by
  obtain ⟨hsupported, hphnum, hphoff⟩ := hkernel.header_read hm
  have hheaders := hkernel.headers_read hm (BitVec.ofNat 32 bs.length)
  have hfits := hroom.image
  have hup := le_alignUp_of_pos size (by decide : 0 < 0x10000)
  have hlen : (BitVec.ofNat 32 bs.length).toNat = bs.length := Nat.mod_eq_of_lt hkernel.short
  have hsize : (BitVec.ofNat 32 size).toNat = size := Nat.mod_eq_of_lt (by omega)
  have hstart : (0x8000#32 : Word).toNat = 0x8000 := rfl
  have himageRange : ∀ x, Within x ifsImage (BitVec.ofNat 32 size).toNat →
      memSize - alignUp size 0x10000 ≤ x.toNat := by
    intro x hx
    rw [hsize] at hx
    have hrange := (within_toNat (by omega)).mp hx
    omega
  refine ⟨by decide, ?_, ?_, ?_, ?_, hsupported.trans hkernel.supported, ?_, ?_, ?_, ?_⟩
  · intro x hx
    obtain ⟨i, hi, _, rfl⟩ := hx.offset
    rw [hlen] at hi
    rw [BitVec.add_assoc, ← BitVec.ofNat_add, hsize]
    exact within_offset (by omega) (by omega)
  · intro x hx hboot
    have htop := himageRange x hx
    have hlow := (within_toNat (by omega)).mp hboot
    omega
  · exact fun x hx => (hin.inside (by omega) (Or.inl hx)).1
  · exact fun x hx => (hin.inside (by omega) (Or.inr hx)).1
  · exact hphnum.trans_le hkernel.phnum
  · rw [hphoff, hphnum, hlen]
    exact hkernel.table
  · rw [hheaders]
    intro h hh hl
    have hhigh := hkernel.high h hh hl
    have hbelow := hhigh.below
    have hcovers := le_alignUp (h.vaddr.toNat + h.memsz.toNat)
    refine ⟨hkernel.sound h hh hl, fun _ => ?_, hhigh.above, by omega, fun x hx => ⟨fun htop => ?_, ?_⟩⟩
    · rw [hlen]
      exact hkernel.inFile h hh hl
    · have hend := (hroom.wipes_below hkernel.high hh hl hx).2
      exact absurd (himageRange x htop) (by omega)
    · exact hroom.keepsOff h hh hl x hx
  · rw [hheaders]
    exact hkernel.apart

/-- Of a kernel that there is room for, `elf_load` loads everything and touches nothing else. -/
theorem kernel_loaded (hf : kernelFile m ifsImage kernelString =
      some ⟨ifsImage + BitVec.ofNat 32 o, 0#32, BitVec.ofNat 32 bs.length⟩) :
    KernelLoaded bs m bootinfo (loadKernel vmKernelBase m ifsImage bootinfo) := by
  have hload := kernel_loadable hkernel hin hroom hmem himage ho hm
  have hheaders := hkernel.headers_read hm (BitVec.ofNat 32 bs.length)
  obtain ⟨hok, hplace, hceiling⟩ := hload.loads hf
  rw [hheaders] at hplace hceiling
  rw [loadKernel]
  obtain ⟨f, hfile⟩ : ∃ f : ElfFile, f = ⟨ifsImage + BitVec.ofNat 32 o, 0#32, BitVec.ofNat 32 bs.length⟩ := ⟨_, rfl⟩
  rw [← hfile] at hload hplace hheaders hf
  have htop : 0x8000 + base < 2 ^ 32 := by
    have hfits := hroom.image
    omega
  have hpages : ∀ h ∈ fileHeaders bs, h.Loads → ∀ x, h.Fills vmKernelBase x → h.Wipes vmKernelBase x :=
    fun h hh hl x hfills => (hkernel.high h hh hl).touches (hkernel.sound h hh hl) (Or.inr (Or.inl hfills))
  have hspares : (fileHeaders bs).Pairwise (Phdr.Spares vmKernelBase m f) := by
    refine hkernel.spares.imp_of_mem fun {h k} hh _ hspare hl hk i hi hw => ?_
    rw [hfile, hkernel.source_read hm _ hh hl hi]
    exact hspare hl hk i hi hw
  refine ⟨hok, hceiling, fun h hh hl => ?_, ?_, fun x hx hehdr hphdr => ?_⟩
  · have hkept : FileKept m f (tableCopied m f (kernelEhdr bootinfo) (kernelPhdr bootinfo)) :=
      fun x hx => hload.image_kept (hload.inImage x hx)
    have hsegments := hload.segments
    have hapart := hload.apart
    rw [hheaders] at hsegments hapart
    have hplaced := (placeAll_placed_iff hkept hload.inImage hload.kernelBase hsegments hapart).mpr hspares h hh
    rw [← hplace, hfile] at hplaced
    exact hkernel.placed_carries hm hh hl hplaced
  · have hcopied : (elfLoad vmKernelBase m ifsImage kernelString (kernelEhdr bootinfo) (kernelPhdr bootinfo)).mem.Copies
        (kernelEhdr bootinfo) m f.elfBase 52 := by
      intro i hi
      have hat := within_offset (a := kernelEhdr bootinfo) hi (by omega)
      rw [hplace, ← hheaders, placeAll_outside _ fun h hh hl =>
        hload.spares_bootloader hh hl (hload.ehdrIn _ hat), tableCopied, Mem.memcpy_outside ?_,
        ehdrCopied_copies m f _ i hi]
      rw [tableSize_toNat hload.accepted.2]
      exact fun htable => hin.copies_apart htop hat (hload.table_le htable)
    have hentry : eEntry _ (kernelEhdr bootinfo) = eEntry m f.elfBase := hcopied.word (k := 24) (by decide)
    rw [hentry, hfile]
    exact hkernel.entry_read hm
  · rw [hplace, placeAll_outside _ fun h hh hl => ⟨hx h hh hl, fun hfills => hx h hh hl (hpages h hh hl x hfills)⟩]
    exact tableCopied_outside hload.accepted hehdr fun ht => hphdr (hload.table_le ht)

end

end CheviotBoot.Boot
