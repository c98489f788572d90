import CheviotBoot.Loader.Headers

namespace CheviotBoot.Loader
open Lib Mkifs

def maxBootinfoCpu : Nat := 4
def maxBootinfoPhdrs : Nat := 16
def cpustrsz : Nat := 16

/-- Where `kernel_ehdr` lies in `struct BootInfo`: after three pointers, three words, `cpustr`,
`mem_size`, five base and ceiling pairs, four device addresses, `gicc_base`, three more
addresses and `kernel_phdr_cnt`. -/
def kernelEhdrOffset : Nat :=
  3 * 4 + 3 * 4 + cpustrsz + 8 + 5 * 8 + 4 * 4 + maxBootinfoCpu * 4 + 3 * 4 + 4

def kernelPhdrOffset : Nat := kernelEhdrOffset + 52

def kernelEhdr (bootinfo : Word) : Word := bootinfo + BitVec.ofNat 32 kernelEhdrOffset
def kernelPhdr (bootinfo : Word) : Word := bootinfo + BitVec.ofNat 32 kernelPhdrOffset

/-- "kernel". -/
def kernelString : List Byte := [107#8, 101#8, 114#8, 110#8, 101#8, 108#8]

/-- The call of `elf_load` in `Main`. -/
def loadKernel (vmKernelBase : Word) (m : Mem) (ifsImage bootinfo : Word) : Step :=
  elfLoad vmKernelBase m ifsImage kernelString (kernelEhdr bootinfo) (kernelPhdr bootinfo)

/-- Memory as reading the headers leaves it, whether they are taken or not. -/
def headersRead (m : Mem) (f : ElfFile) (bootinfo : Word) : Mem :=
  match readHeaders m f (kernelEhdr bootinfo) (kernelPhdr bootinfo) with
  | .ok (m', _) => m'
  | .error m' => m'

/-- Reading the headers stays inside `kernel_ehdr` and `kernel_phdr`. -/
structure HeadersFramed (vmKernelBase : Word) (m : Mem) (ifsImage bootinfo : Word)
    (f : ElfFile) : Prop where
  frame : ∀ x, ¬ Within x (kernelEhdr bootinfo) 52 →
    ¬ Within x (kernelPhdr bootinfo) (32 * maxBootinfoPhdrs) →
    headersRead m f bootinfo x = m x
  fits : ∀ m' phdrCnt, readHeaders m f (kernelEhdr bootinfo) (kernelPhdr bootinfo) = .ok (m', phdrCnt) →
    phdrCnt ≤ maxBootinfoPhdrs
  refused : maxBootinfoPhdrs < ePhnum m f.elfBase →
    (loadKernel vmKernelBase m ifsImage bootinfo).ok = false ∧
    ∀ x, ¬ Within x (kernelEhdr bootinfo) 52 →
      (loadKernel vmKernelBase m ifsImage bootinfo).mem x = m x

theorem headersRead_eq (m : Mem) (f : ElfFile) (bootinfo : Word) :
    headersRead m f bootinfo =
      if Accepted m f then tableCopied m f (kernelEhdr bootinfo) (kernelPhdr bootinfo)
      else ehdrCopied m f (kernelEhdr bootinfo) := by
  unfold headersRead
  by_cases h : Accepted m f
  · rw [readHeaders_eq, if_pos h, if_pos h]
  · rw [readHeaders_eq, if_neg h, if_neg h]

/-- The headers are read within bounds for every file but those that pass the
loader's check against 64 and not the array's size of 16. -/
theorem loadKernel_headers_framed {m : Mem} {ifsImage : Word} {f : ElfFile}
    (hf : kernelFile m ifsImage kernelString = some f) (vmKernelBase bootinfo : Word) :
    HeadersFramed vmKernelBase m ifsImage bootinfo f ↔
      ¬ (supportedElf m f.elfBase = true ∧ maxBootinfoPhdrs < ePhnum m f.elfBase ∧
        ePhnum m f.elfBase ≤ maxPhdr) := by
  constructor
  · rintro h ⟨hsupported, hmore, hmax⟩
    have haccepted : Accepted m f := ⟨hsupported, hmax⟩
    have hread := readHeaders_eq m f (kernelEhdr bootinfo) (kernelPhdr bootinfo)
    rw [if_pos haccepted] at hread
    exact absurd (h.fits _ _ hread) (Nat.not_le.mpr hmore)
  · intro h
    have hfew : Accepted m f → ePhnum m f.elfBase ≤ maxBootinfoPhdrs :=
      fun ha => Nat.not_lt.mp fun hmore => h ⟨ha.1, hmore, ha.2⟩
    refine ⟨?_, ?_, ?_⟩
    · intro x hehdr hphdr
      rw [headersRead_eq]
      by_cases ha : Accepted m f
      · rw [if_pos ha]
        refine tableCopied_outside ha hehdr fun hx => hphdr (Nat.lt_of_lt_of_le hx ?_)
        exact Nat.mul_le_mul_left 32 (hfew ha)
      · rw [if_neg ha]
        exact ehdrCopied_outside hehdr
    · intro m' phdrCnt hread
      rw [readHeaders_eq] at hread
      by_cases ha : Accepted m f
      · rw [if_pos ha] at hread
        cases hread
        exact hfew ha
      · rw [if_neg ha] at hread
        cases hread
    · intro hmore
      have ha : ¬ Accepted m f := fun ha => absurd (hfew ha) (Nat.not_le.mpr hmore)
      rw [loadKernel, elfLoad_eq hf, if_neg ha]
      exact ⟨rfl, fun x hehdr => ehdrCopied_outside hehdr⟩

def zeros (n : Nat) : List Byte := List.replicate n 0#8

/-- An ELF header the loader supports. -/
def sampleEhdr (phoff phnum : Nat) : List Byte :=
  [0x7f#8, 69#8, 76#8, 70#8, 1#8, 1#8] ++ zeros 10 ++ leBytes 2 2 ++ leBytes 2 40 ++ zeros 8 ++ leBytes 4 phoff ++
    zeros 12 ++ leBytes 2 phnum ++ zeros 6

def samplePhdr (type offset vaddr filesz memsz : Nat) : List Byte :=
  leBytes 4 type ++ leBytes 4 offset ++ leBytes 4 vaddr ++ zeros 4 ++ leBytes 4 filesz ++ leBytes 4 memsz ++ zeros 8

def sampleNode (name : List Byte) (inodeNr parentInodeNr fileOffset fileSize : Nat) : List Byte :=
  name ++ zeros (32 - name.length) ++ leBytes 4 inodeNr ++ leBytes 4 parentInodeNr ++ zeros 12 ++
    leBytes 4 fileOffset ++ leBytes 4 fileSize

/-- An image whose boot directory holds this kernel. -/
def sampleImage (elf : List Byte) : List Byte :=
  zeros 4 ++ leBytes 4 16 ++ leBytes 4 2 ++ leBytes 4 (136 + elf.length) ++
    sampleNode bootName 1 0 0 0 ++ sampleNode kernelString 2 1 136 elf.length ++ elf

/-- Memory that is zero but for the image at 0x200000. -/
def sampleMem (elf : List Byte) : Mem := Mem.store (fun _ => 0#8) 0x200000#32 (sampleImage elf)

/-- A kernel of two program headers. -/
theorem twoHeaders_framed :
    HeadersFramed 0x80000000#32 (sampleMem (sampleEhdr 52 2 ++ zeros 64)) 0x200000#32
    0x9000#32 ⟨0x200088#32, 0#32, 116#32⟩ :=
  (loadKernel_headers_framed (by decide +kernel) 0x80000000#32 0x9000#32).mpr (by decide +kernel)

/-- The seventeenth header lands on `ifs_image`. -/
theorem seventeenHeaders_overrun : ¬ ∀ vmKernelBase m ifsImage bootinfo f,
    kernelFile m ifsImage kernelString = some f →
      HeadersFramed vmKernelBase m ifsImage bootinfo f := by
  intro h
  have hframed := h 0x80000000#32 (sampleMem (sampleEhdr 52 17 ++ List.replicate 544 2#8)) 0x200000#32 0x9000#32
    ⟨0x200088#32, 0#32, 596#32⟩ (by decide +kernel)
  exact absurd (hframed.frame (0x9000#32 + 700#32) (by decide) (by decide)) (by decide +kernel)

end CheviotBoot.Loader
