import CheviotBoot.Loader.Lookup

namespace CheviotBoot.Loader
open Lib

/-- Memory once the ELF header is copied. -/
def ehdrCopied (m : Mem) (f : ElfFile) (ehdr : Word) : Mem := m.memcpy ehdr f.elfBase ehdrSize

/-- Memory once the program headers are copied too. -/
def tableCopied (m : Mem) (f : ElfFile) (ehdr phdrTable : Word) : Mem :=
  (ehdrCopied m f ehdr).memcpy phdrTable (f.elfBase + ePhoff m f.elfBase)
    (phdrSize * BitVec.ofNat 32 (ePhnum m f.elfBase))

/-- The loader takes the file's header. -/
def Accepted (m : Mem) (f : ElfFile) : Prop :=
  supportedElf m f.elfBase = true ∧ ePhnum m f.elfBase ≤ maxPhdr

instance (m : Mem) (f : ElfFile) : Decidable (Accepted m f) := inferInstanceAs (Decidable (_ ∧ _))

theorem half_copies {m' m : Mem} {dst src : Word} {n k : Nat} (h : m'.Copies dst m src n)
    (hk : k + 2 ≤ n) :
    half m' (dst + BitVec.ofNat 32 k) = half m (src + BitVec.ofNat 32 k) :=
  congrArg leValue (h.bytes hk)

/-- A copied header reads as the file's. -/
theorem header_copies {m' m : Mem} {dst src : Word} (h : m'.Copies dst m src 52) :
    supportedElf m' dst = supportedElf m src ∧ ePhnum m' dst = ePhnum m src ∧
      ePhoff m' dst = ePhoff m src := by
  have hfirst : m' dst = m src := by simpa using h 0 (by decide)
  have hphnum : ePhnum m' dst = ePhnum m src := half_copies h (by decide)
  refine ⟨?_, hphnum, h.word (by decide)⟩
  unfold supportedElf
  rw [hphnum, hfirst, h 1 (by decide), h 2 (by decide), h 3 (by decide),
    h 4 (by decide), h 5 (by decide),
    half_copies h (by decide : 18 + 2 ≤ 52), half_copies h (by decide : 16 + 2 ≤ 52)]

theorem ehdrCopied_copies (m : Mem) (f : ElfFile) (ehdr : Word) :
    (ehdrCopied m f ehdr).Copies ehdr m f.elfBase 52 := m.memcpy_copies ehdr f.elfBase ehdrSize

theorem ehdrCopied_outside {m : Mem} {f : ElfFile} {ehdr x : Word} (h : ¬ Within x ehdr 52) :
    ehdrCopied m f ehdr x = m x := Mem.memcpy_outside h

/-- All that reading the headers can do. -/
theorem readHeaders_eq (m : Mem) (f : ElfFile) (ehdr phdrTable : Word) :
    readHeaders m f ehdr phdrTable =
      if Accepted m f then .ok (tableCopied m f ehdr phdrTable, ePhnum m f.elfBase)
      else .error (ehdrCopied m f ehdr) := by
  obtain ⟨hsupported, hphnum, hphoff⟩ := header_copies (ehdrCopied_copies m f ehdr)
  unfold readHeaders
  simp only [elfRead, elfSeek, BitVec.add_zero]
  rw [← ehdrCopied, hsupported, hphnum, hphoff, if_neg (by simp)]
  by_cases hs : supportedElf m f.elfBase = true
  · by_cases hn : ePhnum m f.elfBase ≤ maxPhdr
    · rw [if_neg (by simp [hs]), if_neg (by omega), if_neg (by simp), if_pos ⟨hs, hn⟩]
      rfl
    · rw [if_neg (by simp [hs]), if_pos (by omega), if_neg (fun h => hn h.2)]
  · rw [if_pos (by simpa using hs), if_neg (fun h => hs h.1)]

/-- The bytes of the program header table. -/
theorem tableSize_toNat {n : Nat} (h : n ≤ maxPhdr) :
    (phdrSize * BitVec.ofNat 32 n).toNat = 32 * n := by
  have hmax : n ≤ 64 := h
  have hn : n % 2 ^ 32 = n := Nat.mod_eq_of_lt (by omega)
  rw [BitVec.toNat_mul, BitVec.toNat_ofNat, hn]
  exact Nat.mod_eq_of_lt (by omega : 32 * n < 2 ^ 32)

theorem tableCopied_outside {m : Mem} {f : ElfFile} {ehdr phdrTable x : Word} (h : Accepted m f)
    (hehdr : ¬ Within x ehdr 52) (htable : ¬ Within x phdrTable (32 * ePhnum m f.elfBase)) :
    tableCopied m f ehdr phdrTable x = m x := by
  rw [tableCopied, Mem.memcpy_outside (by rwa [tableSize_toNat h.2]), ehdrCopied_outside hehdr]

theorem tableCopied_copies {m : Mem} {f : ElfFile} (ehdr phdrTable : Word) (h : Accepted m f) :
    (tableCopied m f ehdr phdrTable).Copies phdrTable (ehdrCopied m f ehdr)
      (f.elfBase + ePhoff m f.elfBase) (32 * ePhnum m f.elfBase) := by
  have hcopies := (ehdrCopied m f ehdr).memcpy_copies phdrTable (f.elfBase + ePhoff m f.elfBase)
    (phdrSize * BitVec.ofNat 32 (ePhnum m f.elfBase))
  rwa [tableSize_toNat h.2] at hcopies

/-- `elf_load` on a file the scans lead to. -/
theorem elfLoad_eq {m : Mem} {ifsImage : Word} {filename : List Byte} {f : ElfFile}
    (hf : kernelFile m ifsImage filename = some f) (vmKernelBase ehdr phdrTable : Word) :
    elfLoad vmKernelBase m ifsImage filename ehdr phdrTable =
      if Accepted m f then
        loadSegments vmKernelBase f phdrTable (ePhnum m f.elfBase) 0 (tableCopied m f ehdr phdrTable) 0#32
      else ⟨false, ehdrCopied m f ehdr, 0#32⟩ := by
  unfold elfLoad
  rw [hf]
  by_cases h : Accepted m f
  · simp only [readHeaders_eq, if_pos h]
  · simp only [readHeaders_eq, if_neg h]

end CheviotBoot.Loader
