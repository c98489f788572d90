import CheviotBoot.Lib.Memory

namespace CheviotBoot.Loader
open Lib

/-- A little-endian 16-bit field. -/
def half (m : Mem) (a : Word) : Nat := leValue (m.bytes a 2)

/-- `StrCmp` of the string in memory at `s` with a string literal. Characters are unsigned. -/
def strCmp (m : Mem) (s : Word) : List Byte → Int
  | [] => (m s).toNat
  | c :: t =>
    if m s = c then
      if m s = 0#8 then 0 else strCmp m (s + 1#32) t
    else (m s).toNat - c.toNat

/-- One of the linear scans over the node table: at most `cnt` rounds from `ifsNode` on. -/
def findNode (isWanted : Word → Bool) : Nat → Word → Option Word
  | 0, _ => none
  | cnt + 1, ifsNode => if isWanted ifsNode then some ifsNode else findNode isWanted cnt (ifsNode + 60#32)

/-- The scans both `elf_find` and `elf_load` start with: the first node called
`dirname`, then the first called `filename` with that node's number as its parent. -/
def findFile (m : Mem) (ifsImage : Word) (dirname filename : List Byte) : Option Word := do
  let table := ifsImage + m.word (ifsImage + 4#32)
  -- `node_cnt` is signed: a negative count makes no round
  let nodeCnt := (m.word (ifsImage + 8#32)).toInt.toNat
  let dir ← findNode (fun node => strCmp m node dirname == 0) nodeCnt table
  let bootInodeNr := m.word (dir + 32#32)
  findNode (fun node => strCmp m node filename == 0 && m.word (node + 36#32) == bootInodeNr) nodeCnt table

/-- How `elf_find` ends: with -1, or past its last line with `*file` and
`*file_size` set. There is no `return` there, so no value comes back. -/
inductive Found
  | failed
  | found (file fileSize : Word)
  deriving DecidableEq

def elfFind (m : Mem) (ifsImage : Word) (dirname filename : List Byte) : Found :=
  match findFile m ifsImage dirname filename with
  | none => .failed
  | some node => .found (ifsImage + m.word (node + 52#32)) (m.word (node + 56#32))

/-- `elf_base`, `elf_offset` and `elf_size`. -/
structure ElfFile where
  elfBase : Word
  elfOffset : Word
  elfSize : Word
  deriving DecidableEq

def elfSeek (f : ElfFile) (offset : Word) : ElfFile := { f with elfOffset := offset }

/-- `elf_read`: the memory after it and the count it returns. -/
def elfRead (m : Mem) (f : ElfFile) (buf sz : Word) : Mem × Word :=
  (m.memcpy buf (f.elfBase + f.elfOffset) sz, sz)

/-- "boot". -/
def bootName : List Byte := [98#8, 111#8, 111#8, 116#8]

def ehdrSize : Word := 52#32
def phdrSize : Word := 32#32
def maxPhdr : Nat := 64

/-- The fields of an `Elf32_EHdr` the loader looks at. -/
def ePhoff (m : Mem) (ehdr : Word) : Word := m.word (ehdr + 28#32)
def ePhnum (m : Mem) (ehdr : Word) : Nat := half m (ehdr + 44#32)

/-- The check of `e_ident`, `e_machine`, `e_type` and `e_phnum`. -/
def supportedElf (m : Mem) (ehdr : Word) : Bool :=
  m ehdr == 0x7f#8 && m (ehdr + 1#32) == 69#8 && m (ehdr + 2#32) == 76#8 && m (ehdr + 3#32) == 70#8 &&
    m (ehdr + 4#32) == 1#8 && m (ehdr + 5#32) == 1#8 && half m (ehdr + 18#32) == 40 &&
    half m (ehdr + 16#32) == 2 && decide (0 < ePhnum m ehdr)

/-- The fields of an `Elf32_PHdr`. -/
def pType (m : Mem) (phdr : Word) : Word := m.word phdr
def pOffset (m : Mem) (phdr : Word) : Word := m.word (phdr + 4#32)
def pVaddr (m : Mem) (phdr : Word) : Word := m.word (phdr + 8#32)
def pFilesz (m : Mem) (phdr : Word) : Word := m.word (phdr + 16#32)
def pMemsz (m : Mem) (phdr : Word) : Word := m.word (phdr + 20#32)

def ptLoad : Word := 1#32

/-- How a step of `elf_load` goes: on, or out with -1. What it did to memory
and to `*ceiling` stays either way. -/
structure Step where
  ok : Bool
  mem : Mem
  ceiling : Word

/-- One round of the loop over the program headers. The header is read where it
lies in `phdr_table`, again after each write. -/
def loadSegment (vmKernelBase : Word) (f : ElfFile) (phdr : Word) (m : Mem)
    (ceiling : Word) : Step :=
  if pType m phdr ≠ ptLoad then ⟨true, m, ceiling⟩
  else if pMemsz m phdr < pFilesz m phdr then ⟨false, m, ceiling⟩
  else
    let segmentBase := alignDown32 (pVaddr m phdr) 4096#32 - vmKernelBase
    let segmentCeiling := alignUp32 (pVaddr m phdr + pMemsz m phdr) 4096#32 - vmKernelBase
    let ceiling := if ceiling < segmentCeiling then segmentCeiling else ceiling
    let m := m.memset segmentBase 0#8 (segmentCeiling - segmentBase)
    if pFilesz m phdr ≠ 0#32 then
      let (m', n) := elfRead m (elfSeek f (pOffset m phdr)) (pVaddr m phdr - vmKernelBase) (pFilesz m phdr)
      if n ≠ pFilesz m' phdr then ⟨false, m', ceiling⟩ else ⟨true, m', ceiling⟩
    else ⟨true, m, ceiling⟩

/-- The address of `phdr_table[t]`. -/
def phdrAt (phdrTable : Word) (t : Nat) : Word := phdrTable + BitVec.ofNat 32 (32 * t)

/-- The loop: `cnt` rounds from header `t` on. -/
def loadSegments (vmKernelBase : Word) (f : ElfFile) (phdrTable : Word) :
    Nat → Nat → Mem → Word → Step
  | 0, _, m, ceiling => ⟨true, m, ceiling⟩
  | cnt + 1, t, m, ceiling =>
    let s := loadSegment vmKernelBase f (phdrAt phdrTable t) m ceiling
    if s.ok then loadSegments vmKernelBase f phdrTable cnt (t + 1) s.mem s.ceiling else s

/-- The part of `elf_load` between the scans and the loop: the ELF header and then
the program headers are read and checked. Either way it says what memory is left,
and where it goes on also `phdr_cnt`. -/
def readHeaders (m : Mem) (f : ElfFile) (ehdr phdrTable : Word) : Except Mem (Mem × Nat) :=
  let (m, n) := elfRead m (elfSeek f 0#32) ehdr ehdrSize
  if n ≠ ehdrSize then .error m
  else if supportedElf m ehdr = false then .error m
  else
    let phdrCnt := ePhnum m ehdr
    let phdrOffs := ePhoff m ehdr
    if maxPhdr < phdrCnt then .error m
    else
      let size := phdrSize * BitVec.ofNat 32 phdrCnt
      let (m, n) := elfRead m (elfSeek f phdrOffs) phdrTable size
      if n ≠ size then .error m else .ok (m, phdrCnt)

/-- The file the scans of `elf_load` lead to. -/
def kernelFile (m : Mem) (ifsImage : Word) (filename : List Byte) : Option ElfFile :=
  (findFile m ifsImage bootName filename).map
    (fun node => ⟨ifsImage + m.word (node + 52#32), 0#32, m.word (node + 56#32)⟩)

/-- `elf_load`. It returns 0 where the step is `ok` and -1 elsewhere. -/
def elfLoad (vmKernelBase : Word) (m : Mem) (ifsImage : Word) (filename : List Byte)
    (ehdr phdrTable : Word) : Step :=
  match kernelFile m ifsImage filename with
  | none => ⟨false, m, 0#32⟩
  | some f =>
    match readHeaders m f ehdr phdrTable with
    | .error m => ⟨false, m, 0#32⟩
    | .ok (m, phdrCnt) => loadSegments vmKernelBase f phdrTable phdrCnt 0 m 0#32

/-- The words `rootfs_image_offset` and `rootfs_image_size` of the boot header,
16 bytes into the bootloader, which starts at 0x8000. -/
def rootfsImageOffset (m : Mem) : Word := m.word 0x8010#32
def rootfsImageSize (m : Mem) : Word := m.word 0x8014#32

/-- The copy `Main` makes of the IFS image. -/
def relocate (m : Mem) (ifsImage : Word) : Mem :=
  m.memcpy ifsImage (0x8000#32 + rootfsImageOffset m) (rootfsImageSize m)

end CheviotBoot.Loader
