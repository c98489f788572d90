import CheviotBoot.Lib.Reading
import CheviotBoot.Loader.BootInfo

namespace CheviotBoot.Loader
open Lib

namespace Reader

def strCmp (s : Word) : List Byte → Reading Int
  | [] => do
    let b ← Reading.read s
    pure b.toNat
  | c :: t => do
    let b ← Reading.read s
    if b = c then
      if b = 0#8 then pure 0 else strCmp (s + 1#32) t
    else pure (b.toNat - c.toNat)

/-- The first scan's test of a node. -/
def isDir (dirname : List Byte) (node : Word) : Reading Bool := do
  let d ← strCmp node dirname
  pure (d == 0)

/-- The second scan's: the parent is looked at only where the names agree. -/
def isFile (filename : List Byte) (bootInodeNr node : Word) : Reading Bool := do
  let d ← strCmp node filename
  if d = 0 then do
    let parent ← Reading.readWord (node + 36#32)
    pure (parent == bootInodeNr)
  else pure false

/-- The two scans. The header's two fields are read again before the second one and `node_cnt`
before every round; these are the same bytes each time. -/
def findFile (ifsImage : Word) (dirname filename : List Byte) : Reading (Option Word) := do
  let nodeTableOffset ← Reading.readWord (ifsImage + 4#32)
  let nodeCnt ← Reading.readWord (ifsImage + 8#32)
  let dir ← Reading.scan (isDir dirname) 60 nodeCnt.toInt.toNat (ifsImage + nodeTableOffset)
  match dir with
  | none => pure none
  | some dir => do
    let bootInodeNr ← Reading.readWord (dir + 32#32)
    Reading.scan (isFile filename bootInodeNr) 60 nodeCnt.toInt.toNat (ifsImage + nodeTableOffset)

/-- What both functions read of the node they find: `file_offset` and `file_size`. -/
def extent (ifsImage node : Word) : Reading (Word × Word) := do
  let fileOffset ← Reading.readWord (node + 52#32)
  let fileSize ← Reading.readWord (node + 56#32)
  pure (ifsImage + fileOffset, fileSize)

def elfFind (ifsImage : Word) (dirname filename : List Byte) : Reading Found := do
  let node ← findFile ifsImage dirname filename
  match node with
  | none => pure .failed
  | some node => do
    let e ← extent ifsImage node
    pure (.found e.1 e.2)

/-- `elf_load` up to the read of the ELF header: the file and the header's bytes. -/
def elfHeader (ifsImage : Word) (filename : List Byte) : Reading (Option (ElfFile × List Byte)) := do
  let node ← findFile ifsImage bootName filename
  match node with
  | none => pure none
  | some node => do
    let e ← extent ifsImage node
    let header ← Reading.readBytes ehdrSize.toNat e.1
    pure (some (⟨e.1, 0#32, e.2⟩, header))

variable (m : Mem)

@[simp] theorem run_strCmp (s : Word) (t : List Byte) :
    (strCmp s t).run m = Loader.strCmp m s t := by
  induction t generalizing s with
  | nil => rfl
  | cons c t ih =>
    rw [strCmp, Loader.strCmp, Reading.run_bind, Reading.run_read, Reading.run_ite, Reading.run_ite, ih]
    rfl

@[simp] theorem run_scan (test : Word → Reading Bool) (cnt : Nat) (a : Word) :
    (Reading.scan test 60 cnt a).run m = findNode (fun node => (test node).run m) cnt a := by
  induction cnt generalizing a with
  | zero => rfl
  | succ cnt ih =>
    rw [Reading.scan, findNode, Reading.run_bind, Reading.run_ite, ih]
    rfl

/-- The readings come to what the functions compute. -/
theorem run_findFile (ifsImage : Word) (dirname filename : List Byte) :
    (findFile ifsImage dirname filename).run m = Loader.findFile m ifsImage dirname filename := by
  have hdir : ∀ node, (isDir dirname node).run m = (Loader.strCmp m node dirname == 0) := by
    intro node
    rw [isDir, Reading.run_bind, run_strCmp, Reading.run_pure]
  have hfile : ∀ nr node, (isFile filename nr node).run m =
      (Loader.strCmp m node filename == 0 && m.word (node + 36#32) == nr) := by
    intro nr node
    rw [isFile, Reading.run_bind, run_strCmp, Reading.run_ite, Reading.run_bind, Reading.run_readWord,
      Reading.run_pure, Reading.run_pure]
    by_cases h : Loader.strCmp m node filename = 0
    · simp [h]
    · simp [h]
  simp only [findFile, Loader.findFile, Reading.run_bind, Reading.run_readWord, run_scan, hdir]
  cases findNode (fun node => Loader.strCmp m node dirname == 0) _ _ with
  | none => rfl
  | some dir =>
    simp only [Reading.run_bind, Reading.run_readWord, run_scan, hfile]
    rfl

theorem run_elfFind (ifsImage : Word) (dirname filename : List Byte) :
    (elfFind ifsImage dirname filename).run m = Loader.elfFind m ifsImage dirname filename := by
  rw [elfFind, Loader.elfFind, Reading.run_bind, run_findFile]
  cases Loader.findFile m ifsImage dirname filename with
  | none => rfl
  | some node => simp only [extent, Reading.run_bind, Reading.run_readWord, Reading.run_pure]

theorem run_elfHeader (ifsImage : Word) (filename : List Byte) :
    (elfHeader ifsImage filename).run m =
      (kernelFile m ifsImage filename).map (fun f => (f, m.bytes f.elfBase ehdrSize.toNat)) := by
  rw [elfHeader, kernelFile, Reading.run_bind, run_findFile]
  cases Loader.findFile m ifsImage bootName filename with
  | none => rfl
  | some node =>
    simp only [extent, Reading.run_bind, Reading.run_readWord, Reading.run_readBytes, Reading.run_pure]
    rfl

/-- The header's bytes are those that `elf_load` goes on with, once `elf_read` has copied them. -/
theorem elfHeader_copied {m : Mem} {ifsImage : Word} {filename header : List Byte} {f : ElfFile}
    (h : (elfHeader ifsImage filename).run m = some (f, header)) (ehdr : Word) :
    kernelFile m ifsImage filename = some f ∧
      (elfRead m (elfSeek f 0#32) ehdr ehdrSize).1.bytes ehdr ehdrSize.toNat = header := by
  rw [run_elfHeader] at h
  obtain ⟨g, hg, he⟩ := Option.map_eq_some_iff.mp h
  obtain ⟨rfl, rfl⟩ := Prod.mk.inj he
  have hcopied := (m.memcpy_copies ehdr (g.elfBase + 0#32) ehdrSize).bytes (by decide : 0 + 52 ≤ 52)
  simp only [BitVec.add_zero] at hcopied
  refine ⟨hg, ?_⟩
  rw [elfRead, elfSeek, BitVec.add_zero]
  exact hcopied

end Reader

end CheviotBoot.Loader
