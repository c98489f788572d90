import CheviotBoot.Lib.File
import CheviotBoot.Lib.CString

namespace CheviotBoot.Mkifs
open Lib

structure IFSHeader where
  magic : Vector Byte 4
  nodeTableOffset : Word
  nodeCnt : Word
  ifsSize : Word

/-- The packed layout, 16 bytes. -/
def IFSHeader.bytes (h : IFSHeader) : List Byte :=
  h.magic.toList ++ le32 h.nodeTableOffset ++ le32 h.nodeCnt ++ le32 h.ifsSize

structure IFSNode where
  name : CharBuf 32
  inodeNr : Word
  parentInodeNr : Word
  permissions : Word
  uid : Word
  gid : Word
  fileOffset : Word
  fileSize : Word
  deriving DecidableEq

/-- The packed layout, 60 bytes. -/
def IFSNode.bytes (n : IFSNode) : List Byte :=
  n.name.toList ++ le32 n.inodeNr ++ le32 n.parentInodeNr ++ le32 n.permissions ++
    le32 n.uid ++ le32 n.gid ++ le32 n.fileOffset ++ le32 n.fileSize

/-- A list entry; the links are the order of the list it is in. -/
structure IFSNodeContainer where
  node : IFSNode
  realPath : CharBuf 1024

/-- Why a run ends early: `exit(EXIT_FAILURE)`, an access outside an object,
`readdir` on a directory that did not open, or too little recursion fuel. -/
inductive Stop
  | exitFailure
  | overrun
  | nullDir
  | outOfFuel
  deriving DecidableEq, Repr

structure Stat where
  stMode : Word
  stSize : Nat
  deriving DecidableEq

def sIFMT : Word := 0o170000#32
def sIFDIR : Word := 0o040000#32
def sIFREG : Word := 0o100000#32

def sIsDir (mode : Word) : Bool := mode &&& sIFMT == sIFDIR
def sIsReg (mode : Word) : Bool := mode &&& sIFMT == sIFREG

/-- The build host: what `stat`, `opendir` with `readdir`, and `open` with
`read` give for a path. -/
structure Host where
  stat : List Byte → Option Stat
  opendir : List Byte → Option (List (List Byte))
  contents : List Byte → Option (List Byte)

/-- What the run finds in memory it has not written: the bytes of the k-th
malloc'd container and those of `free_node` on the stack. -/
structure Memory where
  heap : Nat → IFSNodeContainer
  freeNode : IFSNode

/-- `ifs_file_list`, `current_inode_nr` and the number of `malloc` calls so far. -/
structure Walk where
  list : List IFSNodeContainer
  currentInodeNr : Word
  mallocs : Nat

def Walk.malloc (s : Walk) (mem : Memory) : IFSNodeContainer × Walk :=
  (mem.heap s.mallocs, { s with mallocs := s.mallocs + 1 })

/-- `LIST_ADD_TAIL`. -/
def Walk.addTail (s : Walk) (node : IFSNodeContainer) : Walk := { s with list := s.list ++ [node] }

def orStop {α : Type} (why : Stop) : Option α → Except Stop α
  | none => .error why
  | some a => .ok a

theorem orStop_eq_ok {α : Type} {why : Stop} {x : Option α} {a : α} :
    orStop why x = .ok a ↔ x = some a := by
  cases x with
  | none => simp [orStop]
  | some b => simp [orStop]

/-- `".", ".."` and `"/"`. -/
def dot : List Byte := [46#8]
def dotDot : List Byte := [46#8, 46#8]
def slash : List Byte := [47#8]

def placeholderOffset : Word := 0xcafe#32

/-- The node for "." or for "..": `name` is its name, `inodeNr` the directory it
leads to. Its path is the parent's path, a slash and the name. -/
def addDots (host : Host) (mem : Memory) (name : List Byte) (inodeNr : Word)
    (parent : IFSNodeContainer) (s : Walk) : Except Stop (Walk × Stat) := do
  let (node, s) := s.malloc mem
  let nodeName ← orStop .overrun (strcpy node.node.name name)
  let path := strncpy node.realPath parent.realPath.toList 1023
  let path ← orStop .overrun (strncat path (slash ++ name) 1023)
  let pathStr ← orStop .overrun (cstr? path.toList)
  let st ← orStop .exitFailure (host.stat pathStr)
  let node : IFSNodeContainer :=
    { node := { node.node with
        name := nodeName
        permissions := st.stMode
        inodeNr := inodeNr
        parentInodeNr := parent.node.inodeNr
        fileSize := 0#32
        fileOffset := placeholderOffset }
      realPath := path }
  let s := s.addTail node
  return ({ s with currentInodeNr := s.currentInodeNr + 1#32 }, st)

/-- One round of the `readdir` loop. `recurse` walks the directory just entered;
a failed `stat` leaves `st` as the round before left it. -/
def scanEntry (host : Host) (mem : Memory)
    (recurse : List (List Byte) → IFSNodeContainer → Walk → Except Stop Walk)
    (parent : IFSNodeContainer) (s : Walk) (st : Stat) (dName : List Byte) :
    Except Stop (Walk × Stat) := do
  if dName = dot ∨ dName = dotDot then
    return (s, st)
  let (node, s) := s.malloc mem
  let name := strncpy node.node.name dName 31
  let path := strncpy node.realPath parent.realPath.toList 1023
  let path ← orStop .overrun (strncat path slash 1023)
  let nameStr ← orStop .overrun (cstr? name.toList)
  let path ← orStop .overrun (strncat path nameStr 1023)
  let pathStr ← orStop .overrun (cstr? path.toList)
  let st := (host.stat pathStr).getD st
  let node : IFSNodeContainer :=
    { node := { node.node with
        name := name
        permissions := st.stMode
        inodeNr := s.currentInodeNr
        parentInodeNr := parent.node.inodeNr }
      realPath := path }
  let s := { s with currentInodeNr := s.currentInodeNr + 1#32 }
  if sIsDir st.stMode then
    let node := { node with node := { node.node with
      fileSize := 0#32, fileOffset := placeholderOffset } }
    let s := s.addTail node
    let newDir ← orStop .exitFailure (host.opendir pathStr)
    let s ← recurse newDir node s
    return (s, st)
  else if sIsReg st.stMode then
    let node := { node with node := { node.node with
      fileSize := BitVec.ofNat 32 st.stSize, fileOffset := placeholderOffset } }
    return (s.addTail node, st)
  else
    -- any other kind of entry: an inode number is used up, no record is made
    return (s, st)

/-- The `readdir` loop of `Recursive`. -/
def scanDir (host : Host) (mem : Memory)
    (recurse : List (List Byte) → IFSNodeContainer → Walk → Except Stop Walk)
    (parent : IFSNodeContainer) : List (List Byte) → Walk → Stat → Except Stop Walk
  | [], s, _ => .ok s
  | dName :: rest, s, st => do
    let (s, st) ← scanEntry host mem recurse parent s st dName
    scanDir host mem recurse parent rest s st

/-- `Recursive`. The directory stream is the names `readdir` will return, none
when `opendir` returned NULL; fuel bounds the depth of the recursion. -/
def recursive (host : Host) (mem : Memory) :
    Nat → Option (List (List Byte)) → IFSNodeContainer → Walk → Except Stop Walk
  | 0, _, _, _ => .error .outOfFuel
  | fuel + 1, dir, parent, s => do
    let (s, st) ← addDots host mem dot parent.node.inodeNr parent s
    let (s, st) ←
      if parent.node.inodeNr ≠ 0#32 then
        addDots host mem dotDot parent.node.parentInodeNr parent s
      else .ok (s, st)
    let dir ← orStop .nullDir dir
    scanDir host mem (fun names node s => recursive host mem fuel (some names) node s) parent dir s st

/-- The part of `WriteIFS` before anything is written: the root node and the walk. -/
def buildList (host : Host) (mem : Memory) (fuel : Nat) (pathPrefix : List Byte) :
    Except Stop (List IFSNodeContainer) := do
  let s : Walk := ⟨[], 0#32, 0⟩
  let rootDir := host.opendir pathPrefix
  let (node, s) := s.malloc mem
  let path ← orStop .overrun (strcpy node.realPath pathPrefix)
  let name ← orStop .overrun (strcpy node.node.name slash)
  let node : IFSNodeContainer :=
    { node := { node.node with
        name := name
        permissions := sIFDIR
        inodeNr := s.currentInodeNr
        parentInodeNr := 0#32 }
      realPath := path }
  let s := { s with currentInodeNr := s.currentInodeNr + 1#32 }
  let s := { s with list := node :: s.list }
  let s ← recursive host mem fuel rootDir node s
  return s.list

/-- `CalculateFileOffsets`: the running offset is a `size_t`, but it is stored in
and recomputed from the 32-bit field at every node. -/
def calculateFileOffsets : List IFSNodeContainer → Nat → Nat → List IFSNodeContainer × Nat
  | [], _, fileSize => ([], fileSize)
  | c :: rest, offset, _ =>
    let node := { c.node with fileOffset := BitVec.ofNat 32 offset }
    let ends := node.fileOffset + node.fileSize
    let (rest, total) := calculateFileOffsets rest (alignUp32 ends 4096).toNat ends.toNat
    ({ c with node := node } :: rest, total)

def headerSize : Nat := 16
def nodeSize : Nat := 60
def freeNodeCnt : Nat := 16
def nodeTableOffset : Nat := alignUp headerSize 128

def fileTableOffset (nodeCnt : Nat) : Nat :=
  alignUp (nodeTableOffset + (nodeCnt + freeNodeCnt) * nodeSize) 4096

def ifsHeader (nodeCnt : Nat) : IFSHeader :=
  { magic := #v[77#8, 65#8, 71#8, 67#8]
    nodeCnt := BitVec.ofNat 32 (nodeCnt + freeNodeCnt)
    nodeTableOffset := BitVec.ofNat 32 nodeTableOffset
    ifsSize := 0xcafefee1#32 }

/-- Slot `t` of the free nodes: only the first byte of the name is assigned. -/
def freeNode (mem : Memory) (t : Nat) : IFSNode :=
  { name := mem.freeNode.name.put 0 [0#8]
    inodeNr := BitVec.ofNat 32 t
    parentInodeNr := -1
    permissions := 0
    uid := 0
    gid := 0
    fileOffset := 0
    fileSize := 0 }

/-- `WriteFileTable`: the header, the offsets, the records and the free slots.
Returns the nodes with their offsets and `ifs_size`. -/
def writeFileTable (mem : Memory) (list : List IFSNodeContainer) (ifsBase : Nat) (fd : Fd) :
    Fd × List IFSNodeContainer × Nat :=
  let fd := (fd.lseek ifsBase).write (ifsHeader list.length).bytes
  let (list, ifsSize) := calculateFileOffsets list (fileTableOffset list.length)
    (fileTableOffset list.length)
  let fd := fd.lseek (ifsBase + nodeTableOffset)
  let fd := list.foldl (fun fd c => fd.write c.node.bytes) fd
  let fd := (List.range freeNodeCnt).foldl (fun fd t => fd.write (freeNode mem t).bytes) fd
  (fd, list, ifsSize)

/-- One round of `WriteFileContents`. -/
def writeContent (host : Host) (ifsBase : Nat) (fd : Fd) (c : IFSNodeContainer) : Except Stop Fd :=
  if sIsReg c.node.permissions then do
    let fd := fd.lseek (ifsBase + c.node.fileOffset.toNat)
    let path ← orStop .overrun (cstr? c.realPath.toList)
    let contents ← orStop .exitFailure (host.contents path)
    let buf := contents.take c.node.fileSize.toNat
    if buf.length ≠ c.node.fileSize.toNat then .error .exitFailure else .ok (fd.write buf)
  else .ok fd

def writeFileContents (host : Host) (ifsBase : Nat) (list : List IFSNodeContainer) (fd : Fd) :
    Except Stop Fd :=
  list.foldlM (writeContent host ifsBase) fd

def magicHeaderOffset : Nat := 16

/-- `WriteBootloaderHeader`: both values narrowed to 32 bits and stored at offset
16, then read back to check their length. -/
def writeBootloaderHeader (ifsBase ifsSize : Nat) (fd : Fd) : Except Stop Fd :=
  let magicHeader := le32 (BitVec.ofNat 32 ifsBase) ++ le32 (BitVec.ofNat 32 ifsSize)
  let (_, fd) := (fd.lseek magicHeaderOffset).read 8
  let fd := (fd.lseek magicHeaderOffset).write magicHeader
  let (back, fd) := (fd.lseek magicHeaderOffset).read 8
  if back.length ≠ 8 then .error .exitFailure else .ok fd

def writeIFS (host : Host) (mem : Memory) (fuel : Nat) (pathPrefix : List Byte) (ifsBase : Nat)
    (fd : Fd) : Except Stop Fd := do
  let list ← buildList host mem fuel pathPrefix
  let (fd, list, ifsSize) := writeFileTable mem list ifsBase fd
  let fd ← writeFileContents host ifsBase list fd
  writeBootloaderHeader ifsBase ifsSize fd

/-- `WriteBootloader`: the output starts as the bootloader's bytes. Returns `ifs_base`. -/
def writeBootloader (bootloader : List Byte) (fd : Fd) : Fd × Nat :=
  (fd.write bootloader, alignUp bootloader.length 4096)

/-- A run of the tool on a freshly truncated output; the bytes it leaves there. -/
def mkifs (host : Host) (mem : Memory) (fuel : Nat) (bootloader pathPrefix : List Byte) :
    Except Stop (List Byte) := do
  let (fd, ifsBase) := writeBootloader bootloader ⟨[], 0⟩
  let fd ← writeIFS host mem fuel pathPrefix ifsBase fd
  return fd.data

end CheviotBoot.Mkifs
