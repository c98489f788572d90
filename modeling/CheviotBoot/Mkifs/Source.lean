import CheviotBoot.Mkifs.Tool

namespace CheviotBoot.Mkifs
open Lib

/-- What a directory entry can be called. -/
structure FileName where
  bytes : List Byte
  nonempty : bytes ≠ []
  noNul : 0#8 ∉ bytes
  noSlash : 47#8 ∉ bytes
  notDot : bytes ≠ dot
  notDotDot : bytes ≠ dotDot

abbrev DirMode := { mode : Word // sIsDir mode = true }
abbrev RegMode := { mode : Word // sIsReg mode = true }
abbrev OtherMode := { mode : Word // sIsDir mode = false ∧ sIsReg mode = false }

theorem RegMode.not_dir (m : RegMode) : sIsDir m.val = false := by
  have hm : m.val &&& sIFMT = sIFREG := by simpa [sIsReg] using m.property
  simp only [sIsDir, hm]
  decide

theorem DirMode.not_reg (m : DirMode) : sIsReg m.val = false := by
  have hm : m.val &&& sIFMT = sIFDIR := by simpa [sIsDir] using m.property
  simp only [sIsReg, hm]
  decide

/-- The entries of a directory in the order `readdir` returns them, each with
what is below it. "." and ".." may be returned anywhere, or not at all. -/
inductive Listing
  | nil
  | self (rest : Listing)
  | parent (rest : Listing)
  | file (name : FileName) (mode : RegMode) (contents : List Byte) (rest : Listing)
  | dir (name : FileName) (mode : DirMode) (children rest : Listing)
  | other (name : FileName) (mode : OtherMode) (rest : Listing)

structure SourceTree where
  mode : DirMode
  listing : Listing

namespace Listing

/-- The names `readdir` returns. -/
def names : Listing → List (List Byte)
  | nil => []
  | self rest => dot :: rest.names
  | parent rest => dotDot :: rest.names
  | file name _ _ rest | other name _ rest => name.bytes :: rest.names
  | dir name _ _ rest => name.bytes :: rest.names

/-- The names of the entries proper. -/
def entryNames : Listing → List (List Byte)
  | nil => []
  | self rest | parent rest => rest.entryNames
  | file name _ _ rest | other name _ rest => name.bytes :: rest.entryNames
  | dir name _ _ rest => name.bytes :: rest.entryNames

/-- No directory holds two entries of one name. -/
def Distinct : Listing → Prop
  | nil => True
  | self rest | parent rest => rest.Distinct
  | file name _ _ rest | other name _ rest => name.bytes ∉ rest.entryNames ∧ rest.Distinct
  | dir name _ children rest =>
    name.bytes ∉ rest.entryNames ∧ children.Distinct ∧ rest.Distinct

/-- Every name fits the 32 bytes of a record with its NUL. -/
def Short : Listing → Prop
  | nil => True
  | self rest | parent rest => rest.Short
  | file name _ _ rest | other name _ rest => name.bytes.length ≤ 31 ∧ rest.Short
  | dir name _ children rest => name.bytes.length ≤ 31 ∧ children.Short ∧ rest.Short

/-- Below a path of `len` bytes, every path the walk builds fits `real_path`
with its NUL; for a directory that includes the one of its "..". -/
def Fits : Listing → Nat → Prop
  | nil, _ => True
  | self rest, len | parent rest, len => rest.Fits len
  | file name _ _ rest, len | other name _ rest, len =>
    len + 1 + name.bytes.length < 1024 ∧ rest.Fits len
  | dir name _ children rest, len =>
    len + 1 + name.bytes.length + 3 < 1024 ∧
      children.Fits (len + 1 + name.bytes.length) ∧ rest.Fits len

/-- The tree holds directories and regular files only. -/
def Plain : Listing → Prop
  | nil => True
  | self rest | parent rest | file _ _ _ rest => rest.Plain
  | dir _ _ children rest => children.Plain ∧ rest.Plain
  | other _ _ _ => False

/-- How deep the walk of these entries recurses. -/
def depth : Listing → Nat
  | nil => 0
  | self rest | parent rest | file _ _ _ rest | other _ _ rest => rest.depth
  | dir _ _ children rest => max (children.depth + 1) rest.depth

end Listing

def joinPath (path name : List Byte) : List Byte := path ++ slash ++ name

/-- The host holds this listing under `path`, the path of a directory with the
given mode: every `stat`, `opendir` and `open` answers as the tree says. -/
def Listing.On (host : Host) : Listing → List Byte → Word → Prop
  | .nil, _, _ => True
  | .self rest, path, mode | .parent rest, path, mode => rest.On host path mode
  | .file name m contents rest, path, mode =>
    host.stat (joinPath path name.bytes) = some ⟨m.val, contents.length⟩ ∧
      host.contents (joinPath path name.bytes) = some contents ∧ rest.On host path mode
  | .other name m rest, path, mode =>
    (∃ size, host.stat (joinPath path name.bytes) = some ⟨m.val, size⟩) ∧ rest.On host path mode
  | .dir name m children rest, path, mode =>
    let sub := joinPath path name.bytes
    (∃ size, host.stat sub = some ⟨m.val, size⟩) ∧
      (∃ size, host.stat (joinPath sub dot) = some ⟨m.val, size⟩) ∧
      (∃ size, host.stat (joinPath sub dotDot) = some ⟨mode, size⟩) ∧
      host.opendir sub = some children.names ∧ children.On host sub m.val ∧ rest.On host path mode

/-- The host holds the tree at `pathPrefix`. -/
structure SourceTree.On (host : Host) (t : SourceTree) (pathPrefix : List Byte) : Prop where
  root : ∃ size, host.stat (joinPath pathPrefix dot) = some ⟨t.mode.val, size⟩
  opened : host.opendir pathPrefix = some t.listing.names
  entries : t.listing.On host pathPrefix t.mode.val

/-- What the tool is given: a tree the host holds, named by a path without NUL,
with names and paths that fit their buffers. -/
structure Packable (host : Host) (t : SourceTree) (pathPrefix : List Byte) : Prop where
  held : t.On host pathPrefix
  noNul : 0#8 ∉ pathPrefix
  rootFits : pathPrefix.length + 2 < 1024
  fits : t.listing.Fits pathPrefix.length
  short : t.listing.Short
  distinct : t.listing.Distinct

/-- A place in the tree: the names leading to it, innermost first. -/
abbrev Place := List (List Byte)

inductive Role
  | entry
  | self
  | up
  deriving DecidableEq

/-- A record of the node table, together with what it stands for in the tree:
an entry at `place`, or the "." or ".." of the directory at `place`. Only a
regular file has contents. -/
structure Rec where
  role : Role
  place : Place
  name : List Byte
  inodeNr : Word
  parentInodeNr : Word
  permissions : Word
  contents : List Byte
  path : List Byte

/-- The records made on entering the directory at `place`. -/
def dotRecs (place : Place) (path : List Byte) (ino parentIno mode parentMode : Word) : List Rec :=
  ⟨.self, place, dot, ino, ino, mode, [], joinPath path dot⟩ ::
    if ino ≠ 0#32 then [⟨.up, place, dotDot, parentIno, ino, parentMode, [], joinPath path dotDot⟩] else []

/-- The records of a listing in the order of the walk, and the inode counter
after it. The directory is at `place` with path `path`, number `ino` and mode `mode`. -/
def Listing.recs (place : Place) (path : List Byte) (ino mode : Word) :
    Listing → Word → List Rec × Word
  | .nil, n => ([], n)
  | .self rest, n | .parent rest, n => rest.recs place path ino mode n
  | .file name m contents rest, n =>
    let (later, k) := rest.recs place path ino mode (n + 1#32)
    (⟨.entry, name.bytes :: place, name.bytes, n, ino, m.val, contents,
      joinPath path name.bytes⟩ :: later, k)
  | .other _ _ rest, n => rest.recs place path ino mode (n + 1#32)
  | .dir name m children rest, n =>
    let sub := joinPath path name.bytes
    let dots := dotRecs (name.bytes :: place) sub n ino m.val mode
    let (below, k) := children.recs (name.bytes :: place) sub n m.val (n + 1#32 + BitVec.ofNat 32 dots.length)
    let (later, k') := rest.recs place path ino mode k
    (⟨.entry, name.bytes :: place, name.bytes, n, ino, m.val, [], sub⟩ :: (dots ++ below ++ later), k')

/-- The root's record; its path is the prefix the tool was given. -/
def rootRec (pathPrefix : List Byte) : Rec :=
  ⟨.entry, [], slash, 0#32, 0#32, sIFDIR, [], pathPrefix⟩

/-- All records of a tree, the free slots apart, in the order of the table. -/
def SourceTree.recs (t : SourceTree) (pathPrefix : List Byte) : List Rec :=
  rootRec pathPrefix :: (dotRecs [] pathPrefix 0#32 0#32 t.mode.val 0#32 ++
    (t.listing.recs [] pathPrefix 0#32 t.mode.val 2#32).1)

/-- Memory as a fresh run on zeroed pages finds it. -/
def zeroNode : IFSNode := ⟨padded 32 [], 0#32, 0#32, 0#32, 0#32, 0#32, 0#32, 0#32⟩

def zeroMemory : Memory := ⟨fun _ => ⟨zeroNode, padded 1024 []⟩, zeroNode⟩

/-- The container of a record in zeroed memory. -/
def Rec.container (fileOffset : Word) (r : Rec) : IFSNodeContainer :=
  { node := { zeroNode with
      name := padded 32 r.name
      inodeNr := r.inodeNr
      parentInodeNr := r.parentInodeNr
      permissions := r.permissions
      fileOffset := fileOffset
      fileSize := BitVec.ofNat 32 r.contents.length }
    realPath := padded 1024 r.path }

def ascii (cs : List Char) : List Byte := cs.map (fun c => BitVec.ofNat 8 c.toNat)

def bootName : FileName :=
  ⟨ascii ['b', 'o', 'o', 't'], by decide, by decide, by decide, by decide, by decide⟩

def kernelName : FileName :=
  ⟨ascii ['k', 'e', 'r', 'n', 'e', 'l'], by decide, by decide, by decide, by decide, by decide⟩

def rootPath : List Byte := ascii ['r']

/-- `drwxr-xr-x`. -/
def plainDir : DirMode := ⟨0o040755#32, by decide⟩

/-- `-rw-r--r--`. -/
def plainFile : RegMode := ⟨0o100644#32, by decide⟩

/-- A tree with one file, `boot/kernel`. -/
def bootTree : SourceTree :=
  { mode := ⟨0o040755#32, by decide⟩
    listing := .parent (.dir bootName ⟨0o040755#32, by decide⟩
      (.file kernelName ⟨0o100644#32, by decide⟩ [1#8, 2#8, 3#8] (.self .nil)) (.self .nil)) }

/-- A host that holds it under `r`. -/
def bootHost : Host :=
  let boot := joinPath rootPath bootName.bytes
  let kernel := joinPath boot kernelName.bytes
  { stat := fun path => if path = kernel then some ⟨0o100644#32, 3⟩ else some ⟨0o040755#32, 4096⟩
    opendir := fun path =>
      if path = rootPath then some [dotDot, bootName.bytes, dot]
      else if path = boot then some [kernelName.bytes, dot] else none
    contents := fun path => if path = kernel then some [1#8, 2#8, 3#8] else none }

theorem bootTree_packable : Packable bootHost bootTree rootPath where
  held := ⟨⟨4096, by decide⟩, by decide, ⟨4096, by decide⟩, ⟨4096, by decide⟩, ⟨4096, by decide⟩, by decide,
    ⟨by decide, by decide, trivial⟩, trivial⟩
  noNul := by decide
  rootFits := by decide
  fits := ⟨by decide, ⟨by decide, trivial⟩, trivial⟩
  short := ⟨by decide, ⟨by decide, trivial⟩, trivial⟩
  distinct := ⟨by decide, ⟨by decide, trivial⟩, trivial⟩

end CheviotBoot.Mkifs
