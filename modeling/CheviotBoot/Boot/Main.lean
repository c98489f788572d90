import CheviotBoot.Board.Bootstrap
import CheviotBoot.Loader.Refusal

namespace CheviotBoot.Boot
open Lib Loader Board

/-- What the mailbox answers the two requests of `board_init`. -/
structure Mailbox where
  revision : Word
  videocoreBase : Word
  videocoreSize : Word

/-- `bootinfo`, but for `kernel_ehdr` and `kernel_phdr`: those are written through pointers
and lie in memory. -/
structure BootInfo where
  board : BoardInfo
  tables : TableInfo
  kernelBase : Word
  kernelCeiling : Word
  kernelPhdrCnt : Word
  ifsImage : Word
  ifsImageSize : Word
  ifsExeBase : Word
  ifsExeSize : Word

/-- The bss is part of the loaded file, zeros. -/
def zeroBootInfo : BootInfo where
  board := ⟨0#32, 0, 0#32, 0#32, padded 16 [], 0#32, 0#32⟩
  tables := ⟨0#32, 0#32, 0#32, 0#32, 0#32, ⟨0#32, 0#32, 0#32, 0#32, 0#32, 0#32⟩⟩
  kernelBase := 0#32
  kernelCeiling := 0#32
  kernelPhdrCnt := 0#32
  ifsImage := 0#32
  ifsImageSize := 0#32
  ifsExeBase := 0#32
  ifsExeSize := 0#32

def boardInit (mailbox : Mailbox) (bi : BootInfo) : BootInfo :=
  { bi with
    board := parseRevision mailbox.revision mailbox.videocoreBase mailbox.videocoreSize bi.board }

/-- `ALIGN_DOWN((bootinfo.mem_size - rootfs_image_size), 0x10000)`, in 64 bits and then narrowed
to an address. -/
def ifsImageAt (memSize : Nat) (rootfsImageSize : Word) : Word :=
  let val := BitVec.ofNat 64 memSize - rootfsImageSize.setWidth 64
  (val - val % 0x10000#64).setWidth 32

/-- "filesystems". -/
def filesystemsString : List Byte :=
  [102#8, 105#8, 108#8, 101#8, 115#8, 121#8, 115#8, 116#8, 101#8, 109#8, 115#8]

/-- "ifs". -/
def ifsString : List Byte := [105#8, 102#8, 115#8]

def eEntry (m : Mem) (ehdr : Word) : Word := m.word (ehdr + 24#32)

/-- Where `Main` goes: it stays in `boot_panic`, or it calls the kernel. -/
inductive Outcome
  | panic (string : String)
  | calls (kernelEntryPoint : Word) (bi : BootInfo) (m : Mem)

/-- `Main` from the check of `elf_load`'s result on. `elf_find` returns nothing where it finds the
file; `noValue` is what is taken for its value then. -/
def mainLoaded (hal : Hal) (bi : BootInfo) (ifsImage bootinfo noValue : Word) (fuel : Nat) (s : Step) :
    Option Outcome :=
  if s.ok = false then some (.panic "Cannot load kernel")
  else
    match elfFind s.mem ifsImage filesystemsString ifsString with
    | .failed => some (.panic "cannot find IFS.exe in IFS image")
    | .found ifsExeBase ifsExeSize =>
      if noValue = -1 then some (.panic "cannot find IFS.exe in IFS image")
      else do
        -- the size is read once more, from memory as the kernel's segments left it
        let bi := { bi with ifsImage, ifsImageSize := rootfsImageSize s.mem, ifsExeBase, ifsExeSize }
        let kernelEntryPoint := eEntry s.mem (kernelEhdr bootinfo)
        let (tables, m) ← bootstrapKernel hal bi.board.memSize s.ceiling fuel s.mem
        some (.calls kernelEntryPoint { bi with tables } m)

/-- `Main`, from memory as the firmware leaves it, with `bootinfo` at its address. -/
def main (hal : Hal) (mailbox : Mailbox) (bootinfo noValue : Word) (fuel : Nat) (m : Mem) :
    Option Outcome :=
  let bi := boardInit mailbox zeroBootInfo
  let ifsImage := ifsImageAt bi.board.memSize (rootfsImageSize m)
  let m := relocate m ifsImage
  mainLoaded hal bi ifsImage bootinfo noValue fuel (loadKernel vmKernelBase m ifsImage bootinfo)

/-- The memory size a revision word stands for. -/
def boardMemory (revision : Word) : Nat :=
  if revision &&& (1#32 <<< 23) = 0#32 then 128 * 1024 * 1024
  else min (configuredMemory ((revision >>> 20) &&& 0x07#32).toNat) 0x7FF00000

theorem boardInit_memSize (mailbox : Mailbox) (bi : BootInfo) :
    (boardInit mailbox bi).board.memSize = boardMemory mailbox.revision := by
  rw [boardInit, parseRevision, boardMemory]
  by_cases h : mailbox.revision &&& (1#32 <<< 23) = 0#32
  · rw [if_pos h, if_pos h]
    rfl
  · rw [if_neg h, if_neg h]
    generalize ((mailbox.revision >>> 20) &&& 0x07#32).toNat = config
    change (if 0x7FF00000 ≤ configuredMemory config then 0x7FF00000 else configuredMemory config) = _
    split <;> omega

/-- Memory comes in units of 64 KiB, at least 128 MiB of it and less than 2 GiB. -/
theorem boardMemory_units (revision : Word) :
    boardMemory revision % 0x10000 = 0 ∧ 0x8000000 ≤ boardMemory revision ∧
      boardMemory revision ≤ 0x7FF00000 := by
  rw [boardMemory]
  by_cases h : revision &&& (1#32 <<< 23) = 0#32
  · rw [if_pos h]
    decide
  · rw [if_neg h]
    generalize ((revision >>> 20) &&& 0x07#32).toNat = config
    rcases config with _ | _ | _ | _ | _ | _ | _
    all_goals simp [configuredMemory]

/-- The size rounded up to what the image takes at the top of memory. -/
theorem ifsImageAt_toNat {memSize : Nat} {size : Word} (hunits : memSize % 0x10000 = 0)
    (hmem : memSize ≤ 0x7FF00000) (hsize : size.toNat ≤ memSize) :
    (ifsImageAt memSize size).toNat = memSize - alignUp size.toNat 0x10000 := by
  have hval : (BitVec.ofNat 64 memSize - size.setWidth 64).toNat = memSize - size.toNat := by
    rw [BitVec.toNat_sub, BitVec.toNat_ofNat, BitVec.toNat_setWidth]
    omega
  simp only [ifsImageAt, alignUp]
  generalize BitVec.ofNat 64 memSize - size.setWidth 64 = val at hval ⊢
  have hmod : (val % 0x10000#64).toNat = val.toNat % 0x10000 := BitVec.toNat_umod
  rw [BitVec.toNat_setWidth, BitVec.toNat_sub, hmod]
  omega

/-- Where the image goes on a board. -/
def imageBase (mailbox : Mailbox) (m : Mem) : Word :=
  ifsImageAt (boardMemory mailbox.revision) (rootfsImageSize m)

/-- The kernel as `Main` loads it from the copied image. -/
def kernelLoad (mailbox : Mailbox) (bootinfo : Word) (m : Mem) : Step :=
  loadKernel vmKernelBase (relocate m (imageBase mailbox m)) (imageBase mailbox m) bootinfo

theorem main_eq (hal : Hal) (mailbox : Mailbox) (bootinfo noValue : Word) (fuel : Nat) (m : Mem) :
    main hal mailbox bootinfo noValue fuel m =
      mainLoaded hal (boardInit mailbox zeroBootInfo) (imageBase mailbox m) bootinfo noValue fuel
        (kernelLoad mailbox bootinfo m) := by
  simp only [main, boardInit_memSize, imageBase, kernelLoad]

/-- What `Main` has done where it calls the kernel. -/
structure Reached (mailbox : Mailbox) (bootinfo : Word) (m : Mem) (bi : BootInfo) : Prop where
  loaded : (kernelLoad mailbox bootinfo m).ok = true
  found : elfFind (kernelLoad mailbox bootinfo m).mem (imageBase mailbox m) filesystemsString ifsString =
    .found bi.ifsExeBase bi.ifsExeSize
  board : bi.board = (boardInit mailbox zeroBootInfo).board
  tables : ∃ io, bi.tables = tableInfo (layTables (kernelLoad mailbox bootinfo m).ceiling) io
  ifsImage : bi.ifsImage = imageBase mailbox m
  /-- Three fields are never stored. -/
  kernelBase : bi.kernelBase = 0#32
  kernelCeiling : bi.kernelCeiling = 0#32
  kernelPhdrCnt : bi.kernelPhdrCnt = 0#32

theorem bootstrapKernel_tables {hal : Hal} {memSize fuel : Nat} {kernelCeiling : Word} {m : Mem}
    {r : TableInfo × Mem} (h : bootstrapKernel hal memSize kernelCeiling fuel m = some r) :
    ∃ io, r.1 = tableInfo (layTables kernelCeiling) io := by
  simp only [bootstrapKernel, bind, Option.bind_eq_some_iff] at h
  obtain ⟨_, _, _, _, _, _, ⟨io, _⟩, _, hr⟩ := h
  obtain rfl := Option.some.inj hr
  exact ⟨io, rfl⟩

theorem mainLoaded_calls {hal : Hal} {bi₀ bi : BootInfo} {ifsImage bootinfo noValue entry : Word}
    {fuel : Nat} {s : Step} {m' : Mem}
    (h : mainLoaded hal bi₀ ifsImage bootinfo noValue fuel s = some (.calls entry bi m')) :
    s.ok = true ∧
      elfFind s.mem ifsImage filesystemsString ifsString = .found bi.ifsExeBase bi.ifsExeSize ∧
      ∃ io, bi = { bi₀ with
        ifsImage
        ifsImageSize := rootfsImageSize s.mem
        ifsExeBase := bi.ifsExeBase
        ifsExeSize := bi.ifsExeSize
        tables := tableInfo (layTables s.ceiling) io } := by
  unfold mainLoaded at h
  split at h
  · cases h
  · rename_i hok
    split at h
    · cases h
    · rename_i ifsExeBase ifsExeSize hfound
      split at h
      · cases h
      · obtain ⟨r, hrun, hr⟩ := Option.bind_eq_some_iff.mp h
        obtain ⟨io, hio⟩ := bootstrapKernel_tables hrun
        injection Option.some.inj hr with _ hbi _
        subst hbi
        exact ⟨by simpa using hok, hfound, io, by rw [← hio]⟩

/-- A run that calls the kernel loaded it and found the other program. -/
theorem main_calls {hal : Hal} {mailbox : Mailbox} {bootinfo noValue : Word} {fuel : Nat} {m m' : Mem}
    {entry : Word} {bi : BootInfo}
    (h : main hal mailbox bootinfo noValue fuel m = some (.calls entry bi m')) :
    Reached mailbox bootinfo m bi := by
  rw [main_eq] at h
  obtain ⟨hok, hfound, io, hbi⟩ := mainLoaded_calls h
  refine ⟨hok, hfound, ?_, ⟨io, ?_⟩, ?_, ?_, ?_, ?_⟩
  · rw [hbi]
  · rw [hbi]
  · rw [hbi]
  · rw [hbi, boardInit, zeroBootInfo]
  · rw [hbi, boardInit, zeroBootInfo]
  · rw [hbi, boardInit, zeroBootInfo]

/-- Where both programs are found `Main` calls the kernel, given fuel for the page tables. -/
theorem main_reaches (hal : Hal) {mailbox : Mailbox} {bootinfo noValue : Word} {fuel : Nat} {m : Mem}
    {ifsExeBase ifsExeSize : Word} (hok : (kernelLoad mailbox bootinfo m).ok = true)
    (hfound : elfFind (kernelLoad mailbox bootinfo m).mem (imageBase mailbox m) filesystemsString ifsString =
      .found ifsExeBase ifsExeSize) (hvalue : noValue ≠ -1) (hfuel : 2 ^ 20 ≤ fuel) :
    ∃ entry bi m', main hal mailbox bootinfo noValue fuel m = some (.calls entry bi m') := by
  obtain ⟨hunits, _, hle⟩ := boardMemory_units mailbox.revision
  rw [main_eq]
  obtain ⟨s, hs⟩ : ∃ s, s = kernelLoad mailbox bootinfo m := ⟨_, rfl⟩
  rw [← hs] at hok hfound ⊢
  obtain ⟨m', hrun, _⟩ := bootstrapKernel_built hal hfuel
    (by omega : boardMemory mailbox.revision / 4096 ≤ 0x7FF00) s.ceiling s.mem
  have hpages : 4096 * (boardMemory mailbox.revision / 4096) = boardMemory mailbox.revision := by omega
  rw [hpages, ← boardInit_memSize mailbox zeroBootInfo] at hrun
  unfold mainLoaded
  rw [hok, if_neg Bool.noConfusion, hfound]
  dsimp only
  rw [if_neg hvalue, hrun]
  exact ⟨_, _, _, rfl⟩

end CheviotBoot.Boot
