import CheviotBoot.Lib.Loop
import CheviotBoot.Lib.WordTable
import CheviotBoot.Board.Init

namespace CheviotBoot.Board
open Lib

/-- The constants of the hal whose values the board leaves open: the attribute bits of the two
kinds of entry, and where the bootloader's identity mapping ends. -/
structure Hal where
  l1TypeC : Word
  l2ApRwk : Word
  l2ApRwku : Word
  l2C : Word
  l2B : Word
  vmBootloaderCeiling : Word
  coarse : l1TypeC.toNat % 4 = 1
  l1TypeC_lt : l1TypeC.toNat < 2 ^ 10
  l2ApRwk_lt : l2ApRwk.toNat < 2 ^ 12
  l2ApRwku_lt : l2ApRwku.toNat < 2 ^ 12
  l2C_lt : l2C.toNat < 2 ^ 12
  l2B_lt : l2B.toNat < 2 ^ 12
  ceiling_aligned : vmBootloaderCeiling.toNat % 4096 = 0
  ceiling_le : vmBootloaderCeiling.toNat ≤ 2 ^ 20

def pageSize : Word := 4096#32
def nPagedirPde : Nat := 4096
def nPagetablePte : Nat := 256
def vpteTableOffs : Word := 1024#32

def l1TypeInv : Word := 0#32
def l1AddrBits : Word := 0xfff00000#32
def l1IdxShift : Nat := 20
def l1CAddrMask : Word := 0xfffffc00#32
def l2TypeInv : Word := 0#32
def l2TypeS : Word := 2#32
def l2AddrBits : Word := 0x000ff000#32
def l2IdxShift : Nat := 12

def vmKernelBase : Word := 0x80000000#32
def kernelPagetablesCnt : Nat := 2048
def kernelPagetablesPdeBase : Nat := 2048
def bootloaderPagetablesCnt : Nat := 1
def vmIoBase : Word := 0xfff00000#32
def ioPagetablesPdeBase : Nat := 4095

def timerBase : Word := 0xfe003000#32
def gpioBase : Word := 0xfe200000#32
def auxBase : Word := 0xfe215000#32
def gicdBase : Word := 0xff841000#32
def giccBase : Word := 0xff842000#32
def mboxBase : Word := 0xfe00b880#32

/-- The four tables and the range they are carved from. -/
structure Tables where
  pagetableBase : Word
  rootPagedir : Word
  bootloaderPagetables : Word
  kernelPagetables : Word
  ioPagetable : Word
  pagetableCeiling : Word

/-- The areas of the four tables, with their sizes. -/
def Tables.areas (t : Tables) : List (Word × Nat) :=
  [(t.rootPagedir, 16384), (t.bootloaderPagetables, 4096), (t.kernelPagetables, 2097152), (t.ioPagetable, 4096)]

/-- The heap pointer's way through `bootstrap_kernel`. -/
def layTables (kernelCeiling : Word) : Tables :=
  let heapPtr := alignUp32 kernelCeiling 16384#32
  { pagetableBase := heapPtr
    rootPagedir := heapPtr
    bootloaderPagetables := heapPtr + 16384#32
    kernelPagetables := heapPtr + 16384#32 + 4096#32
    ioPagetable := heapPtr + 16384#32 + 4096#32 + 2097152#32
    pagetableCeiling := heapPtr + 16384#32 + 4096#32 + 2097152#32 + 4096#32 }

def initPageDirectory (hal : Hal) (t : Tables) (fuel : Nat) (m : Mem) : Option Mem := do
  let m ← forUpTo nPagedirPde fuel (fun i m => some (m.setWord (elem t.rootPagedir i) l1TypeInv)) m
  let m := m.setWord (elem t.rootPagedir 0) (t.bootloaderPagetables ||| hal.l1TypeC)
  let m ← forUpTo kernelPagetablesCnt fuel (fun i m =>
    let physPt := elem t.kernelPagetables (i * nPagetablePte)
    some (m.setWord (elem t.rootPagedir (kernelPagetablesPdeBase + i)) (physPt ||| hal.l1TypeC))) m
  some (m.setWord (elem t.rootPagedir ioPagetablesPdeBase) (t.ioPagetable ||| hal.l1TypeC))

def kernelBits (hal : Hal) : Word := l2TypeS ||| hal.l2ApRwk ||| (hal.l2C ||| hal.l2B)

/-- `pa` has 32 bits, `mem_size` 64. -/
def initKernelPagetables (hal : Hal) (t : Tables) (memSize fuel : Nat) (m : Mem) : Option Mem :=
  forLoop (fun pa : Word => decide (pa.toNat < memSize)) (· + pageSize) (fun pa m =>
    some (m.setWord (elem t.kernelPagetables (pa / pageSize).toNat) (pa ||| kernelBits hal))) fuel 0#32 m

def bootloaderBits (hal : Hal) : Word := l2TypeS ||| hal.l2ApRwku

/-- The table a directory entry points to, read from memory. -/
def pagetableOf (t : Tables) (m : Mem) (pdeIdx : Nat) : Word :=
  m.word (elem t.rootPagedir pdeIdx) &&& l1CAddrMask

def clearBootloaderPagetable (t : Tables) (fuel pdeIdx : Nat) (m : Mem) : Option Mem := do
  let pt := pagetableOf t m pdeIdx
  let m ← forUpTo nPagetablePte fuel (fun pteIdx m => some (m.setWord (elem pt pteIdx) l2TypeInv)) m
  some (m.memset (pt + vpteTableOffs) 0#8 (pageSize - vpteTableOffs))

def mapBootloaderPage (hal : Hal) (t : Tables) (pa : Word) (m : Mem) : Mem :=
  let pt := pagetableOf t m ((pa &&& l1AddrBits) >>> l1IdxShift).toNat
  let pteIdx := ((pa &&& l2AddrBits) >>> l2IdxShift).toNat
  m.setWord (elem pt pteIdx) (pa ||| bootloaderBits hal)

def initBootloaderPagetables (hal : Hal) (t : Tables) (fuel : Nat) (m : Mem) : Option Mem := do
  let m ← forUpTo bootloaderPagetablesCnt fuel (clearBootloaderPagetable t fuel) m
  forLoop (fun pa => decide (pa < hal.vmBootloaderCeiling)) (· + pageSize)
    (fun pa m => some (mapBootloaderPage hal t pa m)) fuel 4096#32 m

/-- Memory, `io_map_base` and `io_map_current`. -/
structure IoState where
  mem : Mem
  ioMapBase : Word
  ioMapCurrent : Word

def ioBits (hal : Hal) : Word := l2TypeS ||| hal.l2ApRwk

/-- `io_map`: the state after it and the virtual address it returns. -/
def ioMap (hal : Hal) (t : Tables) (fuel : Nat) (pa sz : Word) (s : IoState) :
    Option (Word × IoState) := do
  let paBase := alignDown32 pa pageSize
  let paCeiling := alignUp32 (pa + sz) pageSize
  let vaBase := alignUp32 s.ioMapCurrent pageSize
  let vaCeiling := vaBase + (paCeiling - paBase)
  let m ← forLoop (fun i : Word × Word => decide (i.2 < paCeiling)) (fun i => (i.1 + pageSize, i.2 + pageSize))
    (fun i m => some (m.setWord (elem t.ioPagetable ((i.1 - s.ioMapBase) / pageSize).toNat) (i.2 ||| ioBits hal)))
    fuel (vaBase, paBase) s.mem
  some (vaBase, { s with mem := m, ioMapCurrent := vaCeiling })

/-- The addresses of the devices that `init_io_pagetable` leaves in `bootinfo`. -/
structure IoBases where
  timerBase : Word
  gpioBase : Word
  auxBase : Word
  gicdBase : Word
  giccBase : Word
  mailboxBase : Word

def initIoPagetable (hal : Hal) (t : Tables) (fuel : Nat) (m : Mem) : Option (IoBases × Mem) := do
  let m ← forUpTo nPagetablePte fuel (fun i m => some (m.setWord (elem t.ioPagetable i) l2TypeInv)) m
  let s : IoState := ⟨m, vmIoBase, vmIoBase⟩
  let (timer, s) ← ioMap hal t fuel timerBase pageSize s
  let (gpio, s) ← ioMap hal t fuel gpioBase pageSize s
  let (aux, s) ← ioMap hal t fuel auxBase pageSize s
  let (gicd, s) ← ioMap hal t fuel gicdBase pageSize s
  let (gicc, s) ← ioMap hal t fuel giccBase pageSize s
  let mboxPage := mboxBase / pageSize * pageSize
  let mboxPageOffset := mboxBase % pageSize
  let (mbox, s) ← ioMap hal t fuel mboxPage pageSize s
  some (⟨timer, gpio, aux, gicd, gicc, mbox + mboxPageOffset⟩, s.mem)

/-- The part of `bootinfo` that `bootstrap_kernel` fills in. -/
structure TableInfo where
  rootPagedir : Word
  kernelPagetables : Word
  bootloaderPagetables : Word
  pagetableBase : Word
  pagetableCeiling : Word
  io : IoBases

def tableInfo (t : Tables) (io : IoBases) : TableInfo where
  rootPagedir := t.rootPagedir + vmKernelBase
  kernelPagetables := t.kernelPagetables + vmKernelBase
  bootloaderPagetables := t.bootloaderPagetables + vmKernelBase
  pagetableBase := t.pagetableBase + vmKernelBase
  pagetableCeiling := t.pagetableCeiling + vmKernelBase
  io := io

/-- `bootstrap_kernel` up to where paging is enabled: `bootinfo`, and memory. The bootloader's code, `bootinfo`
and its other variables are not kept in `m`, but for the headers in `bootinfo`: the tables, and the
segments loaded before, are taken not to lie over them. -/
def bootstrapKernel (hal : Hal) (memSize : Nat) (kernelCeiling : Word) (fuel : Nat) (m : Mem) :
    Option (TableInfo × Mem) := do
  let t := layTables kernelCeiling
  let m ← initPageDirectory hal t fuel m
  let m ← initKernelPagetables hal t memSize fuel m
  let m ← initBootloaderPagetables hal t fuel m
  let (io, m) ← initIoPagetable hal t fuel m
  some (tableInfo t io, m)

end CheviotBoot.Board
