import CheviotBoot.Board.Walk

namespace CheviotBoot.Board.RaspberryPi1
open Lib

def rootPagetablesCnt : Nat := 1
def kernelPagetablesCnt : Nat := 512
def kernelPagetablesPdeBase : Nat := 2048
def rootCeilingAddr : Word := 0x00010000#32
def kernelBaseVa : Word := 0x80000000#32

def l1TypeC : Word := 0x01#32
def l2B : Word := 4#32
def l2C : Word := 8#32
def apW : Word := 0x01#32
def apU : Word := 0x02#32
def l2Ap (x : Word) : Word := x <<< 4

/-- The three tables and the range they are carved from. -/
structure Tables where
  pagetableBase : Word
  rootPagedir : Word
  rootPagetables : Word
  kernelPagetables : Word
  pagetableCeiling : Word

/-- The heap pointer's way through `BootstrapKernel`. -/
def layTables (kernelCeiling : Word) : Tables :=
  let heapPtr := alignUp32 kernelCeiling 16384#32
  { pagetableBase := heapPtr
    rootPagedir := heapPtr
    rootPagetables := heapPtr + 16384#32
    kernelPagetables := heapPtr + 16384#32 + 4096#32
    pagetableCeiling := heapPtr + 16384#32 + 4096#32 + 524288#32 }

def initPageDirectory (t : Tables) (fuel : Nat) (m : Mem) : Option Mem := do
  let m ← forUpTo nPagedirPde fuel (fun i m => some (m.setWord (elem t.rootPagedir i) l1TypeInv)) m
  let m ← forUpTo kernelPagetablesCnt fuel (fun i m =>
    let physPt := elem t.kernelPagetables (i * nPagetablePte)
    some (m.setWord (elem t.rootPagedir (kernelPagetablesPdeBase + i)) (physPt ||| l1TypeC))) m
  forUpTo rootPagetablesCnt fuel (fun i m =>
    some (m.setWord (elem t.rootPagedir i) ((t.rootPagetables + BitVec.ofNat 32 i * pageSize) ||| l1TypeC))) m

def kernelBits : Word := l2TypeS ||| l2Ap apW ||| (l2B ||| l2C)

/-- `pa` has 32 bits, `mem_size` 64. -/
def initKernelPagetables (t : Tables) (memSize fuel : Nat) (m : Mem) : Option Mem :=
  forLoop (fun pa : Word => decide (pa.toNat < memSize)) (· + pageSize) (fun pa m =>
    some (m.setWord (elem t.kernelPagetables (pa / pageSize).toNat) (pa ||| kernelBits))) fuel 0#32 m

def rootBits : Word := l2TypeS ||| l2Ap apW ||| l2Ap apU ||| (l2B ||| l2C)

/-- The table a directory entry points to, read from memory. -/
def pagetableOf (t : Tables) (m : Mem) (pdeIdx : Nat) : Word :=
  m.word (elem t.rootPagedir pdeIdx) &&& l1CAddrMask

def clearRootPagetable (t : Tables) (fuel pdeIdx : Nat) (m : Mem) : Option Mem := do
  let pt := pagetableOf t m pdeIdx
  let m ← forUpTo nPagetablePte fuel (fun pteIdx m => some (m.setWord (elem pt pteIdx) l2TypeInv)) m
  some (m.memset (pt + vpteTableOffs) 0#8 (pageSize - vpteTableOffs))

def mapRootPage (t : Tables) (pa : Word) (m : Mem) : Mem :=
  let pt := pagetableOf t m ((pa &&& l1AddrBits) >>> l1IdxShift).toNat
  let pteIdx := ((pa &&& l2AddrBits) >>> l2IdxShift).toNat
  m.setWord (elem pt pteIdx) (pa ||| rootBits)

def initRootPagetables (t : Tables) (fuel : Nat) (m : Mem) : Option Mem := do
  let m ← forUpTo rootPagetablesCnt fuel (clearRootPagetable t fuel) m
  forLoop (fun pa => decide (pa < rootCeilingAddr)) (· + pageSize)
    (fun pa m => some (mapRootPage t pa m)) fuel 4096#32 m

/-- The part of `bootinfo` that `BootstrapKernel` fills in. -/
structure TableInfo where
  rootPagedir : Word
  kernelPagetables : Word
  rootPagetables : Word
  pagetableBase : Word
  pagetableCeiling : Word

def tableInfo (t : Tables) : TableInfo where
  rootPagedir := t.rootPagedir + kernelBaseVa
  kernelPagetables := t.kernelPagetables + kernelBaseVa
  rootPagetables := t.rootPagetables + kernelBaseVa
  pagetableBase := t.pagetableBase + kernelBaseVa
  pagetableCeiling := t.pagetableCeiling + kernelBaseVa

/-- `BootstrapKernel` up to where paging is enabled. As on the other board the tables are taken
not to lie over the program's own code and variables, which are not kept in `m`. -/
def bootstrapKernel (memSize : Nat) (kernelCeiling : Word) (fuel : Nat) (m : Mem) : Option (TableInfo × Mem) := do
  let t := layTables kernelCeiling
  let m ← initPageDirectory t fuel m
  let m ← initKernelPagetables t memSize fuel m
  let m ← initRootPagetables t fuel m
  some (tableInfo t, m)

/-- This board's attribute bits and the end of its identity mapping, under the other board's names. -/
def hal : Hal where
  l1TypeC := l1TypeC
  l2ApRwk := l2Ap apW
  l2ApRwku := l2Ap apW ||| l2Ap apU ||| (l2B ||| l2C)
  l2C := l2C
  l2B := l2B
  vmBootloaderCeiling := rootCeilingAddr
  coarse := by decide
  l1TypeC_lt := by decide
  l2ApRwk_lt := by decide
  l2ApRwku_lt := by decide
  l2C_lt := by decide
  l2B_lt := by decide
  ceiling_aligned := by decide
  ceiling_le := by decide

/-- What the page directory holds. -/
def pde (t : Tables) (i : Nat) : Word :=
  if i = 0 then t.rootPagetables ||| l1TypeC
  else if kernelPagetablesPdeBase ≤ i ∧ i < kernelPagetablesPdeBase + kernelPagetablesCnt then
    elem t.kernelPagetables ((i - kernelPagetablesPdeBase) * nPagetablePte) ||| l1TypeC
  else l1TypeInv

theorem initPageDirectory_spec (t : Tables) {fuel : Nat} (hfuel : 2 ^ 20 < fuel) (m : Mem) :
    ∃ m', initPageDirectory t fuel m = some m' ∧ m.Wrote m' t.rootPagedir 16384 nPagedirPde (pde t) := by
  have hpde : nPagedirPde < fuel := Nat.lt_of_le_of_lt (by decide) hfuel
  have hcnt : kernelPagetablesCnt < fuel := Nat.lt_of_le_of_lt (by decide) hfuel
  have hone : rootPagetablesCnt < fuel := Nat.lt_of_le_of_lt (by decide) hfuel
  have hsize : 4 * nPagedirPde ≤ 16384 := by decide
  obtain ⟨m₁, hclear, h₁⟩ := forUpTo_fill t.rootPagedir m l1TypeInv hsize (by decide) hpde
  obtain ⟨m₂, hkernel, h₂⟩ := forUpTo_overlay h₁
    (fun i => elem t.kernelPagetables (i * nPagetablePte) ||| l1TypeC) hsize (by decide)
    (by decide : kernelPagetablesPdeBase + kernelPagetablesCnt ≤ nPagedirPde) hcnt
  have h₃ := h₂.set hsize (by decide) (by decide : 0 < nPagedirPde) (t.rootPagetables ||| l1TypeC)
  refine ⟨_, ?_, h₃.congr fun i _ => ?_⟩
  · have hroot := forUpTo_one hone (fun i m => some (m.setWord (elem t.rootPagedir i)
      ((t.rootPagetables + BitVec.ofNat 32 i * pageSize) ||| l1TypeC))) m₂
    unfold initPageDirectory
    rw [hclear]
    simp only [bind, Option.bind]
    rw [hkernel]
    simp only [rootPagetablesCnt, hroot]
    congr 3
    exact BitVec.add_zero _
  · unfold pde
    by_cases hz : i = 0
    · rw [if_pos hz, hz, Function.update_self]
    · rw [if_neg hz, Function.update_of_ne hz]

theorem initKernelPagetables_spec (t : Tables) {fuel memSize : Nat} (hfuel : 2 ^ 20 < fuel)
    (hmem : memSize ≤ 2 ^ 32 - 4096) (m : Mem) :
    ∃ m', initKernelPagetables t memSize fuel m = some m' ∧
      m.Wrote m' t.kernelPagetables (4 * ((memSize + 4095) / 4096)) ((memSize + 4095) / 4096)
        (fun i => pageAt i ||| kernelBits) := by
  obtain ⟨pages, hp⟩ : ∃ pages, pages = (memSize + 4095) / 4096 := ⟨_, rfl⟩
  rw [← hp]
  refine forLoop_counts pageAt ?_ ?_ (fun k _ => pageAt_succ k)
    (fun k s => m.Wrote s t.kernelPagetables (4 * pages) k (fun i => pageAt i ||| kernelBits)) ?_
    (by omega) (Mem.Wrote.refl m _ _ _)
  · intro k hk
    rw [pageAt_toNat (by omega)]
    exact decide_eq_true (by omega)
  · rw [pageAt_toNat (by omega)]
    exact decide_eq_false (by omega)
  · intro k s hk hs
    refine ⟨_, rfl, ?_⟩
    rw [pageAt_div (by omega)]
    exact hs.push (by omega) (by omega)

/-- The tables as the other board names them, which has one more. -/
def Tables.common (t : Tables) : Board.Tables :=
  ⟨t.pagetableBase, t.rootPagedir, t.rootPagetables, t.kernelPagetables, 0#32, t.pagetableCeiling⟩

theorem rootBits_eq : rootBits = bootloaderBits hal := by decide

theorem kernelBits_eq : kernelBits = Board.kernelBits hal := by decide

/-- The root table is filled as the other board fills its bootloader's. -/
theorem initRootPagetables_eq (t : Tables) (fuel : Nat) (m : Mem) :
    initRootPagetables t fuel m = initBootloaderPagetables hal t.common fuel m := by
  have hpage : mapRootPage t = mapBootloaderPage hal t.common := by
    funext pa m
    rw [mapRootPage, rootBits_eq]
    rfl
  unfold initRootPagetables initBootloaderPagetables
  rw [hpage]
  rfl

/-- What `BootstrapKernel` leaves in memory, and that it writes the tables and nothing else: of the
kernel's, the entries of the pages of memory. -/
structure Built (t : Tables) (pages : Nat) (m m' : Mem) : Prop where
  root : ∀ i, i < nPagedirPde → m'.word (elem t.rootPagedir i) = pde t i
  bootloader : ∀ i, i < nPagetablePte → m'.word (elem t.rootPagetables i) = bootloaderPte hal i
  kernel : ∀ i, i < pages → m'.word (elem t.kernelPagetables i) = pageAt i ||| kernelBits
  outside : ∀ x, ¬ Within x t.pagetableBase (20480 + 4 * pages) → m' x = m x

theorem layTables_offsets (kernelCeiling : Word) :
    let t := layTables kernelCeiling
    t.rootPagedir = t.pagetableBase + BitVec.ofNat 32 0 ∧
      t.rootPagetables = t.pagetableBase + BitVec.ofNat 32 16384 ∧
      t.kernelPagetables = t.pagetableBase + BitVec.ofNat 32 20480 ∧
      t.pagetableCeiling = t.pagetableBase + BitVec.ofNat 32 544768 := by
  simp only [layTables]
  generalize alignUp32 kernelCeiling 16384#32 = p
  refine ⟨(BitVec.add_zero p).symm, trivial, ?_, ?_⟩ <;> bv_omega

/-- `BootstrapKernel` ends where memory ends below 4 GiB, and builds the tables. -/
theorem bootstrapKernel_built {memSize fuel : Nat} (hfuel : 2 ^ 20 < fuel) (hmem : memSize ≤ 2 ^ 32 - 4096)
    (kernelCeiling : Word) (m : Mem) :
    ∃ m', bootstrapKernel memSize kernelCeiling fuel m = some (tableInfo (layTables kernelCeiling), m') ∧
      Built (layTables kernelCeiling) ((memSize + 4095) / 4096) m m' := by
  obtain ⟨hroot, hboot, hkernel, _⟩ := layTables_offsets kernelCeiling
  obtain ⟨haligned, _, _⟩ := layTables_aligned kernelCeiling
  have haligned : (layTables kernelCeiling).rootPagetables.toNat % 1024 = 0 := haligned
  obtain ⟨pages, hp⟩ : ∃ pages, pages = (memSize + 4095) / 4096 := ⟨_, rfl⟩
  obtain ⟨t, ht⟩ : ∃ t, t = layTables kernelCeiling := ⟨_, rfl⟩
  rw [bootstrapKernel, ← hp]
  rw [← ht] at hroot hboot hkernel haligned ⊢
  have hrb : ∀ x, Within x t.rootPagedir 16384 → ¬ Within x t.rootPagetables 4096 := by
    rw [hroot, hboot]
    exact areasApart_of_offsets _ (by decide) (by decide)
  have hrk : ∀ x, Within x t.rootPagedir 16384 → ¬ Within x t.kernelPagetables (4 * pages) := by
    rw [hroot, hkernel]
    exact areasApart_of_offsets _ (by decide) (by omega)
  have hkb : ∀ x, Within x t.kernelPagetables (4 * pages) → ¬ Within x t.rootPagetables 4096 := by
    rw [hboot, hkernel]
    exact (areasApart_of_offsets _ (by decide) (by omega) : AreasApart (_, 4096) _).symm
  obtain ⟨m₁, hrun₁, h₁⟩ := initPageDirectory_spec t hfuel m
  obtain ⟨m₂, hrun₂, h₂⟩ := initKernelPagetables_spec t hfuel hmem m₁
  rw [← hp] at h₂
  have hfirst : m₂.word t.rootPagedir = t.rootPagetables ||| l1TypeC := by
    have hkept := h₂.word_apart (i := 0) (by decide) (by decide) hrk
    rw [h₁.entries 0 (by decide), elem_zero] at hkept
    exact hkept
  obtain ⟨m₃, hrun₃, h₃⟩ := @initBootloaderPagetables_spec hal t.common _ _ (Nat.le_of_lt hfuel) hfirst
    haligned (fun x hx => hrb x (Nat.lt_of_lt_of_le hx (by decide)))
  have h₃ : m₂.Wrote m₃ t.rootPagetables 4096 nPagetablePte (bootloaderPte hal) := h₃
  refine ⟨m₃, ?_, ?_, h₃.entries, ?_, ?_⟩
  · simp only [hrun₁, hrun₂, initRootPagetables_eq, hrun₃, bind, Option.bind]
  · intro i hi
    have hin : 4 * i + 4 ≤ 16384 := by
      unfold nPagedirPde at hi
      omega
    rw [h₃.word_apart hin (by decide) hrb, h₂.word_apart hin (by decide) hrk, h₁.entries i hi]
  · intro i hi
    rw [h₃.word_apart (by omega) (by omega) hkb, h₂.entries i hi]
  · intro x hx
    have hout : ∀ a n, a + n ≤ 20480 + 4 * pages → ¬ Within x (t.pagetableBase + BitVec.ofNat 32 a) n := by
      intro a n han hin
      exact hx (Nat.lt_of_lt_of_le ((within_iff (by omega)).mp hin).2 han)
    rw [h₃.outside x (hboot ▸ hout 16384 4096 (by omega)), h₂.outside x (hkernel ▸ hout 20480 _ (by omega)),
      h₁.outside x (hroot ▸ hout 0 16384 (by omega))]

/-- The entry of a table that an address is looked up by. -/
def entryOf (m : Mem) (ttbr va : Word) : Word :=
  m.word (elem (m.word (elem ttbr (va.toNat / 2 ^ 20)) &&& l1CAddrMask) (va.toNat / 4096 % 256))

/-- An address is mapped by a page that user mode may access. -/
def UserMay (m : Mem) (ttbr va : Word) : Prop :=
  walk m ttbr va ≠ none ∧ entryOf m ttbr va &&& l2Ap apU ≠ 0#32

/-- The address space that the tables make: the bootloader's pages at their own addresses, open to
user mode; memory at the kernel's base, up to 512 MiB and closed to it; and nothing else, but for
the kernel's entries past the end of memory, which are what they were. -/
structure AddressSpace (t : Tables) (pages : Nat) (m m' : Mem) : Prop where
  bootloader : ∀ va, 4096 ≤ va.toNat → va.toNat < 0x10000 →
    walk m' t.rootPagedir va = some va ∧ UserMay m' t.rootPagedir va
  memory : ∀ pa, pa.toNat < 4096 * pages → pa.toNat < 2 ^ 29 →
    walk m' t.rootPagedir (kernelBaseVa + pa) = some pa ∧ ¬ UserMay m' t.rootPagedir (kernelBaseVa + pa)
  stale : ∀ va : Word, 2 ^ 31 + 4096 * pages ≤ va.toNat → va.toNat < 2 ^ 31 + 2 ^ 29 →
    walk m' t.rootPagedir va = pteTarget (m.word (elem t.kernelPagetables ((va.toNat - 2 ^ 31) / 4096))) va
  nothing : ∀ va : Word, ¬ (4096 ≤ va.toNat ∧ va.toNat < 0x10000) →
    ¬ (2 ^ 31 ≤ va.toNat ∧ va.toNat < 2 ^ 31 + 2 ^ 29) → walk m' t.rootPagedir va = none

theorem coarse_entry {m : Mem} {ttbr va pt : Word} (hpde : m.word (elem ttbr (va.toNat / 2 ^ 20)) = pt ||| l1TypeC)
    (hpt : pt.toNat % 1024 = 0) : entryOf m ttbr va = m.word (elem pt (va.toNat / 4096 % 256)) := by
  have hmask : (pt ||| l1TypeC) &&& l1CAddrMask = pt := @coarse_address hal _ hpt
  rw [entryOf, hpde, hmask]

section
variable {kernelCeiling : Word} {pages : Nat} {m m' : Mem}
    (h : Built (layTables kernelCeiling) pages m m')
include h

/-- An address in the first megabyte is looked up in the root table. -/
theorem Built.low {va : Word} (hva : va.toNat < 2 ^ 20) :
    walk m' (layTables kernelCeiling).rootPagedir va = pteTarget (bootloaderPte hal (va.toNat / 4096)) va ∧
      entryOf m' (layTables kernelCeiling).rootPagedir va = bootloaderPte hal (va.toNat / 4096) := by
  have hindex : va.toNat / 2 ^ 20 = 0 := by omega
  have hmod : va.toNat / 4096 % 256 = va.toNat / 4096 := by omega
  have hpde : m'.word (elem (layTables kernelCeiling).rootPagedir (va.toNat / 2 ^ 20)) =
      (layTables kernelCeiling).rootPagetables ||| l1TypeC := by
    rw [hindex, h.root 0 (by decide)]
    rfl
  have haligned : (layTables kernelCeiling).rootPagetables.toNat % 1024 = 0 := (layTables_aligned kernelCeiling).1
  have hpte := h.bootloader (va.toNat / 4096) (by unfold nPagetablePte; omega)
  refine ⟨?_, ?_⟩
  · rw [@walk_coarse _ _ _ _ hal hpde haligned, hmod, hpte]
  · rw [coarse_entry hpde haligned, hmod, hpte]

/-- An address in the kernel's window is looked up by its page number. -/
theorem Built.window {va : Word} (hlow : 2 ^ 31 ≤ va.toNat) (hhigh : va.toNat < 2 ^ 31 + 2 ^ 29) :
    walk m' (layTables kernelCeiling).rootPagedir va =
        pteTarget (m'.word (elem (layTables kernelCeiling).kernelPagetables ((va.toNat - 2 ^ 31) / 4096))) va ∧
      entryOf m' (layTables kernelCeiling).rootPagedir va =
        m'.word (elem (layTables kernelCeiling).kernelPagetables ((va.toNat - 2 ^ 31) / 4096)) := by
  have haligned : (layTables kernelCeiling).kernelPagetables.toNat % 1024 = 0 := (layTables_aligned kernelCeiling).2.1
  have hbase : kernelPagetablesPdeBase = 2048 := rfl
  have hcnt : kernelPagetablesCnt = 512 := rfl
  have hptes : nPagetablePte = 256 := rfl
  have hpde := h.root (va.toNat / 2 ^ 20) (by unfold nPagedirPde; omega)
  rw [pde, if_neg (by omega), if_pos (by omega)] at hpde
  have hpt : (elem (layTables kernelCeiling).kernelPagetables
      ((va.toNat / 2 ^ 20 - kernelPagetablesPdeBase) * nPagetablePte)).toNat % 1024 = 0 := by
    rw [elem, BitVec.toNat_add, BitVec.toNat_ofNat, hptes]
    omega
  have hindex : (va.toNat / 2 ^ 20 - kernelPagetablesPdeBase) * nPagetablePte + va.toNat / 4096 % 256 =
      (va.toNat - 2 ^ 31) / 4096 := by
    rw [hbase, hptes]
    omega
  refine ⟨?_, ?_⟩
  · rw [@walk_coarse _ _ _ _ hal hpde hpt, elem_add, hindex]
  · rw [coarse_entry hpde hpt, elem_add, hindex]

end

/-- The entries past the end of memory are what they were. -/
theorem Built.stale {kernelCeiling : Word} {pages : Nat} {m m' : Mem} (h : Built (layTables kernelCeiling) pages m m')
    {i : Nat} (hi : pages ≤ i) (hlast : i < 2 ^ 20) :
    m'.word (elem (layTables kernelCeiling).kernelPagetables i) =
      m.word (elem (layTables kernelCeiling).kernelPagetables i) := by
  obtain ⟨_, _, hkernelTables, _⟩ := layTables_offsets kernelCeiling
  refine Mem.word_congr fun x hx => h.outside x fun hin => ?_
  rw [hkernelTables, elem, BitVec.add_assoc, ← BitVec.ofNat_add] at hx
  have hrange := (within_iff (by omega)).mp hx
  unfold Within at hin
  omega

/-- Whether user mode may access a page is said by its attributes. -/
theorem page_access {p : Word} (bits : Word) (hp : p.toNat % 4096 = 0) :
    (p ||| bits) &&& l2Ap apU = bits &&& l2Ap apU := by
  have hpage : p &&& ~~~(ones 12) = p := by
    apply BitVec.eq_of_toNat_eq
    rw [toNat_and_not_ones _ (by decide)]
    omega
  have hclear : p &&& l2Ap apU = 0#32 := by
    have hnone : ~~~(ones 12) &&& l2Ap apU = 0#32 := by decide
    rw [← hpage, BitVec.and_assoc, hnone, BitVec.and_zero]
  rw [BitVec.and_comm, BitVec.and_or_distrib_left, BitVec.and_comm _ p, hclear, BitVec.zero_or, BitVec.and_comm]

section
variable {kernelCeiling : Word} {pages : Nat} {m m' : Mem}
    (h : Built (layTables kernelCeiling) pages m m')
include h

/-- The bootloader's pages are at their own addresses, and user mode may access them. -/
theorem Built.bootloader_mapped {va : Word} (hlow : 4096 ≤ va.toNat) (hhigh : va.toNat < 0x10000) :
    walk m' (layTables kernelCeiling).rootPagedir va = some va ∧
      UserMay m' (layTables kernelCeiling).rootPagedir va := by
  have hcnt : hal.vmBootloaderCeiling.toNat / 4096 = 16 := by decide
  obtain ⟨hwalk, hentry⟩ := h.low (by omega : va.toNat < 2 ^ 20)
  have hpage : (pageAt (va.toNat / 4096)).toNat = 4096 * (va.toNat / 4096) := pageAt_toNat (by omega)
  rw [bootloaderPte, hcnt, if_pos (by omega)] at hwalk hentry
  have hexact : va.toNat = (pageAt (va.toNat / 4096)).toNat + va.toNat % 4096 := by omega
  have htarget := pteTarget_small (by omega : (pageAt (va.toNat / 4096)).toNat % 4096 = 0)
    (bootloaderBits_small hal) hexact
  refine ⟨hwalk.trans htarget, fun hnone => ?_, ?_⟩
  · cases hnone.symm.trans (hwalk.trans htarget)
  · rw [hentry, page_access _ (by omega)]
    decide

/-- Memory is at the kernel's base, and user mode may not access it there. -/
theorem Built.memory_mapped {pa : Word} (hpa : pa.toNat < 4096 * pages) (hwindow : pa.toNat < 2 ^ 29) :
    walk m' (layTables kernelCeiling).rootPagedir (kernelBaseVa + pa) = some pa ∧
      ¬ UserMay m' (layTables kernelCeiling).rootPagedir (kernelBaseVa + pa) := by
  have hva : (kernelBaseVa + pa).toNat = 2 ^ 31 + pa.toNat := by
    rw [BitVec.toNat_add]
    exact Nat.mod_eq_of_lt (by omega : 2 ^ 31 + pa.toNat < 2 ^ 32)
  have hindex : (2 ^ 31 + pa.toNat - 2 ^ 31) / 4096 = pa.toNat / 4096 := by rw [Nat.add_sub_cancel_left]
  have hpage : (pageAt (pa.toNat / 4096)).toNat = 4096 * (pa.toNat / 4096) := pageAt_toNat (by omega)
  obtain ⟨hwalk, hentry⟩ := @Built.window _ _ _ _ h (kernelBaseVa + pa) (by omega) (by omega)
  rw [hva, hindex, h.kernel _ (by omega)] at hwalk hentry
  refine ⟨?_, fun hmay => hmay.2 ?_⟩
  · rw [hwalk, kernelBits_eq]
    exact pteTarget_small (by omega) (kernelBits_small hal) (by omega)
  · rw [hentry, page_access _ (by omega)]
    decide

/-- The page directory has entries for the first megabyte and for the kernel's window. -/
theorem Built.elsewhere_unmapped {va : Word} (hboot : ¬ (4096 ≤ va.toNat ∧ va.toNat < 0x10000))
    (hkernel : ¬ (2 ^ 31 ≤ va.toNat ∧ va.toNat < 2 ^ 31 + 2 ^ 29)) :
    walk m' (layTables kernelCeiling).rootPagedir va = none := by
  have hcnt : hal.vmBootloaderCeiling.toNat / 4096 = 16 := by decide
  by_cases hlow : va.toNat < 2 ^ 20
  · rw [(h.low hlow).1, bootloaderPte, hcnt, if_neg (by omega)]
    exact pteTarget_eq_none.mpr rfl
  · have hbase : kernelPagetablesPdeBase = 2048 := rfl
    have hwin : kernelPagetablesCnt = 512 := rfl
    have hpde : m'.word (elem (layTables kernelCeiling).rootPagedir (va.toNat / 2 ^ 20)) = 0#32 := by
      have hlt := va.isLt
      rw [h.root _ (by unfold nPagedirPde; omega), pde, if_neg (by omega), if_neg (by omega)]
      rfl
    unfold walk
    rw [hpde]
    rfl

theorem Built.addressSpace : AddressSpace (layTables kernelCeiling) pages m m' where
  bootloader _ hlow hhigh := h.bootloader_mapped hlow hhigh
  memory _ hpa hwindow := h.memory_mapped hpa hwindow
  stale va hpast hwindow := by
    rw [(h.window (by omega) hwindow).1, h.stale (by omega) (by omega)]
  nothing _ hboot hkernel := h.elsewhere_unmapped hboot hkernel

end

/-- For every size of memory short of 4 GiB and wherever the kernel ends, `BootstrapKernel` ends
with this address space, and has written nothing but its tables. -/
theorem bootstrapKernel_space {memSize fuel : Nat} (hfuel : 2 ^ 20 < fuel) (hmem : memSize ≤ 2 ^ 32 - 4096)
    (kernelCeiling : Word) (m : Mem) :
    ∃ m', bootstrapKernel memSize kernelCeiling fuel m = some (tableInfo (layTables kernelCeiling), m') ∧
      AddressSpace (layTables kernelCeiling) ((memSize + 4095) / 4096) m m' ∧
      ∀ x, ¬ Within x (layTables kernelCeiling).pagetableBase (20480 + 4 * ((memSize + 4095) / 4096)) → m' x = m x := by
  obtain ⟨m', hrun, hbuilt⟩ := bootstrapKernel_built hfuel hmem kernelCeiling m
  exact ⟨m', hrun, hbuilt.addressSpace, hbuilt.outside⟩

/-- A board of 256 MiB with a kernel that ends at 2 MiB. -/
theorem smallBoard_space : ∃ m',
    bootstrapKernel 0x10000000 0x200000#32 (2 ^ 20 + 1) (fun _ => 0#8) =
        some (tableInfo (layTables 0x200000#32), m') ∧
      walk m' (layTables 0x200000#32).rootPagedir (kernelBaseVa + 0x1234567#32) = some 0x1234567#32 := by
  obtain ⟨m', hrun, hspace, _⟩ := bootstrapKernel_space (by decide : 2 ^ 20 < 2 ^ 20 + 1)
    (by decide : 0x10000000 ≤ 2 ^ 32 - 4096) 0x200000#32 (fun _ => 0#8)
  exact ⟨m', hrun, (hspace.memory 0x1234567#32 (by decide) (by decide)).1⟩

/-- The tables stay in the range that is handed to the kernel, whatever was in memory, exactly
where memory is no more than the 512 MiB there are tables for: nothing checks its size. -/
theorem bootstrapKernel_contained_iff {memSize fuel : Nat} (hfuel : 2 ^ 20 < fuel) (hmem : memSize ≤ 2 ^ 32 - 4096)
    (kernelCeiling : Word) :
    (∀ m r, bootstrapKernel memSize kernelCeiling fuel m = some r →
      ∀ x, ¬ Within x (layTables kernelCeiling).pagetableBase 544768 → r.2 x = m x) ↔ memSize ≤ 0x20000000 := by
  constructor
  · intro hall
    obtain ⟨m', hrun, hbuilt⟩ := bootstrapKernel_built hfuel hmem kernelCeiling (fun _ => 0#8)
    refine Nat.not_lt.mp fun hmore => ?_
    obtain ⟨_, _, hkernelTables, _⟩ := layTables_offsets kernelCeiling
    have hwritten := hbuilt.kernel 131072 (by omega)
    have hsame : m'.word (elem (layTables kernelCeiling).kernelPagetables 131072) =
        Mem.word (fun _ => 0#8) (elem (layTables kernelCeiling).kernelPagetables 131072) := by
      refine Mem.word_congr fun x hx => hall _ _ hrun x fun hin => ?_
      rw [hkernelTables, elem, BitVec.add_assoc, ← BitVec.ofNat_add] at hx
      have hrange := (within_iff (by decide)).mp hx
      unfold Within at hin
      omega
    have hzero : Mem.word (fun _ => 0#8) (elem (layTables kernelCeiling).kernelPagetables 131072) = 0#32 := rfl
    rw [hwritten, hzero] at hsame
    exact absurd hsame (by decide)
  · intro hle m r hrun x hx
    obtain ⟨m', hrun', hbuilt⟩ := bootstrapKernel_built hfuel hmem kernelCeiling m
    obtain rfl := Option.some.inj (hrun.symm.trans hrun')
    exact hbuilt.outside x fun hin => hx (Nat.lt_of_lt_of_le hin (by omega))

/-- A board of 512 MiB, its memory zeros, with a kernel that ends at 2 MiB. -/
theorem fullBoard_contained : ∃ r, bootstrapKernel 0x20000000 0x200000#32 (2 ^ 20 + 1) (fun _ => 0#8) = some r ∧
    ∀ x, ¬ Within x (layTables 0x200000#32).pagetableBase 544768 → r.2 x = 0#8 := by
  have hfuel : 2 ^ 20 < 2 ^ 20 + 1 := by decide
  have hmem : 0x20000000 ≤ 2 ^ 32 - 4096 := by decide
  obtain ⟨m', hrun, -⟩ := bootstrapKernel_built hfuel hmem 0x200000#32 (fun _ => 0#8)
  exact ⟨_, hrun, (bootstrapKernel_contained_iff hfuel hmem 0x200000#32).mpr (Nat.le_refl _) _ _ hrun⟩

end CheviotBoot.Board.RaspberryPi1
