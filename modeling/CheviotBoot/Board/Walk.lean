import CheviotBoot.Board.Bootstrap

namespace CheviotBoot.Board
open Lib

/-- Where a second-level entry takes an address: a small page, a large page, or nowhere. -/
def pteTarget (pte va : Word) : Option Word :=
  if pte &&& 2#32 ≠ 0#32 then some ((pte &&& 0xfffff000#32) ||| (va &&& 0xfff#32))
  else if pte &&& 1#32 ≠ 0#32 then some ((pte &&& 0xffff0000#32) ||| (va &&& 0xffff#32))
  else none

/-- The two-level walk of the short-descriptor format; `none` is a translation fault. -/
def walk (m : Mem) (ttbr va : Word) : Option Word :=
  let pde := m.word (elem ttbr (va.toNat / 2 ^ 20))
  if pde &&& 3#32 = 1#32 then pteTarget (m.word (elem (pde &&& l1CAddrMask) (va.toNat / 4096 % 256))) va
  else if pde &&& 3#32 = 2#32 then some ((pde &&& 0xfff00000#32) ||| (va &&& 0xfffff#32))
  else none

/-- Attributes of a small page. -/
def SmallPage (bits : Word) : Prop := bits.toNat < 2 ^ 12 ∧ bits &&& 2#32 = 2#32

theorem smallPage_or {bits more : Word} (h : SmallPage bits) (hmore : more.toNat < 2 ^ 12) :
    SmallPage (bits ||| more) := by
  refine ⟨?_, ?_⟩
  · rw [BitVec.toNat_or]
    exact Nat.or_lt_two_pow h.1 hmore
  · apply BitVec.eq_of_getLsbD_eq
    intro i hi
    have hbit := congrArg (fun w : Word => w.getLsbD i) h.2
    simp only [BitVec.getLsbD_and, BitVec.getLsbD_or] at hbit ⊢
    cases hb : bits.getLsbD i <;> simp_all

theorem smallPage_l2TypeS : SmallPage l2TypeS := ⟨by decide, by decide⟩

theorem kernelBits_small (hal : Hal) : SmallPage (kernelBits hal) :=
  smallPage_or (smallPage_or smallPage_l2TypeS hal.l2ApRwk_lt)
    (by rw [BitVec.toNat_or]; exact Nat.or_lt_two_pow hal.l2C_lt hal.l2B_lt)

theorem bootloaderBits_small (hal : Hal) : SmallPage (bootloaderBits hal) :=
  smallPage_or smallPage_l2TypeS hal.l2ApRwku_lt

theorem ioBits_small (hal : Hal) : SmallPage (ioBits hal) :=
  smallPage_or smallPage_l2TypeS hal.l2ApRwk_lt

/-- A small page takes an address to the same offset in the page. -/
theorem pteTarget_small {p bits : Word} (hp : p.toNat % 4096 = 0) (hbits : SmallPage bits)
    {va target : Word}
    (htarget : target.toNat = p.toNat + va.toNat % 4096) : pteTarget (p ||| bits) va = some target := by
  have hsmall : (p ||| bits) &&& 2#32 ≠ 0#32 := by
    intro hzero
    have hbit := congrArg (fun w : Word => w.getLsbD 1) hzero
    have hone := congrArg (fun w : Word => w.getLsbD 1) hbits.2
    simp only [BitVec.getLsbD_and, BitVec.getLsbD_or] at hbit hone
    cases hb : bits.getLsbD 1 <;> simp_all
  have hpage : ((p ||| bits) &&& 0xfffff000#32).toNat = p.toNat := by
    have hmask : (0xfffff000#32 : Word) = ~~~(ones 12) := rfl
    have hlt := hbits.1
    rw [hmask, toNat_and_not_ones _ (by decide), toNat_or_aligned 12 hp hbits.1]
    omega
  have hoffset : (va &&& 0xfff#32).toNat = va.toNat % 4096 := by
    have hmask : (0xfff#32 : Word) = ones 12 := rfl
    rw [hmask]
    exact toNat_and_ones va (by decide : 12 ≤ 32)
  rw [pteTarget, if_pos hsmall]
  congr 1
  apply BitVec.eq_of_toNat_eq
  rw [toNat_or_aligned 12 (by rw [hpage]; exact hp) (by rw [hoffset]; exact Nat.mod_lt _ (by decide)), hpage, hoffset,
    htarget]

theorem pteTarget_eq_none {pte va : Word} : pteTarget pte va = none ↔ pte &&& 3#32 = 0#32 := by
  have hmask : (3#32 : Word) = 2#32 ||| 1#32 := rfl
  rw [hmask, BitVec.and_or_distrib_left, BitVec.or_eq_zero_iff]
  unfold pteTarget
  by_cases htwo : pte &&& 2#32 = 0#32
  · by_cases hone : pte &&& 1#32 = 0#32
    · simp [htwo, hone]
    · simp [htwo, hone]
  · simp [htwo]

/-- A walk through a directory entry that points to a table. -/
theorem walk_coarse {m : Mem} {ttbr va pt : Word} {hal : Hal}
    (hpde : m.word (elem ttbr (va.toNat / 2 ^ 20)) = pt ||| hal.l1TypeC) (hpt : pt.toNat % 1024 = 0) :
    walk m ttbr va = pteTarget (m.word (elem pt (va.toNat / 4096 % 256))) va := by
  have htype : (pt ||| hal.l1TypeC) &&& 3#32 = 1#32 := by
    have hmask : (3#32 : Word) = ones 2 := rfl
    have hcoarse := hal.coarse
    apply BitVec.eq_of_toNat_eq
    rw [hmask, toNat_and_ones _ (by decide), toNat_or_aligned 10 hpt hal.l1TypeC_lt]
    change _ = 1
    omega
  unfold walk
  simp only [hpde, htype, coarse_address hpt, if_true]

section

variable {hal : Hal} {kernelCeiling : Word} {pages : Nat} {m m' : Mem}

/-- An address in the first megabyte is looked up in the bootloader's table. -/
theorem Built.walk_bootloader (h : Built hal (layTables kernelCeiling) pages m m') {va : Word}
    (hva : va.toNat < 2 ^ 20) : walk m' (layTables kernelCeiling).rootPagedir va =
      pteTarget (bootloaderPte hal (va.toNat / 4096)) va := by
  have hindex : va.toNat / 2 ^ 20 = 0 := by omega
  have hmod : va.toNat / 4096 % 256 = va.toNat / 4096 := by omega
  have hpde := h.root 0 (by decide)
  rw [← hindex] at hpde
  rw [walk_coarse (hpde.trans (by rw [hindex]; rfl)) (layTables_aligned kernelCeiling).1, hmod,
    h.bootloader _ (by omega : va.toNat / 4096 < 256)]

/-- Between it and the kernel nothing is mapped. -/
theorem Built.walk_gap (h : Built hal (layTables kernelCeiling) pages m m') {va : Word}
    (hlow : 2 ^ 20 ≤ va.toNat) (hhigh : va.toNat < 2 ^ 31) :
    walk m' (layTables kernelCeiling).rootPagedir va = none := by
  have hpde : m'.word (elem (layTables kernelCeiling).rootPagedir (va.toNat / 2 ^ 20)) = 0#32 := by
    rw [h.root _ (by omega : va.toNat / 2 ^ 20 < 4096), pde,
      if_neg (by unfold ioPagetablesPdeBase; omega),
      if_neg (by unfold kernelPagetablesPdeBase; omega), if_neg (by omega)]
    rfl
  unfold walk
  rw [hpde]
  rfl

/-- An address in the kernel's window is looked up by its page number. -/
theorem Built.walk_kernel (h : Built hal (layTables kernelCeiling) pages m m') {va : Word}
    (hlow : 2 ^ 31 ≤ va.toNat) (hhigh : va.toNat < 0xFFF00000) :
    walk m' (layTables kernelCeiling).rootPagedir va =
      pteTarget (m'.word (elem (layTables kernelCeiling).kernelPagetables ((va.toNat - 2 ^ 31) / 4096))) va := by
  have haligned := (layTables_aligned kernelCeiling).2.1
  have hpde := h.root (va.toNat / 2 ^ 20) (by omega : va.toNat / 2 ^ 20 < 4096)
  rw [pde, if_neg (by unfold ioPagetablesPdeBase; omega),
    if_pos (by unfold kernelPagetablesPdeBase; omega)] at hpde
  have hpt : (elem (layTables kernelCeiling).kernelPagetables
      ((va.toNat / 2 ^ 20 - kernelPagetablesPdeBase) * nPagetablePte)).toNat % 1024 = 0 := by
    unfold elem nPagetablePte
    rw [BitVec.toNat_add, BitVec.toNat_ofNat]
    omega
  have hindex : (va.toNat / 2 ^ 20 - kernelPagetablesPdeBase) * nPagetablePte + va.toNat / 4096 % 256 =
      (va.toNat - 2 ^ 31) / 4096 := by
    unfold kernelPagetablesPdeBase nPagetablePte
    omega
  rw [walk_coarse hpde hpt, elem_add, hindex]

/-- An address in the last megabyte is looked up in the IO table. -/
theorem Built.walk_io (h : Built hal (layTables kernelCeiling) pages m m') {va : Word}
    (hlow : 0xFFF00000 ≤ va.toNat) : walk m' (layTables kernelCeiling).rootPagedir va =
      pteTarget (ioPte hal ((va.toNat - 0xFFF00000) / 4096)) va := by
  have hva := va.isLt
  have hpde := h.root (va.toNat / 2 ^ 20) (by omega : va.toNat / 2 ^ 20 < 4096)
  rw [pde, if_pos (by unfold ioPagetablesPdeBase; omega)] at hpde
  have hmod : va.toNat / 4096 % 256 = (va.toNat - 0xFFF00000) / 4096 := by omega
  rw [walk_coarse hpde (layTables_aligned kernelCeiling).2.2, hmod,
    h.io _ (by omega : (va.toNat - 0xFFF00000) / 4096 < 256)]

/-- Memory is mapped at the kernel's base. -/
theorem Built.maps_memory (h : Built hal (layTables kernelCeiling) pages m m')
    (hpages : pages ≤ 0x7FF00) {a : Word}
    (ha : a.toNat < 4096 * pages) : walk m' (layTables kernelCeiling).rootPagedir (vmKernelBase + a) = some a := by
  have hva : (vmKernelBase + a).toNat = 2 ^ 31 + a.toNat := by
    rw [BitVec.toNat_add]
    exact Nat.mod_eq_of_lt (by omega : 2 ^ 31 + a.toNat < 2 ^ 32)
  have hindex : (2 ^ 31 + a.toNat - 2 ^ 31) / 4096 = a.toNat / 4096 := by rw [Nat.add_sub_cancel_left]
  have hpage : (pageAt (a.toNat / 4096)).toNat = 4096 * (a.toNat / 4096) := pageAt_toNat (by omega)
  rw [h.walk_kernel (by omega) (by omega), hva, hindex, h.kernel _ (by omega)]
  exact pteTarget_small (by omega) (kernelBits_small hal) (by omega)

/-- The bootloader keeps the addresses it runs at. -/
theorem Built.maps_bootloader (h : Built hal (layTables kernelCeiling) pages m m') {a : Word}
    (hlow : 4096 ≤ a.toNat) (hhigh : a.toNat < hal.vmBootloaderCeiling.toNat) :
    walk m' (layTables kernelCeiling).rootPagedir a = some a := by
  have hle := hal.ceiling_le
  have haligned := hal.ceiling_aligned
  have hpage : (pageAt (a.toNat / 4096)).toNat = 4096 * (a.toNat / 4096) := pageAt_toNat (by omega)
  rw [h.walk_bootloader (by omega), bootloaderPte, if_pos (by omega)]
  exact pteTarget_small (by omega) (bootloaderBits_small hal) (by omega)

/-- The devices lie at page addresses. -/
theorem ioPages_pageAt {j : Nat} {pa : Word} (h : ioPages[j]? = some pa) :
    j < 6 ∧ ∃ p, p < 2 ^ 20 ∧ pa = pageAt p := by
  have hpages : ioPages = [0xfe003, 0xfe200, 0xfe215, 0xff841, 0xff842, 0xfe00b].map pageAt := rfl
  have hlt : j < 6 := (List.getElem?_eq_some_iff.mp h).1
  rw [hpages] at h
  obtain ⟨p, hp, rfl⟩ := List.mem_map.mp (List.mem_of_getElem? h)
  have hall : ∀ p ∈ [0xfe003, 0xfe200, 0xfe215, 0xff841, 0xff842, 0xfe00b], p < 2 ^ 20 := by decide
  exact ⟨hlt, p, hall p hp, rfl⟩

/-- Each page handed out by `io_map` leads to its device. -/
theorem Built.maps_io (h : Built hal (layTables kernelCeiling) pages m m') {j k : Nat} {pa : Word}
    (hj : ioPages[j]? = some pa) (hk : k < 4096) : walk m' (layTables kernelCeiling).rootPagedir
      (pageAt (0xFFF00 + j) + BitVec.ofNat 32 k) = some (pa + BitVec.ofNat 32 k) := by
  obtain ⟨hlt, p, hp, rfl⟩ := ioPages_pageAt hj
  have hpage : 0xFFF00 + j < 2 ^ 20 := by omega
  have hbase := pageAt_toNat hpage
  have hpa := pageAt_toNat hp
  have hva : (pageAt (0xFFF00 + j) + BitVec.ofNat 32 k).toNat = 4096 * (0xFFF00 + j) + k := by
    rw [BitVec.toNat_add, hbase, BitVec.toNat_ofNat]
    omega
  have htarget : (pageAt p + BitVec.ofNat 32 k).toNat = 4096 * p + k := by
    rw [BitVec.toNat_add, hpa, BitVec.toNat_ofNat]
    omega
  have hindex : (4096 * (0xFFF00 + j) + k - 0xFFF00000) / 4096 = j := by omega
  rw [h.walk_io (by rw [hva]; omega), hva, hindex, ioPte, hj]
  refine pteTarget_small (by rw [hpa]; omega) (ioBits_small hal) ?_
  rw [htarget, hpa, hva]
  omega

end

/-- The byte that is read at a virtual address. -/
def readVirtual (m : Mem) (ttbr va : Word) : Option Byte := (walk m ttbr va).map m

/-- These bytes are read from a virtual address on. -/
def Sees (m : Mem) (ttbr va : Word) (bs : List Byte) : Prop :=
  ∀ i (h : i < bs.length), readVirtual m ttbr (va + BitVec.ofNat 32 i) = some bs[i]

/-- What memory carries below its end is seen at the kernel's base. -/
theorem Built.sees {hal : Hal} {kernelCeiling : Word} {pages : Nat} {m m' : Mem}
    (h : Built hal (layTables kernelCeiling) pages m m') (hpages : pages ≤ 0x7FF00) {a : Word} {bs : List Byte}
    (hcarries : m'.Carries a bs) (hbelow : ∀ i, i < bs.length → (a + BitVec.ofNat 32 i).toNat < 4096 * pages) :
    Sees m' (layTables kernelCeiling).rootPagedir (vmKernelBase + a) bs := by
  intro i hi
  rw [readVirtual, BitVec.add_assoc, h.maps_memory hpages (hbelow i hi), Option.map_some, hcarries i hi]

end CheviotBoot.Board
