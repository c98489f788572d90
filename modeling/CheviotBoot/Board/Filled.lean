import CheviotBoot.Board.PageTables

namespace CheviotBoot.Board
open Lib

/-- What the page directory holds. -/
def pde (hal : Hal) (t : Tables) (i : Nat) : Word :=
  if i = ioPagetablesPdeBase then t.ioPagetable ||| hal.l1TypeC
  else if kernelPagetablesPdeBase ≤ i then
    elem t.kernelPagetables ((i - kernelPagetablesPdeBase) * nPagetablePte) ||| hal.l1TypeC
  else if i = 0 then t.bootloaderPagetables ||| hal.l1TypeC
  else l1TypeInv

theorem initPageDirectory_spec (hal : Hal) (t : Tables) {fuel : Nat}
    (hfuel : 2 ^ 20 ≤ fuel) (m : Mem) :
    ∃ m', initPageDirectory hal t fuel m = some m' ∧
      m.Wrote m' t.rootPagedir 16384 nPagedirPde (pde hal t) := by
  have hpde : nPagedirPde < fuel := Nat.lt_of_lt_of_le (by decide) hfuel
  have hcnt : kernelPagetablesCnt < fuel := Nat.lt_of_lt_of_le (by decide) hfuel
  have hsize : 4 * nPagedirPde ≤ 16384 := by decide
  have hlast : kernelPagetablesPdeBase + kernelPagetablesCnt ≤ nPagedirPde := by decide
  obtain ⟨m₁, hclear, h₁⟩ := forUpTo_fill t.rootPagedir m l1TypeInv hsize (by decide) hpde
  have h₂ := h₁.set hsize (by decide) (by decide : 0 < nPagedirPde) (t.bootloaderPagetables ||| hal.l1TypeC)
  obtain ⟨m₃, hkernel, h₃⟩ := forUpTo_overlay h₂
    (fun i => elem t.kernelPagetables (i * nPagetablePte) ||| hal.l1TypeC) hsize (by decide) hlast hcnt
  have h₄ := h₃.set hsize (by decide) (by decide : ioPagetablesPdeBase < nPagedirPde)
    (t.ioPagetable ||| hal.l1TypeC)
  refine ⟨_, ?_, h₄.congr ?_⟩
  · unfold initPageDirectory
    rw [hclear]
    simp only [bind, Option.bind]
    rw [hkernel]
  · intro i hi
    unfold pde
    by_cases hio : i = ioPagetablesPdeBase
    · rw [if_pos hio, hio, Function.update_self]
    · rw [if_neg hio, Function.update_of_ne hio]
      by_cases hk : kernelPagetablesPdeBase ≤ i
      · rw [if_pos hk, if_pos ⟨hk, Nat.lt_of_lt_of_le hi (by decide)⟩]
      · rw [if_neg hk, if_neg (fun h => hk h.1)]
        by_cases hz : i = 0
        · rw [if_pos hz, hz, Function.update_self]
        · rw [if_neg hz, Function.update_of_ne hz]

/-- The address of a page. -/
def pageAt (i : Nat) : Word := BitVec.ofNat 32 (4096 * i)

theorem pageAt_toNat {i : Nat} (h : i < 2 ^ 20) : (pageAt i).toNat = 4096 * i := by
  rw [pageAt, BitVec.toNat_ofNat]
  exact Nat.mod_eq_of_lt (by omega)

theorem pageAt_succ (i : Nat) : pageAt i + pageSize = pageAt (i + 1) := by
  have hsize : pageSize = BitVec.ofNat 32 4096 := rfl
  rw [pageAt, pageAt, hsize, ← BitVec.ofNat_add, Nat.mul_succ]

theorem pageAt_div {i : Nat} (h : i < 2 ^ 20) : (pageAt i / pageSize).toNat = i := by
  have hsize : pageSize.toNat = 4096 := rfl
  rw [BitVec.toNat_udiv, pageAt_toNat h, hsize]
  exact Nat.mul_div_cancel_left i (by decide)

theorem initKernelPagetables_spec (hal : Hal) (t : Tables) {fuel pages : Nat}
    (hfuel : 2 ^ 20 ≤ fuel) (hpages : pages ≤ 0x7FF00) (m : Mem) :
    ∃ m', initKernelPagetables hal t (4096 * pages) fuel m = some m' ∧
      m.Wrote m' t.kernelPagetables (4 * pages) pages (fun i => pageAt i ||| kernelBits hal) := by
  refine forLoop_counts pageAt ?_ ?_ (fun k _ => pageAt_succ k)
    (fun k s => m.Wrote s t.kernelPagetables (4 * pages) k (fun i => pageAt i ||| kernelBits hal)) ?_
    (by omega) (Mem.Wrote.refl m _ _ _)
  · intro k hk
    rw [pageAt_toNat (by omega)]
    exact decide_eq_true (by omega)
  · rw [pageAt_toNat (by omega)]
    exact decide_eq_false (Nat.lt_irrefl _)
  · intro k s hk hs
    refine ⟨_, rfl, ?_⟩
    rw [pageAt_div (by omega)]
    exact hs.push (by omega) (by omega)

/-- The address in a coarse table's directory entry. -/
theorem coarse_address {hal : Hal} {w : Word} (hw : w.toNat % 1024 = 0) :
    (w ||| hal.l1TypeC) &&& l1CAddrMask = w := by
  have hmask : l1CAddrMask = ~~~(ones 10) := rfl
  apply BitVec.eq_of_toNat_eq
  rw [hmask, toNat_and_not_ones _ (by decide), toNat_or_aligned 10 hw hal.l1TypeC_lt]
  have hlt := hal.l1TypeC_lt
  omega

/-- The index of an address in the page directory. -/
theorem pdeIdx_toNat (va : Word) :
    ((va &&& l1AddrBits) >>> l1IdxShift).toNat = va.toNat / 2 ^ 20 := by
  have hmask : l1AddrBits = ~~~(ones 20) := rfl
  rw [hmask, BitVec.toNat_ushiftRight, toNat_and_not_ones _ (by decide), Nat.shiftRight_eq_div_pow]
  exact Nat.mul_div_cancel _ (by decide)

/-- The index of an address in its table. -/
theorem pteIdx_toNat (va : Word) :
    ((va &&& l2AddrBits) >>> l2IdxShift).toNat = va.toNat / 4096 % 256 := by
  have hmask : l2AddrBits = ones 20 &&& ~~~(ones 12) := rfl
  rw [hmask, ← BitVec.and_assoc, BitVec.toNat_ushiftRight, toNat_and_not_ones _ (by decide),
    toNat_and_ones _ (by decide), Nat.shiftRight_eq_div_pow]
  change va.toNat % 2 ^ 20 / 2 ^ 12 * 2 ^ 12 / 2 ^ 12 = _
  omega

/-- What the bootloader's table holds. -/
def bootloaderPte (hal : Hal) (i : Nat) : Word :=
  if 1 ≤ i ∧ i < hal.vmBootloaderCeiling.toNat / 4096 then pageAt i ||| bootloaderBits hal else l2TypeInv

section

variable {hal : Hal} {t : Tables} {fuel : Nat} {m : Mem}

/-- While only its own table is written, the first directory entry leads there. -/
theorem pagetableOf_zero {s : Mem} {n : Nat} {entry : Nat → Word}
    (hs : m.Wrote s t.bootloaderPagetables 4096 n entry)
    (hroot : m.word t.rootPagedir = t.bootloaderPagetables ||| hal.l1TypeC)
    (haligned : t.bootloaderPagetables.toNat % 1024 = 0)
    (happart : ∀ x, Within x t.rootPagedir 4 → ¬ Within x t.bootloaderPagetables 4096) :
    pagetableOf t s 0 = t.bootloaderPagetables := by
  have hsame : s.word t.rootPagedir = m.word t.rootPagedir :=
    Mem.word_congr fun x hx => hs.outside x (happart x hx)
  rw [pagetableOf, elem_zero, hsame, hroot, coarse_address haligned]

theorem clearBootloaderPagetable_spec (hfuel : 2 ^ 20 ≤ fuel)
    (hpt : pagetableOf t m 0 = t.bootloaderPagetables) :
    ∃ m', clearBootloaderPagetable t fuel 0 m = some m' ∧
      m.Wrote m' t.bootloaderPagetables 4096 nPagetablePte (fun _ => l2TypeInv) := by
  obtain ⟨m₀, hfill, h₀⟩ := forUpTo_fill t.bootloaderPagetables m l2TypeInv
    (by decide : 4 * nPagetablePte ≤ 4096) (by decide) (Nat.lt_of_lt_of_le (by decide) hfuel)
  refine ⟨_, ?_, h₀.memset (k := 1024) (by decide) (pageSize - vpteTableOffs) (by decide) (by decide) 0#8⟩
  simp only [clearBootloaderPagetable, hpt, hfill, bind, Option.bind]
  rfl

theorem mapBootloaderPage_eq {s : Mem} {i : Nat} (hi : i < 256)
    (hpt : pagetableOf t s 0 = t.bootloaderPagetables) :
    mapBootloaderPage hal t (pageAt i) s =
      s.setWord (elem t.bootloaderPagetables i) (pageAt i ||| bootloaderBits hal) := by
  have hpde : 4096 * i / 2 ^ 20 = 0 := by omega
  have hpte : 4096 * i / 4096 % 256 = i := by omega
  unfold mapBootloaderPage
  rw [pdeIdx_toNat, pteIdx_toNat, pageAt_toNat (by omega), hpde, hpte, hpt]

theorem initBootloaderPagetables_spec (hfuel : 2 ^ 20 ≤ fuel)
    (hroot : m.word t.rootPagedir = t.bootloaderPagetables ||| hal.l1TypeC)
    (haligned : t.bootloaderPagetables.toNat % 1024 = 0)
    (happart : ∀ x, Within x t.rootPagedir 4 → ¬ Within x t.bootloaderPagetables 4096) :
    ∃ m', initBootloaderPagetables hal t fuel m = some m' ∧
      m.Wrote m' t.bootloaderPagetables 4096 nPagetablePte (bootloaderPte hal) := by
  have hzero := pagetableOf_zero (Mem.Wrote.refl m t.bootloaderPagetables 4096 (fun _ => l2TypeInv)) hroot
    haligned happart
  obtain ⟨m₁, hclear, h₁⟩ := clearBootloaderPagetable_spec hfuel hzero
  obtain ⟨n, hn⟩ := Nat.dvd_of_mod_eq_zero hal.ceiling_aligned
  have hle := hal.ceiling_le
  have hbelow : ∀ k, k < 256 → (pageAt (k + 1) < hal.vmBootloaderCeiling ↔ k + 1 < n) := by
    intro k hk
    rw [BitVec.lt_def, pageAt_toNat (by omega), hn]
    omega
  have hloop : ∃ m', forLoop (fun pa => decide (pa < hal.vmBootloaderCeiling)) (· + pageSize)
      (fun pa m => some (mapBootloaderPage hal t pa m)) fuel (pageAt (0 + 1)) m₁ = some m' ∧
      m.Wrote m' t.bootloaderPagetables 4096 nPagetablePte
        (fun i => if 1 ≤ i ∧ i < 1 + (n - 1) then pageAt i ||| bootloaderBits hal else l2TypeInv) := by
    refine forLoop_counts (fun k => pageAt (k + 1)) ?_ ?_ ?_
      (fun k s => m.Wrote s t.bootloaderPagetables 4096 nPagetablePte
        (fun i => if 1 ≤ i ∧ i < 1 + k then pageAt i ||| bootloaderBits hal else l2TypeInv)) ?_ (by omega) ?_
    · intro k hk
      exact decide_eq_true ((hbelow k (by omega)).mpr (by omega))
    · refine decide_eq_false fun hlt => ?_
      have hmore := (hbelow (n - 1) (by omega)).mp hlt
      omega
    · intro k _
      exact pageAt_succ (k + 1)
    · intro k s hk hs
      have hlt : k + 1 < 256 := by omega
      refine ⟨_, rfl, ?_⟩
      rw [mapBootloaderPage_eq hlt (pagetableOf_zero hs hroot haligned happart)]
      refine (hs.set (by decide) (by decide) (hlt : k + 1 < nPagetablePte) _).congr fun i hi => ?_
      by_cases he : i = k + 1
      · subst he
        rw [Function.update_self, if_pos (by omega)]
      · have hiff : (1 ≤ i ∧ i < 1 + k) ↔ (1 ≤ i ∧ i < 1 + (k + 1)) := by omega
        simp only [Function.update_of_ne he, hiff]
    · refine h₁.congr fun i hi => ?_
      rw [if_neg (by omega)]
  obtain ⟨m', hrun, hm'⟩ := hloop
  refine ⟨m', ?_, hm'.congr fun i hi => ?_⟩
  · have houter := forUpTo_one (by omega : 1 < fuel) (clearBootloaderPagetable t fuel) m
    rw [hclear] at houter
    unfold initBootloaderPagetables bootloaderPagetablesCnt
    rw [houter]
    exact hrun
  · have hiff : (1 ≤ i ∧ i < 1 + (n - 1)) ↔
      (1 ≤ i ∧ i < hal.vmBootloaderCeiling.toNat / 4096) := by omega
    simp only [bootloaderPte, hiff]

end

/-- The pages `init_io_pagetable` maps, in order. -/
def ioPages : List Word :=
  [timerBase, gpioBase, auxBase, gicdBase, giccBase, mboxBase / pageSize * pageSize]

/-- What the IO table holds. -/
def ioPte (hal : Hal) (i : Nat) : Word :=
  match ioPages[i]? with
  | some pa => pa ||| ioBits hal
  | none => l2TypeInv

theorem vmIoBase_add (j : Nat) : vmIoBase + pageAt j = pageAt (0xFFF00 + j) := by
  have hbase : vmIoBase = BitVec.ofNat 32 (4096 * 0xFFF00) := rfl
  rw [hbase, pageAt, pageAt, ← BitVec.ofNat_add, Nat.mul_add]

theorem alignDown32_pageAt {i : Nat} (h : i < 2 ^ 20) :
    alignDown32 (pageAt i) pageSize = pageAt i := by
  apply BitVec.eq_of_toNat_eq
  have hdown : (alignDown32 (pageAt i) pageSize).toNat = _ := alignDown32_toNat (pageAt i)
  rw [hdown, pageAt_toNat h]
  omega

theorem alignUp32_pageAt {i : Nat} (h : i < 2 ^ 20) : alignUp32 (pageAt i) pageSize = pageAt i := by
  apply BitVec.eq_of_toNat_eq
  have hup : (alignUp32 (pageAt i) pageSize).toNat = _ := alignUp32_toNat (pageAt i)
  rw [hup, pageAt_toNat h]
  omega

/-- The IO table with `j` pages handed out. -/
structure IoMapped (m : Mem) (t : Tables) (j : Nat) (entry : Nat → Word) (s : IoState) : Prop where
  base : s.ioMapBase = vmIoBase
  current : s.ioMapCurrent = pageAt (0xFFF00 + j)
  wrote : m.Wrote s.mem t.ioPagetable 1024 nPagetablePte entry

/-- `io_map` of whole pages that the table has room for. -/
theorem ioMap_pages {m : Mem} {t : Tables} {j : Nat} {entry : Nat → Word} {s : IoState} (hal : Hal)
    {fuel p n : Nat} {sz : Word} (hfuel : n < fuel) (hs : IoMapped m t j entry s) (hj : j < 256)
    (hroom : j + n ≤ 256) (hp : p + n < 2 ^ 20) (hsz : alignUp32 (pageAt p + sz) pageSize = pageAt (p + n)) :
    ∃ s', ioMap hal t fuel (pageAt p) sz s = some (pageAt (0xFFF00 + j), s') ∧
      IoMapped m t (j + n)
        (fun i => if j ≤ i ∧ i < j + n then pageAt (p + (i - j)) ||| ioBits hal else entry i) s' := by
  have hdiff : pageAt (p + n) - pageAt p = pageAt n := by
    rw [pageAt, Nat.mul_add, BitVec.ofNat_add, BitVec.add_comm, ← pageAt, ← pageAt, BitVec.add_sub_cancel]
  have hsum : pageAt (0xFFF00 + j) + pageAt n = pageAt (0xFFF00 + (j + n)) := by
    rw [pageAt, pageAt, pageAt, ← BitVec.ofNat_add, ← Nat.mul_add, Nat.add_assoc]
  have hindex : ∀ k, k < n → ((pageAt (0xFFF00 + j + k) - vmIoBase) / pageSize).toNat = j + k := by
    intro k hk
    rw [Nat.add_assoc, ← vmIoBase_add, BitVec.add_comm, BitVec.add_sub_cancel, pageAt_div (by omega)]
  obtain ⟨m', hloop, hm'⟩ : ∃ m', forLoop (fun i : Word × Word => decide (i.2 < pageAt (p + n)))
      (fun i => (i.1 + pageSize, i.2 + pageSize))
      (fun i m => some (m.setWord (elem t.ioPagetable ((i.1 - s.ioMapBase) / pageSize).toNat) (i.2 ||| ioBits hal)))
      fuel (pageAt (0xFFF00 + j), pageAt p) s.mem = some m' ∧
      m.Wrote m' t.ioPagetable 1024 nPagetablePte
        (fun i => if j ≤ i ∧ i < j + n then pageAt (p + (i - j)) ||| ioBits hal else entry i) := by
    refine forLoop_counts (fun k => (pageAt (0xFFF00 + j + k), pageAt (p + k))) ?_ ?_ ?_
      (fun k s => m.Wrote s t.ioPagetable 1024 nPagetablePte
        (fun i => if j ≤ i ∧ i < j + k then pageAt (p + (i - j)) ||| ioBits hal else entry i)) ?_ hfuel ?_
    · intro k hk
      refine decide_eq_true ?_
      rw [BitVec.lt_def, pageAt_toNat (by omega), pageAt_toNat (by omega)]
      omega
    · exact decide_eq_false (by rw [BitVec.lt_def]; exact Nat.lt_irrefl _)
    · intro k _
      exact Prod.ext (pageAt_succ _) (pageAt_succ _)
    · intro k m₁ hk hm₁
      refine ⟨_, rfl, ?_⟩
      rw [hs.base, hindex k hk]
      refine (hm₁.set (by decide) (by decide) (by omega : j + k < 256) _).congr fun i hi => ?_
      by_cases he : i = j + k
      · subst he
        rw [Function.update_self, if_pos (by omega), Nat.add_sub_cancel_left]
      · have hiff : (j ≤ i ∧ i < j + k) ↔ (j ≤ i ∧ i < j + (k + 1)) := by omega
        simp only [Function.update_of_ne he, hiff]
    · refine hs.wrote.congr fun i hi => ?_
      rw [if_neg (by omega)]
  refine ⟨⟨m', s.ioMapBase, pageAt (0xFFF00 + (j + n))⟩, ?_, ⟨hs.base, rfl, hm'⟩⟩
  unfold ioMap
  rw [hs.current, alignDown32_pageAt (by omega), hsz, alignUp32_pageAt (by omega)]
  simp only [bind, Option.bind]
  rw [hloop, hdiff, hsum]

/-- `io_map` of one page. -/
theorem ioMap_page {m : Mem} {t : Tables} {j : Nat} {entry : Nat → Word} {s : IoState} (hal : Hal)
    {fuel p : Nat}
    (hfuel : 1 < fuel) (hs : IoMapped m t j entry s) (hj : j < 255) (hp : p + 1 < 2 ^ 20) :
    ∃ s', ioMap hal t fuel (pageAt p) pageSize s = some (pageAt (0xFFF00 + j), s') ∧
      IoMapped m t (j + 1) (Function.update entry j (pageAt p ||| ioBits hal)) s' := by
  have hsz : alignUp32 (pageAt p + pageSize) pageSize = pageAt (p + 1) := by
    rw [pageAt_succ, alignUp32_pageAt hp]
  obtain ⟨s', hrun, hs'⟩ := ioMap_pages hal hfuel hs (by omega) (by omega) hp hsz
  refine ⟨s', hrun, hs'.base, hs'.current, hs'.wrote.congr fun i _ => ?_⟩
  by_cases he : i = j
  · subst he
    rw [Function.update_self, if_pos (by omega), Nat.sub_self, Nat.add_zero]
  · rw [Function.update_of_ne he, if_neg (by omega)]

/-- The addresses handed out: one page after another, and the mailbox inside its page. -/
def ioBases : IoBases where
  timerBase := pageAt 0xFFF00
  gpioBase := pageAt 0xFFF01
  auxBase := pageAt 0xFFF02
  gicdBase := pageAt 0xFFF03
  giccBase := pageAt 0xFFF04
  mailboxBase := pageAt 0xFFF05 + mboxBase % pageSize

theorem initIoPagetable_spec (hal : Hal) (t : Tables) {fuel : Nat}
    (hfuel : 2 ^ 20 ≤ fuel) (m : Mem) :
    ∃ m', initIoPagetable hal t fuel m = some (ioBases, m') ∧
      m.Wrote m' t.ioPagetable 1024 nPagetablePte (ioPte hal) := by
  obtain ⟨m₁, hclear, h₁⟩ := forUpTo_fill t.ioPagetable m l2TypeInv (by decide : 4 * nPagetablePte ≤ 1024)
    (by decide) (Nat.lt_of_lt_of_le (by decide) hfuel)
  have hone : 1 < fuel := Nat.lt_of_lt_of_le (by decide) hfuel
  have h₀ : IoMapped m t 0 (fun _ => l2TypeInv) ⟨m₁, vmIoBase, vmIoBase⟩ := ⟨rfl, rfl, h₁⟩
  obtain ⟨s₁, hrun₁, hs₁⟩ := ioMap_page (p := 0xfe003) hal hone h₀ (by decide) (by decide)
  obtain ⟨s₂, hrun₂, hs₂⟩ := ioMap_page (p := 0xfe200) hal hone hs₁ (by decide) (by decide)
  obtain ⟨s₃, hrun₃, hs₃⟩ := ioMap_page (p := 0xfe215) hal hone hs₂ (by decide) (by decide)
  obtain ⟨s₄, hrun₄, hs₄⟩ := ioMap_page (p := 0xff841) hal hone hs₃ (by decide) (by decide)
  obtain ⟨s₅, hrun₅, hs₅⟩ := ioMap_page (p := 0xff842) hal hone hs₄ (by decide) (by decide)
  obtain ⟨s₆, hrun₆, hs₆⟩ := ioMap_page (p := 0xfe00b) hal hone hs₅ (by decide) (by decide)
  have htimer : timerBase = pageAt 0xfe003 := rfl
  have hgpio : gpioBase = pageAt 0xfe200 := rfl
  have haux : auxBase = pageAt 0xfe215 := rfl
  have hgicd : gicdBase = pageAt 0xff841 := rfl
  have hgicc : giccBase = pageAt 0xff842 := rfl
  have hmbox : mboxBase / pageSize * pageSize = pageAt 0xfe00b := rfl
  refine ⟨s₆.mem, ?_, hs₆.wrote.congr ?_⟩
  · simp only [initIoPagetable, hclear, htimer, hgpio, haux, hgicd, hgicc, hmbox,
      hrun₁, hrun₂, hrun₃, hrun₄, hrun₅, hrun₆, bind, Option.bind]
    rfl
  · intro i _
    simp only [ioPte, ioPages, htimer, hgpio, haux, hgicd, hgicc, hmbox]
    rcases i with _ | _ | _ | _ | _ | _ | i <;> rfl

end CheviotBoot.Board
