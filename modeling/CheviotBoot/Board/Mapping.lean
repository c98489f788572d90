import CheviotBoot.Board.Walk

namespace CheviotBoot.Board
open Lib

/-- The tables are apart and inside the range they are carved from. -/
structure Tables.Carved (t : Tables) : Prop where
  apart : t.areas.Pairwise AreasApart
  inside : ∀ a ∈ t.areas, t.pagetableBase.toNat ≤ a.1.toNat ∧
    a.1.toNat + a.2 ≤ t.pagetableCeiling.toNat

/-- The device pages: the address each was given, and where it is. -/
def ioMappings (io : IoBases) : List (Word × Word) :=
  [(io.timerBase, timerBase), (io.gpioBase, gpioBase), (io.auxBase, auxBase), (io.gicdBase, gicdBase),
    (io.giccBase, giccBase), (io.mailboxBase - mboxBase % pageSize, mboxBase / pageSize * pageSize)]

/-- What the walk has to find. -/
structure MapsMachine (hal : Hal) (memSize : Nat) (io : IoBases) (ttbr : Word)
    (m : Mem) : Prop where
  memory : ∀ a, a.toNat < memSize → walk m ttbr (vmKernelBase + a) = some a
  bootloader : ∀ a, 4096 ≤ a.toNat → a.toNat < hal.vmBootloaderCeiling.toNat →
    walk m ttbr a = some a
  devices : ∀ p ∈ ioMappings io, ∀ k, k < 4096 →
    walk m ttbr (p.1 + BitVec.ofNat 32 k) = some (p.2 + BitVec.ofNat 32 k)

/-- The addresses that are meant to be mapped. -/
def Meant (hal : Hal) (memSize : Nat) (va : Word) : Prop :=
  (4096 ≤ va.toNat ∧ va.toNat < hal.vmBootloaderCeiling.toNat) ∨
    (2 ^ 31 ≤ va.toNat ∧ va.toNat < 2 ^ 31 + memSize) ∨
    (0xFFF00000 ≤ va.toNat ∧ va.toNat < 0xFFF00000 + 4096 * ioPages.length)

/-- Laid below 2 GiB the tables do not wrap around. -/
theorem layTables_carved {kernelCeiling : Word}
    (hfit : alignUp kernelCeiling.toNat 16384 + 2121728 ≤ 2 ^ 31) :
    (layTables kernelCeiling).Carved := by
  refine ⟨layTables_apart kernelCeiling, ?_⟩
  obtain ⟨hroot, hboot, hkernel, hio, hceiling⟩ := layTables_offsets kernelCeiling
  have hbase : (layTables kernelCeiling).pagetableBase.toNat = alignUp kernelCeiling.toNat 16384 := by
    have hsum : (kernelCeiling + 16384#32 - 1).toNat = kernelCeiling.toNat + 16384 - 1 := by
      unfold alignUp at hfit
      bv_omega
    change (alignUp32 kernelCeiling 16384#32).toNat = _
    rw [alignUp32_eq, hsum]
    rfl
  have hoffset : ∀ a, a ≤ 2121728 →
    ((layTables kernelCeiling).pagetableBase + BitVec.ofNat 32 a).toNat =
      (layTables kernelCeiling).pagetableBase.toNat + a := by
    intro a ha
    rw [BitVec.toNat_add, BitVec.toNat_ofNat, hbase]
    omega
  unfold Tables.areas
  rw [hroot, hboot, hkernel, hio, hceiling]
  simp only [List.mem_cons, List.not_mem_nil, or_false, forall_eq_or_imp, forall_eq]
  rw [hoffset 0 (by decide), hoffset 16384 (by decide),
    hoffset 20480 (by decide), hoffset 2117632 (by decide), hoffset 2121728 (by decide)]
  omega

/-- The bases handed out stand for the pages mapped. -/
theorem ioMappings_ioBases {p : Word × Word} (h : p ∈ ioMappings ioBases) :
    ∃ j, p.1 = pageAt (0xFFF00 + j) ∧ ioPages[j]? = some p.2 := by
  have hmailbox : ioBases.mailboxBase - mboxBase % pageSize = pageAt 0xFFF05 := by
    change pageAt 0xFFF05 + mboxBase % pageSize - mboxBase % pageSize = _
    rw [BitVec.add_sub_cancel]
  unfold ioMappings at h
  rw [hmailbox] at h
  simp only [List.mem_cons, List.not_mem_nil, or_false] at h
  rcases h with rfl | rfl | rfl | rfl | rfl | rfl
  · exact ⟨0, rfl, rfl⟩
  · exact ⟨1, rfl, rfl⟩
  · exact ⟨2, rfl, rfl⟩
  · exact ⟨3, rfl, rfl⟩
  · exact ⟨4, rfl, rfl⟩
  · exact ⟨5, rfl, rfl⟩

/-- For every board and wherever the tables are laid below 2 GiB, `bootstrap_kernel` ends,
keeps to the table areas, and maps memory, the bootloader and the devices. -/
theorem bootstrapKernel_maps (hal : Hal) (revision videocoreBase videocoreSize : Word)
    (b : BoardInfo)
    {kernelCeiling : Word} (hfit : alignUp kernelCeiling.toNat 16384 + 2121728 ≤ 2 ^ 31) {fuel : Nat}
    (hfuel : 2 ^ 20 ≤ fuel) (m : Mem) :
    (layTables kernelCeiling).Carved ∧
      ∃ info m', bootstrapKernel hal (parseRevision revision videocoreBase videocoreSize b).memSize kernelCeiling
          fuel m = some (info, m') ∧
        (∀ x, (∀ a ∈ (layTables kernelCeiling).areas, ¬ Within x a.1 a.2) → m' x = m x) ∧
        MapsMachine hal (parseRevision revision videocoreBase videocoreSize b).memSize info.io
          (layTables kernelCeiling).rootPagedir m' := by
  obtain ⟨pages, hsize, hpages⟩ := parseRevision_memSize revision videocoreBase videocoreSize b
  rw [hsize]
  obtain ⟨m', hrun, hbuilt⟩ := bootstrapKernel_built hal hfuel hpages kernelCeiling m
  refine ⟨layTables_carved hfit, _, m', hrun, hbuilt.outside, ?_⟩
  refine ⟨fun a ha => hbuilt.maps_memory hpages ha,
    fun a hlow hhigh => hbuilt.maps_bootloader hlow hhigh, ?_⟩
  intro p hp k hk
  obtain ⟨j, hva, hpa⟩ := ioMappings_ioBases hp
  rw [hva]
  exact hbuilt.maps_io hpa hk

/-- Attributes as on the Raspberry Pi, with the bootloader's mapping ending at 512 KiB. -/
def sampleHal : Hal where
  l1TypeC := 1#32
  l2ApRwk := 0x10#32
  l2ApRwku := 0x30#32
  l2C := 8#32
  l2B := 4#32
  vmBootloaderCeiling := 0x80000#32
  coarse := rfl
  l1TypeC_lt := by decide
  l2ApRwk_lt := by decide
  l2ApRwku_lt := by decide
  l2C_lt := by decide
  l2B_lt := by decide
  ceiling_aligned := rfl
  ceiling_le := by decide

/-- `bootinfo` before anything is known of the board. -/
def noBoard : BoardInfo := ⟨0#32, 0, 0#32, 0#32, Vector.replicate 16 0#8, 0#32, 0#32⟩

/-- An old-style board of 128 MiB, with a kernel that ends at 2 MiB. -/
theorem sampleBoard_maps : ∃ info m',
    bootstrapKernel sampleHal (parseRevision 0#32 0#32 0#32 noBoard).memSize 0x200000#32 (2 ^ 20)
        (fun _ => 2#8) = some (info, m') ∧
      walk m' (layTables 0x200000#32).rootPagedir (vmKernelBase + 0x1234#32) = some 0x1234#32 := by
  obtain ⟨_, info, m', hrun, _, hmaps⟩ := bootstrapKernel_maps sampleHal 0#32 0#32 0#32 noBoard
    (by decide : alignUp (0x200000#32 : Word).toNat 16384 + 2121728 ≤ 2 ^ 31) (Nat.le_refl _) (fun _ => 2#8)
  refine ⟨info, m', hrun, hmaps.memory 0x1234#32 ?_⟩
  change 0x1234 < 128 * 1024 * 1024
  decide

/-- Past the end of memory the kernel's tables say what lay there before. -/
theorem Built.walk_stale {hal : Hal} {kernelCeiling : Word} {pages : Nat} {m m' : Mem}
    (h : Built hal (layTables kernelCeiling) pages m m') {i : Nat} (hlow : pages ≤ i) (hhigh : i < 0x7FF00) {va : Word}
    (hva : (va.toNat - 2 ^ 31) / 4096 = i) (hwindow : 2 ^ 31 ≤ va.toNat) :
    walk m' (layTables kernelCeiling).rootPagedir va = none ↔
      m.word (elem (layTables kernelCeiling).kernelPagetables i) &&& 3#32 = 0#32 := by
  rw [h.walk_kernel hwindow (by omega), hva, h.stale i hlow (by omega), pteTarget_eq_none]

theorem pteTarget_l2TypeInv (va : Word) : pteTarget l2TypeInv va = none := pteTarget_eq_none.mpr rfl

/-- Outside the kernel's window only what is meant to be mapped is. -/
theorem Built.walk_unmeant {hal : Hal} {kernelCeiling : Word} {pages : Nat} {m m' : Mem}
    (h : Built hal (layTables kernelCeiling) pages m m') {va : Word} (hva : ¬ Meant hal (4096 * pages) va)
    (hout : va.toNat < 2 ^ 31 ∨ 0xFFF00000 ≤ va.toNat) :
    walk m' (layTables kernelCeiling).rootPagedir va = none := by
  have haligned := hal.ceiling_aligned
  unfold Meant at hva
  cases hout with
  | inl hlow =>
    by_cases hfirst : va.toNat < 2 ^ 20
    · rw [h.walk_bootloader hfirst, bootloaderPte, if_neg (by omega)]
      exact pteTarget_l2TypeInv va
    · exact h.walk_gap (by omega) hlow
  | inr hio =>
    have hlen : ioPages.length = 6 := rfl
    rw [hlen] at hva
    have hnone : ioPages[(va.toNat - 0xFFF00000) / 4096]? = none := by
      apply List.getElem?_eq_none
      omega
    rw [h.walk_io hio, ioPte, hnone]
    exact pteTarget_l2TypeInv va

/-- Nothing else is mapped exactly when the part of the kernel's tables that stands for no
memory happened to hold invalid entries before. -/
theorem Built.faults_iff {hal : Hal} {kernelCeiling : Word} {pages : Nat} {m m' : Mem}
    (h : Built hal (layTables kernelCeiling) pages m m') :
    (∀ va, ¬ Meant hal (4096 * pages) va →
      walk m' (layTables kernelCeiling).rootPagedir va = none) ↔
      ∀ i, pages ≤ i → i < 0x7FF00 →
        m.word (elem (layTables kernelCeiling).kernelPagetables i) &&& 3#32 = 0#32 := by
  constructor
  · intro hall i hlow hhigh
    have hva : (BitVec.ofNat 32 (2 ^ 31 + 4096 * i) : Word).toNat = 2 ^ 31 + 4096 * i := by
      rw [BitVec.toNat_ofNat]
      omega
    have hle := hal.ceiling_le
    refine (h.walk_stale hlow hhigh (by rw [hva]; omega) (by rw [hva]; omega)).mp (hall _ ?_)
    unfold Meant
    rw [hva]
    omega
  · intro hinvalid va hva
    by_cases hout : va.toNat < 2 ^ 31 ∨ 0xFFF00000 ≤ va.toNat
    · exact h.walk_unmeant hva hout
    · have hlow : pages ≤ (va.toNat - 2 ^ 31) / 4096 := by
        unfold Meant at hva
        omega
      have hhigh : (va.toNat - 2 ^ 31) / 4096 < 0x7FF00 := by omega
      exact (h.walk_stale hlow hhigh rfl (by omega)).mpr (hinvalid _ hlow hhigh)

/-- After `bootstrap_kernel` nothing but what is meant to be is mapped exactly when the entries
of the kernel's tables past the end of memory were invalid before it. -/
theorem bootstrapKernel_faults (hal : Hal) (revision videocoreBase videocoreSize : Word)
    (b : BoardInfo) (kernelCeiling : Word) {fuel : Nat} (hfuel : 2 ^ 20 ≤ fuel) (m : Mem) :
    ∃ info m', bootstrapKernel hal (parseRevision revision videocoreBase videocoreSize b).memSize kernelCeiling
        fuel m = some (info, m') ∧
      ((∀ va, ¬ Meant hal (parseRevision revision videocoreBase videocoreSize b).memSize va →
          walk m' (layTables kernelCeiling).rootPagedir va = none) ↔
        ∀ i, (parseRevision revision videocoreBase videocoreSize b).memSize / 4096 ≤ i → i < 0x7FF00 →
          m.word (elem (layTables kernelCeiling).kernelPagetables i) &&& 3#32 = 0#32) := by
  obtain ⟨pages, hsize, hpages⟩ := parseRevision_memSize revision videocoreBase videocoreSize b
  rw [hsize, Nat.mul_div_cancel_left pages (by decide)]
  obtain ⟨m', hrun, hbuilt⟩ := bootstrapKernel_built hal hfuel hpages kernelCeiling m
  exact ⟨_, m', hrun, hbuilt.faults_iff⟩

/-- A board of 2 GiB, whose memory fills the kernel's tables. -/
theorem fullBoard_faults : ∃ info m',
    bootstrapKernel sampleHal (parseRevision 0xB00000#32 0#32 0#32 noBoard).memSize 0x200000#32 (2 ^ 20)
        (fun _ => 2#8) = some (info, m') ∧
      ∀ va, ¬ Meant sampleHal (parseRevision 0xB00000#32 0#32 0#32 noBoard).memSize va →
        walk m' (layTables 0x200000#32).rootPagedir va = none := by
  obtain ⟨info, m', hrun, hiff⟩ := bootstrapKernel_faults sampleHal 0xB00000#32 0#32 0#32 noBoard 0x200000#32
    (Nat.le_refl _) (fun _ => 2#8)
  refine ⟨info, m', hrun, hiff.mpr fun i hlow hhigh => ?_⟩
  have hsize : (parseRevision 0xB00000#32 0#32 0#32 noBoard).memSize = 0x7FF00000 := by decide +kernel
  rw [hsize] at hlow
  exact absurd hhigh (Nat.not_lt.mpr hlow)

/-- On a board of 128 MiB whose memory held twos, the page past the end of memory is mapped. -/
theorem smallBoard_mapped :
    ¬ ∀ hal revision videocoreBase videocoreSize b kernelCeiling fuel m info m',
    2 ^ 20 ≤ fuel →
      bootstrapKernel hal (parseRevision revision videocoreBase videocoreSize b).memSize kernelCeiling fuel m =
        some (info, m') →
      ∀ va, ¬ Meant hal (parseRevision revision videocoreBase videocoreSize b).memSize va →
        walk m' (layTables kernelCeiling).rootPagedir va = none := by
  intro h
  have hsize : (parseRevision 0#32 0#32 0#32 noBoard).memSize = 4096 * 32768 := by decide +kernel
  obtain ⟨m', hrun, hbuilt⟩ := bootstrapKernel_built sampleHal (Nat.le_refl (2 ^ 20))
    (by decide : 32768 ≤ 0x7FF00) 0x200000#32 (fun _ => 2#8)
  have hall := h sampleHal 0#32 0#32 0#32 noBoard 0x200000#32 (2 ^ 20) (fun _ => 2#8) _ m' (Nat.le_refl _)
    (by rw [hsize]; exact hrun)
  rw [hsize] at hall
  have hentry := hbuilt.faults_iff.mp hall 32768 (Nat.le_refl _) (by decide)
  exact absurd hentry (by decide)

end CheviotBoot.Board
