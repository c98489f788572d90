import CheviotBoot.Board.Filled

namespace CheviotBoot.Board
open Lib

/-- Two areas with no address in common. -/
def AreasApart (a b : Word × Nat) : Prop := ∀ x, Within x a.1 a.2 → ¬ Within x b.1 b.2

theorem AreasApart.symm {a b : Word × Nat} (h : AreasApart a b) : AreasApart b a :=
  fun x hb ha => h x ha hb

/-- Areas at increasing offsets from one address. -/
theorem areasApart_of_offsets (p : Word) {a b n k : Nat} (hab : a + n ≤ b) (hb : b + k ≤ 2 ^ 32) :
    AreasApart (p + BitVec.ofNat 32 a, n) (p + BitVec.ofNat 32 b, k) := by
  intro x hx hx'
  have hlow := (within_iff (by omega)).mp hx
  have hhigh := (within_iff (by omega)).mp hx'
  omega

theorem layTables_offsets (kernelCeiling : Word) :
    let t := layTables kernelCeiling
    t.rootPagedir = t.pagetableBase + BitVec.ofNat 32 0 ∧
      t.bootloaderPagetables = t.pagetableBase + BitVec.ofNat 32 16384 ∧
      t.kernelPagetables = t.pagetableBase + BitVec.ofNat 32 20480 ∧
      t.ioPagetable = t.pagetableBase + BitVec.ofNat 32 2117632 ∧
      t.pagetableCeiling = t.pagetableBase + BitVec.ofNat 32 2121728 := by
  simp only [layTables]
  generalize alignUp32 kernelCeiling 16384#32 = p
  refine ⟨(BitVec.add_zero p).symm, trivial, ?_, ?_, ?_⟩ <;> bv_omega

/-- Below 2 GiB the tables' areas follow each other from the next 16 KiB on without wrapping. -/
theorem layTables_noWrap {ceiling : Word} (h : ceiling.toNat ≤ 2 ^ 31) :
    ceiling.toNat ≤ (layTables ceiling).pagetableBase.toNat ∧
      (layTables ceiling).pagetableBase.toNat % 16384 = 0 ∧
      (layTables ceiling).pagetableBase.toNat + 2121728 < 2 ^ 32 ∧
      (layTables ceiling).pagetableCeiling.toNat = (layTables ceiling).pagetableBase.toNat + 2121728 := by
  obtain ⟨_, _, _, _, hceiling⟩ := layTables_offsets ceiling
  have hround : (layTables ceiling).pagetableBase.toNat = (ceiling.toNat + 16383) / 16384 * 16384 := by
    have hsum : (ceiling + 16384#32 - 1).toNat = ceiling.toNat + 16383 := by bv_omega
    rw [layTables, alignUp32_eq, hsum]
    rfl
  rw [hceiling, BitVec.toNat_add, BitVec.toNat_ofNat, hround]
  omega

/-- The tables lie above the base they are laid from. -/
theorem layTables_above {ceiling x : Word} (h : ceiling.toNat ≤ 2 ^ 31) {a : Word × Nat}
    (ha : a ∈ (layTables ceiling).areas) (hx : Within x a.1 a.2) : ceiling.toNat ≤ x.toNat := by
  obtain ⟨hroot, hboot, hkernel, hio, _⟩ := layTables_offsets ceiling
  obtain ⟨hbase, _, hroom, _⟩ := layTables_noWrap h
  have habove : ∀ k n, k + n ≤ 2121728 →
      Within x ((layTables ceiling).pagetableBase + BitVec.ofNat 32 k) n → ceiling.toNat ≤ x.toNat := by
    intro k n hk hin
    have hoffset := (within_iff (by omega)).mp hin
    rw [BitVec.toNat_sub] at hoffset
    have hlt := x.isLt
    omega
  simp only [Tables.areas, List.mem_cons, List.not_mem_nil, or_false] at ha
  rcases ha with rfl | rfl | rfl | rfl
  · exact habove 0 16384 (by decide) (hroot ▸ hx)
  · exact habove 16384 4096 (by decide) (hboot ▸ hx)
  · exact habove 20480 2097152 (by decide) (hkernel ▸ hx)
  · exact habove 2117632 4096 (by decide) (hio ▸ hx)

theorem layTables_base {ceiling : Word} (h : ceiling.toNat ≤ 2 ^ 31) :
    (layTables ceiling).pagetableBase.toNat = alignUp ceiling.toNat 16384 := by
  have hsum : (ceiling + 16384#32 - 1).toNat = ceiling.toNat + 16384 - 1 := by bv_omega
  rw [layTables, alignUp32_eq, hsum]
  rfl

/-- The page tables' areas fill the range from the ceiling's 16 KiB on. -/
theorem layTables_range {ceiling : Word} (h : ceiling.toNat ≤ 2 ^ 31) {a : Word × Nat}
    (ha : a ∈ (layTables ceiling).areas) {x : Word} (hx : Within x a.1 a.2) :
    alignUp ceiling.toNat 16384 ≤ x.toNat ∧ x.toNat < alignUp ceiling.toNat 16384 + 2121728 := by
  obtain ⟨hroot, hboot, hkernel, hio, _⟩ := layTables_offsets ceiling
  have hbase := layTables_base h
  have hinside : ∀ k n, k + n ≤ 2121728 → Within x ((layTables ceiling).pagetableBase + BitVec.ofNat 32 k) n →
      alignUp ceiling.toNat 16384 ≤ x.toNat ∧ x.toNat < alignUp ceiling.toNat 16384 + 2121728 := by
    intro k n hk hin
    have hoffset := (within_iff (by omega)).mp hin
    have hlt := x.isLt
    rw [BitVec.toNat_sub, hbase] at hoffset
    simp only [alignUp] at hoffset ⊢
    omega
  simp only [Tables.areas, List.mem_cons, List.not_mem_nil, or_false] at ha
  rcases ha with rfl | rfl | rfl | rfl
  · exact hinside 0 16384 (by decide) (hroot ▸ hx)
  · exact hinside 16384 4096 (by decide) (hboot ▸ hx)
  · exact hinside 20480 2097152 (by decide) (hkernel ▸ hx)
  · exact hinside 2117632 4096 (by decide) (hio ▸ hx)

/-- The four areas are apart wherever they are laid. -/
theorem layTables_apart (kernelCeiling : Word) :
    (layTables kernelCeiling).areas.Pairwise AreasApart := by
  obtain ⟨hroot, hboot, hkernel, hio, _⟩ := layTables_offsets kernelCeiling
  unfold Tables.areas
  rw [hroot, hboot, hkernel, hio]
  simp only [List.pairwise_cons, List.mem_cons, List.not_mem_nil,
    or_false, forall_eq_or_imp, forall_eq,
    IsEmpty.forall_iff, implies_true, List.Pairwise.nil, and_true]
  refine ⟨⟨?_, ?_, ?_⟩, ⟨?_, ?_⟩, ?_⟩ <;> exact areasApart_of_offsets _ (by decide) (by decide)

theorem layTables_aligned (kernelCeiling : Word) :
    let t := layTables kernelCeiling
    t.bootloaderPagetables.toNat % 1024 = 0 ∧ t.kernelPagetables.toNat % 1024 = 0 ∧
      t.ioPagetable.toNat % 1024 = 0 := by
  obtain ⟨_, hboot, hkernel, hio, _⟩ := layTables_offsets kernelCeiling
  have hbase : (layTables kernelCeiling).pagetableBase.toNat % 16384 = 0 := by
    change (alignUp32 kernelCeiling 16384#32).toNat % 16384 = 0
    rw [alignUp32_eq]
    exact Nat.mul_mod_left _ _
  intro t
  have hmod : ∀ a, a % 1024 = 0 → (t.pagetableBase + BitVec.ofNat 32 a).toNat % 1024 = 0 := by
    intro a ha
    have hp : t.pagetableBase.toNat % 16384 = 0 := hbase
    rw [BitVec.toNat_add, BitVec.toNat_ofNat]
    omega
  exact ⟨hboot ▸ hmod _ (by decide), hkernel ▸ hmod _ (by decide), hio ▸ hmod _ (by decide)⟩

/-- What the four init functions leave in memory: the entries of each table, with those of
the kernel's that stand for no page of memory as they were before. -/
structure Built (hal : Hal) (t : Tables) (pages : Nat) (m m' : Mem) : Prop where
  root : ∀ i, i < nPagedirPde → m'.word (elem t.rootPagedir i) = pde hal t i
  bootloader : ∀ i, i < nPagetablePte →
    m'.word (elem t.bootloaderPagetables i) = bootloaderPte hal i
  kernel : ∀ i, i < pages → m'.word (elem t.kernelPagetables i) = pageAt i ||| kernelBits hal
  stale : ∀ i, pages ≤ i → i < 2 ^ 19 →
    m'.word (elem t.kernelPagetables i) = m.word (elem t.kernelPagetables i)
  io : ∀ i, i < nPagetablePte → m'.word (elem t.ioPagetable i) = ioPte hal i
  outside : ∀ x, (∀ a ∈ t.areas, ¬ Within x a.1 a.2) → m' x = m x

/-- `bootstrap_kernel` ends, and builds the tables. -/
theorem bootstrapKernel_built (hal : Hal) {pages fuel : Nat} (hfuel : 2 ^ 20 ≤ fuel)
    (hpages : pages ≤ 0x7FF00) (kernelCeiling : Word) (m : Mem) :
    ∃ m', bootstrapKernel hal (4096 * pages) kernelCeiling fuel m =
        some (tableInfo (layTables kernelCeiling) ioBases, m') ∧
      Built hal (layTables kernelCeiling) pages m m' := by
  have hapart := layTables_apart kernelCeiling
  obtain ⟨halignBoot, _, _⟩ := layTables_aligned kernelCeiling
  obtain ⟨t, ht⟩ : ∃ t, t = layTables kernelCeiling := ⟨_, rfl⟩
  rw [← ht] at hapart halignBoot ⊢
  simp only [Tables.areas, List.pairwise_cons, List.mem_cons,
    List.not_mem_nil, or_false, forall_eq_or_imp, forall_eq] at hapart
  obtain ⟨⟨hrb, hrk, hri⟩, ⟨hbk, hbi⟩, hki, _⟩ := hapart
  have hkb := hbk.symm
  have hkr := hrk.symm
  change ∀ x, Within x t.rootPagedir 16384 → ¬ Within x t.bootloaderPagetables 4096 at hrb
  change ∀ x, Within x t.rootPagedir 16384 → ¬ Within x t.kernelPagetables 2097152 at hrk
  change ∀ x, Within x t.rootPagedir 16384 → ¬ Within x t.ioPagetable 4096 at hri
  change ∀ x, Within x t.kernelPagetables 2097152 → ¬ Within x t.rootPagedir 16384 at hkr
  change ∀ x, Within x t.kernelPagetables 2097152 → ¬ Within x t.bootloaderPagetables 4096 at hkb
  change ∀ x, Within x t.bootloaderPagetables 4096 → ¬ Within x t.ioPagetable 4096 at hbi
  change ∀ x, Within x t.kernelPagetables 2097152 → ¬ Within x t.ioPagetable 4096 at hki
  obtain ⟨m₁, hrun₁, h₁⟩ := initPageDirectory_spec hal t hfuel m
  obtain ⟨m₂, hrun₂, hfilled⟩ := initKernelPagetables_spec hal t hfuel hpages m₁
  have h₂ := hfilled.widen (by omega : 4 * pages ≤ 2097152)
  have hroot : m₂.word t.rootPagedir = t.bootloaderPagetables ||| hal.l1TypeC := by
    have hkept := h₂.word_apart (i := 0) (by decide) (by decide) hrk
    rw [h₁.entries 0 (by decide), elem_zero] at hkept
    exact hkept
  have hfirst : ∀ x, Within x t.rootPagedir 4 → ¬ Within x t.bootloaderPagetables 4096 :=
    fun x hx => hrb x (Nat.lt_of_lt_of_le hx (by decide))
  obtain ⟨m₃, hrun₃, h₃⟩ := initBootloaderPagetables_spec hfuel hroot halignBoot hfirst
  obtain ⟨m₄, hrun₄, h₄⟩ := initIoPagetable_spec hal t hfuel m₃
  have h₄ := h₄.widen (by decide : 1024 ≤ 4096)
  refine ⟨m₄, ?_, ⟨?_, ?_, ?_, ?_, h₄.entries, ?_⟩⟩
  · simp only [bootstrapKernel, ← ht, hrun₁, hrun₂, hrun₃, hrun₄, bind, Option.bind]
  · intro i hi
    have hi : i < 4096 := hi
    rw [h₄.word_apart (by omega) (by decide) hri, h₃.word_apart (by omega) (by decide) hrb,
      h₂.word_apart (by omega) (by decide) hrk, h₁.entries i hi]
  · intro i hi
    have hi : i < 256 := hi
    rw [h₄.word_apart (by omega) (by decide) hbi, h₃.entries i hi]
  · intro i hi
    rw [h₄.word_apart (by omega) (by decide) hki,
      h₃.word_apart (by omega) (by decide) hkb, h₂.entries i hi]
  · intro i hlow hi
    rw [h₄.word_apart (by omega) (by decide) hki, h₃.word_apart (by omega) (by decide) hkb,
      hfilled.word_past (by omega) (by omega), h₁.word_apart (by omega) (by decide) hkr]
  · intro x hx
    simp only [Tables.areas, List.mem_cons, List.not_mem_nil, or_false,
      forall_eq_or_imp, forall_eq] at hx
    obtain ⟨hxr, hxb, hxk, hxi⟩ := hx
    rw [h₄.outside x hxi, h₃.outside x hxb, h₂.outside x hxk, h₁.outside x hxr]

end CheviotBoot.Board
