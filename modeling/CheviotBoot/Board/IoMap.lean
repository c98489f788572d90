import CheviotBoot.Board.Mapping

namespace CheviotBoot.Board
open Lib

/-- The arguments of a call of `io_map` that asks for something below 2^32. -/
structure IoCall where
  pa : Word
  sz : Word
  pos : 0 < sz.toNat
  below : pa.toNat + sz.toNat < 2 ^ 32

/-- A call and the virtual address it returned. -/
structure IoMapping where
  call : IoCall
  va : Word

def IoMapping.at (d : IoMapping) (k : Nat) : Word := d.va + BitVec.ofNat 32 k

/-- The page number of an address. -/
def pageOf (va : Word) : Nat := va.toNat / 4096

/-- The entry of the IO table that the MMU uses for an address of the last megabyte. -/
def ioEntry (t : Tables) (m : Mem) (va : Word) : Word := m.word (elem t.ioPagetable (pageOf va % 256))

/-- The entry for `va` takes it to `pa`. -/
def IoTranslates (t : Tables) (m : Mem) (va pa : Word) : Prop :=
  vmIoBase.toNat ≤ va.toNat ∧ pteTarget (ioEntry t m va) va = some pa

/-- The MMU translates with that entry where the directory leads to the table. -/
theorem IoTranslates.walk {hal : Hal} {t : Tables} {m : Mem} {va pa : Word}
    (hpde : m.word (elem t.rootPagedir ioPagetablesPdeBase) = t.ioPagetable ||| hal.l1TypeC)
    (haligned : t.ioPagetable.toNat % 1024 = 0) (h : IoTranslates t m va pa) :
    Board.walk m t.rootPagedir va = some pa := by
  have hlow := h.1
  have hlt := va.isLt
  have hbase : vmIoBase.toNat = 4095 * 2 ^ 20 := rfl
  have hindex : va.toNat / 2 ^ 20 = ioPagetablesPdeBase := by
    unfold ioPagetablesPdeBase
    omega
  rw [walk_coarse (by rw [hindex]; exact hpde) haligned]
  exact h.2

/-- One call did what it should: what it returned is translated to what was asked for, in pages of its own,
and neither an earlier mapping nor a byte outside the table changed. -/
structure IoExact (t : Tables) (done : List IoMapping) (m m' : Mem) (d : IoMapping) : Prop where
  translates : ∀ k, k < d.call.sz.toNat → IoTranslates t m' (d.at k) (d.call.pa + BitVec.ofNat 32 k)
  apart : ∀ e ∈ done, ∀ i k, i < e.call.sz.toNat → k < d.call.sz.toNat → pageOf (e.at i) ≠ pageOf (d.at k)
  kept : ∀ e ∈ done, ∀ i, i < e.call.sz.toNat → ioEntry t m' (e.at i) = ioEntry t m (e.at i)
  inside : ∀ x, ¬ Within x t.ioPagetable 1024 → m' x = m x

/-- Every call of a sequence did, after those in `done`. -/
def IoRun (hal : Hal) (t : Tables) (fuel : Nat) : List IoMapping → IoState → List IoCall → Prop
  | _, _, [] => True
  | done, s, c :: calls => ∃ va s', ioMap hal t fuel c.pa c.sz s = some (va, s') ∧
      IoExact t done s.mem s'.mem ⟨c, va⟩ ∧ IoRun hal t fuel (⟨c, va⟩ :: done) s' calls

/-- The pages that a call needs. -/
def IoCall.pages (c : IoCall) : Nat := (c.sz.toNat + 4095) / 4096

/-- Whole pages, but for the last one of the address space. -/
def IoCall.Mappable (c : IoCall) : Prop := c.pa.toNat % 4096 = 0 ∧ c.pa.toNat + c.sz.toNat ≤ 2 ^ 32 - 4096

instance (c : IoCall) : Decidable c.Mappable := inferInstanceAs (Decidable (_ ∧ _))

/-- The table after `j` pages: the rest of it is clear. -/
structure IoReady (t : Tables) (j : Nat) (s : IoState) : Prop where
  base : s.ioMapBase = vmIoBase
  current : s.ioMapCurrent = pageAt (0xFFF00 + j)
  room : j ≤ 256
  clear : ∀ i, j ≤ i → i < 256 → s.mem.word (elem t.ioPagetable i) = l2TypeInv

/-- A mapping that lies in the first `j` pages of the IO area. -/
def IoMapping.Below (j : Nat) (d : IoMapping) : Prop :=
  ∀ k, k < d.call.sz.toNat → 0xFFF00 ≤ pageOf (d.at k) ∧ pageOf (d.at k) < 0xFFF00 + j

/-- What is returned is the start of a page. -/
theorem ioMap_returns {hal : Hal} {t : Tables} {fuel : Nat} {pa sz va : Word} {s s' : IoState}
    (h : ioMap hal t fuel pa sz s = some (va, s')) : va = alignUp32 s.ioMapCurrent pageSize := by
  obtain ⟨m', _, he⟩ := Option.bind_eq_some_iff.mp h
  cases he
  rfl

theorem IoReady.returns {hal : Hal} {t : Tables} {j fuel : Nat} {pa sz va : Word} {s s' : IoState}
    (hs : IoReady t j s) (h : ioMap hal t fuel pa sz s = some (va, s')) : va = pageAt (0xFFF00 + j) := by
  rw [ioMap_returns h, hs.current]
  have hroom := hs.room
  by_cases hfull : j = 256
  · rw [hfull]
    rfl
  · exact alignUp32_pageAt (by omega)

theorem mod_page_eq_zero (w : Word) : w.toNat % 4096 = 0 ↔ w &&& 0xfff#32 = 0#32 := by
  have hmask : (0xfff#32 : Word) = ones 12 := rfl
  have hand := toNat_and_ones w (by decide : 12 ≤ 32)
  rw [hmask, ← BitVec.toNat_inj, hand]
  rfl

/-- An entry takes the start of a page to a page's start. -/
theorem pteTarget_aligned {pte va target : Word} (hva : va.toNat % 4096 = 0)
    (h : pteTarget pte va = some target) : target.toNat % 4096 = 0 := by
  rw [mod_page_eq_zero] at hva ⊢
  have hoffset : ∀ mask : Word, va &&& mask &&& 0xfff#32 = 0#32 := by
    intro mask
    rw [BitVec.and_assoc, BitVec.and_comm mask, ← BitVec.and_assoc, hva, BitVec.zero_and]
  have hsmall : pte &&& 0xfffff000#32 &&& 0xfff#32 = 0#32 := by
    rw [BitVec.and_assoc]
    exact BitVec.and_zero
  have hlarge : pte &&& 0xffff0000#32 &&& 0xfff#32 = 0#32 := by
    rw [BitVec.and_assoc]
    exact BitVec.and_zero
  have hjoin : ∀ page mask : Word, page &&& 0xfff#32 = 0#32 →
      (page ||| (va &&& mask)) &&& 0xfff#32 = 0#32 := by
    intro page mask hpage
    rw [BitVec.and_comm, BitVec.and_or_distrib_left, BitVec.and_comm, hpage, BitVec.and_comm, hoffset]
    rfl
  unfold pteTarget at h
  split at h
  · cases h
    exact hjoin _ _ hsmall
  · split at h
    · cases h
      exact hjoin _ _ hlarge
    · cases h

/-- An address a number of bytes past the start of a page. -/
theorem pageAt_add_toNat {i k : Nat} (hlt : 4096 * i + k < 2 ^ 32) :
    (pageAt i + BitVec.ofNat 32 k).toNat = 4096 * i + k := by
  rw [BitVec.toNat_add, pageAt, BitVec.toNat_ofNat, BitVec.toNat_ofNat]
  omega

theorem IoCall.pages_pos (c : IoCall) : 0 < c.pages := by
  have hpos := c.pos
  rw [IoCall.pages]
  omega

/-- The pages of a call that can be mapped. -/
theorem IoCall.Mappable.page {c : IoCall} (h : c.Mappable) : ∃ p, c.pa = pageAt p ∧ p + c.pages < 2 ^ 20 ∧
    alignUp32 (pageAt p + c.sz) pageSize = pageAt (p + c.pages) := by
  obtain ⟨haligned, hend⟩ := h
  obtain ⟨p, hp⟩ := Nat.dvd_of_mod_eq_zero haligned
  have hbelow := c.below
  have hpa : c.pa = pageAt p := by
    apply BitVec.eq_of_toNat_eq
    rw [pageAt_toNat (by omega), hp]
  have hpages : p + c.pages < 2 ^ 20 := by
    rw [IoCall.pages]
    omega
  refine ⟨p, hpa, hpages, ?_⟩
  apply BitVec.eq_of_toNat_eq
  have hup : (alignUp32 (pageAt p + c.sz) pageSize).toNat = _ := alignUp32_toNat (pageAt p + c.sz)
  rw [hup, ← hpa, BitVec.toNat_add_of_lt c.below, pageAt_toNat hpages, hp, IoCall.pages]
  omega

/-- Where the addresses of a call's mapping lie that starts with page `j` of the IO area. -/
theorem mapping_at {c : IoCall} {j k : Nat} (hroom : j + c.pages ≤ 256) (hk : k < c.sz.toNat) :
    ((⟨c, pageAt (0xFFF00 + j)⟩ : IoMapping).at k).toNat = 4096 * (0xFFF00 + j) + k ∧ k / 4096 < c.pages := by
  rw [IoCall.pages] at hroom ⊢
  refine ⟨pageAt_add_toNat (by omega), by omega⟩

/-- A call that can be mapped, in a table with room for it. -/
theorem IoReady.map {t : Tables} {j : Nat} {s : IoState} (hs : IoReady t j s) (hal : Hal) {fuel : Nat}
    (hfuel : 2 ^ 20 ≤ fuel) {c : IoCall} (hc : c.Mappable) (hroom : j + c.pages ≤ 256) {done : List IoMapping}
    (hdone : ∀ d ∈ done, d.Below j) :
    ∃ s', ioMap hal t fuel c.pa c.sz s = some (pageAt (0xFFF00 + j), s') ∧
      IoExact t done s.mem s'.mem ⟨c, pageAt (0xFFF00 + j)⟩ ∧ IoReady t (j + c.pages) s' := by
  obtain ⟨p, hpa, hp, hsz⟩ := hc.page
  have hpos := c.pages_pos
  have hnow : IoMapped s.mem t j (fun i => s.mem.word (elem t.ioPagetable i)) s :=
    ⟨hs.base, hs.current, ⟨fun _ _ => rfl, fun _ _ => rfl⟩⟩
  obtain ⟨s', hrun, hs'⟩ := ioMap_pages hal (by omega : c.pages < fuel) hnow (by omega) hroom hp hsz
  have hentry : ∀ i, i < 256 → s'.mem.word (elem t.ioPagetable i) =
      if j ≤ i ∧ i < j + c.pages then pageAt (p + (i - j)) ||| ioBits hal
      else s.mem.word (elem t.ioPagetable i) := hs'.wrote.entries
  rw [hpa]
  refine ⟨s', hrun, ⟨?_, ?_, ?_, hs'.wrote.outside⟩, ⟨hs'.base, hs'.current, hroom, ?_⟩⟩
  · intro k hk
    obtain ⟨hat, hpage⟩ := mapping_at hroom hk
    have hbase : vmIoBase.toNat = 4096 * 0xFFF00 := rfl
    have hslot : pageOf ((⟨c, pageAt (0xFFF00 + j)⟩ : IoMapping).at k) % 256 = j + k / 4096 := by
      rw [pageOf, hat]
      omega
    have hpage' : (pageAt (p + k / 4096)).toNat = 4096 * (p + k / 4096) := pageAt_toNat (by omega)
    refine ⟨by omega, ?_⟩
    rw [ioEntry, hslot, hentry _ (by omega), if_pos (by omega), Nat.add_sub_cancel_left]
    refine pteTarget_small (by rw [hpage']; exact Nat.mul_mod_right _ _) (ioBits_small hal) ?_
    rw [hpa, pageAt_add_toNat (by omega), hpage', hat]
    omega
  · intro e he i k hi hk
    obtain ⟨hat, hpage⟩ := mapping_at hroom hk
    have hbelow := (hdone e he i hi).2
    unfold pageOf at hbelow ⊢
    rw [hat]
    omega
  · intro e he i hi
    obtain ⟨hlow, hbelow⟩ := hdone e he i hi
    rw [ioEntry, ioEntry, hentry _ (by omega), if_neg (by omega)]
  · intro i hi hlt
    rw [hentry i hlt, if_neg (by omega)]
    exact hs.clear i (by omega) hlt

/-- A range that ends in the last page of the address space is rounded up to 0: no entry is written. -/
theorem ioMap_last_page {hal : Hal} {t : Tables} {fuel : Nat} {c : IoCall} {va : Word} {s s' : IoState}
    (hend : 2 ^ 32 - 4096 < c.pa.toNat + c.sz.toNat) (h : ioMap hal t fuel c.pa c.sz s = some (va, s')) :
    s'.mem = s.mem := by
  have hbelow := c.below
  have hceiling : alignUp32 (c.pa + c.sz) pageSize = 0#32 := by
    apply BitVec.eq_of_toNat_eq
    have hup : (alignUp32 (c.pa + c.sz) pageSize).toNat = _ := alignUp32_toNat (c.pa + c.sz)
    rw [hup, BitVec.toNat_add_of_lt hbelow]
    change _ = 0
    omega
  obtain ⟨m', hloop, he⟩ := Option.bind_eq_some_iff.mp h
  cases he
  cases fuel with
  | zero => cases hloop
  | succ fuel =>
    rw [hceiling, forLoop, decide_eq_false (BitVec.not_lt_zero), if_neg Bool.false_ne_true] at hloop
    exact (Option.some.inj hloop).symm

/-- A call does what it should only on whole pages that the table has room for. -/
theorem IoReady.exact_only {t : Tables} {j : Nat} {s s' : IoState} (hs : IoReady t j s) {hal : Hal} {fuel : Nat}
    {c : IoCall} {va : Word} {done : List IoMapping} (hrun : ioMap hal t fuel c.pa c.sz s = some (va, s'))
    (hexact : IoExact t done s.mem s'.mem ⟨c, va⟩) : c.Mappable ∧ j + c.pages ≤ 256 := by
  obtain rfl := hs.returns hrun
  have hpos := c.pos
  have hroom := hs.room
  have hbase : vmIoBase.toNat = 4096 * 0xFFF00 := rfl
  have hfirst := hexact.translates 0 hpos
  have hzero : (⟨c, pageAt (0xFFF00 + j)⟩ : IoMapping).at 0 = pageAt (0xFFF00 + j) := BitVec.add_zero _
  rw [hzero, (BitVec.add_zero c.pa : c.pa + BitVec.ofNat 32 0 = c.pa)] at hfirst
  have hlow := hfirst.1
  have hnot : j < 256 := by
    refine Nat.lt_of_le_of_ne hroom fun hfull => ?_
    have hwrapped : (pageAt (0xFFF00 + j)).toNat = 0 := by
      rw [hfull]
      rfl
    omega
  have haligned : c.pa.toNat % 4096 = 0 := by
    refine pteTarget_aligned ?_ hfirst.2
    rw [pageAt_toNat (by omega)]
    omega
  refine ⟨⟨haligned, ?_⟩, ?_⟩
  · refine Nat.not_lt.mp fun hend => ?_
    have hnone := hfirst.2
    have hslot : pageOf (pageAt (0xFFF00 + j)) % 256 = j := by
      rw [pageOf, pageAt_toNat (by omega)]
      omega
    rw [ioEntry, hslot, ioMap_last_page hend hrun, hs.clear j (Nat.le_refl j) hnot] at hnone
    cases hnone
  · refine Nat.not_lt.mp fun hover => ?_
    rw [IoCall.pages] at hover
    have hpast := (hexact.translates (4096 * (256 - j)) (by change _ < c.sz.toNat; omega)).1
    have hwrapped : ((⟨c, pageAt (0xFFF00 + j)⟩ : IoMapping).at (4096 * (256 - j))).toNat = 0 := by
      change (pageAt (0xFFF00 + j) + BitVec.ofNat 32 (4096 * (256 - j))).toNat = 0
      rw [BitVec.toNat_add, pageAt_toNat (by omega), BitVec.toNat_ofNat]
      omega
    omega

theorem IoMapping.Below.mono {j k : Nat} {d : IoMapping} (h : d.Below j) (hle : j ≤ k) : d.Below k :=
  fun i hi => ⟨(h i hi).1, Nat.lt_of_lt_of_le (h i hi).2 (Nat.add_le_add_left hle _)⟩

theorem below_mapped {c : IoCall} {j : Nat} (hroom : j + c.pages ≤ 256) :
    (⟨c, pageAt (0xFFF00 + j)⟩ : IoMapping).Below (j + c.pages) := by
  intro k hk
  obtain ⟨hat, hpage⟩ := mapping_at hroom hk
  unfold pageOf
  rw [hat]
  omega

/-- From a table with `j` pages in use the calls do what they should exactly when they can be mapped and
fit in the rest. -/
theorem IoReady.run_iff (hal : Hal) (t : Tables) {fuel : Nat} (hfuel : 2 ^ 20 ≤ fuel) (calls : List IoCall) {j : Nat}
    {s : IoState} (hs : IoReady t j s) {done : List IoMapping} (hdone : ∀ d ∈ done, d.Below j) :
    IoRun hal t fuel done s calls ↔ (∀ c ∈ calls, c.Mappable) ∧ j + (calls.map IoCall.pages).sum ≤ 256 := by
  induction calls generalizing j s done with
  | nil => exact iff_of_true trivial ⟨nofun, hs.room⟩
  | cons c calls ih =>
    rw [List.map_cons, List.sum_cons, List.forall_mem_cons, ← Nat.add_assoc, and_assoc]
    constructor
    · rintro ⟨va, s', hrun, hexact, hrest⟩
      obtain ⟨hc, hroom⟩ := hs.exact_only hrun hexact
      obtain ⟨s₁, hrun₁, hexact₁, hs₁⟩ := hs.map hal hfuel hc hroom hdone
      cases hrun.symm.trans hrun₁
      refine ⟨hc, (ih hs₁ ?_).mp hrest⟩
      exact List.forall_mem_cons.mpr ⟨below_mapped hroom, fun d hd => (hdone d hd).mono (Nat.le_add_right _ _)⟩
    · rintro ⟨hc, hall, hsum⟩
      have hroom : j + c.pages ≤ 256 := Nat.le_trans (Nat.le_add_right _ _) hsum
      obtain ⟨s', hrun, hexact, hs'⟩ := hs.map hal hfuel hc hroom hdone
      refine ⟨_, s', hrun, hexact, (ih hs' ?_).mpr ⟨hall, hsum⟩⟩
      exact List.forall_mem_cons.mpr ⟨below_mapped hroom, fun d hd => (hdone d hd).mono (Nat.le_add_right _ _)⟩

/-- From the cleared table the calls do what they should exactly when each asks for whole pages below the
last one of the address space, and all of them together for no more than 256. -/
theorem ioRun_iff (hal : Hal) (t : Tables) (fuel : Nat) (m : Mem) (calls : List IoCall) (hfuel : 2 ^ 20 ≤ fuel)
    (hclear : ∀ i, i < nPagetablePte → m.word (elem t.ioPagetable i) = l2TypeInv) :
    IoRun hal t fuel [] ⟨m, vmIoBase, vmIoBase⟩ calls ↔
      (∀ c ∈ calls, c.Mappable) ∧ (calls.map IoCall.pages).sum ≤ 256 := by
  have hready : IoReady t 0 ⟨m, vmIoBase, vmIoBase⟩ := ⟨rfl, rfl, by decide, fun i _ hi => hclear i hi⟩
  have hrun := hready.run_iff hal t hfuel calls (List.forall_mem_nil _)
  rwa [Nat.zero_add] at hrun

/-- The page of the GPIO block, and the two of the interrupt controller. -/
def gpioCall : IoCall := ⟨gpioBase, pageSize, by decide, by decide⟩
def gicCall : IoCall := ⟨gicdBase, 0x2000#32, by decide, by decide⟩

theorem devices_exact : IoRun sampleHal (layTables 0x200000#32) (2 ^ 20) []
    ⟨fun _ => 0#8, vmIoBase, vmIoBase⟩ [gpioCall, gicCall] :=
  (ioRun_iff sampleHal (layTables 0x200000#32) (2 ^ 20) (fun _ => 0#8) [gpioCall, gicCall] (Nat.le_refl _)
    (fun _ _ => rfl)).mpr (by decide)

/-- The registers of the mailbox do not start a page: what is returned leads to the page's start. -/
def mailboxCall : IoCall := ⟨mboxBase, 0x40#32, by decide, by decide⟩

theorem mailbox_inexact : ¬ ∀ hal t fuel m calls, 2 ^ 20 ≤ fuel →
    (∀ i, i < nPagetablePte → m.word (elem t.ioPagetable i) = l2TypeInv) →
      IoRun hal t fuel [] ⟨m, vmIoBase, vmIoBase⟩ calls := by
  intro h
  obtain ⟨va, s', hrun, hexact, -⟩ := h sampleHal (layTables 0x200000#32) (2 ^ 20) (fun _ => 0#8) [mailboxCall]
    (Nat.le_refl _) (fun _ _ => rfl)
  have hready : IoReady (layTables 0x200000#32) 0 ⟨fun _ => 0#8, vmIoBase, vmIoBase⟩ :=
    ⟨rfl, rfl, by decide, fun _ _ _ => rfl⟩
  have haligned := (hready.exact_only hrun hexact).1
  revert haligned
  decide

end CheviotBoot.Board
