import CheviotBoot.Loader.Segments

namespace CheviotBoot.Loader
open Lib

/-- Two segments have no address in common. -/
def Phdr.Apart (h k : Phdr) : Prop :=
  h.Loads → k.Loads → ∀ a, ¬ (Within a h.vaddr h.memsz.toNat ∧ Within a k.vaddr k.memsz.toNat)

section

variable (vmKernelBase : Word) (m : Mem) (f : ElfFile)

/-- Where byte `i` of a segment belongs in physical memory. -/
def Phdr.home (h : Phdr) (i : Nat) : Word := h.vaddr - vmKernelBase + BitVec.ofNat 32 i

/-- Byte `i` of a segment, as the file has it. -/
def Phdr.source (h : Phdr) (i : Nat) : Word := f.elfBase + h.offset + BitVec.ofNat 32 i

/-- The segment is in memory: its bytes of the file, and zeros after them. -/
def Phdr.Placed (m' : Mem) (h : Phdr) : Prop :=
  h.Loads → ∀ i, i < h.memsz.toNat →
    m' (h.home vmKernelBase i) = if i < h.filesz.toNat then m (h.source f i) else 0#8

/-- What the later segment zeroes of the earlier is zero in the file. -/
def Phdr.Spares (h k : Phdr) : Prop :=
  h.Loads → k.Loads → ∀ i, i < h.filesz.toNat → k.Wipes vmKernelBase (h.home vmKernelBase i) →
    m (h.source f i) = 0#8

instance (h k : Phdr) : Decidable (h.Spares vmKernelBase m f k) :=
  inferInstanceAs (Decidable (_ → _ → ∀ i, i < _ → _ → _))

/-- A segment whose bytes are in the file and whose pages are clear of the image and the bootloader. -/
structure Phdr.Fits (ifsImage ifsSize : Word) (Bootloader : Word → Prop) (h : Phdr) : Prop where
  sound : h.filesz.toNat ≤ h.memsz.toNat
  inFile : 0 < h.filesz.toNat → h.offset.toNat + h.filesz.toNat ≤ f.elfSize.toNat
  above : vmKernelBase.toNat ≤ h.vaddr.toNat
  noWrap : h.vaddr.toNat + h.memsz.toNat < 2 ^ 32
  clear : ∀ x, h.Wipes vmKernelBase x → ¬ Within x ifsImage ifsSize.toNat ∧ ¬ Bootloader x

/-- An image and a kernel in it that `elf_load` is meant to load. -/
structure Loadable (ifsImage ifsSize ehdr phdrTable : Word) (Bootloader : Word → Prop) : Prop where
  kernelBase : 4096 ≤ vmKernelBase.toNat
  inImage : ∀ x, Within x f.elfBase f.elfSize.toNat → Within x ifsImage ifsSize.toNat
  imageApart : ∀ x, Within x ifsImage ifsSize.toNat → ¬ Bootloader x
  ehdrIn : ∀ x, Within x ehdr 52 → Bootloader x
  tableIn : ∀ x, Within x phdrTable (32 * maxBootinfoPhdrs) → Bootloader x
  supported : supportedElf m f.elfBase = true
  phnum : ePhnum m f.elfBase ≤ maxBootinfoPhdrs
  table : (ePhoff m f.elfBase).toNat + 32 * ePhnum m f.elfBase ≤ f.elfSize.toNat
  segments : ∀ h ∈ programHeaders m f, h.Loads → h.Fits vmKernelBase f ifsImage ifsSize Bootloader
  apart : (programHeaders m f).Pairwise Phdr.Apart

end

section

variable {vmKernelBase ifsImage ifsSize : Word} {m : Mem} {f : ElfFile} {Bootloader : Word → Prop}

/-- The pages of a segment cover it. -/
theorem Phdr.Fits.wipes {h : Phdr} (hfit : h.Fits vmKernelBase f ifsImage ifsSize Bootloader)
    (hbase : 4096 ≤ vmKernelBase.toNat) {i : Nat} (hi : i < h.memsz.toNat) :
    h.Wipes vmKernelBase (h.home vmKernelBase i) := by
  have hoffset : h.home vmKernelBase i - h.segmentBase vmKernelBase =
      h.vaddr - alignDown32 h.vaddr 4096#32 + BitVec.ofNat 32 i := sub_add_sub_same _ _ _ _
  have hspan : h.span vmKernelBase = alignUp32 (h.vaddr + h.memsz) 4096#32 - alignDown32 h.vaddr 4096#32 :=
    sub_sub_sub_same _ _ _
  rw [Phdr.Wipes, Within, hoffset, hspan]
  exact within_pages hi hfit.noWrap (Nat.le_trans hbase hfit.above)

/-- The source of a segment's bytes lies in the file. -/
theorem Phdr.Fits.source {h : Phdr}
    (hfit : h.Fits vmKernelBase f ifsImage ifsSize Bootloader) {i : Nat}
    (hi : i < h.filesz.toNat) : Within (h.source f i) f.elfBase f.elfSize.toNat := by
  have hfile := hfit.inFile (Nat.zero_lt_of_lt hi)
  have hlt := f.elfSize.isLt
  have hwithin := within_offset (a := f.elfBase) (by omega : h.offset.toNat + i < f.elfSize.toNat) (by omega)
  rwa [BitVec.ofNat_add, BitVec.ofNat_toNat, BitVec.setWidth_eq, ← BitVec.add_assoc] at hwithin

/-- A segment that has no address in common with another gets none of its bytes. -/
theorem Phdr.Apart.not_fills {h k : Phdr} (hapart : h.Apart k) (hh : h.Loads) (hk : k.Loads)
    (hsound : k.filesz.toNat ≤ k.memsz.toNat) {i : Nat} (hi : i < h.memsz.toNat) :
    ¬ k.Fills vmKernelBase (h.home vmKernelBase i) := by
  intro hfills
  have hlt := h.memsz.isLt
  refine hapart hh hk (h.vaddr + BitVec.ofNat 32 i) ⟨within_offset hi (by omega), ?_⟩
  have hsame : h.vaddr + BitVec.ofNat 32 i - k.vaddr = h.vaddr - k.vaddr + BitVec.ofNat 32 i := by
    rw [BitVec.sub_eq_add_neg, BitVec.sub_eq_add_neg, BitVec.add_assoc,
      BitVec.add_comm (BitVec.ofNat 32 i), ← BitVec.add_assoc]
  have hdist : h.home vmKernelBase i - (k.vaddr - vmKernelBase) = h.vaddr - k.vaddr + BitVec.ofNat 32 i :=
    sub_add_sub_same _ _ _ _
  rw [Within, hsame, ← hdist]
  exact Nat.lt_of_lt_of_le hfills hsound

/-- The file is as it was when the image was placed. -/
def FileKept (m : Mem) (f : ElfFile) (m' : Mem) : Prop :=
  ∀ x, Within x f.elfBase f.elfSize.toNat → m' x = m x

/-- Placing a segment leaves the file alone. -/
theorem FileKept.place {m' : Mem} (hkept : FileKept m f m') {h : Phdr}
    (hin : ∀ x, Within x f.elfBase f.elfSize.toNat → Within x ifsImage ifsSize.toNat)
    (hbase : 4096 ≤ vmKernelBase.toNat)
    (hfit : h.Loads → h.Fits vmKernelBase f ifsImage ifsSize Bootloader) :
    FileKept m f (place vmKernelBase f m' h) := by
  intro x hx
  have himage := hin x hx
  rw [place_outside (fun hl hw => ((hfit hl).clear x hw).1 himage) ?_, hkept x hx]
  intro hl hfills
  obtain ⟨i, hi, _, rfl⟩ := hfills.offset
  have hwipes := (hfit hl).wipes hbase (Nat.lt_of_lt_of_le hi (hfit hl).sound)
  exact ((hfit hl).clear _ hwipes).1 himage

/-- A segment just placed is in memory. -/
theorem place_placed {m' : Mem} (hkept : FileKept m f m') {h : Phdr}
    (hin : ∀ x, Within x f.elfBase f.elfSize.toNat → Within x ifsImage ifsSize.toNat)
    (hbase : 4096 ≤ vmKernelBase.toNat)
    (hfit : h.Loads → h.Fits vmKernelBase f ifsImage ifsSize Bootloader) :
    h.Placed vmKernelBase m f (place vmKernelBase f m' h) := by
  intro hl i hi
  have hfit := hfit hl
  unfold Loader.place
  rw [if_pos hl]
  by_cases hfile : i < h.filesz.toNat
  · have hsource := hfit.source hfile
    have hread : m'.memset (h.segmentBase vmKernelBase) 0#8 (h.span vmKernelBase) (h.source f i) =
        m' (h.source f i) := Mem.memset_outside fun hw => (hfit.clear _ hw).1 (hin _ hsource)
    rw [if_pos hfile, Phdr.home, Mem.memcpy_at _ _ _ _ hfile]
    exact hread.trans (hkept _ hsource)
  · have hlt := h.memsz.isLt
    have hpast : ¬ h.Fills vmKernelBase (h.home vmKernelBase i) := by
      intro hfills
      obtain ⟨j, hj, hj', he⟩ := hfills.offset
      have hij : BitVec.ofNat 32 i = BitVec.ofNat 32 j := (BitVec.add_right_inj _).mp he
      have hnat := congrArg BitVec.toNat hij
      rw [BitVec.toNat_ofNat, BitVec.toNat_ofNat,
        Nat.mod_eq_of_lt (by omega), Nat.mod_eq_of_lt hj'] at hnat
      omega
    rw [if_neg hfile, Mem.memcpy_outside hpast]
    exact if_pos (hfit.wipes hbase hi)

/-- What later segments do to an address none of them fills. -/
theorem placeAll_unfilled {hs : List Phdr} {x : Word} (m' : Mem)
    (hx : ∀ k ∈ hs, k.Loads → ¬ k.Fills vmKernelBase x) :
    placeAll vmKernelBase f m' hs x = if ∃ k ∈ hs, k.Loads ∧ k.Wipes vmKernelBase x then 0#8 else m' x := by
  induction hs generalizing m' with
  | nil => simp [placeAll]
  | cons k hs ih =>
    have hrest := ih (place vmKernelBase f m' k) fun j hj => hx j (List.mem_cons_of_mem k hj)
    rw [placeAll, List.foldl_cons, ← placeAll, hrest]
    by_cases hk : k.Loads ∧ k.Wipes vmKernelBase x
    · have hzero : place vmKernelBase f m' k x = 0#8 := by
        rw [place, if_pos hk.1, Mem.memcpy_outside (hx k List.mem_cons_self hk.1)]
        exact if_pos hk.2
      have hsome : ∃ j ∈ k :: hs, j.Loads ∧ j.Wipes vmKernelBase x := ⟨k, List.mem_cons_self, hk⟩
      rw [hzero, ite_self, if_pos hsome]
    · have hsame : place vmKernelBase f m' k x = m' x :=
        place_outside (fun hl hw => hk ⟨hl, hw⟩) (hx k List.mem_cons_self)
      simp only [hsame, List.mem_cons, exists_eq_or_imp, hk, false_or]

/-- A placed segment outlives the segments after it exactly when each of them spares it. -/
theorem placed_placeAll_iff {m' : Mem} {h : Phdr} {hs : List Phdr}
    (hplaced : h.Placed vmKernelBase m f m') (hsound : h.Loads → h.filesz.toNat ≤ h.memsz.toNat)
    (hrest : ∀ k ∈ hs, k.Loads → k.filesz.toNat ≤ k.memsz.toNat) (hapart : ∀ k ∈ hs, h.Apart k) :
    h.Placed vmKernelBase m f (placeAll vmKernelBase f m' hs) ↔
      ∀ k ∈ hs, h.Spares vmKernelBase m f k := by
  have hunfilled : h.Loads → ∀ i, i < h.memsz.toNat → ∀ k ∈ hs, k.Loads →
      ¬ k.Fills vmKernelBase (h.home vmKernelBase i) :=
    fun hl i hi k hk hkl => (hapart k hk).not_fills hl hkl (hrest k hk hkl) hi
  constructor
  · intro hfinal k hk hl hkl i hi hwipes
    have hmem := Nat.lt_of_lt_of_le hi (hsound hl)
    have hbyte := hfinal hl i hmem
    have hwiped : ∃ k ∈ hs, k.Loads ∧
      k.Wipes vmKernelBase (h.home vmKernelBase i) := ⟨k, hk, hkl, hwipes⟩
    rw [placeAll_unfilled m' (hunfilled hl i hmem), if_pos hwiped, if_pos hi] at hbyte
    exact hbyte.symm
  · intro hspares hl i hi
    rw [placeAll_unfilled m' (hunfilled hl i hi), hplaced hl i hi]
    by_cases hwiped : ∃ k ∈ hs, k.Loads ∧ k.Wipes vmKernelBase (h.home vmKernelBase i)
    · rw [if_pos hwiped]
      by_cases hfile : i < h.filesz.toNat
      · obtain ⟨k, hk, hkl, hwipes⟩ := hwiped
        rw [if_pos hfile, hspares k hk hl hkl i hfile hwipes]
      · rw [if_neg hfile]
    · rw [if_neg hwiped]

/-- All segments end in memory exactly when each spares those before it. -/
theorem placeAll_placed_iff {hs : List Phdr} {m' : Mem} (hkept : FileKept m f m')
    (hin : ∀ x, Within x f.elfBase f.elfSize.toNat → Within x ifsImage ifsSize.toNat)
    (hbase : 4096 ≤ vmKernelBase.toNat)
    (hfit : ∀ h ∈ hs, h.Loads → h.Fits vmKernelBase f ifsImage ifsSize Bootloader)
    (hapart : hs.Pairwise Phdr.Apart) :
    (∀ h ∈ hs, h.Placed vmKernelBase m f (placeAll vmKernelBase f m' hs)) ↔
      hs.Pairwise (Phdr.Spares vmKernelBase m f) := by
  induction hs generalizing m' with
  | nil => simp
  | cons h hs ih =>
    have hfirst := hfit h List.mem_cons_self
    have hrest : ∀ k ∈ hs, k.Loads → k.Fits vmKernelBase f ifsImage ifsSize Bootloader :=
      fun k hk => hfit k (List.mem_cons_of_mem h hk)
    obtain ⟨hhere, hlater⟩ := List.pairwise_cons.mp hapart
    have hplaced := place_placed hkept hin hbase hfirst
    rw [List.forall_mem_cons, List.pairwise_cons, placeAll, List.foldl_cons, ← placeAll]
    refine and_congr ?_ (ih (hkept.place hin hbase hfirst) hrest hlater)
    exact placed_placeAll_iff hplaced (fun hl => (hfirst hl).sound) (fun k hk hl => (hrest k hk hl).sound) hhere

end

/-- Of an image and kernel as they should be, `elf_load` returns 0; and every segment is
then in memory exactly when none, over the pages it shares with an earlier one, zeroes
bytes that were not zero. -/
theorem elfLoad_places {vmKernelBase ifsImage ifsSize ehdr phdrTable : Word} {m : Mem}
    {filename : List Byte}
    {f : ElfFile} {Bootloader : Word → Prop} (hf : kernelFile m ifsImage filename = some f)
    (h : Loadable vmKernelBase m f ifsImage ifsSize ehdr phdrTable Bootloader) :
    (elfLoad vmKernelBase m ifsImage filename ehdr phdrTable).ok = true ∧
      ((∀ p ∈ programHeaders m f, p.Placed vmKernelBase m f
          (elfLoad vmKernelBase m ifsImage filename ehdr phdrTable).mem) ↔
        (programHeaders m f).Pairwise (Phdr.Spares vmKernelBase m f)) := by
  have hcnt : ePhnum m f.elfBase ≤ 16 := h.phnum
  have haccepted : Accepted m f := ⟨h.supported, Nat.le_trans h.phnum (by decide)⟩
  have hkept : FileKept m f (tableCopied m f ehdr phdrTable) := by
    intro x hx
    have hout := h.imageApart x (h.inImage x hx)
    refine tableCopied_outside haccepted (fun he => hout (h.ehdrIn x he)) fun ht => hout (h.tableIn x ?_)
    exact Nat.lt_of_lt_of_le ht (Nat.mul_le_mul_left 32 h.phnum)
  have hclear : ∀ x, Within x (f.elfBase + ePhoff m f.elfBase) (32 * ePhnum m f.elfBase) →
    ¬ Within x ehdr 52 := by
    intro x hx he
    have htable := h.table
    have hlt := f.elfSize.isLt
    obtain ⟨i, hi, _, rfl⟩ := hx.offset
    have hfile := within_offset (a := f.elfBase) (by omega : (ePhoff m f.elfBase).toNat + i < f.elfSize.toNat)
      (by omega)
    rw [BitVec.ofNat_add, BitVec.ofNat_toNat, BitVec.setWidth_eq, ← BitVec.add_assoc] at hfile
    exact h.imageApart _ (h.inImage _ hfile) (h.ehdrIn _ he)
  have hoff : ∀ p ∈ programHeaders m f, p.KeepsOff vmKernelBase phdrTable (32 * ePhnum m f.elfBase) := by
    intro p hp hl x hx
    have hfit := h.segments p hp hl
    have hboot := h.tableIn x (Nat.lt_of_lt_of_le hx (Nat.mul_le_mul_left 32 h.phnum))
    refine ⟨fun hw => (hfit.clear x hw).2 hboot, fun hfills => ?_⟩
    obtain ⟨i, hi, _, rfl⟩ := hfills.offset
    exact (hfit.clear _ (hfit.wipes h.kernelBase (Nat.lt_of_lt_of_le hi hfit.sound))).2 hboot
  have hsound : ∀ p ∈ programHeaders m f, p.Sound := fun p hp hl => (h.segments p hp hl).sound
  have hat := tableCopied_headersAt phdrTable haccepted hclear
  obtain ⟨hok, hmem⟩ := loadSegments_eq (f := f) 0#32 hat hoff (by simp) haccepted.2
  rw [programHeaders_length] at hok hmem
  rw [elfLoad_eq hf, if_pos haccepted, hmem hsound, hok]
  exact ⟨decide_eq_true hsound, placeAll_placed_iff hkept h.inImage h.kernelBase h.segments h.apart⟩

/-- A kernel of two segments: eight bytes at the kernel's base, and eight with eight zeros at `vaddr`. -/
def twoSegments (vaddr : Nat) : List Byte :=
  sampleEhdr 52 2 ++ samplePhdr 1 116 0x80100000 8 8 ++ samplePhdr 1 124 vaddr 8 16 ++ List.replicate 16 7#8

def twoHeaders (vaddr : Word) : List Phdr :=
  [⟨1#32, 116#32, 0x80100000#32, 8#32, 8#32⟩, ⟨1#32, 124#32, vaddr, 8#32, 16#32⟩]

def sampleFile : ElfFile := ⟨0x200088#32, 0#32, 132#32⟩

def SampleBootloader (x : Word) : Prop := Within x 0x8000#32 0x8000

theorem within_clear {x a b : Word} {n k : Nat} (h : Within x a n)
    (hab : a.toNat + n ≤ b.toNat ∨ b.toNat + k ≤ a.toNat)
    (ha : a.toNat + n ≤ 2 ^ 32) (hb : b.toNat + k ≤ 2 ^ 32) : ¬ Within x b k := by
  unfold Within at h ⊢
  bv_omega

/-- Both segments may be loaded where their pages start at 1 MiB and end by 2 MiB. -/
theorem twoSegments_loadable (vaddr : Nat) (v : Word)
    (hsupported : supportedElf (sampleMem (twoSegments vaddr)) sampleFile.elfBase = true)
    (hphnum : ePhnum (sampleMem (twoSegments vaddr)) sampleFile.elfBase = 2)
    (hphoff : ePhoff (sampleMem (twoSegments vaddr)) sampleFile.elfBase = 52#32)
    (hheaders : programHeaders (sampleMem (twoSegments vaddr)) sampleFile = twoHeaders v)
    (hv : 0x80100008 ≤ v.toNat ∧ v.toNat < 0x80180000)
    (hpages : ∀ p ∈ twoHeaders v, 0x100000 ≤ (p.segmentBase 0x80000000#32).toNat ∧
      (p.segmentBase 0x80000000#32).toNat + (p.span 0x80000000#32).toNat ≤ 0x200000) :
    Loadable 0x80000000#32 (sampleMem (twoSegments vaddr)) sampleFile 0x200000#32 268#32 0x9000#32 0x9100#32
      SampleBootloader where
  kernelBase := by decide
  inImage := by
    intro x hx
    unfold Within sampleFile at *
    bv_omega
  imageApart := fun x hx => within_clear hx (by decide) (by decide) (by decide)
  ehdrIn := by
    intro x hx
    unfold SampleBootloader Within at *
    bv_omega
  tableIn := by
    intro x hx
    unfold SampleBootloader maxBootinfoPhdrs Within at *
    bv_omega
  supported := hsupported
  phnum := by rw [hphnum]; decide
  table := by rw [hphoff, hphnum]; decide
  segments := by
    rw [hheaders]
    intro p hp _
    obtain ⟨hlow, hhigh⟩ := hpages p hp
    have hclear : ∀ x, p.Wipes 0x80000000#32 x → ¬ Within x 0x200000#32 268 ∧
      ¬ SampleBootloader x := by
      intro x hw
      refine ⟨within_clear hw ?_ (by omega) (by decide), within_clear hw ?_ (by omega) (by decide)⟩
      · exact Or.inl hhigh
      · exact Or.inr (Nat.le_trans (by decide) hlow)
    rcases List.mem_cons.mp hp with rfl | hp
    · exact ⟨by decide, by decide, by decide, by decide, hclear⟩
    · obtain rfl := List.mem_singleton.mp hp
      refine ⟨by change 8 ≤ 16; decide, ?_, ?_, ?_, hclear⟩
      · intro _
        change 124 + 8 ≤ 132
        decide
      · change 0x80000000 ≤ v.toNat
        omega
      · change v.toNat + 16 < 2 ^ 32
        omega
  apart := by
    rw [hheaders]
    refine List.pairwise_cons.mpr ⟨?_, List.pairwise_singleton _ _⟩
    intro k hk
    obtain rfl := List.mem_singleton.mp hk
    intro _ _ a hboth
    have hfirst : Within a 0x80100000#32 8 := hboth.1
    have hsecond : Within a v 16 := hboth.2
    have hend : (0x80100000#32 : Word).toNat + 8 ≤ v.toNat := hv.1
    exact within_clear hfirst (Or.inl hend) (by decide) (by omega) hsecond

/-- Segments on pages of their own are loaded; this is the second. -/
theorem ownPages_placed : (⟨1#32, 124#32, 0x80101000#32, 8#32, 16#32⟩ : Phdr).Placed 0x80000000#32
    (sampleMem (twoSegments 0x80101000)) sampleFile
    (elfLoad 0x80000000#32 (sampleMem (twoSegments 0x80101000)) 0x200000#32 kernelString 0x9000#32 0x9100#32).mem := by
  have hload := twoSegments_loadable 0x80101000 0x80101000#32 (by decide +kernel) (by decide +kernel)
    (by decide +kernel) (by decide +kernel) (by decide) (by decide)
  exact (elfLoad_places (by decide +kernel) hload).2.mpr (by decide +kernel) _ (by decide +kernel)

/-- A segment that starts 16 bytes further down the same page wipes the first. -/
theorem sharedPage_wiped : ¬ ∀ vmKernelBase ifsImage ifsSize ehdr phdrTable m filename f Bootloader,
    kernelFile m ifsImage filename = some f →
      Loadable vmKernelBase m f ifsImage ifsSize ehdr phdrTable Bootloader →
        (elfLoad vmKernelBase m ifsImage filename ehdr phdrTable).ok = true →
          ∀ p ∈ programHeaders m f,
          p.Placed vmKernelBase m f (elfLoad vmKernelBase m ifsImage filename ehdr phdrTable).mem := by
  intro h
  have hload := twoSegments_loadable 0x80100010 0x80100010#32 (by decide +kernel) (by decide +kernel)
    (by decide +kernel) (by decide +kernel) (by decide) (by decide)
  have hplaced := h _ _ _ _ _ _ kernelString _ _ (by decide +kernel) hload (by decide +kernel)
    ⟨1#32, 116#32, 0x80100000#32, 8#32, 8#32⟩ (by decide +kernel) rfl 0 (by decide)
  exact absurd hplaced (by decide +kernel)

end CheviotBoot.Loader
