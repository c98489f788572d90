import CheviotBoot.Mkifs.Layout

namespace CheviotBoot.Mkifs
open Lib

def IFSNodeContainer.offset (c : IFSNodeContainer) : Nat := c.node.fileOffset.toNat
def IFSNodeContainer.size (c : IFSNodeContainer) : Nat := c.node.fileSize.toNat

/-- Where a node's extent ends, as an integer. -/
def IFSNodeContainer.extentEnd (c : IFSNodeContainer) : Nat := c.offset + c.size

/-- A layout whose extents do not meet: on page boundaries from `start` on, each before the next,
and `total` past them all. -/
structure LaidApart (start : Nat) (cs : List IFSNodeContainer) (total : Nat) : Prop where
  aligned : ∀ c ∈ cs, c.offset % 4096 = 0
  above : ∀ c ∈ cs, start ≤ c.offset
  inOrder : cs.Pairwise (fun c d => c.extentEnd ≤ d.offset)
  within : ∀ c ∈ cs, c.extentEnd ≤ total

/-- The whole pages the files but the last one fill, and the last one after them. -/
def unwrappedEnd (start : Nat) (cs : List IFSNodeContainer) : Nat :=
  match cs.getLast? with
  | none => start
  | some last => start + (cs.dropLast.map (fun c => alignUp c.size 4096)).sum + last.size

theorem unwrappedEnd_cons (start : Nat) (c d : IFSNodeContainer) (cs : List IFSNodeContainer) :
    unwrappedEnd start (c :: d :: cs) = unwrappedEnd (start + alignUp c.size 4096) (d :: cs) := by
  rw [unwrappedEnd, unwrappedEnd, List.getLast?_cons_cons, List.getLast?_cons]
  simp [Nat.add_assoc]

/-- The returned size is a sum of two 32-bit fields. -/
theorem calculateFileOffsets_total (cs : List IFSNodeContainer) (off : Nat) {last : Nat} (hlast : last < 2 ^ 32) :
    (calculateFileOffsets cs off last).2 < 2 ^ 32 := by
  induction cs generalizing off last with
  | nil => exact hlast
  | cons c cs ih => exact ih _ (BitVec.isLt _)

def IFSNodeContainer.placeAt (c : IFSNodeContainer) (off : Nat) : IFSNodeContainer :=
  { c with node := { c.node with fileOffset := BitVec.ofNat 32 off } }

@[simp] theorem IFSNodeContainer.placeAt_size (c : IFSNodeContainer) (off : Nat) : (c.placeAt off).size = c.size := rfl

theorem IFSNodeContainer.placeAt_offset (c : IFSNodeContainer) {off : Nat} (hoff : off < 2 ^ 32) :
    (c.placeAt off).offset = off :=
  (BitVec.toNat_ofNat _ _).trans (Nat.mod_eq_of_lt hoff)

theorem IFSNodeContainer.placeAt_end (c : IFSNodeContainer) {off : Nat} (hoff : off < 2 ^ 32) :
    (c.placeAt off).extentEnd = off + c.size := by
  rw [IFSNodeContainer.extentEnd, c.placeAt_offset hoff, c.placeAt_size]

/-- One node's step, while its extent ends inside 32 bits. -/
theorem calculateFileOffsets_step (c : IFSNodeContainer) (cs : List IFSNodeContainer) {off : Nat} (last : Nat)
    (hend : off + c.size < 2 ^ 32) :
    calculateFileOffsets (c :: cs) off last =
      (c.placeAt off :: (calculateFileOffsets cs (alignUp (off + c.size) 4096 % 2 ^ 32) (off + c.size)).1,
        (calculateFileOffsets cs (alignUp (off + c.size) 4096 % 2 ^ 32) (off + c.size)).2) := by
  have hoff : off < 2 ^ 32 := Nat.lt_of_le_of_lt (Nat.le_add_right _ _) hend
  have hexact : (BitVec.ofNat 32 off + c.node.fileSize).toNat = off + c.size := by
    rw [BitVec.toNat_add, BitVec.toNat_ofNat, Nat.mod_eq_of_lt hoff]
    exact Nat.mod_eq_of_lt hend
  have hround : (alignUp32 (BitVec.ofNat 32 off + c.node.fileSize) 4096#32).toNat =
      alignUp (off + c.size) 4096 % 2 ^ 32 := by
    simp only [alignUp32_toNat, hexact, alignUp]
    omega
  have hpage : (4096 : Word) = 4096#32 := rfl
  simp only [calculateFileOffsets, hpage, hround, hexact]
  rfl

/-- The placing of a node ahead of others that are apart from where its last page ends. -/
theorem LaidApart.cons {off total : Nat} {c : IFSNodeContainer} {cs : List IFSNodeContainer} (hc : c.offset = off)
    (hoff : off % 4096 = 0) (h : LaidApart (alignUp (off + c.size) 4096) cs total) (htotal : off + c.size ≤ total) :
    LaidApart off (c :: cs) total := by
  have hup := le_alignUp (off + c.size)
  have hend : c.extentEnd = off + c.size := by rw [IFSNodeContainer.extentEnd, hc]
  refine ⟨?_, ?_, ?_, ?_⟩
  · exact List.forall_mem_cons.mpr ⟨by rw [hc, hoff], h.aligned⟩
  · refine List.forall_mem_cons.mpr ⟨Nat.le_of_eq hc.symm, fun d hd => ?_⟩
    have habove := h.above d hd
    omega
  · refine List.pairwise_cons.mpr ⟨fun d hd => ?_, h.inOrder⟩
    have habove := h.above d hd
    omega
  · exact List.forall_mem_cons.mpr ⟨by omega, h.within⟩

/-- Past the first extent, its last page included, the rest is laid apart. -/
theorem LaidApart.tail {off total : Nat} {c : IFSNodeContainer} {cs : List IFSNodeContainer}
    (h : LaidApart off (c :: cs) total) : LaidApart (alignUp c.extentEnd 4096) cs total := by
  refine ⟨(List.forall_mem_cons.mp h.aligned).2, fun d hd => ?_, (List.pairwise_cons.mp h.inOrder).2,
    (List.forall_mem_cons.mp h.within).2⟩
  have hafter := (List.pairwise_cons.mp h.inOrder).1 d hd
  have haligned := (List.forall_mem_cons.mp h.aligned).2 d hd
  simp only [alignUp]
  omega

/-- The first file alone ends no later than the last one. -/
theorem le_unwrappedEnd (start : Nat) (c : IFSNodeContainer) (cs : List IFSNodeContainer) :
    start + c.size ≤ unwrappedEnd start (c :: cs) := by
  induction cs generalizing start c with
  | nil => exact Nat.le_refl _
  | cons d cs ih =>
    have hup := le_alignUp c.size
    have hnext := ih (start + alignUp c.size 4096) d
    rw [unwrappedEnd_cons]
    omega

/-- Nothing wraps while the files laid out without a limit end inside 32 bits. -/
theorem calculateFileOffsets_apart (cs : List IFSNodeContainer) {off : Nat} (last : Nat) (hoff : off % 4096 = 0)
    (hlt : off < 2 ^ 32) (hend : unwrappedEnd off cs < 2 ^ 32) :
    LaidApart off (calculateFileOffsets cs off last).1 (calculateFileOffsets cs off last).2 := by
  induction cs generalizing off last with
  | nil => exact ⟨nofun, nofun, .nil, nofun⟩
  | cons c cs ih =>
    have hfirst := le_unwrappedEnd off c cs
    rw [calculateFileOffsets_step c cs last (by omega)]
    cases cs with
    | nil => exact LaidApart.cons (c.placeAt_offset hlt) hoff ⟨nofun, nofun, .nil, nofun⟩ (Nat.le_refl _)
    | cons d cs =>
      rw [unwrappedEnd_cons, ← alignUp_add hoff] at hend
      have hnext := le_unwrappedEnd (alignUp (off + c.size) 4096) d cs
      have hwrap : alignUp (off + c.size) 4096 < 2 ^ 32 := by omega
      rw [Nat.mod_eq_of_lt hwrap]
      have hrest := ih (off + c.size) (alignUp_mod _) hwrap hend
      refine LaidApart.cons (c.placeAt_offset hlt) hoff hrest ?_
      -- the returned size is past the next file, which starts past this one
      have hwithin := hrest.within (d.placeAt (alignUp (off + c.size) 4096)) List.mem_cons_self
      have hup := le_alignUp (off + c.size)
      rw [d.placeAt_end hwrap] at hwithin
      rw [c.placeAt_size]
      omega

/-- A layout without overlaps never wrapped. -/
theorem unwrappedEnd_lt (cs : List IFSNodeContainer) {off last : Nat} (hoff : off % 4096 = 0) (hlt : off < 2 ^ 32)
    (h : LaidApart off (calculateFileOffsets cs off last).1 (calculateFileOffsets cs off last).2) :
    unwrappedEnd off cs < 2 ^ 32 := by
  induction cs generalizing off last with
  | nil => exact hlt
  | cons c cs ih =>
    have htotal : (calculateFileOffsets (c :: cs) off last).2 < 2 ^ 32 :=
      calculateFileOffsets_total cs _ (BitVec.isLt _)
    have hwithin := h.within (c.placeAt off) List.mem_cons_self
    rw [c.placeAt_end hlt] at hwithin
    have hend : off + c.size < 2 ^ 32 := Nat.lt_of_le_of_lt hwithin htotal
    cases cs with
    | nil => exact hend
    | cons d cs =>
      rw [calculateFileOffsets_step c (d :: cs) last hend] at h
      have hrest := h.tail
      rw [c.placeAt_end hlt] at hrest
      -- the next file starts past this one's last page, so that page's end is still a 32-bit number
      have hnext := hrest.above (d.placeAt (alignUp (off + c.size) 4096 % 2 ^ 32)) List.mem_cons_self
      have hmod := Nat.mod_lt (alignUp (off + c.size) 4096) (by decide : 0 < 2 ^ 32)
      rw [d.placeAt_offset hmod] at hnext
      have hwrap := Nat.lt_of_le_of_lt hnext hmod
      rw [Nat.mod_eq_of_lt hwrap] at hrest
      rw [unwrappedEnd_cons, ← alignUp_add hoff]
      exact ih (alignUp_mod _) hwrap hrest

/-- The extents are laid apart exactly when, laid out without a limit, the last one ends below 2^32. -/
theorem calculateFileOffsets_apart_iff (cs : List IFSNodeContainer) (start : Nat) (haligned : start % 4096 = 0)
    (hstart : start < 2 ^ 32) :
    LaidApart start (calculateFileOffsets cs start start).1 (calculateFileOffsets cs start start).2 ↔
      unwrappedEnd start cs < 2 ^ 32 :=
  ⟨unwrappedEnd_lt cs haligned hstart, calculateFileOffsets_apart cs start haligned hstart⟩

/-- A node of a given size, in zeroed memory. -/
def nodeOfSize (size : Word) : IFSNodeContainer :=
  { node :=
      { name := Vector.replicate 32 0#8
        inodeNr := 0#32
        parentInodeNr := 0#32
        permissions := sIFREG
        uid := 0#32
        gid := 0#32
        fileOffset := placeholderOffset
        fileSize := size }
    realPath := Vector.replicate 1024 0#8 }

theorem threeFiles_apart :
    LaidApart 8192 (calculateFileOffsets [nodeOfSize 5000#32, nodeOfSize 0#32, nodeOfSize 1#32] 8192 8192).1
      (calculateFileOffsets [nodeOfSize 5000#32, nodeOfSize 0#32, nodeOfSize 1#32] 8192 8192).2 :=
  (calculateFileOffsets_apart_iff [nodeOfSize 5000#32, nodeOfSize 0#32, nodeOfSize 1#32] 8192 rfl (by decide)).mpr
    (by decide)

/-- After two files of 2 GiB a third one is laid over the first. -/
theorem twoGigabytes_overlap : ¬ ∀ cs start, start % 4096 = 0 → start < 2 ^ 32 →
    LaidApart start (calculateFileOffsets cs start start).1 (calculateFileOffsets cs start start).2 := by
  intro h
  have horder := (h [nodeOfSize 0x80000000#32, nodeOfSize 0x80000000#32, nodeOfSize 1#32] 4096 rfl (by decide)).inOrder
  revert horder
  decide

end CheviotBoot.Mkifs
