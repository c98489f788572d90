import CheviotBoot.Mkifs.NodeTable

namespace CheviotBoot.Mkifs
open Lib

/-- The parts of an image in a file, each with its position: the IFS header, the node table and
the extents of the regular files. -/
def regions (base : Nat) (rs : List Rec) : List (Nat × List Byte) :=
  (base, (ifsHeader rs.length).bytes) ::
    (base + nodeTableOffset, (tableBlocks zeroMemory rs).flatten) ::
      ((places rs (fileTableOffset rs.length)).filter (fun p => sIsReg p.1.permissions)).map
        fun p => (base + p.2, p.1.contents)

/-- One region ends before the other starts. -/
def Before (a b : Nat × List Byte) : Prop := a.1 + a.2.length ≤ b.1

theorem places_before (rs : List Rec) (off : Nat) :
    (places rs off).Pairwise fun p q => p.2 + p.1.contents.length ≤ q.2 := by
  induction rs generalizing off with
  | nil => exact List.Pairwise.nil
  | cons r rs ih =>
    refine List.pairwise_cons.mpr ⟨?_, ih _⟩
    intro q hq
    exact Nat.le_trans (le_alignUp _) (places_bounds 0 hq).1

/-- The regions lie one after the other from `base` on. -/
theorem regions_before (base : Nat) (rs : List Rec) :
    (regions base rs).Pairwise Before ∧ ∀ g ∈ regions base rs, base ≤ g.1 := by
  have htable := table_below rs.length
  have hflat := tableBlocks_flatten zeroMemory rs
  have hfiles : ∀ g ∈ ((places rs (fileTableOffset rs.length)).filter
      (fun p => sIsReg p.1.permissions)).map (fun p => (base + p.2, p.1.contents)),
      base + fileTableOffset rs.length ≤ g.1 := by
    intro g hg
    obtain ⟨p, hp, rfl⟩ := List.mem_map.mp hg
    exact Nat.add_le_add_left (places_bounds 0 (List.mem_filter.mp hp).1).1 base
  have hheader : Before (base, (ifsHeader rs.length).bytes)
      (base + nodeTableOffset, (tableBlocks zeroMemory rs).flatten) := by
    rw [Before, IFSHeader.bytes_length]
    exact Nat.add_le_add_left (by decide) base
  have hend : base + nodeTableOffset + (tableBlocks zeroMemory rs).flatten.length =
      base + tableEnd rs.length := by
    rw [hflat, tableEnd, Nat.add_assoc]
  refine ⟨List.pairwise_cons.mpr ⟨?_, List.pairwise_cons.mpr ⟨?_, ?_⟩⟩, ?_⟩
  · intro g hg
    cases List.mem_cons.mp hg with
    | inl hg =>
      rw [hg]
      exact hheader
    | inr hg =>
      have hstart := hfiles g hg
      have hfirst : base + (ifsHeader rs.length).bytes.length ≤ base + nodeTableOffset := hheader
      rw [Before]
      exact Nat.le_trans hfirst (Nat.le_trans (by omega) hstart)
  · intro g hg
    have hstart := hfiles g hg
    rw [Before, hend]
    exact Nat.le_trans (Nat.add_le_add_left htable base) hstart
  · refine List.pairwise_map.mpr (((places_before rs _).filter _).imp ?_)
    intro p q hpq
    rw [Before, Nat.add_assoc]
    exact Nat.add_le_add_left hpq base
  · refine List.forall_mem_cons.mpr ⟨Nat.le_refl base, List.forall_mem_cons.mpr ⟨Nat.le_add_right _ _, ?_⟩⟩
    exact fun g hg => Nat.le_trans (Nat.le_add_right _ _) (hfiles g hg)

/-- The combined image: the bootloader with its boot header patched, zeros up to the page where
the image starts, and the regions of the image, each as it was written. -/
structure IsCombined (t : SourceTree) (rs : List Rec) (bootloader out : List Byte)
    (ifsBase : Nat) : Prop where
  untouched : ∀ i, i < bootloader.length → ¬ (16 ≤ i ∧ i < 24) → out[i]? = bootloader[i]?
  gap : ∀ i, bootloader.length ≤ i → i < ifsBase → ¬ (16 ≤ i ∧ i < 24) → out[i]? = some 0#8
  header : Holds out 16 (le32 (BitVec.ofNat 32 ifsBase) ++ le32 (BitVec.ofNat 32 (imageSize rs)))
  /-- The two words hold the numbers while these fit. -/
  words : ifsBase < 2 ^ 32 →
    (field out 16).toNat = ifsBase ∧ (field out 20).toNat = imageSize rs
  apart : (regions ifsBase rs).Pairwise Before
  after : ∀ g ∈ regions ifsBase rs, ifsBase ≤ g.1
  kept : ∀ g ∈ regions ifsBase rs, Holds out g.1 g.2
  /-- The extent that a regular file's node gives is one of them and holds the file. -/
  files : ∀ e ∈ t.entries, sIsReg e.mode = true → ∃ n ∈ imageNodes out ifsBase,
    n.string = e.place.head? ∧ n.permissions = e.mode ∧ n.fileSize.toNat = e.contents.length ∧
      (ifsBase + n.fileOffset.toNat, e.contents) ∈ regions ifsBase rs

theorem field_holds {f : List Byte} {pos : Nat} {w : Word} (h : Holds f pos (le32 w)) :
    field f pos = w := by
  have hread := h.read
  rw [le32_length] at hread
  rw [field, hread, word32_le32]

/-- The two words of the boot header of a file that is an image. -/
theorem IsImage.boot_fields {mem : Memory} {rs : List Rec} {base : Nat} {out : List Byte}
    (h : IsImage mem rs base out) :
    field out 16 = BitVec.ofNat 32 base ∧ field out 20 = BitVec.ofNat 32 (imageSize rs) := by
  obtain ⟨hfirst, hsecond⟩ := holds_append.mp h.boot
  have hat : magicHeaderOffset + (le32 (BitVec.ofNat 32 base)).length = 20 := by
    rw [le32_length, magicHeaderOffset]
  rw [hat] at hsecond
  rw [magicHeaderOffset] at hfirst
  exact ⟨field_holds hfirst, field_holds hsecond⟩

/-- The node of a record in a file that is an image. -/
theorem IsImage.entry_node {host : Host} {t : SourceTree} {pathPrefix : List Byte} {base : Nat}
    {out : List Byte} (h : Packable host t pathPrefix)
    (himage : IsImage zeroMemory (t.recs pathPrefix) base out)
    (hsize : imageSize (t.recs pathPrefix) < 2 ^ 32) {e : Entry} (he : e ∈ t.entries)
    (hreg : sIsReg e.mode = true) : ∃ n ∈ imageNodes out base,
      n.string = e.place.head? ∧ n.permissions = e.mode ∧ n.fileSize.toNat = e.contents.length ∧
        (base + n.fileOffset.toNat, e.contents) ∈ regions base (t.recs pathPrefix) := by
  obtain ⟨r, hr, hrole, rfl⟩ := entry_record pathPrefix he
  have hname := t.recs_named pathPrefix r hr
  simp only [Rec.Named, hrole] at hname
  obtain ⟨i, hi⟩ := List.mem_iff_getElem?.mp hr
  obtain ⟨o, hplace, hnode, hoffset, hfileSize⟩ := himage.node_at hsize hi
  refine ⟨_, List.mem_of_getElem? hnode, ?_, rfl, hfileSize, ?_⟩
  · rw [container_string (h.recs_ok r hr), hname.2.2]
    exact (t.entries_head he).symm
  · rw [hoffset]
    refine List.mem_cons_of_mem _ (List.mem_cons_of_mem _ (List.mem_map.mpr ⟨(r, o), ?_, rfl⟩))
    exact List.mem_filter.mpr ⟨hplace, hreg⟩

/-- Each region of an image is as it was written. -/
theorem IsImage.regions_kept {rs : List Rec} {base : Nat} {out : List Byte}
    (h : IsImage zeroMemory rs base out) : ∀ g ∈ regions base rs, Holds out g.1 g.2 := by
  have hfiles : ∀ g ∈ ((places rs (fileTableOffset rs.length)).filter
      (fun p => sIsReg p.1.permissions)).map (fun p => (base + p.2, p.1.contents)),
      Holds out g.1 g.2 := by
    intro g hg
    obtain ⟨p, hp, rfl⟩ := List.mem_map.mp hg
    obtain ⟨hmem, hreg⟩ := List.mem_filter.mp hp
    exact h.contents p hmem hreg
  exact List.forall_mem_cons.mpr ⟨h.header, List.forall_mem_cons.mpr ⟨h.table, hfiles⟩⟩

theorem getElem?_paddedBootloader {bootloader : List Byte} {i : Nat}
    (hi : i < alignUp bootloader.length 4096) :
    (paddedBootloader bootloader)[i]? =
      if i < bootloader.length then bootloader[i]? else some 0#8 := by
  rw [paddedBootloader, List.getElem?_append]
  split
  · rfl
  · rw [List.getElem?_replicate, if_pos (by omega)]

/-- For every bootloader and every packable tree whose image stays below 4 GiB the tool ends,
and what it leaves is the combined image. -/
theorem mkifs_combined (host : Host) (t : SourceTree) (pathPrefix bootloader : List Byte)
    (fuel : Nat) (h : Packable host t pathPrefix) (hd : t.listing.depth < fuel)
    (hsize : imageSize (t.recs pathPrefix) < 2 ^ 32) :
    ∃ out, mkifs host zeroMemory fuel bootloader pathPrefix = .ok out ∧
      IsCombined t (t.recs pathPrefix) bootloader out (alignUp bootloader.length 4096) := by
  obtain ⟨out, hrun, himage, hlow, hhigh, _⟩ := h.mkifs_written bootloader hd hsize
  obtain ⟨hapart, hafter⟩ := regions_before (alignUp bootloader.length 4096) (t.recs pathPrefix)
  have hkept : ∀ i, i < alignUp bootloader.length 4096 → ¬ (16 ≤ i ∧ i < 24) →
      out[i]? = (paddedBootloader bootloader)[i]? := by
    intro i hi hout
    have hlen := paddedBootloader_length bootloader
    cases Nat.lt_or_ge i 16 with
    | inl hlt =>
      have hbyte := hlow i (by rw [List.length_take]; omega)
      rw [Nat.zero_add, ← List.getElem?_eq_getElem, List.getElem?_take_of_lt hlt] at hbyte
      exact hbyte
    | inr hge =>
      have hbyte := hhigh (i - 24) (by rw [List.length_drop]; omega)
      have hpos : 24 + (i - 24) = i := by omega
      rw [← List.getElem?_eq_getElem, List.getElem?_drop, hpos] at hbyte
      exact hbyte
  refine ⟨out, hrun, ⟨?_, ?_, himage.boot, ?_, hapart, hafter, ?_, ?_⟩⟩
  · intro i hi hout
    have hlt : i < alignUp bootloader.length 4096 := Nat.lt_of_lt_of_le hi (le_alignUp _)
    rw [hkept i hlt hout, getElem?_paddedBootloader hlt, if_pos hi]
  · intro i hge hlt hout
    rw [hkept i hlt hout, getElem?_paddedBootloader hlt, if_neg (by omega)]
  · intro hbase
    obtain ⟨hfirst, hsecond⟩ := himage.boot_fields
    rw [hfirst, hsecond, BitVec.toNat_ofNat, BitVec.toNat_ofNat, Nat.mod_eq_of_lt hbase,
      Nat.mod_eq_of_lt hsize]
    exact ⟨rfl, rfl⟩
  · exact himage.regions_kept
  · exact fun e he hreg => IsImage.entry_node h himage hsize he hreg

theorem bootTree_combined : ∃ out, mkifs bootHost zeroMemory 2 [1#8, 2#8] rootPath = .ok out ∧
    IsCombined bootTree (bootTree.recs rootPath) [1#8, 2#8] out 4096 :=
  mkifs_combined bootHost bootTree rootPath [1#8, 2#8] 2 bootTree_packable (by decide) (by decide)

end CheviotBoot.Mkifs
