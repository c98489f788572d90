import CheviotBoot.Mkifs.Combined

namespace CheviotBoot.Mkifs
open Lib

/-- The boot header promises no byte past the end of the file. -/
def HeaderKept (out : List Byte) : Prop := (field out 16).toNat + (field out 20).toNat ≤ out.length

/-- The last of some sizes, `z` when there is none. -/
def lastSize (z : Nat) (sizes : List Nat) : Nat := sizes.foldl (fun _ n => n) z

/-- The last of some sizes that is not zero, `k` when there is none. -/
def lastFilled (k : Nat) (sizes : List Nat) : Nat := sizes.foldl (fun k n => if n = 0 then k else n) k

/-- The sizes of the entries in the order of the walk, 0 for a directory. -/
def SourceTree.sizes (t : SourceTree) : List Nat := t.entries.map fun e => e.contents.length

/-- The walk lists a file that holds something last, or what holds something last, be it the node
table, fills its last page. -/
def SourceTree.EndsFilled (t : SourceTree) : Prop :=
  lastSize 0 t.sizes ≠ 0 ∨ lastFilled (tableEnd t.inodes) t.sizes % 4096 = 0

instance (t : SourceTree) : Decidable t.EndsFilled := inferInstanceAs (Decidable (_ ∨ _))

/-- The sizes of some records' contents. -/
def sizesOf (rs : List Rec) : List Nat := rs.map fun r => r.contents.length

theorem sizesOf_cons (r : Rec) (rs : List Rec) : sizesOf (r :: rs) = r.contents.length :: sizesOf rs := rfl

theorem lastSize_cons (z n : Nat) (ns : List Nat) : lastSize z (n :: ns) = lastSize n ns := rfl

theorem lastFilled_cons (k n : Nat) (ns : List Nat) :
    lastFilled k (n :: ns) = lastFilled (if n = 0 then k else n) ns := rfl

/-- The layout's end is where its last extent that holds anything ends when that is the last one,
and otherwise the page after. -/
theorem layoutEnd_filled (rs : List Rec) {off e : Nat} (k z : Nat) (hoff : off = alignUp k 4096)
    (he : e = if z = 0 then off else k) :
    layoutEnd rs off e =
      if lastSize z (sizesOf rs) = 0 then alignUp (filledEnd rs off k) 4096 else filledEnd rs off k := by
  induction rs generalizing off e k z with
  | nil =>
    rw [layoutEnd, filledEnd, he, hoff]
    rfl
  | cons r rs ih =>
    rw [layoutEnd, filledEnd, sizesOf_cons, lastSize_cons]
    by_cases hr : r.contents = []
    · have hlen : r.contents.length = 0 := List.length_eq_zero_iff.mpr hr
      have hnext : alignUp off 4096 = off := by rw [hoff, alignUp_idem]
      rw [if_pos hr, hlen, Nat.add_zero, hnext]
      exact ih k 0 hoff (if_pos rfl).symm
    · have hlen : r.contents.length ≠ 0 := fun h => hr (List.eq_nil_of_length_eq_zero h)
      rw [if_neg hr]
      exact ih (off + r.contents.length) r.contents.length rfl (if_neg hlen).symm

/-- What lies in the last page of a layout that starts at a page. -/
theorem filledEnd_mod (rs : List Rec) {off k j : Nat} (hoff : off % 4096 = 0)
    (hk : k % 4096 = j % 4096) :
    filledEnd rs off k % 4096 = lastFilled j (sizesOf rs) % 4096 := by
  induction rs generalizing off k j with
  | nil => exact hk
  | cons r rs ih =>
    rw [filledEnd, sizesOf_cons, lastFilled_cons]
    refine ih (alignUp_mod _) ?_
    by_cases hr : r.contents = []
    · rw [if_pos hr, if_pos (List.length_eq_zero_iff.mpr hr)]
      exact hk
    · rw [if_neg hr, if_neg (fun h => hr (List.eq_nil_of_length_eq_zero h))]
      omega

/-- The laid-out end lies past everything written unless the last page is full or the last
record holds something. -/
theorem layoutEnd_le_filledEnd (rs : List Rec) (k : Nat) :
    layoutEnd rs (alignUp k 4096) (alignUp k 4096) ≤ filledEnd rs (alignUp k 4096) k ↔
      lastSize 0 (sizesOf rs) ≠ 0 ∨ lastFilled k (sizesOf rs) % 4096 = 0 := by
  have hend := layoutEnd_filled rs (e := alignUp k 4096) k 0 rfl rfl
  have hmod := filledEnd_mod rs (alignUp_mod k) (rfl : k % 4096 = k % 4096)
  rw [hend, ← hmod]
  by_cases hlast : lastSize 0 (sizesOf rs) = 0
  · rw [if_pos hlast, alignUp_le_iff]
    constructor
    · exact Or.inr
    · exact fun h => h.resolve_left (fun hne => hne hlast)
  · rw [if_neg hlast]
    exact ⟨fun _ => Or.inl hlast, fun _ => Nat.le_refl _⟩

theorem lastSize_append (z : Nat) (as bs : List Nat) :
    lastSize z (as ++ bs) = lastSize (lastSize z as) bs := List.foldl_append

theorem lastFilled_append (k : Nat) (as bs : List Nat) :
    lastFilled k (as ++ bs) = lastFilled (lastFilled k as) bs := List.foldl_append

theorem sizesOf_append (as bs : List Rec) : sizesOf (as ++ bs) = sizesOf as ++ sizesOf bs :=
  List.map_append

theorem dotRecs_sizes (place : Place) (path : List Byte) (ino parentIno mode parentMode : Word) :
    lastSize 0 (sizesOf (dotRecs place path ino parentIno mode parentMode)) = 0 ∧
      ∀ k, lastFilled k (sizesOf (dotRecs place path ino parentIno mode parentMode)) = k := by
  simp only [dotRecs]
  split
  · exact ⟨rfl, fun _ => rfl⟩
  · exact ⟨rfl, fun _ => rfl⟩

/-- The dots a directory brings leave both as the entries alone have them. -/
theorem Listing.recs_sizes (l : Listing) (place : Place) (path : List Byte) (ino mode n : Word)
    (z k : Nat) :
    lastSize z (sizesOf (l.recs place path ino mode n).1) =
        lastSize z ((l.entries place).map fun e => e.contents.length) ∧
      lastFilled k (sizesOf (l.recs place path ino mode n).1) =
        lastFilled k ((l.entries place).map fun e => e.contents.length) := by
  induction l generalizing place path ino mode n z k with
  | nil => exact ⟨rfl, rfl⟩
  | self rest ih | parent rest ih => exact ih place path ino mode n z k
  | other name m rest ih => exact ih place path ino mode (n + 1#32) z k
  | file name m contents rest ih =>
    exact ih place path ino mode (n + 1#32) contents.length (if contents.length = 0 then k else contents.length)
  | dir name m children rest ihc ihr =>
    obtain ⟨hdots, hdots'⟩ := dotRecs_sizes (name.bytes :: place) (joinPath path name.bytes) n ino m.val mode
    simp only [Listing.recs, Listing.entries, sizesOf_cons, sizesOf_append, List.map_cons,
      List.map_append, lastSize_cons, lastFilled_cons, lastSize_append, lastFilled_append,
      List.length_nil, if_true, hdots, hdots', (ihc _ _ _ _ _ _ 0).1,
      (ihc _ _ _ _ _ 0 _).2, (ihr _ _ _ _ _ _ 0).1, (ihr _ _ _ _ _ 0 _).2, and_self]

theorem SourceTree.recs_sizes (t : SourceTree) (pathPrefix : List Byte) (k : Nat) :
    lastSize 0 (sizesOf (t.recs pathPrefix)) = lastSize 0 t.sizes ∧
      lastFilled k (sizesOf (t.recs pathPrefix)) = lastFilled k t.sizes :=
  t.listing.recs_sizes [] pathPrefix 0#32 t.mode.val 2#32 0 k

/-- Only a regular file has contents. -/
theorem Listing.recs_reg (l : Listing) (place : Place) (path : List Byte) (ino mode n : Word) :
    ∀ r ∈ (l.recs place path ino mode n).1, r.contents ≠ [] → sIsReg r.permissions = true := by
  have hdots : ∀ (place : Place) (path : List Byte) (ino parentIno mode parentMode : Word),
      ∀ r ∈ dotRecs place path ino parentIno mode parentMode, r.contents = [] := by
    intro place path ino parentIno mode parentMode r hr
    simp only [dotRecs] at hr
    rcases List.mem_cons.mp hr with rfl | hr
    · rfl
    · split at hr
      · obtain rfl := List.mem_singleton.mp hr
        rfl
      · cases hr
  induction l generalizing place path ino mode n with
  | nil => simp [Listing.recs]
  | self rest ih | parent rest ih => exact ih place path ino mode n
  | other name m rest ih => exact ih place path ino mode (n + 1#32)
  | file name m contents rest ih =>
    exact List.forall_mem_cons.mpr ⟨fun _ => m.property, ih place path ino mode (n + 1#32)⟩
  | dir name m children rest ihc ihr =>
    intro r hr hne
    simp only [Listing.recs, List.mem_cons, List.mem_append] at hr
    rcases hr with rfl | (hr | hr) | hr
    · exact absurd rfl hne
    · exact absurd (hdots _ _ _ _ _ _ r hr) hne
    · exact ihc _ _ _ _ _ r hr hne
    · exact ihr _ _ _ _ _ r hr hne

theorem SourceTree.recs_reg (t : SourceTree) (pathPrefix : List Byte) :
    ∀ r ∈ t.recs pathPrefix, r.contents ≠ [] → sIsReg r.permissions = true := by
  intro r hr hne
  rw [SourceTree.recs, dotRecs] at hr
  rcases List.mem_cons.mp hr with rfl | hr
  · exact absurd rfl hne
  · cases List.mem_append.mp hr with
    | inl hr =>
      rw [if_neg (by simp)] at hr
      obtain rfl := List.mem_singleton.mp hr
      exact absurd rfl hne
    | inr hr => exact t.listing.recs_reg _ _ _ _ _ r hr hne

/-- A file that is an image reaches the end of its table and of every extent. -/
theorem IsImage.le_length {rs : List Rec} {base : Nat} {out : List Byte}
    (h : IsImage zeroMemory rs base out)
    (hreg : ∀ r ∈ rs, r.contents ≠ [] → sIsReg r.permissions = true) :
    base + filledEnd rs (fileTableOffset rs.length) (tableEnd rs.length) ≤ out.length := by
  have hflat := tableBlocks_flatten zeroMemory rs
  rcases filledEnd_attained rs (fileTableOffset rs.length) (tableEnd rs.length) with he | ⟨p, hp, hne, he⟩
  · have hin := h.table.length_le (by
      intro hnil
      rw [hnil, List.length_nil] at hflat
      omega)
    rw [he, tableEnd, ← hflat, ← Nat.add_assoc]
    exact hin
  · rw [he, ← Nat.add_assoc]
    exact (h.contents p hp (hreg p.1 (places_mem hp) hne)).length_le hne

/-- How long the file is that the tool leaves, and the two words of its boot header. -/
theorem Packable.mkifs_length {host : Host} {t : SourceTree} {pathPrefix : List Byte} {fuel : Nat}
    (bootloader : List Byte) (h : Packable host t pathPrefix) (hd : t.listing.depth < fuel)
    (hsize : imageSize (t.recs pathPrefix) < 2 ^ 32) :
    ∃ out, mkifs host zeroMemory fuel bootloader pathPrefix = .ok out ∧
      (field out 16).toNat = alignUp bootloader.length 4096 % 2 ^ 32 ∧
      (field out 20).toNat = imageSize (t.recs pathPrefix) ∧
      out.length = alignUp bootloader.length 4096 +
        filledEnd (t.recs pathPrefix) (fileTableOffset (t.recs pathPrefix).length)
          (tableEnd (t.recs pathPrefix).length) := by
  obtain ⟨out, hrun, himage, _, _, hle⟩ := h.mkifs_written bootloader hd hsize
  obtain ⟨hbase, hifs⟩ := himage.boot_fields
  refine ⟨out, hrun, ?_, ?_, Nat.le_antisymm hle (himage.le_length (t.recs_reg pathPrefix))⟩
  · rw [hbase, BitVec.toNat_ofNat]
  · rw [hifs, BitVec.toNat_ofNat, Nat.mod_eq_of_lt hsize]

/-- The table of a tree of directories and regular files has a record for each of its numbers. -/
theorem SourceTree.recs_length {t : SourceTree} (pathPrefix : List Byte) (hplain : t.listing.Plain)
    (hlt : (t.recs pathPrefix).length < 2 ^ 32) : (t.recs pathPrefix).length = t.inodes := by
  have hcount : (t.recs pathPrefix).length =
      (t.listing.recs [] pathPrefix 0#32 t.mode.val 2#32).1.length + 2 := rfl
  have htwo : (2#32 : Word).toNat = 2 := rfl
  rw [hcount, t.listing.recs_length [] pathPrefix 0#32 t.mode.val hplain (by decide) (by omega)]
  rfl

/-- For every bootloader and every packable tree of directories and regular files whose image
stays below 4 GiB the tool ends, and its boot header promises no byte past the end of the file
exactly when the tree ends filled or the image starts past what 32 bits hold. -/
theorem mkifs_header_kept_iff (host : Host) (t : SourceTree) (pathPrefix bootloader : List Byte)
    (fuel : Nat) (h : Packable host t pathPrefix) (hplain : t.listing.Plain)
    (hd : t.listing.depth < fuel) (hsize : imageSize (t.recs pathPrefix) < 2 ^ 32) :
    ∃ out, mkifs host zeroMemory fuel bootloader pathPrefix = .ok out ∧
      (HeaderKept out ↔ t.EndsFilled ∨ 2 ^ 32 ≤ alignUp bootloader.length 4096) := by
  obtain ⟨out, hrun, hbase, hifs, hlen⟩ := h.mkifs_length bootloader hd hsize
  have hrecs := length_lt_of_imageSize hsize
  have hcount := SourceTree.recs_length pathPrefix hplain (by omega)
  obtain ⟨hlast, hfilled⟩ := t.recs_sizes pathPrefix (tableEnd t.inodes)
  have hends := layoutEnd_le_filledEnd (t.recs pathPrefix) (tableEnd t.inodes)
  rw [hlast, hfilled] at hends
  have hstart : alignUp (tableEnd t.inodes) 4096 = fileTableOffset t.inodes := by
    rw [tableEnd, fileTableOffset, Nat.mul_comm]
    rfl
  rw [hstart] at hends
  refine ⟨out, hrun, ?_⟩
  rw [HeaderKept, hbase, hifs, hlen, SourceTree.EndsFilled, ← hends]
  rw [imageSize, hcount] at hsize ⊢
  omega

theorem bootTree_header_kept : ∃ out,
    mkifs bootHost zeroMemory 2 [1#8, 2#8] rootPath = .ok out ∧
      (HeaderKept out ↔ bootTree.EndsFilled ∨ 2 ^ 32 ≤ alignUp 2 4096) :=
  mkifs_header_kept_iff bootHost bootTree rootPath [1#8, 2#8] 2 bootTree_packable
    ⟨trivial, trivial⟩ (by decide) (by decide)

/-- A file and then a directory that holds nothing. -/
def trailingTree : SourceTree :=
  ⟨plainDir, .file aName plainFile [1#8]
    (.dir bootName plainDir .nil .nil)⟩

def trailingHost : Host :=
  let a := joinPath rootPath aName.bytes
  let boot := joinPath rootPath bootName.bytes
  { stat := fun path => if path = a then some ⟨0o100644#32, 1⟩ else some ⟨0o040755#32, 4096⟩
    opendir := fun path =>
      if path = rootPath then some [aName.bytes, bootName.bytes]
      else if path = boot then some [] else none
    contents := fun path => if path = a then some [1#8] else none }

theorem trailingTree_packable : Packable trailingHost trailingTree rootPath where
  held := ⟨⟨4096, by decide⟩, by decide, by decide, by decide, ⟨4096, by decide⟩, ⟨4096, by decide⟩,
    ⟨4096, by decide⟩, by decide, trivial, trivial⟩
  noNul := by decide
  rootFits := by decide
  fits := ⟨by decide, by decide, trivial, trivial⟩
  short := ⟨by decide, by decide, trivial, trivial⟩
  distinct := ⟨by decide, by decide, trivial, trivial⟩

/-- The file ends one byte into its second page, and the header promises two pages. -/
theorem trailing_overpromised : Packable trailingHost trailingTree rootPath ∧
    trailingTree.listing.Plain ∧ imageSize (trailingTree.recs rootPath) < 2 ^ 32 ∧
    ∃ out, mkifs trailingHost zeroMemory 2 [] rootPath = .ok out ∧ ¬ HeaderKept out := by
  refine ⟨trailingTree_packable, ⟨trivial, trivial⟩, by decide, ?_⟩
  obtain ⟨out, hrun, hbase, hifs, hlen⟩ :=
    trailingTree_packable.mkifs_length [] (by decide : trailingTree.listing.depth < 2) (by decide)
  refine ⟨out, hrun, ?_⟩
  have hsize : imageSize (trailingTree.recs rootPath) = 8192 := by decide
  have hfilled : filledEnd (trailingTree.recs rootPath)
      (fileTableOffset (trailingTree.recs rootPath).length)
      (tableEnd (trailingTree.recs rootPath).length) = 4097 := by decide
  rw [HeaderKept, hbase, hifs, hlen, hsize, hfilled]
  decide

end CheviotBoot.Mkifs
