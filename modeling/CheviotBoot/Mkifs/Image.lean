import CheviotBoot.Mkifs.Layout

namespace CheviotBoot.Mkifs
open Lib

/-- What the later steps of the tool rely on for each record of the list. -/
structure Rec.Ok (host : Host) (r : Rec) : Prop where
  nameShort : r.name.length < 32
  nameNoNul : 0#8 ∉ r.name
  pathShort : r.path.length < 1024
  pathNoNul : 0#8 ∉ r.path
  held : sIsReg r.permissions = true → host.contents r.path = some r.contents

/-- What the contents pass relies on: a file may hold more than is recorded of it. -/
structure Rec.Stored (host : Host) (r : Rec) : Prop where
  nameShort : r.name.length < 32
  nameNoNul : 0#8 ∉ r.name
  pathShort : r.path.length < 1024
  pathNoNul : 0#8 ∉ r.path
  held : sIsReg r.permissions = true →
    ∃ bs, host.contents r.path = some bs ∧ bs.take r.contents.length = r.contents

theorem Rec.Ok.stored {host : Host} {r : Rec} (h : Rec.Ok host r) : Rec.Stored host r :=
  ⟨h.nameShort, h.nameNoNul, h.pathShort, h.pathNoNul,
    fun hreg => ⟨r.contents, h.held hreg, List.take_length⟩⟩

theorem dotRecs_ok {host : Host} {place : Place} {path : List Byte}
    {ino parentIno mode parentMode : Word}
    (hp : 0#8 ∉ path) (hf : path.length + (if ino ≠ 0#32 then 3 else 2) < 1024)
    (hm : sIsReg mode = false) (hpm : sIsReg parentMode = false) :
    ∀ r ∈ dotRecs place path ino parentIno mode parentMode, Rec.Ok host r := by
  intro r hr
  rcases List.mem_cons.mp hr with rfl | hr
  · refine ⟨by simp [dot], by simp [dot], ?_, joinPath_noNul hp (by decide), ?_⟩
    · simp only [joinPath_length, dot, List.length_singleton]
      split at hf <;> omega
    · intro h
      rw [hm] at h
      cases h
  · split at hr
    · rename_i hz
      rw [if_pos hz] at hf
      obtain rfl := List.mem_singleton.mp hr
      refine ⟨by simp [dotDot], by simp [dotDot], ?_, joinPath_noNul hp (by decide), ?_⟩
      · simp only [joinPath_length, dotDot, List.length_cons, List.length_nil]
        omega
      · intro h
        rw [hpm] at h
        cases h
    · cases hr

theorem Listing.recs_ok {host : Host} (l : Listing) {place : Place} {path : List Byte}
    {ino mode n : Word}
    (hon : l.On host path mode) (hp : 0#8 ∉ path) (hs : l.Short) (hf : l.Fits path.length)
    (hm : sIsReg mode = false) : ∀ r ∈ (l.recs place path ino mode n).1, Rec.Ok host r := by
  induction l generalizing place path ino mode n with
  | nil => simp [Listing.recs]
  | self rest ih | parent rest ih => exact ih hon hp hs hf hm
  | file name m contents rest ih =>
    intro r hr
    rcases List.mem_cons.mp hr with rfl | hr
    · have hl := joinPath_length path name.bytes
      exact ⟨Nat.lt_succ_of_le hs.1,
        name.noNul, by rw [hl]; exact hf.1, joinPath_noNul hp name.noNul,
        fun _ => hon.2.1⟩
    · exact ih hon.2.2 hp hs.2 hf.2 hm r hr
  | other name m rest ih => exact ih hon.2 hp hs.2 hf.2 hm
  | dir name m children rest ihc ihr =>
    obtain ⟨_, _, _, _, hbelow, hrest⟩ := hon
    have hsub : 0#8 ∉ joinPath path name.bytes := joinPath_noNul hp name.noNul
    have hlen := joinPath_length path name.bytes
    have hfit := hf.1
    intro r hr
    simp only [Listing.recs, List.mem_cons, List.mem_append] at hr
    rcases hr with rfl | (hr | hr) | hr
    · exact ⟨Nat.lt_succ_of_le hs.1, name.noNul, by rw [hlen]; omega, hsub,
        fun h => by simp [m.not_reg] at h⟩
    · exact dotRecs_ok hsub (by rw [hlen]; split <;> omega) m.not_reg hm r hr
    · exact ihc hbelow hsub hs.2.1 (by rw [hlen]; exact hf.2.1) m.not_reg r hr
    · exact ihr hrest hp hs.2.2 hf.2.2 hm r hr

theorem Packable.recs_ok {host : Host} {t : SourceTree} {pathPrefix : List Byte}
    (h : Packable host t pathPrefix) : ∀ r ∈ t.recs pathPrefix, Rec.Ok host r := by
  have hlen := h.rootFits
  intro r hr
  rcases List.mem_cons.mp hr with rfl | hr
  · exact ⟨by simp [rootRec, slash], by simp [rootRec,
      slash], by simp only [rootRec]; omega, h.noNul,
      fun hreg => absurd hreg (by simp [rootRec, sIsReg, sIFDIR, sIFMT, sIFREG])⟩
  · cases List.mem_append.mp hr with
    | inl hr => exact dotRecs_ok h.noNul (by simpa using hlen) t.mode.not_reg (by decide) r hr
    | inr hr => exact t.listing.recs_ok h.held.entries h.noNul h.short h.fits t.mode.not_reg r hr

@[simp] theorem IFSHeader.bytes_length (h : IFSHeader) : h.bytes.length = 16 := by
  simp [IFSHeader.bytes]

@[simp] theorem IFSNode.bytes_length (n : IFSNode) : n.bytes.length = 60 := by
  simp [IFSNode.bytes]

/-- The blocks of the node table: the records, then the free slots. -/
def tableBlocks (mem : Memory) (rs : List Rec) : List (List Byte) :=
  (placedNodes rs (fileTableOffset rs.length)).map (fun c => c.node.bytes) ++
    (List.range freeNodeCnt).map (fun t => (freeNode mem t).bytes)

theorem tableBlocks_size (mem : Memory) (rs : List Rec) :
    ∀ b ∈ tableBlocks mem rs, b.length = 60 := by
  intro b hb
  rcases List.mem_append.mp hb with hb | hb
  all_goals
    obtain ⟨_, _, rfl⟩ := List.mem_map.mp hb
    exact IFSNode.bytes_length _

@[simp] theorem tableBlocks_length (mem : Memory) (rs : List Rec) :
    (tableBlocks mem rs).length = rs.length + 16 := by
  simp [tableBlocks, freeNodeCnt]

theorem flatten_length {size : Nat} {blocks : List (List Byte)}
    (h : ∀ b ∈ blocks, b.length = size) :
    blocks.flatten.length = size * blocks.length := by
  induction blocks with
  | nil => rfl
  | cons b blocks ih =>
    rw [List.flatten_cons, List.length_append, h b List.mem_cons_self,
      ih (fun c hc => h c (List.mem_cons_of_mem _ hc)), List.length_cons, Nat.mul_succ]
    omega

theorem tableBlocks_flatten (mem : Memory) (rs : List Rec) :
    (tableBlocks mem rs).flatten.length = 60 * (rs.length + 16) := by
  rw [flatten_length (tableBlocks_size mem rs), tableBlocks_length]

/-- Where the node table ends, its free slots included. -/
def tableEnd (nodeCnt : Nat) : Nat := nodeTableOffset + 60 * (nodeCnt + 16)

/-- The table ends where the first extent starts, or before. -/
theorem table_below (n : Nat) : tableEnd n ≤ fileTableOffset n := by
  rw [tableEnd]
  rw [Nat.mul_comm]
  exact le_alignUp _

/-- An image below 4 GiB has far fewer nodes than a field can count. -/
theorem length_lt_of_imageSize {rs : List Rec} (h : imageSize rs < 2 ^ 32) :
    60 * (rs.length + 16) < 2 ^ 32 := by
  have hoff := le_layoutEnd rs (Nat.le_refl (fileTableOffset rs.length))
  have htab := Nat.le_trans (Nat.le_add_left _ _) (table_below rs.length)
  exact Nat.lt_of_le_of_lt (Nat.le_trans htab hoff) h

theorem contents_lt_of_imageSize {rs : List Rec} (h : imageSize rs < 2 ^ 32) :
    ∀ r ∈ rs, r.contents.length < 2 ^ 32 := by
  intro r hr
  rw [← places_fst rs (fileTableOffset rs.length)] at hr
  obtain ⟨p, hp, rfl⟩ := List.mem_map.mp hr
  have hb := (places_bounds (fileTableOffset rs.length) hp).2
  exact Nat.lt_of_le_of_lt (Nat.le_trans (Nat.le_add_left _ _) hb) h

theorem addressable_of_imageSize {rs : List Rec} (h : imageSize rs < 2 ^ 32) : Addressable rs := by
  have hlen := length_lt_of_imageSize h
  refine ⟨by omega, fun p hp _ => ?_⟩
  have hend := (places_bounds (fileTableOffset rs.length) hp).2
  exact Nat.lt_of_le_of_lt (Nat.le_trans (Nat.le_add_right _ _) hend) h

/-- One round on a placed record: a regular file's contents go to its extent,
and any other record leaves the file alone. -/
theorem writeContent_data {host : Host} {r : Rec} (base : Nat) {off : Nat} (fd : Fd) (hok : Rec.Stored host r)
    (hoff : r.contents ≠ [] → off < 2 ^ 32) (hlen : r.contents.length < 2 ^ 32) :
    ∃ fd', writeContent host base fd (r.container (BitVec.ofNat 32 off)) = .ok fd' ∧
      fd'.data = if sIsReg r.permissions then pwrite fd.data (base + off) r.contents else fd.data := by
  have hsize : (BitVec.ofNat 32 r.contents.length).toNat = r.contents.length := by
    rw [BitVec.toNat_ofNat]
    exact Nat.mod_eq_of_lt hlen
  have hstr : cstr? (padded 1024 r.path).toList = some r.path := cstr_padded hok.pathNoNul hok.pathShort
  by_cases hreg : sIsReg r.permissions = true
  · obtain ⟨bs, hbs, htake⟩ := hok.held hreg
    refine ⟨(fd.lseek (base + (BitVec.ofNat 32 off).toNat)).write r.contents, ?_, ?_⟩
    · simp only [writeContent, Rec.container, hreg, if_true, hstr, orStop, hbs, hsize, htake,
        ne_eq, not_true, if_false, bind, Except.bind]
    · rw [if_pos hreg]
      by_cases hc : r.contents = []
      · -- nothing is written, wherever the file is set to
        rw [hc]
        rfl
      · rw [BitVec.toNat_ofNat, Nat.mod_eq_of_lt (hoff hc)]
        rfl
  · exact ⟨fd, by simp only [writeContent, Rec.container, hreg, Bool.false_eq_true, if_false], (if_neg hreg).symm⟩

theorem writeFileContents_cons (host : Host) (base : Nat) (r : Rec) (rs : List Rec)
    (off : Nat) (fd : Fd) :
    writeFileContents host base (placedNodes (r :: rs) off) fd =
      (writeContent host base fd (r.container (BitVec.ofNat 32 off))).bind
        (writeFileContents host base (placedNodes rs (alignUp (off + r.contents.length) 4096))) := rfl

/-- The contents pass: every regular file's extent holds its contents at the end,
nothing below the first extent changes, and nothing lies past the last one that holds anything. -/
theorem writeFileContents_holds {host : Host} (rs : List Rec) (base : Nat)
    {off : Nat} (fd : Fd) (hok : ∀ r ∈ rs, Rec.Stored host r)
    (hoffs : ∀ p ∈ places rs off, p.1.contents ≠ [] → p.2 < 2 ^ 32) (hsizes : ∀ r ∈ rs, r.contents.length < 2 ^ 32) :
    ∃ fd', writeFileContents host base (placedNodes rs off) fd = .ok fd' ∧
      (∀ p ∈ places rs off, sIsReg p.1.permissions = true →
        Holds fd'.data (base + p.2) p.1.contents) ∧
      (∀ p as, p + as.length ≤ base + off → Holds fd.data p as → Holds fd'.data p as) ∧
      ∀ k, k ≤ off → fd.data.length ≤ base + k → fd'.data.length ≤ base + filledEnd rs off k := by
  induction rs generalizing off fd with
  | nil => exact ⟨fd, rfl, by simp [places], fun _ _ _ h => h, fun _ _ h => h⟩
  | cons r rs ih =>
    have hup := le_alignUp (off + r.contents.length)
    have hoff : off ≤ alignUp (off + r.contents.length) 4096 := Nat.le_trans (Nat.le_add_right _ _) hup
    obtain ⟨hokr, hoks⟩ := List.forall_mem_cons.mp hok
    obtain ⟨hoffr, hoffs⟩ := List.forall_mem_cons.mp hoffs
    obtain ⟨hsizer, hsizes⟩ := List.forall_mem_cons.mp hsizes
    obtain ⟨fd₁, hwrite, hdata⟩ := writeContent_data base fd hokr hoffr hsizer
    obtain ⟨fd', hrun, hnew, hold, hlen⟩ := ih fd₁ hoks hoffs hsizes
    refine ⟨fd', ?_, List.forall_mem_cons.mpr ⟨fun hreg => ?_, hnew⟩, fun p as hp h => ?_, fun k hk h => ?_⟩
    · rw [writeFileContents_cons, hwrite]
      exact hrun
    · rw [if_pos hreg] at hdata
      refine hold _ _ ?_ (hdata ▸ holds_pwrite _ _ _)
      rw [Nat.add_assoc]
      exact Nat.add_le_add_left hup base
    · refine hold p as (Nat.le_trans hp (Nat.add_le_add_left hoff base)) ?_
      rw [hdata]
      split
      · exact h.pwrite (base + off) r.contents (Or.inl hp)
      · exact h
    · rw [filledEnd]
      by_cases hc : r.contents = []
      · rw [if_pos hc]
        refine hlen k (Nat.le_trans hk hoff) ?_
        rw [hdata, hc, pwrite, if_pos rfl, ite_self]
        exact h
      · rw [if_neg hc]
        have hbefore : fd.data.length ≤ base + (off + r.contents.length) :=
          Nat.le_trans h (Nat.add_le_add_left (Nat.le_trans hk (Nat.le_add_right _ _)) base)
        refine hlen _ hup ?_
        rw [hdata]
        split
        · exact pwrite_length_le hbefore (Nat.le_of_eq (Nat.add_assoc _ _ _))
        · exact hbefore

/-- An output file: the boot header, the IFS header, the node table and the contents
of the regular files, each where the reader will look for it, and no more. -/
structure IsImage (mem : Memory) (rs : List Rec) (base : Nat) (out : List Byte) : Prop where
  boot : Holds out magicHeaderOffset
    (le32 (BitVec.ofNat 32 base) ++ le32 (BitVec.ofNat 32 (imageSize rs)))
  header : Holds out base (ifsHeader rs.length).bytes
  table : Holds out (base + nodeTableOffset) (tableBlocks mem rs).flatten
  contents : ∀ p ∈ places rs (fileTableOffset rs.length), sIsReg p.1.permissions = true →
    Holds out (base + p.2) p.1.contents
  size : out.length ≤ base + imageSize rs

/-- The header, the records and the free slots are where they belong after `WriteFileTable`,
and what was below them is still there, the gap before them filled with zeros. -/
theorem writeFileTable_holds (mem : Memory) {cs : List IFSNodeContainer} (rs : List Rec)
    (base : Nat) {fd : Fd} (hfd : fd.data.length ≤ base)
    (hcs : List.Forall₂ (fun c r => ∃ o, c = Rec.container o r) cs rs) :
    ∃ fd', writeFileTable mem cs base fd =
        (fd', placedNodes rs (fileTableOffset rs.length), imageSize rs % 2 ^ 32) ∧
      Holds fd'.data 0 (fd.data ++ List.replicate (base - fd.data.length) 0#8) ∧
      Holds fd'.data base (ifsHeader rs.length).bytes ∧
      Holds fd'.data (base + nodeTableOffset) (tableBlocks mem rs).flatten ∧
      fd'.data.length ≤ base + tableEnd rs.length := by
  have hlen : cs.length = rs.length := hcs.length_eq
  have hheader : (ifsHeader rs.length).bytes.length = 16 := IFSHeader.bytes_length _
  obtain ⟨_, hnew, hold⟩ := writes_hold (tableBlocks mem rs)
    (((fd.lseek base).write (ifsHeader rs.length).bytes).lseek (base + nodeTableOffset))
  refine ⟨_, ?_, ?_, ?_, hnew, ?_⟩
  · have hempty : rs = [] → fileTableOffset rs.length = fileTableOffset rs.length % 2 ^ 32 := by
      rintro rfl
      rfl
    simp only [writeFileTable, hlen, calculateFileOffsets_eq rs hcs rfl hempty,
      tableBlocks, List.foldl_append, List.foldl_map]
    rfl
  · have hne : (ifsHeader rs.length).bytes ≠ [] := by
      intro hnil
      rw [hnil] at hheader
      cases hheader
    refine hold 0 _ ?_ (holds_pwrite_filled hfd hne)
    rw [List.length_append, List.length_replicate, Nat.zero_add, Nat.add_sub_cancel' hfd]
    exact Nat.le_add_right base nodeTableOffset
  · refine hold base _ ?_ (holds_pwrite _ _ _)
    rw [hheader]
    exact Nat.add_le_add_left (by decide) base
  · have hend : base + (ifsHeader rs.length).bytes.length ≤ base + tableEnd rs.length := by
      rw [hheader]
      exact Nat.add_le_add_left (Nat.le_trans (by decide : 16 ≤ nodeTableOffset) (Nat.le_add_right _ _)) base
    refine writes_length_le _ _ (pwrite_length_le (Nat.le_trans hfd (Nat.le_add_right _ _)) hend) ?_
    rw [tableBlocks_flatten, tableEnd, ← Nat.add_assoc]
    exact Nat.le_refl _

/-- The boot header is patched in, and nothing outside its eight bytes changes. -/
theorem writeBootloaderHeader_holds (base size : Nat) (fd : Fd) :
    ∃ fd', writeBootloaderHeader base size fd = .ok fd' ∧
      Holds fd'.data magicHeaderOffset (le32 (BitVec.ofNat 32 base) ++ le32 (BitVec.ofNat 32 size)) ∧
      (∀ p as, p + as.length ≤ 16 ∨ 24 ≤ p → Holds fd.data p as → Holds fd'.data p as) ∧
      ∀ k, 24 ≤ k → fd.data.length ≤ k → fd'.data.length ≤ k := by
  have hnew := holds_pwrite fd.data magicHeaderOffset
    (le32 (BitVec.ofNat 32 base) ++ le32 (BitVec.ofNat 32 size))
  have hread := hnew.read
  have hlen : (le32 (BitVec.ofNat 32 base) ++ le32 (BitVec.ofNat 32 size)).length = 8 := by simp
  refine ⟨⟨pwrite fd.data magicHeaderOffset
    (le32 (BitVec.ofNat 32 base) ++ le32 (BitVec.ofNat 32 size)), magicHeaderOffset + 8⟩, ?_, hnew, ?_, ?_⟩
  · rw [hlen] at hread
    simp only [writeBootloaderHeader, Fd.lseek, Fd.write, Fd.read, hread,
      hlen, ne_eq, not_true, if_false]
  · intro p as hp h
    exact h.pwrite magicHeaderOffset _ (by rw [hlen]; exact hp)
  · intro k hk h
    exact pwrite_length_le h (by rw [hlen]; exact hk)

/-- The list of the walk: the root's offset is not the placeholder. -/
theorem containers_cons (r : Rec) (rs : List Rec) (first later : Word) :
    List.Forall₂ (fun c r => ∃ o, c = Rec.container o r)
      (r.container first :: rs.map (Rec.container later)) (r :: rs) :=
  List.Forall₂.cons ⟨_, rfl⟩ (List.forall₂_map_left_iff.mpr (List.forall₂_same.mpr fun _ _ => ⟨_, rfl⟩))

theorem Packable.list_containers {host : Host} {t : SourceTree}
    {pathPrefix : List Byte} {fuel : Nat}
    (h : Packable host t pathPrefix) (hd : t.listing.depth < fuel) :
    ∃ cs, buildList host zeroMemory fuel pathPrefix = .ok cs ∧
      List.Forall₂ (fun c r => ∃ o, c = Rec.container o r) cs (t.recs pathPrefix) := by
  exact ⟨_, buildList_zero h hd, containers_cons _ _ _ _⟩

/-- The bootloader with zeros up to the next page, where the image starts. -/
def paddedBootloader (bootloader : List Byte) : List Byte :=
  bootloader ++ List.replicate (alignUp bootloader.length 4096 - bootloader.length) 0#8

theorem paddedBootloader_length (bootloader : List Byte) :
    (paddedBootloader bootloader).length = alignUp bootloader.length 4096 := by
  have hle := le_alignUp bootloader.length
  rw [paddedBootloader, List.length_append, List.length_replicate]
  omega

/-- What stands in the fresh output when the image is begun. -/
theorem writeBootloader_data (bootloader : List Byte) : ((⟨[], 0⟩ : Fd).write bootloader).data = bootloader := by
  rw [Fd.write, pwrite]
  split
  · rename_i hnil
    exact hnil.symm
  · simp

/-- A list of records that can be stored is packed where its fields can say sizes and places: the output is
its image at the page after the bootloader, which is as it was but for its boot header, and ends
where the last of them that holds anything does. -/
theorem list_written {host : Host} {rs : List Rec} {cs : List IFSNodeContainer} {pathPrefix : List Byte}
    {fuel : Nat} (bootloader : List Byte) (hlist : buildList host zeroMemory fuel pathPrefix = .ok cs)
    (hcs : List.Forall₂ (fun c r => ∃ o, c = Rec.container o r) cs rs) (hok : ∀ r ∈ rs, Rec.Stored host r)
    (haddr : Addressable rs) (hsizes : ∀ r ∈ rs, r.contents.length < 2 ^ 32) :
    ∃ out, mkifs host zeroMemory fuel bootloader pathPrefix = .ok out ∧
      IsImage zeroMemory rs (alignUp bootloader.length 4096) out ∧
      Holds out 0 ((paddedBootloader bootloader).take 16) ∧
      Holds out 24 ((paddedBootloader bootloader).drop 24) ∧
      out.length ≤ alignUp bootloader.length 4096 +
        filledEnd rs (fileTableOffset rs.length) (tableEnd rs.length) := by
  have hstart := writeBootloader_data bootloader
  have hfd : ((⟨[], 0⟩ : Fd).write bootloader).data.length ≤ alignUp bootloader.length 4096 := by
    rw [hstart]
    exact le_alignUp _
  have htable := table_below rs.length
  have hgap : 24 ≤ tableEnd rs.length := Nat.le_trans (by decide : 24 ≤ nodeTableOffset) (Nat.le_add_right _ _)
  obtain ⟨fd₁, hrun₁, hfilled, hheader, hnodes, hlen₁⟩ :=
    writeFileTable_holds zeroMemory rs (alignUp bootloader.length 4096) hfd hcs
  rw [hstart] at hfilled
  obtain ⟨base, hbase⟩ : ∃ base, base = alignUp bootloader.length 4096 := ⟨_, rfl⟩
  rw [← hbase] at hrun₁ hfilled hheader hnodes hlen₁ ⊢
  have hpage : base = 0 ∨ 4096 ≤ base := by
    have hmod := alignUp_mod bootloader.length
    rw [← hbase] at hmod
    omega
  obtain ⟨fd₂, hrun₂, hcontents, hold₂, hlen₂⟩ := writeFileContents_holds rs base fd₁ hok haddr.offsets hsizes
  obtain ⟨fd₃, hrun₃, hboot, hold₃, hlen₃⟩ := writeBootloaderHeader_holds base (imageSize rs % 2 ^ 32) fd₂
  rw [ofNat_mod] at hboot
  have hlast : _ ≤ filledEnd rs _ _ := le_filledEnd htable
  have hend : fd₃.data.length ≤ base + filledEnd rs (fileTableOffset rs.length) (tableEnd rs.length) :=
    hlen₃ _ (Nat.le_trans hgap (Nat.le_trans hlast (Nat.le_add_left _ _))) (hlen₂ _ htable hlen₁)
  have hpad : (paddedBootloader bootloader).length = base := (paddedBootloader_length bootloader).trans hbase.symm
  rw [hbase, ← paddedBootloader] at hfilled
  obtain ⟨hlow, _⟩ := (hold₂ 0 _ (by rw [hpad]; omega) hfilled).parts 16
  obtain ⟨_, htop⟩ := (hold₂ 0 _ (by rw [hpad]; omega) hfilled).parts 24
  refine ⟨fd₃.data, ?_, ⟨hboot, ?_, ?_, ?_, ?_⟩, ?_, ?_, hend⟩
  · simp only [mkifs, writeBootloader, writeIFS, ← hbase, hlist, hrun₁, hrun₂,
      hrun₃, bind, Except.bind, pure, Except.pure]
  · refine hold₃ _ _ ?_ (hold₂ _ _ ?_ hheader)
    · rw [IFSHeader.bytes_length]
      omega
    · rw [IFSHeader.bytes_length]
      exact Nat.add_le_add_left (Nat.le_trans (by omega) htable) base
  · have hsize := tableBlocks_flatten zeroMemory rs
    refine hold₃ _ _ (Or.inr ?_) (hold₂ _ _ ?_ hnodes)
    · exact Nat.le_trans (by decide : 24 ≤ nodeTableOffset) (Nat.le_add_left _ _)
    · rw [hsize, Nat.add_assoc]
      exact Nat.add_le_add_left htable base
  · intro p hp hreg
    have hoff := (places_bounds 0 hp).1
    exact hold₃ _ _ (Or.inr (by omega)) (hcontents p hp hreg)
  · exact Nat.le_trans hend (Nat.add_le_add_left (filledEnd_le htable htable) base)
  · refine hold₃ _ _ (Or.inl ?_) hlow
    rw [List.length_take]
    omega
  · exact hold₃ _ _ (Or.inr (Nat.le_refl 24)) (by simpa using htop)

/-- A packable tree whose image stays below 4 GiB is packed, given fuel for its depth. -/
theorem Packable.mkifs_written {host : Host} {t : SourceTree} {pathPrefix : List Byte} {fuel : Nat}
    (bootloader : List Byte) (h : Packable host t pathPrefix) (hd : t.listing.depth < fuel)
    (hlt : imageSize (t.recs pathPrefix) < 2 ^ 32) :
    ∃ out, mkifs host zeroMemory fuel bootloader pathPrefix = .ok out ∧
      IsImage zeroMemory (t.recs pathPrefix) (alignUp bootloader.length 4096) out ∧
      Holds out 0 ((paddedBootloader bootloader).take 16) ∧
      Holds out 24 ((paddedBootloader bootloader).drop 24) ∧
      out.length ≤ alignUp bootloader.length 4096 +
        filledEnd (t.recs pathPrefix) (fileTableOffset (t.recs pathPrefix).length)
          (tableEnd (t.recs pathPrefix).length) := by
  obtain ⟨cs, hlist, hcs⟩ := h.list_containers hd
  exact list_written bootloader hlist hcs (fun r hr => (h.recs_ok r hr).stored) (addressable_of_imageSize hlt)
    (contents_lt_of_imageSize hlt)

theorem Packable.mkifs_image {host : Host} {t : SourceTree} {pathPrefix : List Byte} {fuel : Nat}
    (bootloader : List Byte) (h : Packable host t pathPrefix) (hd : t.listing.depth < fuel)
    (hlt : imageSize (t.recs pathPrefix) < 2 ^ 32) :
    ∃ out, mkifs host zeroMemory fuel bootloader pathPrefix = .ok out ∧
      IsImage zeroMemory (t.recs pathPrefix) (alignUp bootloader.length 4096) out := by
  obtain ⟨out, hrun, himage, _⟩ := h.mkifs_written bootloader hd hlt
  exact ⟨out, hrun, himage⟩

end CheviotBoot.Mkifs
