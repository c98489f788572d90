import CheviotBoot.Lib.Outcome
import CheviotBoot.Mkifs.Image

namespace CheviotBoot.Mkifs
open Lib

/-- The first bytes of an image go to where the bootloader's pages end. -/
theorem first_write (bootloader : List Byte) {bs : List Byte} (hbs : bs ≠ []) :
    (((⟨[], 0⟩ : Fd).write bootloader).lseek (alignUp bootloader.length 4096)).write bs =
      (((⟨[], 0⟩ : Fd).lseek 0).write bs).behind (paddedBootloader bootloader) := by
  have hpad := paddedBootloader_length bootloader
  have hle := le_alignUp bootloader.length
  have hboot : pwrite [] 0 bootloader = bootloader := writeBootloader_data bootloader
  have hfirst : (((⟨[], 0⟩ : Fd).lseek 0).write bs).data = bs := writeBootloader_data bs
  have hdata : pwrite bootloader (alignUp bootloader.length 4096) bs = paddedBootloader bootloader ++ bs := by
    rw [pwrite, if_neg hbs, ← paddedBootloader, List.take_of_length_le (Nat.le_of_eq hpad),
      List.drop_of_length_le (by omega), List.append_nil]
  rw [Fd.write, Fd.behind, hfirst, hpad]
  simp only [Fd.lseek, Fd.write, hboot, hdata, Nat.zero_add]

theorem writeRecords_behind {α : Type} (front : List Byte) (bytes : α → List Byte) (as : List α) (fd : Fd) :
    as.foldl (fun fd a => fd.write (bytes a)) (fd.behind front) =
      (as.foldl (fun fd a => fd.write (bytes a)) fd).behind front := by
  induction as generalizing fd with
  | nil => rfl
  | cons a as ih => rw [List.foldl_cons, List.foldl_cons, Fd.behind_write, ih]

/-- The header, the offsets and the table do not depend on where the image starts. -/
theorem writeFileTable_behind (mem : Memory) (list : List IFSNodeContainer) (bootloader : List Byte) :
    writeFileTable mem list (alignUp bootloader.length 4096) ((⟨[], 0⟩ : Fd).write bootloader) =
      ((writeFileTable mem list 0 ⟨[], 0⟩).1.behind (paddedBootloader bootloader),
        (writeFileTable mem list 0 ⟨[], 0⟩).2) := by
  have hheader : (ifsHeader list.length).bytes ≠ [] :=
    List.ne_nil_of_length_eq_add_one (IFSHeader.bytes_length (ifsHeader list.length))
  have hseek : ∀ fd : Fd, (fd.behind (paddedBootloader bootloader)).lseek
      (alignUp bootloader.length 4096 + nodeTableOffset) =
        (fd.lseek (0 + nodeTableOffset)).behind (paddedBootloader bootloader) := by
    intro fd
    rw [← paddedBootloader_length, Fd.behind_lseek, Nat.zero_add]
  simp only [writeFileTable, first_write bootloader hheader, hseek, writeRecords_behind]

/-- Nor do the files' contents, where they can be read and where not. -/
theorem writeContent_behind (host : Host) (front : List Byte) (fd : Fd) (c : IFSNodeContainer) :
    writeContent host front.length (fd.behind front) c = (writeContent host 0 fd c).map (Fd.behind front) := by
  unfold writeContent
  by_cases hreg : sIsReg c.node.permissions = true
  · simp only [hreg, if_true, Fd.behind_lseek, Nat.zero_add]
    cases cstr? c.realPath.toList with
    | none => rfl
    | some path =>
      cases hcontents : host.contents path with
      | none => simp only [orStop, bind, Except.bind, hcontents, Except.map]
      | some contents =>
        simp only [orStop, bind, Except.bind, hcontents]
        split_ifs
        · rfl
        · simp only [Fd.behind_write, Except.map]
  · simp only [hreg, Except.map]
    rfl

theorem writeFileContents_behind (host : Host) (front : List Byte) (list : List IFSNodeContainer) (fd : Fd) :
    writeFileContents host front.length list (fd.behind front) =
      (writeFileContents host 0 list fd).map (Fd.behind front) := by
  unfold writeFileContents
  induction list generalizing fd with
  | nil => rfl
  | cons c list ih =>
    rw [List.foldlM_cons, List.foldlM_cons, writeContent_behind]
    cases writeContent host 0 fd c with
    | error e => rfl
    | ok fd' => exact ih fd'

/-- The boot header goes to the same place in every file. -/
theorem writeBootloaderHeader_eq (base size : Nat) (fd : Fd) : ∃ fd', writeBootloaderHeader base size fd = .ok fd' ∧
    fd'.data = pwrite fd.data 16 (le32 (BitVec.ofNat 32 base) ++ le32 (BitVec.ofNat 32 size)) := by
  have hlen : (le32 (BitVec.ofNat 32 base) ++ le32 (BitVec.ofNat 32 size)).length = 8 := by simp
  have hread := (holds_pwrite fd.data magicHeaderOffset
    (le32 (BitVec.ofNat 32 base) ++ le32 (BitVec.ofNat 32 size))).read
  rw [hlen] at hread
  refine ⟨⟨_, magicHeaderOffset + 8⟩, ?_, rfl⟩
  simp only [writeBootloaderHeader, Fd.lseek, Fd.write, Fd.read, hread, hlen, ne_eq, not_true, if_false]
  rfl

/-- What the tool makes of a tree, before any boot header: the image and `ifs_size`. -/
def treeImage (host : Host) (mem : Memory) (fuel : Nat) (pathPrefix : List Byte) : Except Stop (List Byte × Word) := do
  let list ← buildList host mem fuel pathPrefix
  let (fd, list, ifsSize) := writeFileTable mem list 0 ⟨[], 0⟩
  let fd ← writeFileContents host 0 list fd
  return (fd.data, BitVec.ofNat 32 ifsSize)

/-- An image behind the bootloader's pages, with its base and size in the boot header. -/
def behindBootloader (bootloader image : List Byte) (size : Word) : List Byte :=
  pwrite (paddedBootloader bootloader ++ image) 16
    (le32 (BitVec.ofNat 32 (alignUp bootloader.length 4096)) ++ le32 size)

theorem mkifs_treeImage (host : Host) (mem : Memory) (fuel : Nat) (bootloader pathPrefix : List Byte) :
    mkifs host mem fuel bootloader pathPrefix =
      (treeImage host mem fuel pathPrefix).map fun image => behindBootloader bootloader image.1 image.2 := by
  unfold mkifs writeIFS treeImage
  simp only [writeBootloader]
  cases buildList host mem fuel pathPrefix with
  | error why => rfl
  | ok list =>
    simp only [bind, Except.bind, writeFileTable_behind]
    rw [← paddedBootloader_length, writeFileContents_behind]
    cases writeFileContents host 0 (writeFileTable mem list 0 ⟨[], 0⟩).2.1
        (writeFileTable mem list 0 ⟨[], 0⟩).1 with
    | error why => rfl
    | ok fd =>
      obtain ⟨fd', hfd', hdata⟩ := writeBootloaderHeader_eq (paddedBootloader bootloader).length
        (writeFileTable mem list 0 ⟨[], 0⟩).2.2 (fd.behind (paddedBootloader bootloader))
      simp only [Except.map, hfd', hdata, pure, Except.pure, behindBootloader, ← paddedBootloader_length]
      rfl

theorem writeFileContents_length_le {host : Host} {base : Nat} {list : List IFSNodeContainer} {fd fd' : Fd}
    (h : writeFileContents host base list fd = .ok fd') : fd.data.length ≤ fd'.data.length := by
  unfold writeFileContents at h
  induction list generalizing fd with
  | nil =>
    cases h
    exact Nat.le_refl _
  | cons c list ih =>
    rw [List.foldlM_cons] at h
    obtain ⟨fd₁, hfirst, hrest⟩ := bind_eq_ok.mp h
    refine Nat.le_trans ?_ (ih hrest)
    unfold writeContent at hfirst
    split_ifs at hfirst
    · obtain ⟨path, -, hopened⟩ := bind_eq_ok.mp hfirst
      obtain ⟨contents, -, hwritten⟩ := bind_eq_ok.mp hopened
      dsimp only at hwritten
      split_ifs at hwritten
      cases hwritten
      exact length_le_pwrite _ _ _
    · cases hfirst
      exact Nat.le_refl _

/-- The free slots alone make the image longer than its header. -/
theorem treeImage_length {host : Host} {mem : Memory} {fuel : Nat} {pathPrefix image : List Byte} {size : Word}
    (h : treeImage host mem fuel pathPrefix = .ok (image, size)) : 24 ≤ image.length := by
  obtain ⟨list, -, h⟩ := bind_eq_ok.mp h
  obtain ⟨fd, hcontents, h⟩ := bind_eq_ok.mp h
  cases h
  refine Nat.le_trans ?_ (writeFileContents_length_le hcontents)
  obtain ⟨-, hslots, -⟩ := writes_hold ((List.range freeNodeCnt).map fun t => (freeNode mem t).bytes)
    ((calculateFileOffsets list (fileTableOffset list.length) (fileTableOffset list.length)).1.foldl
      (fun fd c => fd.write c.node.bytes)
      ((((⟨[], 0⟩ : Fd).lseek 0).write (ifsHeader list.length).bytes).lseek (0 + nodeTableOffset)))
  rw [List.foldl_map] at hslots
  have hlen : ((List.range freeNodeCnt).map fun t => (freeNode mem t).bytes).flatten.length = 60 * 16 := by
    rw [@flatten_length 60 _ (by simp), List.length_map, List.length_range, freeNodeCnt]
  have hend := hslots.length_le (List.ne_nil_of_length_eq_add_one hlen)
  rw [hlen] at hend
  exact Nat.le_trans (by omega) hend

/-- A tree makes one image: whatever the bootloader, the tool fails alike or writes that image behind the
bootloader's pages, with its base and size in the boot header. -/
theorem mkifs_relocates (host : Host) (mem : Memory) (fuel : Nat) (pathPrefix : List Byte) :
    (∃ why, ∀ bootloader, mkifs host mem fuel bootloader pathPrefix = .error why) ∨
      ∃ image size, 24 ≤ image.length ∧
        ∀ bootloader, mkifs host mem fuel bootloader pathPrefix = .ok (behindBootloader bootloader image size) := by
  cases himage : treeImage host mem fuel pathPrefix with
  | error why => exact Or.inl ⟨why, fun bootloader => by rw [mkifs_treeImage, himage]; rfl⟩
  | ok image =>
    refine Or.inr ⟨image.1, image.2, treeImage_length himage, fun bootloader => ?_⟩
    rw [mkifs_treeImage, himage]
    rfl

end CheviotBoot.Mkifs
