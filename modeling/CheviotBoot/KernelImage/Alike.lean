import CheviotBoot.KernelImage.Combine
import CheviotBoot.Mkifs.Combined
import CheviotBoot.Mkifs.Relocated

namespace CheviotBoot.KernelImage
open Lib Mkifs

/-- The buffer that `createrpikernelimg` writes, behind a bootloader of its own. -/
theorem filled_holds {bootloader ifs : List Byte} (hboot : bootloader ≠ [])
    (junk : CharBuf (outputSize bootloader ifs)) :
    Holds (filled bootloader ifs junk).toList 16 (bootWords bootloader ifs) ∧
      Holds (filled bootloader ifs junk).toList (alignUp bootloader.length 4096) ifs := by
  have hpos := List.length_pos_iff.mpr hboot
  have hup := le_alignUp bootloader.length
  have hmod := alignUp_mod bootloader.length
  have hifs := le_alignUp ifs.length
  have hwords := bootWords_length bootloader ifs
  refine ⟨fun i hi => ?_, fun i hi => ?_⟩
  · rw [getElem?_filled _ _ _ (by rw [outputSize]; omega), if_pos (by omega), Nat.add_sub_cancel_left,
      List.getElem?_eq_getElem]
  · rw [getElem?_filled _ _ _ (by rw [outputSize]; omega), if_neg (by omega), if_pos (by omega),
      Nat.add_sub_cancel_left, List.getElem?_eq_getElem]

/-- A run of `createrpikernelimg` that gets to the end has written such a buffer. -/
theorem main_filled {os : Os} {bootloader ifs program output bootloaderFile ifsFile out : List Byte}
    (hboot : bootloader ≠ []) (hopensBoot : os.opens bootloaderFile = some bootloader)
    (hopensIfs : os.opens ifsFile = some ifs)
    (h : main os [program, output, bootloaderFile, ifsFile] = .ok out) :
    ∃ junk : CharBuf (outputSize bootloader ifs), out = (filled bootloader ifs junk).toList := by
  have hroom : 24 ≤ outputSize bootloader ifs := by
    have hpos := List.length_pos_iff.mpr hboot
    have hup := le_alignUp bootloader.length
    have hmod := alignUp_mod bootloader.length
    rw [outputSize]
    omega
  simp only [KernelImage.main, hopensBoot, hopensIfs, orExit] at h
  split at h
  · cases h
  · change combine os bootloader ifs = .ok out at h
    rcases combine_cases os bootloader ifs hroom with hstop | ⟨junk, hdone⟩
    · cases hstop.symm.trans h
    · exact ⟨junk, (Except.ok.inj (hdone.symm.trans h)).symm⟩

/-- Where what the two tools make of the same files need not be the same: the padding of the bootloader
is what memory was, the size that is recorded is rounded up, and an image that `mkifs` made on its own
has a boot header in it as well. -/
def OwnWay (bootloader : List Byte) (i : Nat) : Prop :=
  20 ≤ i ∧ i < 24 ∨ bootloader.length ≤ i ∧ i < alignUp bootloader.length 4096 ∧ ¬ (16 ≤ i ∧ i < 24) ∨
    alignUp bootloader.length 4096 + 16 ≤ i ∧ i < alignUp bootloader.length 4096 + 24

/-- An image on its own, with the boot header that goes into it. -/
theorem behindBootloader_nil {image : List Byte} (size : Word) (h : 24 ≤ image.length) :
    (behindBootloader [] image size).length = image.length ∧
      ∀ i, ¬ (16 ≤ i ∧ i < 24) → (behindBootloader [] image size)[i]? = image[i]? := by
  have heq : behindBootloader [] image size = pwrite image 16 (le32 0#32 ++ le32 size) := rfl
  have hwords : (le32 0#32 ++ le32 size).length = 8 := by simp
  have hlen : (pwrite image 16 (le32 0#32 ++ le32 size)).length = image.length :=
    Nat.le_antisymm (pwrite_length_le (Nat.le_refl _) (by omega)) (length_le_pwrite _ _ _)
  rw [heq]
  refine ⟨hlen, fun i hi => ?_⟩
  by_cases hin : i < image.length
  · rw [getElem?_pwrite image 16 _ (Or.inl hin), if_neg (by omega)]
  · rw [List.getElem?_eq_none (by omega), List.getElem?_eq_none (by omega)]

/-- An image behind a bootloader. -/
theorem behindBootloader_cons {bootloader : List Byte} (hboot : bootloader ≠ []) (image : List Byte) (size : Word) :
    (behindBootloader bootloader image size).length = alignUp bootloader.length 4096 + image.length ∧
      ∀ i, (behindBootloader bootloader image size)[i]? =
        if 16 ≤ i ∧ i < 24 then
          (le32 (BitVec.ofNat 32 (alignUp bootloader.length 4096)) ++ le32 size)[i - 16]?
        else if i < alignUp bootloader.length 4096 then (paddedBootloader bootloader)[i]?
        else image[i - alignUp bootloader.length 4096]? := by
  have hpos := List.length_pos_iff.mpr hboot
  have hup := le_alignUp bootloader.length
  have hmod := alignUp_mod bootloader.length
  have hpad := paddedBootloader_length bootloader
  obtain ⟨words, hwords⟩ : ∃ words, words = le32 (BitVec.ofNat 32 (alignUp bootloader.length 4096)) ++ le32 size :=
    ⟨_, rfl⟩
  have hlen : words.length = 8 := by simp [hwords]
  have heq : behindBootloader bootloader image size = pwrite (paddedBootloader bootloader) 16 words ++ image := by
    rw [behindBootloader, ← hwords, pwrite_before (by omega)]
  have hfront : (pwrite (paddedBootloader bootloader) 16 words).length = alignUp bootloader.length 4096 :=
    Nat.le_antisymm (pwrite_length_le (Nat.le_of_eq hpad) (by omega)) (hpad ▸ length_le_pwrite _ _ _)
  rw [heq, ← hwords]
  refine ⟨by rw [List.length_append, hfront], fun i => ?_⟩
  by_cases hin : i < alignUp bootloader.length 4096
  · rw [List.getElem?_append_left (by omega), getElem?_pwrite _ _ _ (Or.inl (by omega)), hlen, if_pos hin]
  · rw [List.getElem?_append_right (by omega), hfront, if_neg (by omega), if_neg hin]

/-- What `mkifs` makes on its own is the image of the tree with its own boot header. -/
theorem treeImage_of_alone {host : Host} {mem : Memory} {fuel : Nat} {pathPrefix img : List Byte}
    (himg : mkifs host mem fuel [] pathPrefix = .ok img) :
    ∃ image size, treeImage host mem fuel pathPrefix = .ok (image, size) ∧ behindBootloader [] image size = img := by
  rw [mkifs_treeImage] at himg
  cases himage : treeImage host mem fuel pathPrefix with
  | error why =>
    rw [himage] at himg
    cases himg
  | ok image =>
    rw [himage] at himg
    exact ⟨image.1, image.2, rfl, Except.ok.inj himg⟩

/-- `createrpikernelimg` makes of a bootloader and of an image that `mkifs` made on its own what `mkifs`
makes of the bootloader and the tree, but for what either does its own way. -/
theorem main_like_mkifs {host : Host} {mem : Memory} {fuel : Nat} {pathPrefix img bootloader : List Byte}
    (himg : mkifs host mem fuel [] pathPrefix = .ok img) (hboot : bootloader ≠ []) :
    ∃ combined, mkifs host mem fuel bootloader pathPrefix = .ok combined ∧
      combined.length = alignUp bootloader.length 4096 + img.length ∧
      ∀ os program output bootloaderFile ifsFile out, os.opens bootloaderFile = some bootloader →
        os.opens ifsFile = some img → main os [program, output, bootloaderFile, ifsFile] = .ok out →
          out.length = alignUp bootloader.length 4096 + alignUp img.length 4096 ∧
          ∀ i, i < combined.length → ¬ OwnWay bootloader i → out[i]? = combined[i]? := by
  obtain ⟨image, size, himage, rfl⟩ := treeImage_of_alone himg
  obtain ⟨hlen, halone⟩ := behindBootloader_nil size (treeImage_length himage)
  obtain ⟨hlength, hbytes⟩ := behindBootloader_cons hboot image size
  have hpos := List.length_pos_iff.mpr hboot
  have hup := le_alignUp bootloader.length
  have hmod := alignUp_mod bootloader.length
  refine ⟨behindBootloader bootloader image size, ?_, by rw [hlength, hlen], ?_⟩
  · rw [mkifs_treeImage, himage]
    rfl
  · intro os program output bootloaderFile ifsFile out hopensBoot hopensIfs hmain
    obtain ⟨junk, rfl⟩ := main_filled hboot hopensBoot hopensIfs hmain
    refine ⟨Vector.length_toList, fun i hi hown => ?_⟩
    have hfits := le_alignUp (behindBootloader [] image size).length
    rw [hlength] at hi
    rw [getElem?_filled _ _ _ (by rw [outputSize]; omega), hbytes]
    unfold OwnWay at hown
    by_cases hwords : 16 ≤ i ∧ i < 24
    · rw [if_pos hwords, if_pos hwords, bootWords, List.getElem?_append_left (by rw [le32_length]; omega),
        List.getElem?_append_left (by rw [le32_length]; omega)]
    · rw [if_neg hwords, if_neg hwords]
      by_cases hin : i < alignUp bootloader.length 4096
      · rw [if_neg (by omega), if_pos (by omega), if_pos hin, getElem?_paddedBootloader hin, if_pos (by omega)]
      · rw [if_pos (by omega), if_neg hin, halone _ (by omega)]

/-- A bootloader of two bytes and a tree with a `boot`; the image's first byte is the same. -/
theorem bootTree_alike : ∃ img combined out, mkifs bootHost zeroMemory 2 [] rootPath = .ok img ∧
    mkifs bootHost zeroMemory 2 [1#8, 2#8] rootPath = .ok combined ∧
    main (soiled [1#8, 2#8] img) [[], [], [], [0#8]] = .ok out ∧ out[4096]? = combined[4096]? := by
  obtain ⟨img, hrun, himage⟩ := bootTree_packable.mkifs_image [] (by decide : bootTree.listing.depth < 2) (by decide)
  obtain ⟨combined, hcombined, hlen, hlike⟩ := main_like_mkifs hrun (List.cons_ne_nil 1#8 [2#8])
  have hpage : alignUp ([1#8, 2#8] : List Byte).length 4096 = 4096 := by decide
  have hroom : 24 ≤ outputSize [1#8, 2#8] img := by
    rw [outputSize, hpage]
    omega
  obtain ⟨-, hsame⟩ := hlike (soiled [1#8, 2#8] img) [] [] [] [0#8] _ rfl rfl (soiled_main hroom)
  refine ⟨img, combined, _, hrun, hcombined, soiled_main hroom, hsame 4096 ?_ ?_⟩
  · have hend := himage.header.length_le (List.ne_nil_of_length_eq_add_one (IFSHeader.bytes_length _))
    rw [IFSHeader.bytes_length] at hend
    rw [hlen, hpage]
    omega
  · unfold OwnWay
    rw [hpage]
    omega

end CheviotBoot.KernelImage
