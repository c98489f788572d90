import CheviotBoot.Lib.Align
import CheviotBoot.Lib.Buffer
import CheviotBoot.Lib.File
import CheviotBoot.Lib.Outcome

namespace CheviotBoot.KernelImage
open Lib

def magicHeaderOffset : Nat := 16
def ifsAlignment : Nat := 4096

/-- How a run fails: the usage message and -1, `EXIT_FAILURE`, or an access outside the buffer. -/
inductive Failure
  | usage
  | exitFailure
  | outside
  deriving DecidableEq

/-- What the system calls give: the files by their paths, `malloc`'s memory with whatever is in it,
and how many bytes the two reads and the write move. -/
structure Os where
  creates : List Byte → Bool
  opens : List Byte → Option (List Byte)
  malloc : (n : Nat) → Option (CharBuf n)
  readBootloader : Nat → Int
  readIfs : Nat → Int
  writeOutput : Nat → Int

/-- Bytes stored into the buffer. -/
def store {n : Nat} (buf : CharBuf n) (pos : Nat) (bs : List Byte) : Except Failure (CharBuf n) :=
  if pos + bs.length ≤ n then .ok (buf.put pos bs) else .error .outside

def orExit {α : Type} : Option α → Except Failure α
  | none => .error .exitFailure
  | some a => .ok a

/-- A system call has to move as many bytes as it was asked to. -/
def whole (moves : Nat → Int) (n : Nat) : Except Failure Unit :=
  if moves n ≠ n then .error .exitFailure else .ok ()

/-- The part of `main` from `fstat` on. -/
def combine (os : Os) (bootloader ifs : List Byte) : Except Failure (List Byte) := do
  let ifsOffset := alignUp bootloader.length ifsAlignment
  let ifsSize := alignUp ifs.length ifsAlignment
  let buf ← orExit (os.malloc (ifsOffset + ifsSize))
  whole os.readBootloader bootloader.length
  let buf ← store buf 0 bootloader
  whole os.readIfs ifs.length
  let buf ← store buf ifsOffset ifs
  let buf ← store buf magicHeaderOffset (le32 (BitVec.ofNat 32 ifsOffset))
  let buf ← store buf (magicHeaderOffset + 4) (le32 (BitVec.ofNat 32 ifsSize))
  whole os.writeOutput (ifsOffset + ifsSize)
  return buf.toList

/-- `main`: the bytes of the output after a run that returns 0. -/
def main (os : Os) : List (List Byte) → Except Failure (List Byte)
  | [_, output, bootloaderFile, ifsFile] => do
    if os.creates output = false then .error .exitFailure
    let bootloader ← orExit (os.opens bootloaderFile)
    let ifs ← orExit (os.opens ifsFile)
    combine os bootloader ifs
  | _ => .error .usage

abbrev outputSize (bootloader ifs : List Byte) : Nat := alignUp bootloader.length 4096 + alignUp ifs.length 4096

/-- The two words of the boot header. -/
def bootWords (bootloader ifs : List Byte) : List Byte :=
  le32 (BitVec.ofNat 32 (alignUp bootloader.length 4096)) ++ le32 (BitVec.ofNat 32 (alignUp ifs.length 4096))

/-- The bootloader with its bytes 16 to 23 replaced. -/
def patched (bootloader words : List Byte) : List Byte :=
  bootloader.mapIdx fun i b => if 16 ≤ i ∧ i < 24 then words.getD (i - 16) 0#8 else b

/-- A file with zeros to the end of its last page. -/
def paged (bs : List Byte) : List Byte := bs ++ List.replicate (alignUp bs.length 4096 - bs.length) 0#8

/-- The image that is to be written. -/
def kernelImage (bootloader ifs : List Byte) : List Byte :=
  paged (patched bootloader (bootWords bootloader ifs)) ++ paged ifs

/-- Whatever the system calls give, no access is outside the buffer and what a run writes is the image. -/
def Undamaged (bootloader ifs : List Byte) : Prop :=
  ∀ os program output bootloaderFile ifsFile, os.opens bootloaderFile = some bootloader →
    os.opens ifsFile = some ifs →
      main os [program, output, bootloaderFile, ifsFile] ≠ .error .outside ∧
        ∀ out, main os [program, output, bootloaderFile, ifsFile] = .ok out → out = kernelImage bootloader ifs

/-- The buffer after all stores, from what `malloc` found in it. -/
def filled (bootloader ifs : List Byte) {n : Nat} (junk : CharBuf n) : CharBuf n :=
  (((junk.put 0 bootloader).put (alignUp bootloader.length 4096) ifs).put 16
    (le32 (BitVec.ofNat 32 (alignUp bootloader.length 4096)))).put 20
      (le32 (BitVec.ofNat 32 (alignUp ifs.length 4096)))

theorem bootWords_length (bootloader ifs : List Byte) : (bootWords bootloader ifs).length = 8 := by
  simp [bootWords]

theorem getElem?_filled (bootloader ifs : List Byte) {n : Nat} (junk : CharBuf n) {i : Nat} (hi : i < n) :
    (filled bootloader ifs junk).toList[i]? =
      if 16 ≤ i ∧ i < 24 then (bootWords bootloader ifs)[i - 16]?
      else if alignUp bootloader.length 4096 ≤ i ∧ i < alignUp bootloader.length 4096 + ifs.length then
        ifs[i - alignUp bootloader.length 4096]?
      else if i < bootloader.length then bootloader[i]? else junk.toList[i]? := by
  simp only [filled, CharBuf.getElem?_put _ _ _ hi, le32_length, Nat.sub_zero, Nat.zero_add, Nat.zero_le, true_and]
  by_cases hlow : 16 ≤ i ∧ i < 20
  · rw [if_neg (by omega), if_pos hlow, if_pos (by omega), bootWords,
      List.getElem?_append_left (by rw [le32_length]; omega)]
  · rw [if_neg hlow]
    by_cases hhigh : 20 ≤ i ∧ i < 24
    · rw [if_pos hhigh, if_pos (by omega), bootWords, List.getElem?_append_right (by rw [le32_length]; omega),
        le32_length, Nat.sub_sub]
    · have hout : ¬ (16 ≤ i ∧ i < 24) := by omega
      rw [if_neg hhigh, if_neg hout]

theorem whole_cases (moves : Nat → Int) (n : Nat) :
    whole moves n = .error .exitFailure ∨ whole moves n = .ok () := by
  rw [whole]
  split
  · exact Or.inl rfl
  · exact Or.inr rfl

theorem store_inside {n pos : Nat} (buf : CharBuf n) {bs : List Byte} (h : pos + bs.length ≤ n) :
    store buf pos bs = .ok (buf.put pos bs) := if_pos h

/-- All stores are inside a buffer that has room for the boot header. -/
theorem combine_eq {os : Os} {bootloader ifs : List Byte}
    {junk : CharBuf (outputSize bootloader ifs)}
    (hm : os.malloc (outputSize bootloader ifs) = some junk)
    (hroom : 24 ≤ outputSize bootloader ifs) :
    combine os bootloader ifs = do
      whole os.readBootloader bootloader.length
      whole os.readIfs ifs.length
      whole os.writeOutput (outputSize bootloader ifs)
      return (filled bootloader ifs junk).toList := by
  have hboot := le_alignUp bootloader.length
  have hifs := le_alignUp ifs.length
  have hfirst := store_inside junk (by rw [outputSize]; omega : 0 + bootloader.length ≤ _)
  have hsecond := store_inside (junk.put 0 bootloader) (Nat.add_le_add_left hifs (alignUp bootloader.length 4096))
  have hthird := store_inside ((junk.put 0 bootloader).put (alignUp bootloader.length 4096) ifs)
    (by rw [le32_length]; omega : 16 + (le32 (BitVec.ofNat 32 (alignUp bootloader.length 4096))).length ≤ _)
  have hfourth := store_inside (((junk.put 0 bootloader).put (alignUp bootloader.length 4096) ifs).put 16
    (le32 (BitVec.ofNat 32 (alignUp bootloader.length 4096))))
    (by rw [le32_length]; omega : 20 + (le32 (BitVec.ofNat 32 (alignUp ifs.length 4096))).length ≤ _)
  simp only [combine, ifsAlignment, magicHeaderOffset, hm, orExit, bind, Except.bind, hfirst, hsecond, hthird, hfourth,
    filled]

/-- A run that gets to the end writes the filled buffer. -/
theorem combine_cases (os : Os) (bootloader ifs : List Byte)
    (hroom : 24 ≤ outputSize bootloader ifs) :
    combine os bootloader ifs = .error .exitFailure ∨
      ∃ junk : CharBuf (outputSize bootloader ifs),
        combine os bootloader ifs = .ok (filled bootloader ifs junk).toList := by
  cases hm : os.malloc (outputSize bootloader ifs) with
  | none =>
    refine Or.inl ?_
    simp only [combine, ifsAlignment, hm, orExit]
    rfl
  | some junk =>
    rw [combine_eq hm hroom]
    rcases whole_cases os.readBootloader bootloader.length with hfirst | hfirst
    · exact Or.inl (by rw [hfirst]; rfl)
    · rcases whole_cases os.readIfs ifs.length with hsecond | hsecond
      · exact Or.inl (by rw [hfirst, hsecond]; rfl)
      · rcases whole_cases os.writeOutput (outputSize bootloader ifs) with hlast | hlast
        · exact Or.inl (by rw [hfirst, hsecond, hlast]; rfl)
        · exact Or.inr ⟨junk, by rw [hfirst, hsecond, hlast]; rfl⟩

theorem alignUp_of_full {v : Nat} (h : v % 4096 = 0) : alignUp v 4096 = v :=
  Nat.le_antisymm ((alignUp_le_iff v).mpr h) (le_alignUp v)

theorem paged_of_full {bs : List Byte} (h : bs.length % 4096 = 0) : paged bs = bs := by
  rw [paged, alignUp_of_full h, Nat.sub_self, List.replicate_zero, List.append_nil]

theorem paged_length (bs : List Byte) : (paged bs).length = alignUp bs.length 4096 := by
  have hup := le_alignUp bs.length
  rw [paged, List.length_append, List.length_replicate]
  omega

/-- A page that is not full ends in a zero. -/
theorem paged_last {bs : List Byte} (h : bs.length % 4096 ≠ 0) :
    (paged bs)[alignUp bs.length 4096 - 1]? = some 0#8 := by
  have hup := le_alignUp bs.length
  have hne : ¬ alignUp bs.length 4096 ≤ bs.length := fun hle => h ((alignUp_le_iff _).mp hle)
  rw [paged, List.getElem?_append_right (by omega), List.getElem?_replicate, if_pos (by omega)]

@[simp] theorem patched_length (bootloader words : List Byte) :
    (patched bootloader words).length = bootloader.length := by
  simp [patched]

theorem getElem?_patched (bootloader : List Byte) {words : List Byte} (hwords : words.length = 8) {i : Nat}
    (hi : i < bootloader.length) :
    (patched bootloader words)[i]? = if 16 ≤ i ∧ i < 24 then words[i - 16]? else bootloader[i]? := by
  rw [patched, List.getElem?_mapIdx, List.getElem?_eq_getElem hi, Option.map_some]
  by_cases hin : 16 ≤ i ∧ i < 24
  · rw [if_pos hin, if_pos hin, List.getD_eq_getElem?_getD, List.getElem?_eq_getElem (by omega), Option.getD_some]
  · rw [if_neg hin, if_neg hin]

/-- Where the two files fill their pages, the stores are the image: the boot header is in the
bootloader, or already in the IFS file. -/
theorem filled_eq {bootloader ifs : List Byte} (hboot : bootloader.length % 4096 = 0) (hifs : ifs.length % 4096 = 0)
    (hheader : bootloader ≠ [] ∨ Holds ifs 16 (bootWords bootloader ifs))
    (junk : CharBuf (outputSize bootloader ifs)) :
    (filled bootloader ifs junk).toList = kernelImage bootloader ifs := by
  have hwords := bootWords_length bootloader ifs
  have himage : kernelImage bootloader ifs = patched bootloader (bootWords bootloader ifs) ++ ifs := by
    rw [kernelImage, paged_of_full hifs, paged_of_full (by rwa [patched_length])]
  rw [himage]
  apply List.ext_getElem?
  intro i
  by_cases hi : i < outputSize bootloader ifs
  · rw [getElem?_filled _ _ _ hi]
    generalize junk.toList[i]? = old
    rw [outputSize, alignUp_of_full hboot, alignUp_of_full hifs] at hi
    rw [alignUp_of_full hboot]
    by_cases hin : i < bootloader.length
    · rw [List.getElem?_append_left (by rwa [patched_length]), getElem?_patched _ hwords hin, if_pos hin,
        if_neg (by omega : ¬ (bootloader.length ≤ i ∧ i < bootloader.length + ifs.length))]
    · rw [List.getElem?_append_right (by rw [patched_length]; omega), patched_length]
      by_cases hpatch : 16 ≤ i ∧ i < 24
      · rcases hheader with hne | hholds
        · have hpos := List.length_pos_iff.mpr hne
          omega
        · have hempty : bootloader.length = 0 := by omega
          have hbyte := hholds (i - 16) (by omega)
          have hat : 16 + (i - 16) = i := by omega
          rw [hat] at hbyte
          rw [if_pos hpatch, hempty, Nat.sub_zero, hbyte, List.getElem?_eq_getElem]
      · rw [if_neg hpatch, if_pos (by omega)]
  · rw [List.getElem?_eq_none (by simpa using Nat.not_lt.mp hi), List.getElem?_eq_none]
    rw [outputSize, alignUp_of_full hboot, alignUp_of_full hifs] at hi
    rw [List.length_append, patched_length]
    omega

/-- The system calls all succeed, and `malloc` finds ones. -/
def soiled (bootloader ifs : List Byte) : Os :=
  { creates := fun _ => true
    opens := fun path => some (if path = [] then bootloader else ifs)
    malloc := fun n => some (Vector.replicate n 0xff#8)
    readBootloader := fun n => n
    readIfs := fun n => n
    writeOutput := fun n => n }

theorem soiled_main {bootloader ifs : List Byte}
    (hroom : 24 ≤ outputSize bootloader ifs) :
    main (soiled bootloader ifs) [[], [], [], [0#8]] =
      .ok (filled bootloader ifs (Vector.replicate (outputSize bootloader ifs) 0xff#8)).toList := by
  have hwhole : ∀ n : Nat, whole (fun n => (n : Int)) n = .ok () := fun n => if_neg (fun h => h rfl)
  change combine (soiled bootloader ifs) bootloader ifs = _
  rw [combine_eq rfl hroom]
  change (do
    whole (fun n => (n : Int)) bootloader.length
    whole (fun n => (n : Int)) ifs.length
    whole (fun n => (n : Int)) (outputSize bootloader ifs)
    return (filled bootloader ifs (Vector.replicate (outputSize bootloader ifs) 0xff#8)).toList :
      Except Failure (List Byte)) = _
  rw [hwhole, hwhole, hwhole]
  rfl

/-- A run on soiled memory writes the image as it should be. -/
theorem Undamaged.soiled {bootloader ifs : List Byte} (h : Undamaged bootloader ifs)
    (hroom : 24 ≤ outputSize bootloader ifs) :
    (filled bootloader ifs (Vector.replicate (outputSize bootloader ifs) 0xff#8)).toList =
      kernelImage bootloader ifs :=
  (h (KernelImage.soiled bootloader ifs) [] [] [] [0#8] rfl rfl).2 _ (soiled_main hroom)

/-- Where a file's last page is not full, its end is what was in memory before. -/
theorem Undamaged.bootloader_full {bootloader ifs : List Byte} (h : Undamaged bootloader ifs) :
    bootloader.length % 4096 = 0 := by
  apply Classical.byContradiction
  intro hpart
  have hup := le_alignUp bootloader.length
  have hmod := alignUp_mod bootloader.length
  have hne : ¬ alignUp bootloader.length 4096 ≤ bootloader.length := fun hle => hpart ((alignUp_le_iff _).mp hle)
  have himage := h.soiled (by rw [outputSize]; omega)
  have hlt : alignUp bootloader.length 4096 - 1 < outputSize bootloader ifs := by rw [outputSize]; omega
  have hbyte := congrArg (fun bs => bs[alignUp bootloader.length 4096 - 1]?) himage
  have hlen := patched_length bootloader (bootWords bootloader ifs)
  have hlast := paged_last (by rwa [hlen] : (patched bootloader (bootWords bootloader ifs)).length % 4096 ≠ 0)
  rw [hlen] at hlast
  simp only [getElem?_filled _ _ _ hlt, kernelImage] at hbyte
  rw [if_neg (by omega), if_neg (by omega), if_neg (by omega),
    List.getElem?_append_left (by rw [paged_length, patched_length]; omega), hlast] at hbyte
  simp [hlt] at hbyte

theorem Undamaged.ifs_full {bootloader ifs : List Byte} (h : Undamaged bootloader ifs) : ifs.length % 4096 = 0 := by
  apply Classical.byContradiction
  intro hpart
  have hboot := le_alignUp bootloader.length
  have hup := le_alignUp ifs.length
  have hmod := alignUp_mod ifs.length
  have hne : ¬ alignUp ifs.length 4096 ≤ ifs.length := fun hle => hpart ((alignUp_le_iff _).mp hle)
  have himage := h.soiled (by rw [outputSize]; omega)
  have hlt : alignUp bootloader.length 4096 + (alignUp ifs.length 4096 - 1) < outputSize bootloader ifs := by
    rw [outputSize]
    omega
  have hbyte := congrArg (fun bs => bs[alignUp bootloader.length 4096 + (alignUp ifs.length 4096 - 1)]?) himage
  have hlast := paged_last hpart
  have hlen : (paged (patched bootloader (bootWords bootloader ifs))).length = alignUp bootloader.length 4096 := by
    rw [paged_length, patched_length]
  simp only [getElem?_filled _ _ _ hlt, kernelImage] at hbyte
  rw [if_neg (by omega), if_neg (by omega), if_neg (by omega),
    List.getElem?_append_right (by omega), hlen, Nat.add_sub_cancel_left, hlast] at hbyte
  simp [hlt] at hbyte

/-- Without a bootloader the boot header goes to the IFS file. -/
theorem Undamaged.header_inside {bootloader ifs : List Byte} (h : Undamaged bootloader ifs) :
    bootloader ≠ [] ∨ Holds ifs 16 (bootWords bootloader ifs) := by
  by_cases hboot : bootloader = []
  · subst hboot
    refine Or.inr ?_
    have hifs := h.ifs_full
    by_cases hempty : ifs = []
    · subst hempty
      exact absurd rfl (h (KernelImage.soiled [] []) [] [] [] [0#8] rfl rfl).1
    · have hpos := List.length_pos_iff.mpr hempty
      have hsize : outputSize [] ifs = ifs.length := by
        rw [outputSize, alignUp_of_full hifs]
        exact Nat.zero_add _
      have himage := h.soiled (by rw [hsize]; omega)
      have hsame : kernelImage [] ifs = ifs := by
        rw [kernelImage, paged_of_full hifs, patched, List.mapIdx_nil, paged_of_full (by rfl), List.nil_append]
      rw [hsame] at himage
      intro i hi
      have hlen := bootWords_length [] ifs
      have hbyte := congrArg (fun bs => bs[16 + i]?) himage
      simp only [getElem?_filled _ _ _ (by rw [hsize]; omega : 16 + i < outputSize [] ifs)] at hbyte
      rw [if_pos (by omega), Nat.add_sub_cancel_left, List.getElem?_eq_getElem hi] at hbyte
      exact hbyte.symm
  · exact Or.inl hboot

/-- The output is the image, whatever is in memory, exactly when both files fill their last page and
the boot header is in the bootloader (or in an IFS file that has these bytes there). -/
theorem undamaged_iff (bootloader ifs : List Byte) :
    Undamaged bootloader ifs ↔ bootloader.length % 4096 = 0 ∧ ifs.length % 4096 = 0 ∧
      (bootloader ≠ [] ∨ Holds ifs 16 (bootWords bootloader ifs)) := by
  constructor
  · exact fun h => ⟨h.bootloader_full, h.ifs_full, h.header_inside⟩
  · rintro ⟨hboot, hifs, hheader⟩ os program output bootloaderFile ifsFile hopensBoot hopensIfs
    have hroom : 24 ≤ outputSize bootloader ifs := by
      have hwords := bootWords_length bootloader ifs
      rw [outputSize, alignUp_of_full hboot, alignUp_of_full hifs]
      rcases hheader with hne | hholds
      · have hpos := List.length_pos_iff.mpr hne
        omega
      · have hle := hholds.length_le (by intro hnil; rw [hnil] at hwords; cases hwords)
        omega
    have hmain : main os [program, output, bootloaderFile, ifsFile] =
        if os.creates output = false then .error .exitFailure else combine os bootloader ifs := by
      simp only [main, hopensBoot, hopensIfs]
      split
      · rfl
      · rfl
    have hcases := combine_cases os bootloader ifs hroom
    rw [hmain]
    by_cases hcreates : os.creates output = false
    · rw [if_pos hcreates]
      exact ⟨nofun, nofun⟩
    · rw [if_neg hcreates]
      rcases hcases with hstop | ⟨junk, hdone⟩
      · rw [hstop]
        exact ⟨nofun, nofun⟩
      · rw [hdone, filled_eq hboot hifs hheader]
        exact ⟨nofun, fun out hout => (Except.ok.inj hout).symm⟩

/-- After a bootloader of one byte the padding is what was in memory. -/
theorem oneByte_soiled : ¬ ∀ bootloader ifs : List Byte, bootloader.length + ifs.length < 2 ^ 32 →
    Undamaged bootloader ifs := by
  intro h
  have hfull := (h [0#8] [] (by decide)).bootloader_full
  cases hfull

end CheviotBoot.KernelImage
