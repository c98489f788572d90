import CheviotBoot.Boot.KernelFile
import CheviotBoot.Loader.RoundTrip

namespace CheviotBoot.Boot
open Lib Loader Board Mkifs

/-- Wherever memory carries the image, the scans of `elf_load` lead to this file in it. -/
def ServesKernel (img kernel : List Byte) : Prop :=
  ∀ m a, Mem.Carries m a img → ∃ o, Holds img o kernel ∧
    kernelFile m a kernelString = some ⟨a + BitVec.ofNat 32 o, 0#32, BitVec.ofNat 32 kernel.length⟩

/-- Those of `elf_find` lead to this one. -/
def ServesIfs (img ifs : List Byte) : Prop :=
  ∀ m a, Mem.Carries m a img → ∃ o, Holds img o ifs ∧
    elfFind m a filesystemsString ifsString = .found (a + BitVec.ofNat 32 o) (BitVec.ofNat 32 ifs.length)

/-- They lead nowhere. -/
def ServesNone (img dirname filename : List Byte) : Prop :=
  ∀ m a, Mem.Carries m a img → findFile m a dirname filename = none

/-- The boot header leads to an image behind the bootloader. -/
structure ImageBehind (m : Mem) (base size : Nat) (img : List Byte) : Prop where
  headerOffset : rootfsImageOffset m = BitVec.ofNat 32 base
  headerSize : rootfsImageSize m = BitVec.ofNat 32 size
  carries : m.Carries (0x8000#32 + BitVec.ofNat 32 base) img
  fits : img.length ≤ size

/-- What the kernel finds when it is called: itself, the image, the other program and the tables,
through the tables handed over. -/
structure Booted (size : Nat) (kernel img ifs : List Byte) (bi : BootInfo) (m' : Mem) : Prop where
  segments : ∀ h ∈ fileHeaders kernel, h.Loads →
    Sees m' (bi.tables.rootPagedir - vmKernelBase) h.vaddr (segmentBytes kernel h)
  image : Sees m' (bi.tables.rootPagedir - vmKernelBase) (vmKernelBase + bi.ifsImage) img
  imageSize : bi.ifsImageSize = BitVec.ofNat 32 size
  ifsExe : Sees m' (bi.tables.rootPagedir - vmKernelBase) (vmKernelBase + bi.ifsExeBase) ifs
  ifsExeSize : bi.ifsExeSize = BitVec.ofNat 32 ifs.length
  tables : ∀ k, k < 2121728 →
    walk m' (bi.tables.rootPagedir - vmKernelBase) (bi.tables.pagetableBase + BitVec.ofNat 32 k) =
      some (bi.tables.pagetableBase - vmKernelBase + BitVec.ofNat 32 k)

/-- The first directory of a name, in the order of the walk, holds this file. -/
def FileIn (t : SourceTree) (dirname filename contents : List Byte) : Prop :=
  ∃ dir f : Entry, t.entries.find? (Entry.called dirname) = some dir ∧ f ∈ t.entries ∧
    f.place = filename :: dir.place ∧ sIsReg f.mode = true ∧ f.contents = contents

/-- The first directory of that name, if there is one, holds nothing of this name. -/
def NotIn (t : SourceTree) (dirname filename : List Byte) : Prop :=
  ∀ dir, t.entries.find? (Entry.called dirname) = some dir → ∀ e ∈ t.entries, e.place ≠ filename :: dir.place

section
variable {host : Host} {t : SourceTree} {pathPrefix : List Byte} {base : Nat} {out : List Byte}
    (h : Packable host t pathPrefix) (hplain : t.listing.Plain)
    (himage : IsImage zeroMemory (t.recs pathPrefix) base out)
    (hsize : imageSize (t.recs pathPrefix) < 2 ^ 32)
include h hplain himage hsize

/-- Where the image is in memory the scans lead to such a file. -/
theorem served_file {dirname filename contents : List Byte} (hfile : FileIn t dirname filename contents) {m : Mem}
    {a : Word} (hm : m.Carries a (out.drop base)) :
    ∃ o node, Holds (out.drop base) o contents ∧ findFile m a dirname filename = some node ∧
      m.word (node + 52#32) = BitVec.ofNat 32 o ∧ m.word (node + 56#32) = BitVec.ofNat 32 contents.length := by
  obtain ⟨dir, f, hdir, hf, hplace, hreg, rfl⟩ := hfile
  obtain ⟨dirName, hdirName⟩ := t.listing.entries_name [] dir (List.mem_of_find?_eq_some hdir)
  obtain ⟨name, hname⟩ := t.listing.entries_name [] f hf
  obtain rfl : filename = name.bytes := (List.cons.inj (hplace.symm.trans hname)).1
  obtain rfl : dirname = dirName.bytes := by
    have hcalled : Entry.called dirname dir = true := List.find?_some hdir
    rw [Entry.called, hdirName] at hcalled
    exact (Option.some.inj (beq_iff_eq.mp hcalled)).symm
  rcases found_in_dir h himage hsize (inodes_le hplain hsize) hm hdir name.noNul name.notDot name.notDotDot with
    ⟨p, hp, hpl, he, node, hfound, hoffset, hfileSize⟩ | ⟨hno, _⟩
  · have hsame := List.inj_on_of_nodup_map (t.listing.entries_nodup [] h.distinct) he hf (hpl.trans hplace.symm)
    have hmode : p.1.permissions = f.mode := congrArg Entry.mode hsame
    have hcontents : p.1.contents = f.contents := congrArg Entry.contents hsame
    have hold := (himage.contents p hp (hmode ▸ hreg)).drop
    rw [hcontents] at hold hfileSize
    exact ⟨p.2, node, hold, hfound, hoffset, hfileSize⟩
  · exact absurd hplace (hno f hf)

theorem tree_servesKernel {kernel : List Byte} (hkernel : FileIn t Loader.bootName kernelString kernel) :
    ServesKernel (out.drop base) kernel := by
  intro m a hm
  obtain ⟨o, node, hold, hfound, hoffset, hfileSize⟩ := served_file h hplain himage hsize hkernel hm
  refine ⟨o, hold, ?_⟩
  rw [kernelFile, hfound, Option.map_some, hoffset, hfileSize]

theorem tree_servesIfs {ifs : List Byte} (hifs : FileIn t filesystemsString ifsString ifs) :
    ServesIfs (out.drop base) ifs := by
  intro m a hm
  obtain ⟨o, node, hold, hfound, hoffset, hfileSize⟩ := served_file h hplain himage hsize hifs hm
  refine ⟨o, hold, ?_⟩
  rw [elfFind, hfound]
  simp only [hoffset, hfileSize]

/-- What is not in the tree is not found in its image. -/
theorem tree_servesNone {dirname filename : FileName} (hnone : NotIn t dirname.bytes filename.bytes) :
    ServesNone (out.drop base) dirname.bytes filename.bytes := by
  intro m a hm
  have hlt := inodes_le hplain hsize
  cases hdir : t.entries.find? (Entry.called dirname.bytes) with
  | some dir =>
    rcases found_in_dir h himage hsize hlt hm hdir filename.noNul filename.notDot filename.notDotDot with
      ⟨p, _, hpl, he, _⟩ | ⟨_, hfound⟩
    · exact absurd hpl (hnone dir hdir _ he)
    · exact hfound
  | none =>
    have hlen := length_lt_of_imageSize hsize
    have hnode := first_node h (t.numbering pathPrefix h.distinct (by omega)) dirname
    rw [hdir, Option.map_none, Option.map_eq_none_iff] at hnode
    rcases (image_at himage (by omega) hm (allNodes_named h)).findFile dirname.noNul filename.noNul with
      ⟨dir, hfirst, _⟩ | ⟨_, hfound⟩
    · cases hnode.symm.trans hfirst
    · exact hfound

end

/-- `Main` where both programs are found, with the tables it builds. -/
theorem main_runs (hal : Hal) {mailbox : Mailbox} {bootinfo noValue : Word} {fuel : Nat} {m : Mem}
    {ifsExeBase ifsExeSize : Word} (hok : (kernelLoad mailbox bootinfo m).ok = true)
    (hfound : elfFind (kernelLoad mailbox bootinfo m).mem (imageBase mailbox m) filesystemsString ifsString =
      .found ifsExeBase ifsExeSize) (hvalue : noValue ≠ -1) (hfuel : 2 ^ 20 ≤ fuel) :
    ∃ bi m', main hal mailbox bootinfo noValue fuel m =
        some (.calls (eEntry (kernelLoad mailbox bootinfo m).mem (kernelEhdr bootinfo)) bi m') ∧
      bi.tables = tableInfo (layTables (kernelLoad mailbox bootinfo m).ceiling) ioBases ∧
      bi.ifsImage = imageBase mailbox m ∧
      bi.ifsImageSize = rootfsImageSize (kernelLoad mailbox bootinfo m).mem ∧
      bi.ifsExeBase = ifsExeBase ∧ bi.ifsExeSize = ifsExeSize ∧
      Built hal (layTables (kernelLoad mailbox bootinfo m).ceiling) (boardMemory mailbox.revision / 4096)
        (kernelLoad mailbox bootinfo m).mem m' := by
  obtain ⟨hunits, _, hle⟩ := boardMemory_units mailbox.revision
  rw [main_eq]
  generalize kernelLoad mailbox bootinfo m = s at hok hfound ⊢
  obtain ⟨m', hrun, hbuilt⟩ := bootstrapKernel_built hal hfuel
    (by omega : boardMemory mailbox.revision / 4096 ≤ 0x7FF00) s.ceiling s.mem
  have hpages : 4096 * (boardMemory mailbox.revision / 4096) = boardMemory mailbox.revision := by omega
  rw [hpages, ← boardInit_memSize mailbox zeroBootInfo] at hrun
  refine ⟨{ boardInit mailbox zeroBootInfo with
    ifsImage := imageBase mailbox m
    ifsImageSize := rootfsImageSize s.mem
    ifsExeBase, ifsExeSize
    tables := tableInfo (layTables s.ceiling) ioBases }, m', ?_, rfl, rfl, rfl, rfl, rfl, hbuilt⟩
  unfold mainLoaded
  rw [hok, if_neg Bool.noConfusion, hfound]
  dsimp only
  rw [if_neg hvalue, hrun]
  rfl

/-- The page tables see themselves where memory has room for them. -/
theorem tables_mapped {hal : Hal} {ceiling : Word} {pages : Nat} {m m' : Mem}
    (h : Built hal (layTables ceiling) pages m m') (hpages : pages ≤ 0x7FF00)
    (hfit : alignUp ceiling.toNat 16384 + 2121728 ≤ 4096 * pages) {k : Nat} (hk : k < 2121728) (io : IoBases) :
    walk m' (layTables ceiling).rootPagedir ((tableInfo (layTables ceiling) io).pagetableBase + BitVec.ofNat 32 k) =
      some ((tableInfo (layTables ceiling) io).pagetableBase - vmKernelBase + BitVec.ofNat 32 k) := by
  have hbase : (tableInfo (layTables ceiling) io).pagetableBase - vmKernelBase =
      (layTables ceiling).pagetableBase := BitVec.add_sub_cancel _ _
  have hsum : (tableInfo (layTables ceiling) io).pagetableBase + BitVec.ofNat 32 k =
      vmKernelBase + ((layTables ceiling).pagetableBase + BitVec.ofNat 32 k) := by
    rw [← hbase, ← BitVec.add_assoc, BitVec.add_comm vmKernelBase, BitVec.sub_add_cancel]
  have hlow : ceiling.toNat ≤ 2 ^ 31 := by
    simp only [alignUp] at hfit
    omega
  rw [hsum, hbase]
  refine h.maps_memory hpages ?_
  rw [BitVec.toNat_add, BitVec.toNat_ofNat, layTables_base hlow]
  simp only [alignUp] at hfit ⊢
  omega

/-- What lies below the kernel's ceiling or above the page tables is as the loading left it. -/
theorem Room.built_outside {memSize base size : Nat} {hs : List Phdr} (hroom : Room memSize base size hs)
    (hmem : memSize ≤ 0x7FF00000) {hal : Hal} {s : Step} {pages : Nat} {m' : Mem}
    (hceiling : s.ceiling = highestCeiling hs) (hbuilt : Built hal (layTables s.ceiling) pages s.mem m') {x : Word}
    (hx : x.toNat < s.ceiling.toNat ∨ memSize - alignUp size 0x10000 ≤ x.toNat) : m' x = s.mem x := by
  have htables := hroom.tables
  rw [← hceiling] at htables
  have hlow : s.ceiling.toNat ≤ 2 ^ 31 := by
    simp only [alignUp] at htables
    omega
  refine hbuilt.outside x fun a ha hin => ?_
  have hrange := layTables_range hlow ha hin
  simp only [alignUp] at hrange htables hx
  omega

/-- What lies there the kernel sees at the same place of its half. -/
theorem Room.built_sees {memSize base size : Nat} {hs : List Phdr} (hroom : Room memSize base size hs)
    (hunits : memSize % 4096 = 0) (hmem : memSize ≤ 0x7FF00000) {hal : Hal} {s : Step} {m' : Mem}
    (hceiling : s.ceiling = highestCeiling hs) (hbuilt : Built hal (layTables s.ceiling) (memSize / 4096) s.mem m')
    {a : Word} {bs : List Byte} (hcarries : s.mem.Carries a bs)
    (hplace : ∀ i, i < bs.length → (a + BitVec.ofNat 32 i).toNat < s.ceiling.toNat ∨
      memSize - alignUp size 0x10000 ≤ (a + BitVec.ofNat 32 i).toNat ∧ (a + BitVec.ofNat 32 i).toNat < memSize) :
    Sees m' (layTables s.ceiling).rootPagedir (vmKernelBase + a) bs := by
  have htables := hroom.tables
  rw [← hceiling] at htables
  refine hbuilt.sees (by omega) (fun i hi => ?_) fun i hi => ?_
  · rw [hroom.built_outside hmem hceiling hbuilt ((hplace i hi).imp_right And.left)]
    exact hcarries i hi
  · have hat := hplace i hi
    simp only [alignUp] at hat htables
    omega

section
variable {mailbox : Mailbox} {bootinfo noValue : Word} {fuel : Nat} {m : Mem} {base size : Nat}
    {img kernel ifs : List Byte} (hbehind : ImageBehind m base size img) (hserves : ServesKernel img kernel)
    (hkernel : KernelElf kernel) (hin : BootinfoIn base bootinfo)
    (hroom : Room (boardMemory mailbox.revision) base size (fileHeaders kernel))
include hbehind

/-- The image is copied to the top of memory. -/
theorem image_copied (hfits : 0x8000 + base + size ≤ boardMemory mailbox.revision - alignUp size 0x10000) :
    (imageBase mailbox m).toNat = boardMemory mailbox.revision - alignUp size 0x10000 ∧
    (relocate m (imageBase mailbox m)).Carries (imageBase mailbox m) img ∧
    ∀ x : Word, x.toNat < boardMemory mailbox.revision - alignUp size 0x10000 →
      relocate m (imageBase mailbox m) x = m x := by
  obtain ⟨hunits, _, hmem⟩ := boardMemory_units mailbox.revision
  have hsize : (BitVec.ofNat 32 size).toNat = size := Nat.mod_eq_of_lt (by omega)
  have hup := le_alignUp_of_pos size (by decide : 0 < 0x10000)
  have htop := @ifsImageAt_toNat _ (BitVec.ofNat 32 size) hunits hmem (by omega)
  rw [hsize, ← hbehind.headerSize, ← imageBase] at htop
  refine ⟨htop, ?_, fun x hx => ?_⟩
  · have hsource := hbehind.carries
    have hstart : ∀ a : Word, a + BitVec.ofNat 32 0 = a := BitVec.add_zero
    rw [← hstart (0x8000#32 + BitVec.ofNat 32 base)] at hsource
    have hfit := hbehind.fits
    have hcopy := hsource.memcpy (imageBase mailbox m) (BitVec.ofNat 32 size) (by omega)
    rwa [hstart, ← hbehind.headerOffset, ← hbehind.headerSize] at hcopy
  · refine Mem.memcpy_outside fun hx' => ?_
    rw [hbehind.headerSize, hsize] at hx'
    have hrange := (within_toNat (by omega)).mp hx'
    omega

theorem image_toNat (hfits : 0x8000 + base + size ≤ boardMemory mailbox.revision - alignUp size 0x10000) {i : Nat}
    (hi : i < size) :
    (imageBase mailbox m + BitVec.ofNat 32 i).toNat = boardMemory mailbox.revision - alignUp size 0x10000 + i := by
  obtain ⟨_, hle, hmem⟩ := boardMemory_units mailbox.revision
  have hup := le_alignUp_of_pos size (by decide : 0 < 0x10000)
  rw [BitVec.toNat_add, BitVec.toNat_ofNat, (image_copied hbehind hfits).1]
  omega

/-- Without a kernel in the image `Main` panics. -/
theorem served_noKernel (hnone : ServesNone img Loader.bootName kernelString)
    (hfits : 0x8000 + base + size ≤ boardMemory mailbox.revision - alignUp size 0x10000) (hal : Hal) :
    main hal mailbox bootinfo noValue fuel m = some (.panic "Cannot load kernel") := by
  have hcopy := (image_copied hbehind hfits).2.1
  have hfile : kernelFile (relocate m (imageBase mailbox m)) (imageBase mailbox m) kernelString = none := by
    rw [kernelFile, hnone _ _ hcopy, Option.map_none]
  have hload : (kernelLoad mailbox bootinfo m).ok = false := by
    rw [kernelLoad, loadKernel, elfLoad, hfile]
  rw [main_eq, mainLoaded, if_pos hload]

include hserves hkernel hin hroom

/-- Its kernel is loaded from there, and the image outlives that. -/
theorem kernel_served :
    KernelLoaded kernel (relocate m (imageBase mailbox m)) bootinfo (kernelLoad mailbox bootinfo m) ∧
    (kernelLoad mailbox bootinfo m).mem.Carries (imageBase mailbox m) img := by
  obtain ⟨_, _, hmem⟩ := boardMemory_units mailbox.revision
  obtain ⟨htop, hcopy, _⟩ := image_copied hbehind hroom.image
  obtain ⟨o, hold, hf⟩ := hserves _ _ hcopy
  have hfit := hbehind.fits
  have hlen := hkernel.header
  have hle := hold.length_le (by rintro rfl; cases hlen)
  have hloaded := kernel_loaded hkernel hin hroom hmem htop (by omega) (hcopy.holds hold) hf
  rw [← kernelLoad] at hloaded
  refine ⟨hloaded, fun i hi => ?_⟩
  have hfits := hroom.image
  have hat := image_toNat hbehind hfits (by omega : i < size)
  have hheaders : ¬ (Within (imageBase mailbox m + BitVec.ofNat 32 i) (kernelEhdr bootinfo) 52 ∨
      Within (imageBase mailbox m + BitVec.ofNat 32 i) (kernelPhdr bootinfo) (32 * maxBootinfoPhdrs)) := by
    intro hx
    have hboot := (hin.inside (by omega) hx).1
    have hstart : (0x8000#32 : Word).toNat = 0x8000 := rfl
    have hrange := (within_toNat (by omega)).mp hboot
    omega
  rw [hloaded.outside _ ?_ (fun h => hheaders (Or.inl h)) fun h => hheaders (Or.inr h)]
  · exact hcopy i hi
  · intro h hh hl hw
    have hend := (hroom.wipes_below hkernel.high hh hl hw).2
    omega

/-- Loading writes to the bootloader's range nothing but the headers. -/
theorem bootloader_kept {x : Word} (hx : Within x 0x8000#32 base) (hehdr : ¬ Within x (kernelEhdr bootinfo) 52)
    (hphdr : ¬ Within x (kernelPhdr bootinfo) (32 * maxBootinfoPhdrs)) :
    (kernelLoad mailbox bootinfo m).mem x = m x := by
  obtain ⟨_, _, hbelow⟩ := image_copied hbehind hroom.image
  obtain ⟨hloaded, _⟩ := kernel_served hbehind hserves hkernel hin hroom
  have hfits := hroom.image
  have hmem := (boardMemory_units mailbox.revision).2.2
  have hstart : (0x8000#32 : Word).toNat = 0x8000 := rfl
  have hrange := (within_toNat (by omega)).mp hx
  rw [hloaded.outside x (fun h hh hl hw => hroom.keepsOff h hh hl x hw hx) hehdr hphdr]
  exact hbelow x (by omega)

theorem imageSize_kept : rootfsImageSize (kernelLoad mailbox bootinfo m).mem = BitVec.ofNat 32 size := by
  have hkept := fun x => bootloader_kept (x := x) hbehind hserves hkernel hin hroom
  generalize kernelLoad mailbox bootinfo m = s at hkept ⊢
  rw [← hbehind.headerSize]
  refine congrArg word32 (Mem.bytes_congr fun i hi => ?_)
  have hfits := hroom.image
  have hmem := (boardMemory_units mailbox.revision).2.2
  have hlow := hin.low
  have hhigh := hin.high
  have hstart : (0x8000#32 : Word).toNat = 0x8000 := rfl
  have hat : (0x8014#32 + BitVec.ofNat 32 i : Word).toNat = 0x8014 + i := by
    rw [BitVec.toNat_add, BitVec.toNat_ofNat]
    change (0x8014 + i % 2 ^ 32) % 2 ^ 32 = _
    omega
  have hpast : ¬ (Within (0x8014#32 + BitVec.ofNat 32 i) (kernelEhdr bootinfo) 52 ∨
      Within (0x8014#32 + BitVec.ofNat 32 i) (kernelPhdr bootinfo) (32 * maxBootinfoPhdrs)) := by
    intro hx
    have hge := (hin.inside (by omega) hx).2
    omega
  refine hkept _ ?_ (fun h => hpast (Or.inl h)) fun h => hpast (Or.inr h)
  rw [within_toNat (by omega)]
  omega

/-- Without the other program it panics once the kernel is loaded. -/
theorem served_noIfs (hnone : ServesNone img filesystemsString ifsString) (hal : Hal) :
    main hal mailbox bootinfo noValue fuel m = some (.panic "cannot find IFS.exe in IFS image") := by
  obtain ⟨hloaded, himage⟩ := kernel_served hbehind hserves hkernel hin hroom
  have hfound : elfFind (kernelLoad mailbox bootinfo m).mem (imageBase mailbox m) filesystemsString ifsString =
      .failed := by
    rw [elfFind, hnone _ _ himage]
  rw [main_eq, mainLoaded, hloaded.ok, if_neg Bool.noConfusion, hfound]

/-- From a machine with such an image behind its bootloader, and room for it and its kernel, `Main`
calls the kernel's entry point on a machine where all is in place. -/
theorem served_boots (hifs : ServesIfs img ifs) (hal : Hal) (hvalue : noValue ≠ -1) (hfuel : 2 ^ 20 ≤ fuel) :
    ∃ bi m', main hal mailbox bootinfo noValue fuel m = some (.calls (field kernel 24) bi m') ∧
      Booted size kernel img ifs bi m' := by
  obtain ⟨hunits, _, hmem⟩ := boardMemory_units mailbox.revision
  obtain ⟨hloaded, himage⟩ := kernel_served hbehind hserves hkernel hin hroom
  have hsize := imageSize_kept hbehind hserves hkernel hin hroom
  obtain ⟨o, hold, hfound⟩ := hifs _ _ himage
  obtain ⟨bi, m', hrun, htabs, hifsImage, hifsImageSize, hifsExeBase, hifsExeSize, hbuilt⟩ :=
    main_runs hal hloaded.ok hfound hvalue hfuel
  rw [hloaded.entry] at hrun
  rw [hsize] at hifsImageSize
  generalize kernelLoad mailbox bootinfo m = s at hloaded himage htabs hbuilt
  have hfit := hbehind.fits
  have htables := hroom.tables
  have hceiling := hloaded.ceiling
  rw [← hceiling] at htables
  have hroot : bi.tables.rootPagedir - vmKernelBase = (layTables s.ceiling).rootPagedir := by
    rw [htabs]
    exact BitVec.add_sub_cancel _ _
  have hseesImage : ∀ k bs, Holds img k bs →
      Sees m' (bi.tables.rootPagedir - vmKernelBase) (vmKernelBase + (imageBase mailbox m + BitVec.ofNat 32 k)) bs := by
    intro k bs hbs
    rw [hroot]
    refine hroom.built_sees (by omega) hmem hceiling hbuilt (himage.holds hbs) fun i hi => Or.inr ?_
    have hlt := (List.getElem?_eq_some_iff.mp (hbs i hi)).1
    have hup := le_alignUp_of_pos size (by decide : 0 < 0x10000)
    have htop := hroom.image
    rw [BitVec.add_assoc, ← BitVec.ofNat_add, image_toNat hbehind hroom.image (by omega)]
    omega
  refine ⟨bi, m', hrun, ⟨fun h hh hl => ?_, ?_, hifsImageSize, ?_, hifsExeSize, fun k hk => ?_⟩⟩
  · have hseen := hroom.built_sees (by omega) hmem hceiling hbuilt (hloaded.segments h hh hl) fun i hi => Or.inl ?_
    · rwa [BitVec.add_comm, BitVec.sub_add_cancel, ← hroot] at hseen
    · rw [hkernel.segmentBytes_length hh hl] at hi
      have hlt := h.memsz.isLt
      have hin := within_offset (a := h.vaddr - vmKernelBase) hi (by omega)
      have hw := (hkernel.high h hh hl).touches (hkernel.sound h hh hl) (Or.inr (Or.inr hin))
      rw [hceiling]
      exact (hroom.wipes_below hkernel.high hh hl hw).1
  · have hseen := hseesImage 0 img fun i hi => by rw [Nat.zero_add]; exact List.getElem?_eq_getElem hi
    rw [hifsImage]
    rwa [BitVec.add_zero] at hseen
  · rw [hifsExeBase]
    exact hseesImage o ifs hold
  · rw [hroot, htabs]
    exact tables_mapped hbuilt (by omega) (by omega) hk ioBases

end

end CheviotBoot.Boot
