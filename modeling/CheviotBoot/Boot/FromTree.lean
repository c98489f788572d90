import CheviotBoot.Boot.Booted
import CheviotBoot.KernelImage.Alike

namespace CheviotBoot.Boot
open Lib Loader Board Mkifs KernelImage

/-- On every board with room for it, memory that starts like this boots. -/
def Boots (base size : Nat) (kernel img ifs out : List Byte) : Prop :=
  ∀ (hal : Hal) (mailbox : Mailbox) (bootinfo noValue : Word) (fuel : Nat) (m : Mem),
    m.Carries 0x8000#32 out → BootinfoIn base bootinfo →
      Room (boardMemory mailbox.revision) base size (fileHeaders kernel) → noValue ≠ -1 → 2 ^ 20 ≤ fuel →
        ∃ bi m', main hal mailbox bootinfo noValue fuel m = some (.calls (field kernel 24) bi m') ∧
          Booted size kernel img ifs bi m'

/-- A file with the boot header and the image behind it. -/
theorem header_behind {m : Mem} {out img : List Byte} {base size : Nat} (hm : m.Carries 0x8000#32 out)
    (hboot : Holds out 16 (le32 (BitVec.ofNat 32 base) ++ le32 (BitVec.ofNat 32 size))) (himg : Holds out base img)
    (hfits : img.length ≤ size) : ImageBehind m base size img := by
  obtain ⟨hoffset, hsize⟩ := Mem.carries_append (hm.holds hboot)
  exact ⟨hoffset.word, hsize.word, hm.holds himg, hfits⟩

/-- What `mkifs` leaves is such a file. -/
theorem image_behind {mem : Memory} {rs : List Rec} {base : Nat} {out : List Byte} {m : Mem}
    (h : IsImage mem rs base out) (hm : m.Carries 0x8000#32 out) :
    ImageBehind m base (imageSize rs) (out.drop base) := by
  refine header_behind hm h.boot (fun i hi => ?_) ?_
  · rw [List.getElem_drop]
    exact List.getElem?_eq_getElem _
  · have hle := h.size
    rw [List.length_drop]
    omega

/-- The names of the other program's directory and its own. -/
def filesystemsName : FileName :=
  ⟨filesystemsString, by decide, by decide, by decide, by decide, by decide⟩

def ifsName : FileName := ⟨ifsString, by decide, by decide, by decide, by decide, by decide⟩

/-- What it makes of a tree without one of the two ends in the panic that says so. -/
theorem mkifs_panics (host : Host) (t : SourceTree) (pathPrefix bootloader : List Byte) (fuel : Nat)
    (h : Packable host t pathPrefix) (hplain : t.listing.Plain) (hdepth : t.listing.depth < fuel)
    (hsize : imageSize (t.recs pathPrefix) < 2 ^ 32) :
    ∃ out, mkifs host zeroMemory fuel bootloader pathPrefix = .ok out ∧
      ∀ hal mailbox bootinfo noValue fuel m, Mem.Carries m 0x8000#32 out →
        (NotIn t Loader.bootName kernelString →
          0x8000 + alignUp bootloader.length 4096 + imageSize (t.recs pathPrefix) ≤
            boardMemory mailbox.revision - alignUp (imageSize (t.recs pathPrefix)) 0x10000 →
          main hal mailbox bootinfo noValue fuel m = some (.panic "Cannot load kernel")) ∧
        ∀ kernel, FileIn t Loader.bootName kernelString kernel → KernelElf kernel →
          BootinfoIn (alignUp bootloader.length 4096) bootinfo →
          Room (boardMemory mailbox.revision) (alignUp bootloader.length 4096) (imageSize (t.recs pathPrefix))
            (fileHeaders kernel) → NotIn t filesystemsString ifsString →
          main hal mailbox bootinfo noValue fuel m = some (.panic "cannot find IFS.exe in IFS image") := by
  obtain ⟨out, hrun, himage⟩ := h.mkifs_image bootloader hdepth hsize
  refine ⟨out, hrun, fun hal mailbox bootinfo noValue fuel m hm => ?_⟩
  have hbehind := image_behind himage hm
  refine ⟨fun hnone hfits => ?_, fun kernel hkernel helf hin hroom hnone => ?_⟩
  · have hserves := (tree_servesNone h hplain himage hsize hnone : ServesNone _ Mkifs.bootName.bytes kernelName.bytes)
    exact served_noKernel hbehind hserves hfits hal
  · have hserves := (tree_servesNone h hplain himage hsize hnone : ServesNone _ filesystemsName.bytes ifsName.bytes)
    exact served_noIfs hbehind (tree_servesKernel h hplain himage hsize hkernel) helf hin hroom hserves hal

/-- A tree whose `boot/kernel` is a kernel of one segment of eight bytes, with `rest` beside it. -/
def kernelTree (rest : Listing) : SourceTree :=
  { mode := plainDir
    listing := .dir Mkifs.bootName plainDir (.file kernelName plainFile (kernelAt 0x80100000) .nil) rest }

/-- Three bytes for the other program. -/
def ifsListing : Listing :=
  .dir filesystemsName plainDir (.file ifsName plainFile [1#8, 2#8, 3#8] .nil) .nil

def systemTree : SourceTree := kernelTree ifsListing

/-- A host that holds the tree with these other names under `r`. -/
def kernelHost (names : List (List Byte)) : Host :=
  let kernel := joinPath (joinPath rootPath Mkifs.bootName.bytes) kernelName.bytes
  let ifs := joinPath (joinPath rootPath filesystemsName.bytes) ifsName.bytes
  { stat := fun path =>
      if path = kernel then some ⟨0o100644#32, 92⟩
      else if path = ifs then some ⟨0o100644#32, 3⟩ else some ⟨0o040755#32, 4096⟩
    opendir := fun path =>
      if path = rootPath then some (Mkifs.bootName.bytes :: names)
      else if path = joinPath rootPath Mkifs.bootName.bytes then some [kernelName.bytes]
      else if path = joinPath rootPath filesystemsName.bytes then some [ifsName.bytes] else none
    contents := fun path =>
      if path = kernel then some (kernelAt 0x80100000)
      else if path = ifs then some [1#8, 2#8, 3#8] else none }

def systemHost : Host := kernelHost [filesystemsName.bytes]

theorem systemTree_packable : Packable systemHost systemTree rootPath where
  held := ⟨⟨4096, by decide⟩, by decide, ⟨4096, by decide⟩, ⟨4096, by decide⟩, ⟨4096, by decide⟩, by decide,
    ⟨by decide, by decide, trivial⟩, ⟨4096, by decide⟩, ⟨4096, by decide⟩, ⟨4096, by decide⟩, by decide,
    ⟨by decide, by decide, trivial⟩, trivial⟩
  noNul := by decide
  rootFits := by decide
  fits := ⟨by decide, ⟨by decide, trivial⟩, by decide, ⟨by decide, trivial⟩, trivial⟩
  short := ⟨by decide, ⟨by decide, trivial⟩, by decide, ⟨by decide, trivial⟩, trivial⟩
  distinct := ⟨by decide, ⟨by decide, trivial⟩, by decide, ⟨by decide, trivial⟩, trivial⟩

theorem loneKernel_packable : Packable (kernelHost []) (kernelTree .nil) rootPath where
  held := ⟨⟨4096, by decide⟩, by decide, ⟨4096, by decide⟩, ⟨4096, by decide⟩, ⟨4096, by decide⟩, by decide,
    ⟨by decide, by decide, trivial⟩, trivial⟩
  noNul := by decide
  rootFits := by decide
  fits := ⟨by decide, ⟨by decide, trivial⟩, trivial⟩
  short := ⟨by decide, ⟨by decide, trivial⟩, trivial⟩
  distinct := ⟨by decide, ⟨by decide, trivial⟩, trivial⟩

theorem kernelTree_kernel (rest : Listing) :
    FileIn (kernelTree rest) Loader.bootName kernelString (kernelAt 0x80100000) :=
  ⟨⟨[Loader.bootName], 0o040755#32, []⟩, ⟨[kernelString, Loader.bootName], 0o100644#32, kernelAt 0x80100000⟩,
    rfl, List.mem_cons_of_mem _ List.mem_cons_self, rfl, by decide, rfl⟩

theorem systemTree_ifs : FileIn systemTree filesystemsString ifsString [1#8, 2#8, 3#8] :=
  ⟨⟨[filesystemsString], 0o040755#32, []⟩, ⟨[ifsString, filesystemsString], 0o100644#32, [1#8, 2#8, 3#8]⟩, rfl,
    List.mem_cons_of_mem _ (List.mem_cons_of_mem _ (List.mem_cons_of_mem _ List.mem_cons_self)), rfl, by decide, rfl⟩

theorem systemKernel_headers : fileHeaders (kernelAt 0x80100000) = [⟨1#32, 84#32, 0x80100000#32, 8#32, 8#32⟩] := by
  decide +kernel

theorem systemKernel_elf : KernelElf (kernelAt 0x80100000) where
  header := by decide
  short := by decide
  supported := by decide +kernel
  phnum := by decide +kernel
  table := by decide +kernel
  sound := by rw [systemKernel_headers]; decide
  inFile := by rw [systemKernel_headers]; decide
  high := by
    rw [systemKernel_headers]
    intro h hh _
    obtain rfl := List.mem_singleton.mp hh
    exact ⟨by decide, by decide⟩
  apart := by
    rw [systemKernel_headers]
    exact List.pairwise_singleton _ _
  spares := by
    rw [systemKernel_headers]
    exact List.pairwise_singleton _ _

/-- There is room for it, between a bootloader of 8 KiB and an image of up to 64 KiB, in 128 MiB. -/
theorem systemKernel_room {size : Nat} (hsize : size ≤ 0x10000) :
    Room (boardMemory oldBoard.revision) 8192 size (fileHeaders (kernelAt 0x80100000)) := by
  have hmem : boardMemory oldBoard.revision = 0x8000000 := by decide
  have hceiling : (highestCeiling [⟨1#32, 84#32, 0x80100000#32, 8#32, 8#32⟩]).toNat = 0x101000 := by decide
  have hup : alignUp size 0x10000 ≤ 0x10000 := by
    simp only [alignUp]
    omega
  have hfit : alignUp 0x101000 16384 + 2121728 = 0x30A000 := by decide
  rw [systemKernel_headers, hmem]
  refine ⟨by omega, ?_, by rw [hceiling]; decide, by rw [hceiling, hfit]; omega⟩
  intro h hh _ x hw
  obtain rfl := List.mem_singleton.mp hh
  exact within_clear hw (Or.inr (by decide)) (by decide) (by decide)

theorem systemBootloader_length : alignUp (List.replicate 8192 0#8).length 4096 = 8192 := by
  rw [List.length_replicate]
  decide

theorem systemBootinfo : BootinfoIn 8192 0x9000#32 := ⟨by decide, by decide⟩

/-- What fits in 64 KiB behind that bootloader is short enough to load. -/
theorem systemImage_length {host : Host} {t : SourceTree} (h : Packable host t rootPath)
    (hdepth : t.listing.depth < 2) (hsize : imageSize (t.recs rootPath) ≤ 0x10000) {bootloader out : List Byte}
    (hbase : alignUp bootloader.length 4096 = 8192) (hrun : mkifs host zeroMemory 2 bootloader rootPath = .ok out) :
    out.length ≤ 2 ^ 32 := by
  obtain ⟨out', hrun', himage⟩ := h.mkifs_image bootloader hdepth (by omega)
  obtain rfl : out = out' := Except.ok.inj (hrun.symm.trans hrun')
  rw [hbase] at himage
  have hle := himage.size
  omega

/-- With nothing but the kernel in the image there is no other program to find. -/
theorem loneKernel_panics : ∃ bootloader out,
    mkifs (kernelHost []) zeroMemory 2 bootloader rootPath = .ok out ∧
      main sampleHal oldBoard 0x9000#32 0#32 0 (Mem.store (fun _ => 0#8) 0x8000#32 out) =
        some (.panic "cannot find IFS.exe in IFS image") := by
  obtain ⟨bootloader, hbase⟩ : ∃ bootloader : List Byte, alignUp bootloader.length 4096 = 8192 :=
    ⟨_, systemBootloader_length⟩
  obtain ⟨out, hrun, hpanics⟩ := mkifs_panics (kernelHost []) (kernelTree .nil) rootPath bootloader 2
    loneKernel_packable ⟨trivial, trivial⟩ (by decide) (by decide)
  rw [hbase] at hpanics
  have hlen := systemImage_length loneKernel_packable (by decide) (by decide) hbase hrun
  refine ⟨bootloader, out, hrun, ?_⟩
  refine (hpanics sampleHal oldBoard 0x9000#32 0#32 0 _ (Mem.store_carries (fun _ => 0#8) 0x8000#32 hlen)).2
    (kernelAt 0x80100000) (kernelTree_kernel _) systemKernel_elf systemBootinfo (systemKernel_room (by decide)) ?_
  intro dir hdir
  cases hdir

end CheviotBoot.Boot
