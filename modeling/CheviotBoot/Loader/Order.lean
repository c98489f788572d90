import CheviotBoot.Loader.RoundTrip

namespace CheviotBoot.Loader
open Lib Mkifs

/-- `elf_find`, and for "boot" also the scans of `elf_load`, report an extent that holds these bytes. -/
structure Locates (m : Mem) (ifsImage : Word) (dirname filename contents : List Byte) : Prop where
  find : ∃ file fileSize, elfFind m ifsImage dirname filename = .found file fileSize ∧
    fileSize.toNat = contents.length ∧ m.bytes file fileSize.toNat = contents
  load : dirname = bootName → ∃ f, kernelFile m ifsImage filename = some f ∧
    f.elfSize.toNat = contents.length ∧ m.bytes f.elfBase f.elfSize.toNat = contents

/-- Exactly one directory of the first name directly contains a file of the second. -/
structure SoleHolder (t : SourceTree) (dirname filename : List Byte) (d f : Entry) : Prop where
  dir : d ∈ t.entries
  called : d.place.head? = some dirname
  file : f ∈ t.entries
  isReg : sIsReg f.mode = true
  inside : f.place = filename :: d.place
  alone : ∀ e ∈ t.entries, sIsDir e.mode = true → e.place.head? = some dirname →
    (∃ g ∈ t.entries, sIsReg g.mode = true ∧ g.place = filename :: e.place) → e = d

/-- The first entry of the directory's name that the walk lists is that directory. For an empty
file it may also be another that holds a directory of the file's name. -/
def LeadsTo (t : SourceTree) (dirname filename : List Byte) (d f : Entry) : Prop :=
  ∃ e, t.entries.find? (Entry.called dirname) = some e ∧
    (e = d ∨ f.contents = [] ∧ ∃ g ∈ t.entries, g.place = filename :: e.place)

theorem SoleHolder.perm {t t' : SourceTree} {dirname filename : List Byte} {d f : Entry}
    (h : SoleHolder t dirname filename d f) (hp : t.entries.Perm t'.entries) :
    SoleHolder t' dirname filename d f where
  dir := hp.mem_iff.mp h.dir
  called := h.called
  file := hp.mem_iff.mp h.file
  isReg := h.isReg
  inside := h.inside
  alone := by
    intro e he hdir hcalled hholds
    obtain ⟨g, hg, hreg, hplace⟩ := hholds
    exact h.alone e (hp.mem_iff.mpr he) hdir hcalled ⟨g, hp.mem_iff.mpr hg, hreg, hplace⟩

/-- What an entry lies in is the place given or a directory among the entries. -/
theorem entries_parent (l : Listing) (place : Place) : ∀ g ∈ l.entries place,
    g.place.tail = place ∨ ∃ e ∈ l.entries place, sIsDir e.mode = true ∧ e.place = g.place.tail := by
  induction l generalizing place with
  | nil => simp [Listing.entries]
  | self rest ih | parent rest ih | other name m rest ih => exact ih place
  | file name m contents rest ih =>
    intro g hg
    rcases List.mem_cons.mp hg with rfl | hg
    · exact Or.inl rfl
    · rcases ih place g hg with htail | ⟨e, he, hdir⟩
      · exact Or.inl htail
      · exact Or.inr ⟨e, List.mem_cons_of_mem _ he, hdir⟩
  | dir name m children rest ihc ihr =>
    intro g hg
    simp only [Listing.entries, List.mem_cons, List.mem_append] at hg ⊢
    rcases hg with rfl | hg | hg
    · exact Or.inl rfl
    · rcases ihc (name.bytes :: place) g hg with htail | ⟨e, he, hdir⟩
      · exact Or.inr ⟨_, Or.inl rfl, m.property, htail.symm⟩
      · exact Or.inr ⟨e, Or.inr (Or.inl he), hdir⟩
    · rcases ihr place g hg with htail | ⟨e, he, hdir⟩
      · exact Or.inl htail
      · exact Or.inr ⟨e, Or.inr (Or.inr he), hdir⟩

/-- An entry that is no regular file holds nothing. -/
theorem entries_reg (l : Listing) (place : Place) :
    ∀ e ∈ l.entries place, sIsReg e.mode = true ∨ e.contents = [] := by
  induction l generalizing place with
  | nil => simp [Listing.entries]
  | self rest ih | parent rest ih | other name m rest ih => exact ih place
  | file name m contents rest ih =>
    exact List.forall_mem_cons.mpr ⟨Or.inl m.property, ih place⟩
  | dir name m children rest ihc ihr =>
    refine List.forall_mem_cons.mpr ⟨Or.inr rfl, ?_⟩
    exact List.forall_mem_append.mpr ⟨ihc _, ihr place⟩

/-- Where a regular file of the name lies in an entry of the directory's name, that is the
directory. -/
theorem SoleHolder.holder {t : SourceTree} {dirname filename : List Byte} {d f e g : Entry}
    (h : SoleHolder t dirname filename d f) (hdistinct : t.listing.Distinct) (he : e ∈ t.entries)
    (hcalled : Entry.called dirname e = true) (hg : g ∈ t.entries)
    (hplace : g.place = filename :: e.place) (hne : e ≠ d) : g.contents = [] := by
  have hnodup := t.listing.entries_nodup [] hdistinct
  refine (entries_reg t.listing [] g hg).resolve_left ?_
  intro hreg
  have htail : g.place.tail = e.place := by rw [hplace, List.tail_cons]
  rcases entries_parent t.listing [] g hg with hroot | ⟨p, hp, hdir, hpplace⟩
  · obtain ⟨name, hfile⟩ := t.listing.entries_name [] e he
    rw [← htail, hroot] at hfile
    cases hfile
  · obtain rfl : p = e := List.inj_on_of_nodup_map hnodup hp he (hpplace.trans htail)
    exact hne (h.alone p he hdir (beq_iff_eq.mp hcalled) ⟨g, hg, hreg, hplace⟩)

/-- What the scans end with is what both functions report. -/
theorem elfFind_of_found {m : Mem} {ifsImage node offset size : Word} {dirname filename : List Byte}
    (hfound : findFile m ifsImage dirname filename = some node) (hoff : m.word (node + 52#32) = offset)
    (hsz : m.word (node + 56#32) = size) :
    elfFind m ifsImage dirname filename = .found (ifsImage + offset) size := by
  simp only [elfFind, hfound, hoff, hsz]

theorem locates_of_found {m : Mem} {ifsImage node offset size : Word} {dirname filename bs : List Byte}
    (hfound : findFile m ifsImage dirname filename = some node) (hoff : m.word (node + 52#32) = offset)
    (hsz : m.word (node + 56#32) = size) (hlen : size.toNat = bs.length)
    (hbytes : m.bytes (ifsImage + offset) size.toNat = bs) : Locates m ifsImage dirname filename bs := by
  refine ⟨⟨_, _, elfFind_of_found hfound hoff hsz, hlen, hbytes⟩, fun hboot => ?_⟩
  refine ⟨⟨ifsImage + offset, 0#32, size⟩, ?_, hlen, hbytes⟩
  rw [hboot] at hfound
  simp only [kernelFile, hfound, Option.map_some, hoff, hsz]

section
variable {host : Host} {t : SourceTree} {pathPrefix : List Byte} {base : Nat}
    {out : List Byte} {m : Mem}

/-- In an image of a packable tree the file is located exactly where the walk's order leads to it. -/
theorem locates_iff (h : Packable host t pathPrefix)
    (himage : IsImage zeroMemory (t.recs pathPrefix) base out)
    (hsize : imageSize (t.recs pathPrefix) < 2 ^ 32) (hlt : t.inodes ≤ 2 ^ 31) {ifsImage : Word}
    (hm : m.Carries ifsImage (out.drop base)) {dirname filename : List Byte} {d f : Entry}
    (hsole : SoleHolder t dirname filename d f) :
    Locates m ifsImage dirname filename f.contents ↔ LeadsTo t dirname filename d f := by
  obtain ⟨dirName, hdir⟩ := t.listing.entries_name [] d hsole.dir
  obtain rfl : dirname = dirName.bytes := by
    have hcalled := hsole.called
    rw [hdir] at hcalled
    exact (Option.some.inj hcalled).symm
  obtain ⟨fileName, hfile⟩ := t.listing.entries_name [] f hsole.file
  obtain rfl : filename = fileName.bytes := (List.cons.inj (hsole.inside.symm.trans hfile)).1
  cases hfirst : t.entries.find? (Entry.called dirName.bytes) with
  | none => exact absurd (beq_iff_eq.mpr hsole.called) (List.find?_eq_none.mp hfirst d hsole.dir)
  | some e =>
    have he := List.mem_of_find?_eq_some hfirst
    have hcalled : Entry.called dirName.bytes e = true := List.find?_some hfirst
    have hempty := fun {g} => hsole.holder (g := g) h.distinct he hcalled
    rcases found_in_dir h himage hsize hlt hm hfirst fileName.noNul fileName.notDot fileName.notDotDot with
      ⟨p, hp, hplace, hentry, node, hfound, hoff, hsz⟩ | ⟨hno, hnone⟩
    · have hfind := elfFind_of_found hfound hoff hsz
      constructor
      · intro hlocates
        obtain ⟨file, fileSize, hfound', hlen, hbytes⟩ := hlocates.find
        refine ⟨e, hfirst, ?_⟩
        by_cases hed : e = d
        · exact Or.inl hed
        · refine Or.inr ⟨?_, _, hentry, hplace⟩
          have hnone : p.1.contents = [] := hempty hentry hplace hed
          rw [hfind] at hfound'
          injection hfound' with _ hsize'
          rw [← hsize', hnone] at hlen
          exact List.length_eq_zero_iff.mp hlen.symm
      · rintro ⟨e', hfirst', hcase⟩
        obtain rfl : e = e' := Option.some.inj (hfirst.symm.trans hfirst')
        by_cases hed : e = d
        · subst hed
          obtain ⟨hlen, hbytes⟩ := carried_file h himage hsize hm hp hentry hsole.file
            (hplace.trans hsole.inside.symm) hsole.isReg
          exact locates_of_found hfound hoff hsz hlen hbytes
        · have hnone : p.1.contents = [] := hempty hentry hplace hed
          rw [(hcase.resolve_left hed).1]
          rw [hnone] at hsz
          exact locates_of_found hfound hoff hsz rfl rfl
    · constructor
      · intro hlocates
        obtain ⟨file, fileSize, hfound, _⟩ := hlocates.find
        simp only [elfFind, hnone] at hfound
        cases hfound
      · rintro ⟨e', hfirst', hcase⟩
        obtain rfl : e = e' := Option.some.inj (hfirst.symm.trans hfirst')
        rcases hcase with rfl | ⟨_, g, hg, hplace⟩
        · exact absurd hsole.inside (hno f hsole.file)
        · exact absurd hplace (hno g hg)

end

/-- Two listing orders of a tree, each packed and in memory: both images locate the one file
exactly where both orders lead to it. -/
theorem locates_both_iff (host host' : Host) (t t' : SourceTree)
    (pathPrefix pathPrefix' bootloader bootloader' : List Byte) (fuel fuel' : Nat)
    (h : Packable host t pathPrefix) (h' : Packable host' t' pathPrefix')
    (hplain : t.listing.Plain) (hplain' : t'.listing.Plain) (hperm : t.entries.Perm t'.entries)
    (hdepth : t.listing.depth < fuel) (hdepth' : t'.listing.depth < fuel')
    (hsize : imageSize (t.recs pathPrefix) < 2 ^ 32) (hsize' : imageSize (t'.recs pathPrefix') < 2 ^ 32) :
    ∃ out out', mkifs host zeroMemory fuel bootloader pathPrefix = .ok out ∧
      mkifs host' zeroMemory fuel' bootloader' pathPrefix' = .ok out' ∧
      ∀ (m m' : Mem) (ifsImage ifsImage' : Word),
        m.Carries ifsImage (out.drop (alignUp bootloader.length 4096)) →
        m'.Carries ifsImage' (out'.drop (alignUp bootloader'.length 4096)) →
          ∀ dirname filename d f, SoleHolder t dirname filename d f →
            (Locates m ifsImage dirname filename f.contents ∧
                Locates m' ifsImage' dirname filename f.contents ↔
              LeadsTo t dirname filename d f ∧ LeadsTo t' dirname filename d f) := by
  obtain ⟨out, hrun, himage⟩ := h.mkifs_image bootloader hdepth hsize
  obtain ⟨out', hrun', himage'⟩ := h'.mkifs_image bootloader' hdepth' hsize'
  refine ⟨out, out', hrun, hrun', ?_⟩
  intro m m' ifsImage ifsImage' hm hm' dirname filename d f hsole
  rw [locates_iff h himage hsize (inodes_le hplain hsize) hm hsole,
    locates_iff h' himage' hsize' (inodes_le hplain' hsize') hm' (hsole.perm hperm)]

def etcName : FileName :=
  ⟨ascii ['e', 't', 'c'], by decide, by decide, by decide, by decide, by decide⟩

/-- `boot/kernel`, then the rest. -/
def bootDir (rest : Listing) : Listing :=
  .dir Mkifs.bootName plainDir
    (.file kernelName plainFile [1#8, 2#8, 3#8] .nil) rest

/-- An empty directory `etc/boot`, then the rest. -/
def etcDir (rest : Listing) : Listing :=
  .dir etcName plainDir (.dir Mkifs.bootName plainDir .nil .nil) rest

def bootFirst : SourceTree := ⟨plainDir, bootDir (etcDir .nil)⟩

def etcFirst : SourceTree := ⟨plainDir, etcDir (bootDir .nil)⟩

/-- A host that holds the tree under `r` and returns its two directories in this order. -/
def orderedHost (names : List (List Byte)) : Host :=
  let boot := joinPath rootPath Mkifs.bootName.bytes
  let etc := joinPath rootPath etcName.bytes
  let kernel := joinPath boot kernelName.bytes
  { stat := fun path => if path = kernel then some ⟨0o100644#32, 3⟩ else some ⟨0o040755#32, 4096⟩
    opendir := fun path =>
      if path = rootPath then some names
      else if path = boot then some [kernelName.bytes]
      else if path = etc then some [Mkifs.bootName.bytes]
      else if path = joinPath etc Mkifs.bootName.bytes then some [] else none
    contents := fun path => if path = kernel then some [1#8, 2#8, 3#8] else none }

theorem bootFirst_packable : Packable (orderedHost bootFirst.listing.names) bootFirst rootPath where
  held := ⟨⟨4096, by decide⟩, by decide,
    ⟨4096, by decide⟩, ⟨4096, by decide⟩, ⟨4096, by decide⟩, by decide, ⟨by decide, by decide, trivial⟩,
    ⟨4096, by decide⟩, ⟨4096, by decide⟩, ⟨4096, by decide⟩, by decide,
    ⟨⟨4096, by decide⟩, ⟨4096, by decide⟩, ⟨4096, by decide⟩, by decide, trivial, trivial⟩, trivial⟩
  noNul := by decide
  rootFits := by decide
  fits := ⟨by decide, ⟨by decide, trivial⟩, by decide, ⟨by decide, trivial, trivial⟩, trivial⟩
  short := ⟨by decide, ⟨by decide, trivial⟩, by decide, ⟨by decide, trivial, trivial⟩, trivial⟩
  distinct := ⟨by decide, ⟨by decide, trivial⟩, by decide, ⟨by decide, trivial, trivial⟩, trivial⟩

theorem etcFirst_packable : Packable (orderedHost etcFirst.listing.names) etcFirst rootPath where
  held := ⟨⟨4096, by decide⟩, by decide,
    ⟨4096, by decide⟩, ⟨4096, by decide⟩, ⟨4096, by decide⟩, by decide,
    ⟨⟨4096, by decide⟩, ⟨4096, by decide⟩, ⟨4096, by decide⟩, by decide, trivial, trivial⟩,
    ⟨4096, by decide⟩, ⟨4096, by decide⟩, ⟨4096, by decide⟩, by decide, ⟨by decide, by decide, trivial⟩, trivial⟩
  noNul := by decide
  rootFits := by decide
  fits := ⟨by decide, ⟨by decide, trivial, trivial⟩, by decide, ⟨by decide, trivial⟩, trivial⟩
  short := ⟨by decide, ⟨by decide, trivial, trivial⟩, by decide, ⟨by decide, trivial⟩, trivial⟩
  distinct := ⟨by decide, ⟨by decide, trivial, trivial⟩, by decide, ⟨by decide, trivial⟩, trivial⟩

def kernelEntry : Entry :=
  ⟨[kernelName.bytes, Mkifs.bootName.bytes], 0o100644#32, [1#8, 2#8, 3#8]⟩

def bootEntry : Entry := ⟨[Mkifs.bootName.bytes], 0o040755#32, []⟩

theorem bootFirst_sole :
    SoleHolder bootFirst Mkifs.bootName.bytes kernelName.bytes bootEntry kernelEntry where
  dir := List.mem_cons_self
  called := rfl
  file := List.mem_cons_of_mem _ List.mem_cons_self
  isReg := rfl
  inside := rfl
  alone := by
    have hplaces : ∀ e ∈ bootFirst.entries, e.place.head? = some Mkifs.bootName.bytes →
        (∃ g ∈ bootFirst.entries, g.place = kernelName.bytes :: e.place) →
          e.place = bootEntry.place := by decide
    have hnodup := bootFirst.listing.entries_nodup [] bootFirst_packable.distinct
    intro e he _ hcalled hholds
    obtain ⟨g, hg, _, hplace⟩ := hholds
    exact List.inj_on_of_nodup_map hnodup he List.mem_cons_self (hplaces e he hcalled ⟨g, hg, hplace⟩)

theorem bootFirst_plain : bootFirst.listing.Plain := ⟨trivial, ⟨trivial, trivial⟩, trivial⟩

theorem etcFirst_plain : etcFirst.listing.Plain := ⟨⟨trivial, trivial⟩, trivial, trivial⟩

theorem bootFirst_leads :
    LeadsTo bootFirst Mkifs.bootName.bytes kernelName.bytes bootEntry kernelEntry :=
  ⟨bootEntry, rfl, Or.inl rfl⟩

/-- The same two directories with an empty `etc`, in either order. -/
def emptyEtcLast : SourceTree := ⟨plainDir, bootDir (.dir etcName plainDir .nil .nil)⟩

def emptyEtcFirst : SourceTree := ⟨plainDir, .dir etcName plainDir .nil (bootDir .nil)⟩

def emptyEtcHost (names : List (List Byte)) : Host :=
  { orderedHost names with
    opendir := fun path =>
      if path = joinPath rootPath etcName.bytes then some [] else (orderedHost names).opendir path }

theorem emptyEtcLast_packable : Packable (emptyEtcHost emptyEtcLast.listing.names) emptyEtcLast rootPath where
  held := ⟨⟨4096, by decide⟩, by decide,
    ⟨4096, by decide⟩, ⟨4096, by decide⟩, ⟨4096, by decide⟩, by decide, ⟨by decide, by decide, trivial⟩,
    ⟨4096, by decide⟩, ⟨4096, by decide⟩, ⟨4096, by decide⟩, by decide, trivial, trivial⟩
  noNul := by decide
  rootFits := by decide
  fits := ⟨by decide, ⟨by decide, trivial⟩, by decide, trivial, trivial⟩
  short := ⟨by decide, ⟨by decide, trivial⟩, by decide, trivial, trivial⟩
  distinct := ⟨by decide, ⟨by decide, trivial⟩, by decide, trivial, trivial⟩

theorem emptyEtcFirst_packable : Packable (emptyEtcHost emptyEtcFirst.listing.names) emptyEtcFirst rootPath where
  held := ⟨⟨4096, by decide⟩, by decide,
    ⟨4096, by decide⟩, ⟨4096, by decide⟩, ⟨4096, by decide⟩, by decide, trivial,
    ⟨4096, by decide⟩, ⟨4096, by decide⟩, ⟨4096, by decide⟩, by decide, ⟨by decide, by decide, trivial⟩, trivial⟩
  noNul := by decide
  rootFits := by decide
  fits := ⟨by decide, trivial, by decide, ⟨by decide, trivial⟩, trivial⟩
  short := ⟨by decide, trivial, by decide, ⟨by decide, trivial⟩, trivial⟩
  distinct := ⟨by decide, trivial, by decide, ⟨by decide, trivial⟩, trivial⟩

theorem emptyEtc_sole :
    SoleHolder emptyEtcLast Mkifs.bootName.bytes kernelName.bytes bootEntry kernelEntry where
  dir := List.mem_cons_self
  called := rfl
  file := List.mem_cons_of_mem _ List.mem_cons_self
  isReg := rfl
  inside := rfl
  alone := by
    have hplaces : ∀ e ∈ emptyEtcLast.entries, e.place.head? = some Mkifs.bootName.bytes →
        e.place = bootEntry.place := by decide
    have hnodup := emptyEtcLast.listing.entries_nodup [] emptyEtcLast_packable.distinct
    intro e he _ hcalled _
    exact List.inj_on_of_nodup_map hnodup he List.mem_cons_self (hplaces e he hcalled)

/-- Where nothing else is called `boot` both orders give the kernel. -/
theorem bothOrders_located : ∃ out out' m m',
    mkifs (emptyEtcHost emptyEtcLast.listing.names) zeroMemory 3 [] rootPath = .ok out ∧
      mkifs (emptyEtcHost emptyEtcFirst.listing.names) zeroMemory 3 [] rootPath = .ok out' ∧
      Mem.Carries m 0x100000#32 out ∧ Mem.Carries m' 0x200000#32 out' ∧
      Locates m 0x100000#32 Mkifs.bootName.bytes kernelName.bytes [1#8, 2#8, 3#8] ∧
      Locates m' 0x200000#32 Mkifs.bootName.bytes kernelName.bytes [1#8, 2#8, 3#8] := by
  obtain ⟨out, out', hrun, hrun', hall⟩ := locates_both_iff _ _ emptyEtcLast emptyEtcFirst rootPath rootPath [] [] 3 3
    emptyEtcLast_packable emptyEtcFirst_packable ⟨trivial, trivial, trivial⟩ ⟨trivial, trivial, trivial⟩
    (@List.perm_append_comm Entry [_, _] [_]) (by decide) (by decide) (by decide) (by decide)
  obtain ⟨out₁, hrun₁, himage⟩ := emptyEtcLast_packable.mkifs_image []
    (by decide : emptyEtcLast.listing.depth < 3) (by decide)
  obtain ⟨out₂, hrun₂, himage'⟩ := emptyEtcFirst_packable.mkifs_image []
    (by decide : emptyEtcFirst.listing.depth < 3) (by decide)
  obtain rfl : out = out₁ := Except.ok.inj (hrun.symm.trans hrun₁)
  obtain rfl : out' = out₂ := Except.ok.inj (hrun'.symm.trans hrun₂)
  have hcarry := Mem.store_carries (fun _ => 0#8) 0x100000#32 (Nat.le_trans himage.size (by decide))
  have hcarry' := Mem.store_carries (fun _ => 0#8) 0x200000#32 (Nat.le_trans himage'.size (by decide))
  have hboth := hall _ _ 0x100000#32 0x200000#32 hcarry hcarry' _ _ _ _ emptyEtc_sole
  obtain ⟨hfirst, hsecond⟩ := hboth.mpr ⟨⟨bootEntry, rfl, Or.inl rfl⟩, ⟨bootEntry, rfl, Or.inl rfl⟩⟩
  exact ⟨out, out', _, _, hrun, hrun', hcarry, hcarry', hfirst, hsecond⟩

/-- The same tree in two orders: one image gives the kernel, the other does not. -/
theorem etcFirst_misleads :
    Packable (orderedHost bootFirst.listing.names) bootFirst rootPath ∧
      Packable (orderedHost etcFirst.listing.names) etcFirst rootPath ∧
      bootFirst.listing.Plain ∧ etcFirst.listing.Plain ∧ bootFirst.entries.Perm etcFirst.entries ∧
      SoleHolder bootFirst Mkifs.bootName.bytes kernelName.bytes bootEntry kernelEntry ∧
      ∃ out out' m m', mkifs (orderedHost bootFirst.listing.names) zeroMemory 3 [] rootPath = .ok out ∧
        mkifs (orderedHost etcFirst.listing.names) zeroMemory 3 [] rootPath = .ok out' ∧
        Mem.Carries m 0x100000#32 out ∧ Mem.Carries m' 0x100000#32 out' ∧
        Locates m 0x100000#32 Mkifs.bootName.bytes kernelName.bytes [1#8, 2#8, 3#8] ∧
        ¬ Locates m' 0x100000#32 Mkifs.bootName.bytes kernelName.bytes [1#8, 2#8, 3#8] := by
  obtain ⟨out, hrun, himage⟩ := bootFirst_packable.mkifs_image []
    (by decide : bootFirst.listing.depth < 3) (by decide)
  obtain ⟨out', hrun', himage'⟩ := etcFirst_packable.mkifs_image []
    (by decide : etcFirst.listing.depth < 3) (by decide)
  have hperm : bootFirst.entries.Perm etcFirst.entries :=
    @List.perm_append_comm Entry [_, _] [_, _]
  have hcarry := Mem.store_carries (fun _ => 0#8) 0x100000#32 (Nat.le_trans himage.size (by decide))
  have hcarry' := Mem.store_carries (fun _ => 0#8) 0x100000#32 (Nat.le_trans himage'.size (by decide))
  refine ⟨bootFirst_packable, etcFirst_packable, bootFirst_plain, etcFirst_plain, hperm, bootFirst_sole,
    out, out', _, _, hrun, hrun', hcarry, hcarry', ?_, ?_⟩
  · exact (locates_iff bootFirst_packable himage (by decide) (by decide) hcarry bootFirst_sole).mpr
      bootFirst_leads
  · intro hlocates
    obtain ⟨e, hfirst, hcase⟩ := (locates_iff etcFirst_packable himage' (by decide) (by decide) hcarry'
      (bootFirst_sole.perm hperm)).mp hlocates
    rcases hcase with rfl | ⟨hempty, _⟩
    · have hwrong : etcFirst.entries.find? (Entry.called Mkifs.bootName.bytes) =
          some ⟨[Mkifs.bootName.bytes, etcName.bytes], 0o040755#32, []⟩ := rfl
      rw [hwrong] at hfirst
      exact absurd (congrArg Entry.place (Option.some.inj hfirst)) (by decide)
    · cases hempty

end CheviotBoot.Loader
