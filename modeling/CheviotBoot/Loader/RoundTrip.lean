import CheviotBoot.Loader.Lookup

namespace CheviotBoot.Loader
open Lib Mkifs

section
variable {mem : Memory} {rs : List Rec} {base : Nat} {out : List Byte} {m : Mem}

/-- What the output holds past `base` memory holds where it holds that part of it. -/
theorem carried {ifsImage : Word} (hm : m.Carries ifsImage (out.drop base)) {p : Nat} {bs : List Byte}
    (hold : Holds out (base + p) bs) : m.Carries (ifsImage + BitVec.ofNat 32 p) bs :=
  hm.holds hold.drop

/-- What the output is past `base` is where `Main` copied the image to. -/
theorem relocated (h : IsImage mem rs base out) (hm : m.Carries 0x8000#32 out)
    (hsize : imageSize rs < 2 ^ 32) (ifsImage : Word) :
    (relocate m ifsImage).Carries ifsImage (out.drop base) := by
  obtain ⟨hoff, hlen⟩ := Mem.carries_append (hm.holds h.boot)
  have hbase : rootfsImageOffset m = BitVec.ofNat 32 base := hoff.word
  have htotal : rootfsImageSize m = BitVec.ofNat 32 (imageSize rs) := hlen.word
  have hpart : Holds out base (out.drop base) := by
    intro i hi
    rw [List.getElem_drop]
    exact List.getElem?_eq_getElem _
  have hsrc := hm.holds hpart
  have hstart : ∀ a : Word, a + BitVec.ofNat 32 0 = a := BitVec.add_zero
  rw [relocate, hbase, htotal, ← hstart ifsImage]
  rw [← hstart (0x8000#32 + BitVec.ofNat 32 base)] at hsrc
  have hcopy := hsrc.memcpy ifsImage (BitVec.ofNat 32 (imageSize rs)) (by
    have hle := h.size
    rw [BitVec.toNat_ofNat, Nat.mod_eq_of_lt hsize, List.length_drop]
    omega)
  rwa [hstart ifsImage] at hcopy ⊢

/-- Where memory holds the image there is an image of the same nodes. -/
theorem image_at (h : IsImage mem rs base out) (hlen : rs.length + 16 < 2 ^ 31) {ifsImage : Word}
    (hm : m.Carries ifsImage (out.drop base)) (hnamed : ∀ n ∈ allNodes mem rs, ∃ q, n.string = some q) :
    ImageAt m ifsImage (allNodes mem rs) := by
  have hheader := carried hm (p := 0) h.header
  have hstart : ifsImage + BitVec.ofNat 32 0 = ifsImage := BitVec.add_zero ifsImage
  rw [hstart] at hheader
  obtain ⟨htab, hcnt⟩ := (ifsHeader rs.length).fields_read
  have hword4 := hheader.field (k := 4) (by rw [IFSHeader.bytes_length]; decide)
  have hword8 := hheader.field (k := 8) (by rw [IFSHeader.bytes_length]; decide)
  refine ⟨?_, ?_, hnamed⟩
  · have hat : (8#32 : Word) = BitVec.ofNat 32 8 := rfl
    rw [hat, hword8, hcnt, allNodes_length]
    have htoNat : (ifsHeader rs.length).nodeCnt.toNat = rs.length + 16 := by
      change (BitVec.ofNat 32 (rs.length + 16)).toNat = _
      rw [BitVec.toNat_ofNat]
      exact Nat.mod_eq_of_lt (by omega)
    rw [BitVec.toInt_eq_toNat_of_lt (by omega), htoNat]
    rfl
  · have hat : (4#32 : Word) = BitVec.ofNat 32 4 := rfl
    rw [hat, hword4, htab, allNodes_bytes]
    exact carried hm h.table

end

/-- An entry of this name. -/
def Entry.called (name : List Byte) (e : Entry) : Bool := e.place.head? == some name

/-- The records of a name are those of the entries of that name. -/
theorem recs_called {t : SourceTree} {pathPrefix : List Byte} {ino : Place → Word}
    (hnum : Numbering t (t.recs pathPrefix) ino) (name : FileName) :
    ((t.recs pathPrefix).filter (fun r => r.name == name.bytes)).map Rec.inodeNr =
      (t.entries.filter (Entry.called name.bytes)).map (fun e => ino e.place) := by
  have hentries : t.entries.filter (Entry.called name.bytes) =
      (entriesOf (t.recs pathPrefix)).filter (Entry.called name.bytes) := by
    rw [t.recs_entries]
    rfl
  rw [hentries, entriesOf, List.filter_map, List.filter_filter, List.map_map]
  have hsame : (t.recs pathPrefix).filter (fun r => r.name == name.bytes) =
      (t.recs pathPrefix).filter (fun r =>
        Entry.called name.bytes ⟨r.place, r.permissions, r.contents⟩ && r.isEntry) := by
    refine List.filter_congr ?_
    intro r hr
    have hnamed := t.recs_named pathPrefix r hr
    unfold Rec.Named at hnamed
    cases hrole : r.role with
    | self =>
      simp only [hrole] at hnamed
      have hne : (dot == name.bytes) = false := beq_eq_false_iff_ne.mpr name.notDot.symm
      rw [hnamed, hne, Rec.isEntry, hrole]
      exact (Bool.and_false _).symm
    | up =>
      simp only [hrole] at hnamed
      have hne : (dotDot == name.bytes) = false := beq_eq_false_iff_ne.mpr name.notDotDot.symm
      rw [hnamed, hne, Rec.isEntry, hrole]
      exact (Bool.and_false _).symm
    | entry =>
      simp only [hrole] at hnamed
      have hslash : slash ≠ name.bytes := fun he => name.noSlash (by simp [← he, slash])
      cases hplace : r.place with
      | nil => simp [Entry.called, Rec.isEntry, hrole, hnamed.2.2, hplace, hslash]
      | cons x xs => simp [Entry.called, Rec.isEntry, hrole, hnamed.2.2, hplace]
  rw [hsame]
  refine List.map_congr_left ?_
  intro r hr
  obtain ⟨hmem, hcond⟩ := List.mem_filter.mp hr
  have hrole : r.role = .entry := by
    rw [Bool.and_eq_true] at hcond
    simpa [Rec.isEntry] using hcond.2
  rw [(hnum.links r hmem).1, Rec.target, hrole]
  rfl

section
variable {host : Host} {t : SourceTree} {pathPrefix : List Byte} (h : Packable host t pathPrefix)
include h

theorem allNodes_named : ∀ n ∈ allNodes zeroMemory (t.recs pathPrefix), ∃ q, n.string = some q := by
  intro n hn
  rcases mem_allNodes hn with ⟨p, hp, rfl⟩ | ⟨k, rfl⟩
  · exact ⟨p.1.name, container_string (h.recs_ok p.1 (places_mem hp)) _⟩
  · exact ⟨[], freeNode_string zeroMemory k⟩

/-- A node with a name that is neither "." nor ".." and no free slot's is a placed
record's, the root's or an entry's. -/
theorem named_node {n : IFSNode} {name : List Byte}
    (hn : n ∈ allNodes zeroMemory (t.recs pathPrefix))
    (hs : n.string = some name) (hdot : name ≠ dot) (hdots : name ≠ dotDot) :
    (∃ p ∈ places (t.recs pathPrefix) (fileTableOffset (t.recs pathPrefix).length),
      n = (p.1.container (BitVec.ofNat 32 p.2)).node ∧ p.1.role = .entry ∧
        (p.1.place = [] ∧ name = slash ∨
          (⟨p.1.place, p.1.permissions, p.1.contents⟩ : Entry) ∈ t.entries ∧
            p.1.place = name :: p.1.place.tail)) ∨
      name = [] ∧ n.parentInodeNr = -1 := by
  rcases mem_allNodes hn with ⟨p, hp, rfl⟩ | ⟨k, rfl⟩
  · have hmem := places_mem hp
    rw [container_string (h.recs_ok p.1 hmem)] at hs
    obtain rfl := Option.some.inj hs
    exact Or.inl ⟨p, hp, rfl, entry_of_name hmem hdot hdots⟩
  · rw [freeNode_string] at hs
    exact Or.inr ⟨(Option.some.inj hs).symm, rfl⟩

variable {ino : Place → Word} (hnum : Numbering t (t.recs pathPrefix) ino)
include hnum

/-- The first node of a name has the number of the first entry of that name. -/
theorem first_node (name : FileName) :
    ((allNodes zeroMemory (t.recs pathPrefix)).find? (fun n => n.string == some name.bytes)).map
        IFSNode.inodeNr =
      (t.entries.find? (Entry.called name.bytes)).map (fun e => ino e.place) := by
  have hplaced := placed_filter_map (P := fun n => n.string == some name.bytes)
    (Q := fun r => r.name == name.bytes) (g := IFSNode.inodeNr) (f := Rec.inodeNr) (t.recs pathPrefix)
    (fileTableOffset (t.recs pathPrefix).length)
    (fun r hr o => by rw [container_string (h.recs_ok r hr)]; rfl) (fun _ _ _ => rfl)
  have hfree : ((List.range freeNodeCnt).map (freeNode zeroMemory)).filter
      (fun n => n.string == some name.bytes) = [] := by
    rw [List.filter_eq_nil_iff]
    intro n hn
    obtain ⟨k, _, rfl⟩ := List.mem_map.mp hn
    simp [freeNode_string, name.nonempty]
  rw [recs_called hnum] at hplaced
  rw [← List.head?_filter, ← List.head?_filter, allNodes, List.filter_append, hfree, List.append_nil,
    ← List.head?_map, ← List.head?_map, hplaced]

variable {d : Entry} (hd : d ∈ t.entries)
include hd

/-- A node that lies in an entry's directory is of an entry at a place there. -/
theorem lying_node {n dir : IFSNode} {filename : List Byte} (hlt : t.inodes ≤ 2 ^ 31)
    (hn : n ∈ allNodes zeroMemory (t.recs pathPrefix)) (hdir : dir.inodeNr = ino d.place)
    (hin : IFSNode.liesIn n dir filename) (hdot : filename ≠ dot) (hdots : filename ≠ dotDot) :
    ∃ p ∈ places (t.recs pathPrefix) (fileTableOffset (t.recs pathPrefix).length),
      n = (p.1.container (BitVec.ofNat 32 p.2)).node ∧ p.1.place = filename :: d.place ∧
        (⟨p.1.place, p.1.permissions, p.1.contents⟩ : Entry) ∈ t.entries := by
  obtain ⟨hs, hparent⟩ := hin
  have hplaces : d.place ∈ t.places := List.mem_cons_of_mem _ (List.mem_map_of_mem hd)
  rcases named_node h hn hs hdot hdots with ⟨p, hp, rfl, hrole, hkind⟩ | ⟨_, hfree⟩
  · have hmem := places_mem hp
    have hlink := (hnum.links p.1 hmem).2
    rw [container_parentInodeNr, hlink, hdir] at hparent
    have hhome := hnum.injective _ (hnum.placed p.1 hmem).2 _ hplaces hparent
    rw [Rec.home, hrole] at hhome
    have htail : p.1.place.tail = d.place := hhome
    rcases hkind with ⟨hroot, _⟩ | ⟨he, hplace⟩
    · obtain ⟨name, hfile⟩ := t.listing.entries_name [] d hd
      rw [hroot] at htail
      rw [← htail] at hfile
      cases hfile
    · rw [htail] at hplace
      exact ⟨p, hp, rfl, hplace, he⟩
  · have hb := hnum.bounded d.place hplaces
    have hnone : (-1 : Word).toNat = 2 ^ 32 - 1 := rfl
    rw [← hdir, ← hparent, hfree, hnone] at hb
    omega

end

/-- In a tree whose every entry has a record the numbers are as few as the records. -/
theorem inodes_le {t : SourceTree} {pathPrefix : List Byte} (hplain : t.listing.Plain)
    (hsize : imageSize (t.recs pathPrefix) < 2 ^ 32) : t.inodes ≤ 2 ^ 31 := by
  have hlen := length_lt_of_imageSize hsize
  have hrecs : (t.recs pathPrefix).length =
      (t.listing.recs [] pathPrefix 0#32 t.mode.val 2#32).1.length + 2 := by
    rw [SourceTree.recs, List.length_cons, List.length_append]
    simp only [dotRecs, ne_eq, not_true, if_false, List.length_singleton]
    omega
  have htwo : (2#32 : Word).toNat = 2 := rfl
  have hcount := t.listing.recs_length [] pathPrefix 0#32 t.mode.val (n := 2#32) hplain (by decide)
    (by rw [htwo]; omega)
  rw [SourceTree.inodes, ← hcount]
  omega

/-- What `elf_find` gives for a directory in memory: the contents of every regular
file directly inside, and a failure for what is not there. -/
structure FindsAll (t : SourceTree) (m : Mem) (ifsImage : Word) (dirname : List Byte)
    (d : Entry) : Prop where
  files : ∀ f ∈ t.entries, ∀ filename, f.place = filename :: d.place → sIsReg f.mode = true →
    ∃ file fileSize, elfFind m ifsImage dirname filename = .found file fileSize ∧
      fileSize.toNat = f.contents.length ∧ m.bytes file fileSize.toNat = f.contents
  others : ∀ name, 0#8 ∉ name → name ≠ dot → name ≠ dotDot →
    (∀ e ∈ t.entries, e.place ≠ name :: d.place) →
    elfFind m ifsImage dirname name = .failed

section
variable {host : Host} {t : SourceTree} {pathPrefix : List Byte} {base : Nat}
    {out : List Byte} {m : Mem}

/-- Every entry has a node with its name and its directory's number. -/
theorem entry_node (h : Packable host t pathPrefix) {ino : Place → Word}
    (hnum : Numbering t (t.recs pathPrefix) ino) {e : Entry} (he : e ∈ t.entries) {name : List Byte}
    {place : Place} (hplace : e.place = name :: place) :
    ∃ n ∈ allNodes zeroMemory (t.recs pathPrefix), n.string = some name ∧ n.parentInodeNr = ino place := by
  obtain ⟨r, hr, hrole, rfl⟩ := entry_record pathPrefix he
  obtain ⟨o, hnode⟩ := allNodes_mem zeroMemory hr
  have hrn := t.recs_named pathPrefix r hr
  simp only [Rec.Named, hrole] at hrn
  have hrplace : r.place = name :: place := hplace
  refine ⟨_, hnode, ?_, ?_⟩
  · rw [container_string (h.recs_ok r hr), hrn.2.2, hrplace]
    rfl
  · rw [container_parentInodeNr, (hnum.links r hr).2, Rec.home, hrole]
    exact congrArg (fun p : Place => ino p.tail) hrplace

/-- The scans of an image in memory, from the first entry of the directory's name. -/
theorem found_in_dir (h : Packable host t pathPrefix)
    (himage : IsImage zeroMemory (t.recs pathPrefix) base out)
    (hsize : imageSize (t.recs pathPrefix) < 2 ^ 32) (hlt : t.inodes ≤ 2 ^ 31) {ifsImage : Word}
    (hm : m.Carries ifsImage (out.drop base)) {dirname : FileName} {d : Entry}
    (hfirst : t.entries.find? (Entry.called dirname.bytes) = some d) {filename : List Byte}
    (hf : 0#8 ∉ filename) (hdot : filename ≠ dot) (hdots : filename ≠ dotDot) :
    (∃ p ∈ places (t.recs pathPrefix) (fileTableOffset (t.recs pathPrefix).length),
      p.1.place = filename :: d.place ∧
        (⟨p.1.place, p.1.permissions, p.1.contents⟩ : Entry) ∈ t.entries ∧
      ∃ node, findFile m ifsImage dirname.bytes filename = some node ∧
        m.word (node + 52#32) = BitVec.ofNat 32 p.2 ∧
        m.word (node + 56#32) = BitVec.ofNat 32 p.1.contents.length) ∨
      (∀ e ∈ t.entries, e.place ≠ filename :: d.place) ∧
        findFile m ifsImage dirname.bytes filename = none := by
  have hlen := length_lt_of_imageSize hsize
  have hnum := t.numbering pathPrefix h.distinct (by omega)
  have hat := image_at himage (by omega) hm (allNodes_named h)
  have hd : d ∈ t.entries := List.mem_of_find?_eq_some hfirst
  have hnode := first_node h hnum dirname
  rw [hfirst] at hnode
  rcases hat.findFile dirname.noNul hf with ⟨dir, hdir, hrest⟩ | ⟨hnone, _⟩
  · rw [hdir] at hnode
    have hino : dir.inodeNr = inoOf (bindings (t.recs pathPrefix)) d.place := Option.some.inj hnode
    rcases hrest with ⟨n, hn, b, hin, hb, hfound⟩ | ⟨hall, hfound⟩
    · obtain ⟨p, hp, rfl, hplace, he⟩ := lying_node h hnum hd hlt hn hino hin hdot hdots
      obtain ⟨_, _, hoff, hsz⟩ := node_fields hb
      exact Or.inl ⟨p, hp, hplace, he, b, hfound, hoff, hsz⟩
    · refine Or.inr ⟨?_, hfound⟩
      intro e he hplace
      obtain ⟨q, hq, hstring, hparent⟩ := entry_node h hnum he hplace
      exact hall q hq ⟨hstring, hparent.trans hino.symm⟩
  · rw [hnone] at hnode
    cases hnode

/-- The extent of a regular file's record holds it in memory. -/
theorem carried_file (h : Packable host t pathPrefix)
    (himage : IsImage zeroMemory (t.recs pathPrefix) base out)
    (hsize : imageSize (t.recs pathPrefix) < 2 ^ 32) {ifsImage : Word}
    (hm : m.Carries ifsImage (out.drop base)) {p : Rec × Nat} {f : Entry}
    (hp : p ∈ places (t.recs pathPrefix) (fileTableOffset (t.recs pathPrefix).length))
    (he : (⟨p.1.place, p.1.permissions, p.1.contents⟩ : Entry) ∈ t.entries) (hf : f ∈ t.entries)
    (hplace : p.1.place = f.place) (hreg : sIsReg f.mode = true) :
    (BitVec.ofNat 32 p.1.contents.length).toNat = f.contents.length ∧
      m.bytes (ifsImage + BitVec.ofNat 32 p.2) (BitVec.ofNat 32 p.1.contents.length).toNat = f.contents := by
  have hsame := List.inj_on_of_nodup_map (t.listing.entries_nodup [] h.distinct) he hf hplace
  have hmode : sIsReg p.1.permissions = true := by
    rw [← hsame] at hreg
    exact hreg
  have hcontents : p.1.contents = f.contents := congrArg Entry.contents hsame
  have hcarry := carried hm (himage.contents p hp hmode)
  have hlen : (BitVec.ofNat 32 p.1.contents.length).toNat = f.contents.length := by
    rw [BitVec.toNat_ofNat, Nat.mod_eq_of_lt, hcontents]
    exact contents_lt_of_imageSize hsize p.1 (places_mem hp)
  refine ⟨hlen, ?_⟩
  rw [hlen, ← hcontents]
  exact hcarry.bytes

end

/-- A packed tree, placed where the bootloader starts and copied by `Main`, is
searched as the tree it was: for every directory whose name it holds once. -/
theorem elfFind_packed (host : Host) (t : SourceTree)
    (pathPrefix bootloader : List Byte) (fuel : Nat)
    (h : Packable host t pathPrefix) (hplain : t.listing.Plain) (hdepth : t.listing.depth < fuel)
    (hsize : imageSize (t.recs pathPrefix) < 2 ^ 32) :
    ∃ out, mkifs host zeroMemory fuel bootloader pathPrefix = .ok out ∧
      ∀ (m : Mem) (ifsImage : Word), m.Carries 0x8000#32 out →
        ∀ d ∈ t.entries, ∀ dirname, sIsDir d.mode = true → d.place.head? = some dirname →
          (∀ e ∈ t.entries, e.place.head? = some dirname → e = d) →
            FindsAll t (relocate m ifsImage) ifsImage dirname d := by
  obtain ⟨out, hrun, himage⟩ := h.mkifs_image bootloader hdepth hsize
  have hlt := inodes_le hplain hsize
  refine ⟨out, hrun, ?_⟩
  intro m ifsImage hm d hd dirname _ hhead hone
  obtain ⟨fileName, hfile⟩ := t.listing.entries_name [] d hd
  obtain rfl : dirname = fileName.bytes := by
    rw [hfile] at hhead
    exact (Option.some.inj hhead).symm
  have hcopy := relocated himage hm hsize ifsImage
  have hfirst : t.entries.find? (Entry.called fileName.bytes) = some d := by
    cases hfind : t.entries.find? (Entry.called fileName.bytes) with
    | none => exact absurd (beq_iff_eq.mpr hhead) (List.find?_eq_none.mp hfind d hd)
    | some e =>
      have hcalled : Entry.called fileName.bytes e = true := List.find?_some hfind
      rw [hone e (List.mem_of_find?_eq_some hfind) (beq_iff_eq.mp hcalled)]
  refine ⟨?_, ?_⟩
  · intro f hf filename hplace hreg
    obtain ⟨name, hfname⟩ := t.listing.entries_name [] f hf
    obtain rfl : filename = name.bytes := (List.cons.inj (hplace.symm.trans hfname)).1
    rcases found_in_dir h himage hsize hlt hcopy hfirst name.noNul name.notDot name.notDotDot with
      ⟨p, hp, hpl, he, node, hfound, hoff, hsz⟩ | ⟨hno, _⟩
    · obtain ⟨hlen, hbytes⟩ := carried_file h himage hsize hcopy hp he hf (hpl.trans hplace.symm) hreg
      refine ⟨_, _, ?_, hlen, hbytes⟩
      simp only [elfFind, hfound, hoff, hsz]
    · exact absurd hplace (hno f hf)
  · intro name hnul hdot hdots hno
    rcases found_in_dir h himage hsize hlt hcopy hfirst hnul hdot hdots with
      ⟨p, _, hpl, he, _⟩ | ⟨_, hfailed⟩
    · exact absurd hpl (hno _ he)
    · simp only [elfFind, hfailed]

theorem bootKernel_found :
    ∃ out m file fileSize, mkifs bootHost zeroMemory 2 (List.replicate 24 0#8) rootPath = .ok out ∧
      Mem.Carries m 0x8000#32 out ∧
      elfFind (relocate m 0x100000#32) 0x100000#32 bootName kernelName.bytes = .found file fileSize ∧
      (relocate m 0x100000#32).bytes file fileSize.toNat = [1#8, 2#8, 3#8] := by
  obtain ⟨out, hrun, hall⟩ := elfFind_packed bootHost bootTree rootPath (List.replicate 24 0#8) 2
    bootTree_packable ⟨trivial, trivial⟩ (by decide) (by decide)
  obtain ⟨out', hrun', himage⟩ := bootTree_packable.mkifs_image (List.replicate 24 0#8)
    (by decide : bootTree.listing.depth < 2) (by decide)
  obtain rfl : out = out' := Except.ok.inj (hrun.symm.trans hrun')
  have hlen : out.length ≤ 2 ^ 32 := Nat.le_trans himage.size (by decide)
  have hcarry := Mem.store_carries (fun _ => 0#8) 0x8000#32 hlen
  have hfinds := hall _ 0x100000#32 hcarry ⟨[bootName], 0o040755#32, []⟩ List.mem_cons_self bootName
    (by decide) rfl (by
      intro e he hhead
      rcases List.mem_cons.mp he with rfl | he
      · rfl
      · obtain rfl := List.mem_singleton.mp he
        exact absurd hhead (by decide))
  obtain ⟨file, fileSize, hfound, _, hbytes⟩ := hfinds.files
    ⟨[kernelName.bytes, bootName], 0o100644#32, [1#8, 2#8, 3#8]⟩
    (List.mem_cons_of_mem _ (List.mem_singleton.mpr rfl)) kernelName.bytes rfl (by decide)
  exact ⟨out, _, file, fileSize, hrun, hcarry, hfound, hbytes⟩

end CheviotBoot.Loader
