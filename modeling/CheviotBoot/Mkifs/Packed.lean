import Mathlib.Data.List.TakeDrop
import CheviotBoot.Mkifs.Length
import CheviotBoot.Mkifs.Seen

namespace CheviotBoot.Mkifs
open Lib

/-- A node called as an entry in that entry's directory. -/
def IFSNode.IsOf (ino : Place → Word) (e : Entry) (n : IFSNode) : Prop :=
  n.string = e.place.head? ∧ n.parentInodeNr = ino e.place.tail

/-- A node with an entry's number and mode, its exact size, and its own contents where it says. -/
structure IFSNode.StandsFor (out : List Byte) (base : Nat) (ino : Place → Word) (e : Entry)
    (n : IFSNode) : Prop where
  number : n.inodeNr = ino e.place
  mode : n.permissions = e.mode
  size : n.fileSize.toNat = e.contents.length
  contents : Holds out (base + n.fileOffset.toNat) e.contents

/-- Under a numbering of the tree's places, every entry has exactly one node of its full name in
its directory, and that node stands for it. -/
structure PackedAs (t : SourceTree) (out : List Byte) (base : Nat) (ino : Place → Word) : Prop where
  root : ino [] = 0#32
  injective : ∀ p ∈ t.places, ∀ q ∈ t.places, ino p = ino q → p = q
  entries : ∀ e ∈ t.entries, ∃ (i : Nat) (n : IFSNode), (imageNodes out base)[i]? = some n ∧ n.IsOf ino e ∧
    n.StandsFor out base ino e ∧
    ∀ (j : Nat) (m : IFSNode), (imageNodes out base)[j]? = some m → m.IsOf ino e → j = i

/-- No entry of the tree was packed wrong. -/
def Packed (t : SourceTree) (out : List Byte) (base : Nat) : Prop := ∃ ino, PackedAs t out base ino

/-- A name field holds at most 31 bytes before its NUL. -/
theorem string_short {n : IFSNode} {name : List Byte} (h : n.string = some name) : name.length ≤ 31 := by
  obtain ⟨_, rest, hbytes⟩ := cstr_some h
  have hlen := congrArg List.length hbytes
  simp only [Vector.length_toList, List.length_append, List.length_cons] at hlen
  omega

theorem Listing.short_of_entries (l : Listing) (place : Place) (hplain : l.Plain)
    (h : ∀ e ∈ l.entries place, ∀ name, e.place.head? = some name → name.length ≤ 31) : l.Short := by
  induction l generalizing place with
  | nil => trivial
  | self rest ih | parent rest ih => exact ih place hplain h
  | other name m rest ih => exact hplain.elim
  | file name m contents rest ih =>
    exact ⟨h _ List.mem_cons_self _ rfl, ih place hplain fun e he => h e (List.mem_cons_of_mem _ he)⟩
  | dir name m children rest ihc ihr =>
    have hbelow := fun e he => h e (List.mem_cons_of_mem _ (List.mem_append_left _ he))
    have hlater := fun e he => h e (List.mem_cons_of_mem _ (List.mem_append_right _ he))
    exact ⟨h _ List.mem_cons_self _ rfl, ihc _ hplain.1 hbelow, ihr place hplain.2 hlater⟩

/-- What was packed had names that fit. -/
theorem Packed.short {t : SourceTree} {out : List Byte} {base : Nat} (h : Packed t out base)
    (hplain : t.listing.Plain) : t.listing.Short := by
  obtain ⟨ino, hino⟩ := h
  refine t.listing.short_of_entries [] hplain fun e he name hname => ?_
  obtain ⟨_, n, _, hnamed, _⟩ := hino.entries e he
  exact string_short (hnamed.1.trans hname)

section
variable {host : Host} {path : List Byte} {st : Stat} {l l' : Listing}

/-- What is seen of an entry: its place, and a first part of its contents. -/
theorem SeenAs.entries (h : SeenAs host path st l l') (place : Place) :
    List.Forall₂ (fun e' e => e'.place = e.place ∧ e'.contents <+: e.contents) (l'.entries place)
      (l.entries place) := by
  induction h generalizing place with
  | nil => exact List.Forall₂.nil
  | self _ ih | parent _ ih => exact ih place
  | file _ _ _ ih => exact List.Forall₂.cons ⟨rfl, List.take_prefix _ _⟩ (ih place)
  | dir _ _ _ ihb iht =>
    exact List.Forall₂.cons ⟨rfl, List.prefix_refl _⟩ (List.rel_append (ihb _) (iht place))

theorem SeenAs.entryNames (h : SeenAs host path st l l') : l'.entryNames = l.entryNames := by
  induction h with
  | nil => rfl
  | self _ ih | parent _ ih => exact ih
  | file _ _ _ ih | dir _ _ _ _ ih => exact congrArg (_ :: ·) ih

theorem SeenAs.distinct (h : SeenAs host path st l l') (hl : l.Distinct) : l'.Distinct := by
  induction h with
  | nil => trivial
  | self _ ih | parent _ ih => exact ih hl
  | file _ _ tail ih => exact ⟨tail.entryNames ▸ hl.1, ih hl.2⟩
  | dir _ _ tail ihb iht => exact ⟨tail.entryNames ▸ hl.1, ihb hl.2.1, iht hl.2.2⟩

/-- Every entry is seen as it is exactly when its mode and size are its own. -/
theorem SeenAs.entries_iff (h : SeenAs host path st l l') (place : Place) :
    l'.entries place = l.entries place ↔ l.SeesOwn host path st := by
  induction h generalizing place with
  | nil => exact iff_of_true rfl trivial
  | self _ ih | parent _ ih => exact ih place
  | @file path st name m m' contents rest rest' mode size tail ih =>
    have hcut : contents.take ((sees host path st name).stSize % 2 ^ 32) = contents ↔
        (sees host path st name).stSize % 2 ^ 32 = contents.length := by
      rw [List.take_eq_self_iff]
      exact ⟨Nat.le_antisymm size, fun he => Nat.le_of_eq he.symm⟩
    simp only [Listing.entries, Listing.SeesOwn, List.cons.injEq, Entry.mk.injEq, true_and, hcut, mode, ih place,
      and_assoc]
  | @dir path st name m m' children children' rest rest' mode below tail ihb iht =>
    have hlen := (below.entries (name.bytes :: place)).length_eq
    simp only [Listing.entries, Listing.SeesOwn, List.cons.injEq, Entry.mk.injEq, true_and, and_true, mode]
    rw [← ihb (name.bytes :: place), ← iht place]
    refine and_congr_right fun _ => ⟨fun he => List.append_inj he hlen, ?_⟩
    rintro ⟨hb, ht⟩
    rw [hb, ht]

/-- A record no longer than another, of a size that fits 32 bits. -/
def Rec.Cut (r q : Rec) : Prop := r.contents.length ≤ q.contents.length ∧ r.contents.length < 2 ^ 32

theorem Rec.cut_nil {r q : Rec} (h : r.contents = []) : r.Cut q := by
  rw [Rec.Cut, h]
  exact ⟨Nat.zero_le _, by decide⟩

theorem dotRecs_cut (place : Place) (p : List Byte) (ino parentIno m mode m' mode' : Word) :
    List.Forall₂ Rec.Cut (dotRecs place p ino parentIno m' mode') (dotRecs place p ino parentIno m mode) := by
  rw [dotRecs, dotRecs]
  refine List.Forall₂.cons (Rec.cut_nil rfl) ?_
  split
  · exact List.Forall₂.cons (Rec.cut_nil rfl) List.Forall₂.nil
  · exact List.Forall₂.nil

/-- No record of what is seen is longer than that of the tree. -/
theorem SeenAs.recs_cut (h : SeenAs host path st l l') (place : Place) (p : List Byte)
    (ino mode mode' n : Word) :
    List.Forall₂ Rec.Cut (l'.recs place p ino mode' n).1 (l.recs place p ino mode n).1 ∧
      (l'.recs place p ino mode' n).2 = (l.recs place p ino mode n).2 := by
  induction h generalizing place p ino mode mode' n with
  | nil => exact ⟨List.Forall₂.nil, rfl⟩
  | self _ ih | parent _ ih => exact ih place p ino mode mode' n
  | file _ size _ ih =>
    obtain ⟨hrest, hcounter⟩ := ih place p ino mode mode' (n + 1#32)
    refine ⟨List.Forall₂.cons ?_ hrest, hcounter⟩
    rw [Rec.Cut, List.length_take]
    exact ⟨Nat.min_le_right _ _, Nat.lt_of_le_of_lt (Nat.min_le_left _ _) (Nat.mod_lt _ (by decide))⟩
  | @dir path st name m m' children children' rest rest' _ _ _ ihb iht =>
    have hdots := dotRecs_cut (name.bytes :: place) (joinPath p name.bytes) n ino m.val mode m'.val mode'
    obtain ⟨hbelow, hcounter⟩ := ihb (name.bytes :: place) (joinPath p name.bytes) n m.val m'.val
      (n + 1#32 + BitVec.ofNat 32
        (dotRecs (name.bytes :: place) (joinPath p name.bytes) n ino m.val mode).length)
    simp only [Listing.recs, hdots.length_eq, hcounter]
    obtain ⟨hlater, hend⟩ := iht place p ino mode mode' _
    exact ⟨List.Forall₂.cons (Rec.cut_nil rfl) (List.rel_append (List.rel_append hdots hbelow) hlater), hend⟩

end

/-- A node the contents pass got past can be read. -/
theorem writeContent_readable {host : Host} {base : Nat} {fd fd' : Fd} {c : IFSNodeContainer}
    (h : writeContent host base fd c = .ok fd') : Readable host c := by
  intro hreg
  rw [writeContent, if_pos hreg] at h
  obtain ⟨path, hpath, hrest⟩ := bind_eq_ok.mp h
  obtain ⟨bs, hbs, hwrite⟩ := bind_eq_ok.mp hrest
  refine ⟨path, bs, orStop_eq_ok.mp hpath, orStop_eq_ok.mp hbs, ?_⟩
  dsimp only at hwrite
  split at hwrite
  · cases hwrite
  · rename_i hlen
    rw [List.length_take] at hlen
    omega

theorem writeFileContents_readable {host : Host} {base : Nat} {cs : List IFSNodeContainer} {fd fd' : Fd}
    (h : writeFileContents host base cs fd = .ok fd') : ∀ c ∈ cs, Readable host c := by
  induction cs generalizing fd with
  | nil => simp
  | cons c cs ih =>
    rw [writeFileContents, List.foldlM_cons, bind_eq_ok] at h
    obtain ⟨fd₁, hfirst, hrest⟩ := h
    exact List.forall_mem_cons.mpr ⟨writeContent_readable hfirst, ih hrest⟩

/-- Where a node is placed does not matter for that. -/
theorem calculateFileOffsets_readable {host : Host} (cs : List IFSNodeContainer) {off last : Nat}
    (h : ∀ c ∈ (calculateFileOffsets cs off last).1, Readable host c) : ∀ c ∈ cs, Readable host c := by
  induction cs generalizing off last with
  | nil => simp
  | cons c cs ih =>
    obtain ⟨hfirst, hrest⟩ := List.forall_mem_cons.mp h
    exact List.forall_mem_cons.mpr ⟨hfirst, ih hrest⟩

/-- A run that ended left the image of the tree as the walk saw it. -/
theorem mkifs_seen {host : Host} {t : SourceTree} {pathPrefix bootloader out : List Byte} {fuel : Nat}
    (hserved : t.ServedBy host pathPrefix) (hplain : t.listing.Plain) (hshort : t.listing.Short)
    (hp : 0#8 ∉ pathPrefix) (haddr : Addressable (t.recs pathPrefix))
    (hrun : mkifs host zeroMemory fuel bootloader pathPrefix = .ok out) :
    ∃ (t' : SourceTree) (rs : List Rec),
      SeenAs host pathPrefix ((host.stat (joinPath pathPrefix dot)).getD ⟨0#32, 0⟩) t.listing t'.listing ∧
      List.Forall₂ Rec.Agrees rs (t'.recs pathPrefix) ∧ (∀ r ∈ rs, Rec.Stored host r) ∧
      Addressable rs ∧ (∀ r ∈ rs, r.contents.length < 2 ^ 32) ∧
      IsImage zeroMemory rs (alignUp bootloader.length 4096) out := by
  obtain ⟨cs, fd, _, hlist, hcontents, _⟩ := mkifs_ok.mp hrun
  have hread := calculateFileOffsets_readable cs (writeFileContents_readable hcontents)
  have hcount := haddr.count
  have hinodes := SourceTree.recs_length pathPrefix hplain (by omega)
  obtain ⟨t', rs, hseen, hcs, hagree, hstored⟩ :=
    buildList_seen hserved hplain hshort hp (by omega) hlist hread
  have hcut : List.Forall₂ Rec.Cut (t'.recs pathPrefix) (t.recs pathPrefix) := by
    refine List.Forall₂.cons (Rec.cut_nil rfl) (List.rel_append ?_ ?_)
    · exact dotRecs_cut _ _ _ _ _ _ _ _
    · exact (hseen.recs_cut [] pathPrefix 0#32 t.mode.val t'.mode.val 2#32).1
  have hsame : List.Forall₂ (fun r q : Rec => r.contents = q.contents) rs (t'.recs pathPrefix) :=
    hagree.imp fun r q h => by rw [h.same]
  have hsizes : ∀ r ∈ rs, r.contents.length < 2 ^ 32 := by
    intro r hr
    obtain ⟨q, hq, hrq⟩ := forall₂_mem hsame hr
    obtain ⟨_, _, hqt⟩ := forall₂_mem hcut hq
    rw [hrq]
    exact hqt.2
  have hrs : Addressable rs := Addressable.of_shorter (hsame.imp fun r q h => Nat.le_of_eq (congrArg List.length h))
    (Addressable.of_shorter (hcut.imp fun r q h => h.1) haddr)
  obtain ⟨out', hrun', himage, _⟩ := list_written bootloader hlist hcs hstored hrs hsizes
  obtain rfl : out' = out := Except.ok.inj (hrun'.symm.trans hrun)
  exact ⟨t', rs, hseen, hagree, hstored, hrs, hsizes, himage⟩

theorem Rec.Agrees.fields {r q : Rec} (h : r.Agrees q) : r.name = q.name ∧ r.inodeNr = q.inodeNr ∧
    r.parentInodeNr = q.parentInodeNr ∧ r.contents = q.contents := by
  rw [h.same]
  exact ⟨rfl, rfl, rfl, rfl⟩

theorem SourceTree.entry_index {t : SourceTree} {pathPrefix : List Byte} (h : t.listing.Distinct) {i j : Nat}
    {q q' : Rec} (hi : (t.recs pathPrefix)[i]? = some q) (hj : (t.recs pathPrefix)[j]? = some q')
    (hq : q.isEntry = true) (hq' : q'.isEntry = true) (hplace : q.place = q'.place) : i = j := by
  have happ := List.pairwise_iff_getElem.mp (t.recs_apart pathPrefix h)
  obtain ⟨hil, hiq⟩ := List.getElem?_eq_some_iff.mp hi
  obtain ⟨hjl, hjq⟩ := List.getElem?_eq_some_iff.mp hj
  rcases Nat.lt_trichotomy i j with hlt | heq | hgt
  · have hne := happ i j hil hjl hlt
    rw [hiq, hjq] at hne
    exact absurd hplace (hne hq hq')
  · exact heq
  · have hne := happ j i hjl hil hgt
    rw [hiq, hjq] at hne
    exact absurd hplace.symm (hne hq' hq)

/-- The directory an entry lies in is a place of the tree. -/
theorem Numbering.entry_dir {t : SourceTree} {pathPrefix : List Byte} {ino : Place → Word}
    (h : Numbering t (t.recs pathPrefix) ino) {e : Entry} (he : e ∈ t.entries) : e.place.tail ∈ t.places := by
  obtain ⟨q, hq, hrole, rfl⟩ := entry_record pathPrefix he
  have hhome := (h.placed q hq).2
  rw [Rec.home, hrole] at hhome
  exact hhome

section
variable {host : Host} {t : SourceTree} {pathPrefix out : List Byte} {rs : List Rec} {base : Nat}
    {ino : Place → Word} (hagree : List.Forall₂ Rec.Agrees rs (t.recs pathPrefix))
    (hstored : ∀ r ∈ rs, Rec.Stored host r) (haddr : Addressable rs) (hsizes : ∀ r ∈ rs, r.contents.length < 2 ^ 32)
    (himage : IsImage zeroMemory rs base out) (hnum : Numbering t (t.recs pathPrefix) ino)
include hagree hstored haddr hsizes himage hnum

/-- Every entry has a node of its name in its directory that stands for it. -/
theorem seen_entry {e : Entry} (he : e ∈ t.entries) :
    ∃ (i : Nat) (n : IFSNode), (imageNodes out base)[i]? = some n ∧ n.IsOf ino e ∧
      n.StandsFor out base ino e := by
  have hhead := t.entries_head he
  obtain ⟨q, hq, hrole, rfl⟩ := entry_record pathPrefix he
  obtain ⟨i, hi⟩ := List.mem_iff_getElem?.mp hq
  obtain ⟨r, hr, hrq⟩ := forall₂_getElem?_right hagree hi
  obtain ⟨o, hplace, hnode⟩ := himage.node_placed haddr.count hr
  obtain ⟨hname, hnr, hparent, hcontents⟩ := hrq.fields
  have hnamed := t.recs_named pathPrefix q hq
  simp only [Rec.Named, hrole] at hnamed
  have hok := hstored r (List.mem_of_getElem? hr)
  refine ⟨i, _, hnode, ⟨?_, ?_⟩, ⟨?_, hrq.entry hrole, ?_, ?_⟩⟩
  · rw [hhead, ← hnamed.2.2, ← hname]
    exact cstr_padded hok.nameNoNul hok.nameShort
  · rw [container_parentInodeNr, hparent, (hnum.links q hq).2, Rec.home, hrole]
  · rw [container_inodeNr, hnr, (hnum.links q hq).1, Rec.target, hrole]
  · rw [← hcontents]
    exact (BitVec.toNat_ofNat _ _).trans (Nat.mod_eq_of_lt (hsizes r (List.mem_of_getElem? hr)))
  · by_cases hnone : q.contents = []
    · rw [hnone]
      exact holds_nil _ _
    · rw [← hcontents] at hnone
      have hoffset : (BitVec.ofNat 32 o).toNat = o :=
        (BitVec.toNat_ofNat _ _).trans (Nat.mod_eq_of_lt (haddr.offsets _ hplace hnone))
      have hreg : sIsReg r.permissions = true := by
        rw [hrq.entry hrole]
        exact t.recs_reg pathPrefix q hq (hcontents ▸ hnone)
      have hold := himage.contents (r, o) hplace hreg
      rw [← hoffset, hcontents] at hold
      exact hold

omit hsizes in
/-- A node of an entry's name in its directory is at the index of that entry's record. -/
theorem seen_index {e : Entry} (he : e ∈ t.entries) {j : Nat} {m : IFSNode}
    (hm : (imageNodes out base)[j]? = some m) (hof : m.IsOf ino e) :
    ∃ q, (t.recs pathPrefix)[j]? = some q ∧ q.isEntry = true ∧ q.place = e.place := by
  obtain ⟨hstring, hparent⟩ := hof
  obtain ⟨name, hplace⟩ := t.listing.entries_name [] e he
  rw [hplace, List.head?_cons] at hstring
  rw [himage.nodes haddr.count, allNodes, List.getElem?_append] at hm
  split at hm
  · obtain ⟨r, o, hr, rfl⟩ := getElem?_placed hm
    obtain ⟨q, hq, hrq⟩ := forall₂_getElem? hagree hr
    obtain ⟨hname, _, hup, _⟩ := hrq.fields
    have hqm := List.mem_of_getElem? hq
    have hok := hstored r (List.mem_of_getElem? hr)
    have hcalled : q.name = name.bytes := by
      have hown : (r.container o).node.string = some r.name := cstr_padded hok.nameNoNul hok.nameShort
      rw [← hname]
      exact Option.some.inj (hown.symm.trans hstring)
    obtain ⟨hrole, hkind⟩ := entry_of_name hqm (by rw [hcalled]; exact name.notDot)
      (by rw [hcalled]; exact name.notDotDot)
    refine ⟨q, hq, by simp [Rec.isEntry, hrole], ?_⟩
    rcases hkind with ⟨_, hroot⟩ | ⟨_, hqplace⟩
    · exact absurd (by simp [← hcalled, hroot, slash]) name.noSlash
    · -- the directories have one number, so they are one
      have hhome : ino q.home = ino e.place.tail := by
        rw [← (hnum.links q hqm).2, ← hup, ← container_parentInodeNr o r, hparent]
      have htail := hnum.injective _ (hnum.placed q hqm).2 _ (hnum.entry_dir he) hhome
      rw [Rec.home, hrole] at htail
      have hsame : q.place.tail = e.place.tail := htail
      rw [hqplace, hcalled, hsame, ← hplace]
  · obtain ⟨k, _, rfl⟩ := List.mem_map.mp (List.mem_of_getElem? hm)
    rw [freeNode_string] at hstring
    exact absurd (Option.some.inj hstring).symm name.nonempty

/-- An image of records that agree with a tree's packs that tree. -/
theorem seen_packedAs (hd : t.listing.Distinct) : PackedAs t out base ino := by
  refine ⟨hnum.root, hnum.injective, fun e he => ?_⟩
  obtain ⟨i, n, hi, hof, hstands⟩ := seen_entry hagree hstored haddr hsizes himage hnum he
  refine ⟨i, n, hi, hof, hstands, fun j m hj hm => ?_⟩
  obtain ⟨q, hq, hqe, hqp⟩ := seen_index hagree hstored haddr himage hnum he hi hof
  obtain ⟨q', hq', hqe', hqp'⟩ := seen_index hagree hstored haddr himage hnum he hj hm
  exact t.entry_index hd hq' hq hqe' hqe (hqp'.trans hqp.symm)

/-- Where an image packs another tree with these places, an entry in a directory of one number in both
is one in both. -/
theorem packed_entry {own : SourceTree} {ino' : Place → Word} (hpacked : PackedAs own out base ino')
    {e' e : Entry} (he' : e' ∈ t.entries) (he : e ∈ own.entries) (hplace : e'.place = e.place)
    (hpart : e'.contents <+: e.contents) (hdir : ino' e.place.tail = ino e.place.tail) :
    ino' e.place = ino e.place ∧ e' = e := by
  obtain ⟨i, n, hi, hof, hstands⟩ := seen_entry hagree hstored haddr hsizes himage hnum he'
  obtain ⟨j, m, hj, hofm, hstandsm, hunique⟩ := hpacked.entries e he
  have hsame : n.IsOf ino' e := ⟨by rw [← hplace]; exact hof.1, by rw [hdir, ← hplace]; exact hof.2⟩
  obtain rfl := hunique i n hi hsame
  obtain rfl := Option.some.inj (hi.symm.trans hj)
  refine ⟨?_, ?_⟩
  · rw [← hstandsm.number, hstands.number, hplace]
  · have hcontents := hpart.eq_of_length (hstands.size.symm.trans hstandsm.size)
    have hmode := hstands.mode.symm.trans hstandsm.mode
    obtain ⟨place, mode, contents⟩ := e
    obtain ⟨place', mode', contents'⟩ := e'
    simp only at hplace hcontents hmode
    rw [hplace, hcontents, hmode]

/-- The image packs the tree the walk was of exactly when the walk saw every entry as it is. -/
theorem seen_packed_iff {own : SourceTree} {st : Stat}
    (hseen : SeenAs host pathPrefix st own.listing t.listing) (hd : t.listing.Distinct) :
    Packed own out base ↔ own.listing.SeesOwn host pathPrefix st := by
  have hpairs := hseen.entries []
  have hplaces : t.places = own.places :=
    congrArg ([] :: ·) (List.forall₂_eq_eq_eq ▸ List.forall₂_map_left_iff.mpr
      (List.forall₂_map_right_iff.mpr (hpairs.imp fun _ _ h => h.1)))
  rw [← hseen.entries_iff []]
  constructor
  · rintro ⟨ino', hpacked⟩
    -- going down the tree the two numberings stay one
    have hsame : ∀ p ∈ own.places, ino' p = ino p := by
      intro p
      induction p with
      | nil => exact fun _ => hpacked.root.trans hnum.root.symm
      | cons x p ih =>
        intro hp
        obtain ⟨e, he, hplace⟩ := List.mem_map.mp ((List.mem_cons.mp hp).resolve_left (List.cons_ne_nil x p))
        obtain ⟨e', he', hpair⟩ := forall₂_mem_right hpairs he
        have hdir : e.place.tail ∈ own.places := by
          rw [← hplaces, ← hpair.1]
          exact hnum.entry_dir he'
        rw [hplace, List.tail_cons] at hdir
        have hstep := packed_entry hagree hstored haddr hsizes himage hnum hpacked he' he hpair.1 hpair.2
          (by rw [hplace]; exact ih hdir)
        rw [← hplace]
        exact hstep.1
    refine eq_of_forall₂ hpairs fun e' he' e he hpair => ?_
    have hdir : e.place.tail ∈ own.places := by
      rw [← hplaces, ← hpair.1]
      exact hnum.entry_dir he'
    exact (packed_entry hagree hstored haddr hsizes himage hnum hpacked he' he hpair.1 hpair.2 (hsame _ hdir)).2
  · intro heq
    have hpacked := seen_packedAs hagree hstored haddr hsizes himage hnum hd
    have hentries : t.entries = own.entries := heq
    refine ⟨ino, hpacked.root, ?_, ?_⟩
    · rw [← hplaces]
      exact hpacked.injective
    · rw [← hentries]
      exact hpacked.entries

end

/-- A run that ended packed the tree exactly when it saw every entry as it is. -/
theorem mkifs_packed_iff {host : Host} {t : SourceTree} {pathPrefix bootloader out : List Byte} {fuel : Nat}
    (hserved : t.ServedBy host pathPrefix) (hplain : t.listing.Plain) (hdistinct : t.listing.Distinct)
    (hshort : t.listing.Short) (hp : 0#8 ∉ pathPrefix) (haddr : Addressable (t.recs pathPrefix))
    (hrun : mkifs host zeroMemory fuel bootloader pathPrefix = .ok out) :
    Packed t out (alignUp bootloader.length 4096) ↔ t.SeesOwn host pathPrefix := by
  obtain ⟨t', rs, hseen, hagree, hstored, hrs, hsizes, himage⟩ := mkifs_seen hserved hplain hshort hp haddr hrun
  have hcount := haddr.count
  have hinodes := SourceTree.recs_length pathPrefix hplain (by omega)
  have hsame : t'.inodes = t.inodes := congrArg (· + 2) hseen.inodes
  have hd := hseen.distinct hdistinct
  exact seen_packed_iff hagree hstored hrs hsizes himage (t'.numbering pathPrefix hd (by omega)) hseen hd

/-- What was packed has sizes that fit 32 bits. -/
theorem Packed.narrow {t : SourceTree} {out : List Byte} {base : Nat} (h : Packed t out base) :
    ∀ e ∈ t.entries, e.contents.length < 2 ^ 32 := by
  obtain ⟨ino, hino⟩ := h
  intro e he
  obtain ⟨_, n, _, _, hstands, _⟩ := hino.entries e he
  rw [← hstands.size]
  exact n.fileSize.isLt

theorem bootHost_kinds (path : List Byte) : bootHost.opendir path = none ∨ bootHost.contents path = none := by
  by_cases hk : path = joinPath (joinPath rootPath bootName.bytes) kernelName.bytes
  · rw [hk]
    exact Or.inl (by decide)
  · exact Or.inr (if_neg hk)

/-- A name too long for its field is walked as its first 31 bytes. -/
theorem scanEntry_cut {host : Host} {mem : Memory}
    {recurse : List (List Byte) → IFSNodeContainer → Walk → Except Stop Walk} (parent : IFSNodeContainer)
    (s : Walk) (st : Stat) {dName : List Byte} (h : 31 ≤ dName.length) :
    scanEntry host mem recurse parent s st dName = scanEntry host mem recurse parent s st (dName.take 31) := by
  have proper : ∀ {name : List Byte}, 31 ≤ name.length → ¬ (name = dot ∨ name = dotDot) := by
    rintro name hlen (rfl | rfl)
    · exact absurd hlen (by decide)
    · exact absurd hlen (by decide)
  have hcut : 31 ≤ (dName.take 31).length := by rw [List.length_take, Nat.min_eq_left h]
  have hname : ∀ dst : CharBuf 32, strncpy dst dName 31 = strncpy dst (dName.take 31) 31 := by
    intro dst
    simp only [strncpy, List.take_take, Nat.min_self]
  simp only [scanEntry, proper h, proper hcut, if_false, hname]

/-- A name that fills its field, and one that is a byte longer. -/
def fullName : FileName :=
  ⟨List.replicate 31 110#8, by decide, by decide, by decide, by decide, by decide⟩

def longName : FileName :=
  ⟨List.replicate 32 110#8, by decide, by decide, by decide, by decide, by decide⟩

/-- Two files of one byte whose names agree as far as a name is kept. -/
def alikeTree : SourceTree :=
  ⟨plainDir, .file longName plainFile [1#8] (.file fullName plainFile [2#8] .nil)⟩

def alikeHost : Host :=
  let long := joinPath rootPath longName.bytes
  let full := joinPath rootPath fullName.bytes
  { stat := fun path => if path = long ∨ path = full then some ⟨0o100644#32, 1⟩ else some ⟨0o040755#32, 4096⟩
    opendir := fun path => if path = rootPath then some [longName.bytes, fullName.bytes] else none
    contents := fun path => if path = long then some [1#8] else if path = full then some [2#8] else none }

theorem alikeTree_on : alikeTree.On alikeHost rootPath :=
  ⟨⟨4096, by decide⟩, by decide, by decide, by decide, by decide, by decide, trivial⟩

/-- Both are walked as the second. -/
def alikeRecs : List Rec :=
  [rootRec rootPath, ⟨.self, [], dot, 0#32, 0#32, plainDir.val, [], joinPath rootPath dot⟩,
    ⟨.entry, [], fullName.bytes, 2#32, 0#32, plainFile.val, [2#8], joinPath rootPath fullName.bytes⟩,
    ⟨.entry, [], fullName.bytes, 3#32, 0#32, plainFile.val, [2#8], joinPath rootPath fullName.bytes⟩]

theorem alike_list : ∃ cs, buildList alikeHost zeroMemory 1 rootPath = .ok cs ∧
    List.Forall₂ (fun c r => ∃ o, c = Rec.container o r) cs alikeRecs := by
  obtain ⟨root, hroot⟩ : ∃ root, root = (rootRec rootPath).container 0#32 := ⟨_, rfl⟩
  have hnr : root.realPath = padded 1024 rootPath := hroot ▸ container_realPath _ _
  have hni : root.node.inodeNr = 0#32 := hroot ▸ container_inodeNr _ _
  have hnp : root.node.parentInodeNr = 0#32 := hroot ▸ container_parentInodeNr _ _
  have hstat : alikeHost.stat (joinPath rootPath fullName.bytes) = some ⟨plainFile.val, 1⟩ := by decide
  have hentry : ∀ recurse s st, scanEntry alikeHost zeroMemory recurse root s st fullName.bytes =
      .ok (⟨s.list ++ [entryNode rootPath 0#32 fullName.bytes plainFile.val s.currentInodeNr [2#8]],
        s.currentInodeNr + 1#32, s.mallocs + 1⟩, ⟨plainFile.val, 1⟩) := by
    intro recurse s st
    rw [scanEntry_zero recurse fullName [2#8] s st (by decide : 0#8 ∉ rootPath) hnr hni (by decide) (by decide)
      (by rw [hstat, Option.getD_some]) (fun _ => rfl)]
    simp only [plainFile.not_dir, plainFile.property, Bool.false_eq_true, if_false, if_true]
  have hlong : longName.bytes.take 31 = fullName.bytes := by decide
  obtain ⟨k, hrun⟩ := recursive_zero (k := 4#32) 0 [longName.bytes, fullName.bytes] [] 0#32
    ⟨[root], 1#32, 1⟩ (alikeRecs.drop 2) (by decide : 0#8 ∉ rootPath) hnr hni hnp (by decide)
    (by decide : alikeHost.stat (joinPath rootPath dot) = some ⟨plainDir.val, 4096⟩) (fun hz => absurd rfl hz)
    (fun t st ht => by
      have hcounter : t.currentInodeNr = 2#32 := ht
      refine ⟨t.mallocs + 1 + 1, ?_⟩
      rw [scanDir, scanEntry_cut root t st (by decide), hlong, hentry]
      simp only [bind, Except.bind, scanDir, hentry, hcounter]
      simp [alikeRecs, entryNode, Rec.container])
  have hopen : alikeHost.opendir rootPath = some [longName.bytes, fullName.bytes] := by decide
  rw [← hopen, hroot] at hrun
  exact ⟨_, buildList_root.mpr ⟨by decide, _, hrun, rfl⟩, containers_cons _ _ _ _⟩

theorem alikeHost_kinds (path : List Byte) : alikeHost.opendir path = none ∨ alikeHost.contents path = none := by
  by_cases hroot : path = rootPath
  · rw [hroot]
    exact Or.inr (by decide)
  · exact Or.inl (if_neg hroot)

end CheviotBoot.Mkifs
