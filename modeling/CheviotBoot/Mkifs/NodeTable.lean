import CheviotBoot.Mkifs.Image
import CheviotBoot.Mkifs.Numbering

namespace CheviotBoot.Mkifs
open Lib

/-- A node read back from its packed layout. -/
def readNode (bs : List Byte) : IFSNode :=
  { name := Vector.ofFn (fun i => bs.getD i.val 0#8)
    inodeNr := field bs 32
    parentInodeNr := field bs 36
    permissions := field bs 40
    uid := field bs 44
    gid := field bs 48
    fileOffset := field bs 52
    fileSize := field bs 56 }

theorem readNode_bytes (n : IFSNode) : readNode n.bytes = n := by
  have hname : Vector.ofFn (fun i : Fin 32 => n.bytes.getD i.val 0#8) = n.name := by
    apply Vector.ext
    intro i hi
    simp only [Vector.getElem_ofFn, IFSNode.bytes, List.append_assoc]
    rw [List.getD_eq_getElem?_getD, List.getElem?_append_left (by simpa using hi)]
    simp [hi]
  simp only [readNode, hname]
  simp only [IFSNode.bytes, List.append_assoc]
  simp [field_skip, field_head, field_last]

/-- `node_cnt` and the nodes an image at `base` of a file holds, as its header gives them. -/
def imageNodeCnt (out : List Byte) (base : Nat) : Nat := (field (slice out base headerSize) 8).toNat

def imageTable (out : List Byte) (base : Nat) : Nat :=
  base + (field (slice out base headerSize) 4).toNat

def imageNodes (out : List Byte) (base : Nat) : List IFSNode :=
  (List.range (imageNodeCnt out base)).map
    (fun i => readNode (slice out (imageTable out base + nodeSize * i) nodeSize))

/-- The nodes but the free slots. -/
def usedNodes (out : List Byte) (base : Nat) : List IFSNode :=
  (imageNodes out base).filter (fun n => n.parentInodeNr ≠ -1)

theorem IFSHeader.fields_read (h : IFSHeader) :
    field h.bytes 4 = h.nodeTableOffset ∧ field h.bytes 8 = h.nodeCnt := by
  simp only [IFSHeader.bytes, List.append_assoc]
  simp [field_skip, field_head]

/-- What the header of an image says, while the count fits its field. -/
theorem IsImage.header_fields {mem : Memory} {rs : List Rec} {base : Nat} {out : List Byte}
    (h : IsImage mem rs base out) (hlt : rs.length + 16 < 2 ^ 32) :
    imageNodeCnt out base = rs.length + 16 ∧ imageTable out base = base + nodeTableOffset := by
  have hread := h.header.read
  rw [IFSHeader.bytes_length] at hread
  obtain ⟨htab, hcnt⟩ := (ifsHeader rs.length).fields_read
  rw [imageNodeCnt, imageTable, headerSize, hread, hcnt, htab]
  simp only [ifsHeader, BitVec.toNat_ofNat]
  exact ⟨Nat.mod_eq_of_lt hlt, rfl⟩

/-- All nodes of an image: the records with their offsets, then the free slots. -/
def allNodes (mem : Memory) (rs : List Rec) : List IFSNode :=
  (placedNodes rs (fileTableOffset rs.length)).map IFSNodeContainer.node ++
    (List.range freeNodeCnt).map (freeNode mem)

theorem allNodes_bytes (mem : Memory) (rs : List Rec) :
    (allNodes mem rs).map IFSNode.bytes = tableBlocks mem rs := by
  simp only [allNodes, tableBlocks, List.map_append, List.map_map, Function.comp_def]

@[simp] theorem allNodes_length (mem : Memory) (rs : List Rec) :
    (allNodes mem rs).length = rs.length + 16 := by
  simp [allNodes, freeNodeCnt]

/-- The nodes read from an image are all it was written from. -/
theorem IsImage.nodes {mem : Memory} {rs : List Rec} {base : Nat} {out : List Byte}
    (h : IsImage mem rs base out) (hlt : rs.length + 16 < 2 ^ 32) : imageNodes out base = allNodes mem rs := by
  obtain ⟨hcnt, htab⟩ := h.header_fields hlt
  have hread := h.table.read_blocks (tableBlocks_size mem rs)
  have hmap := congrArg (List.map readNode) hread
  rw [tableBlocks_length, List.map_map] at hmap
  rw [imageNodes, hcnt, htab]
  refine hmap.trans ?_
  rw [← allNodes_bytes, List.map_map]
  exact (List.map_congr_left (fun n _ => readNode_bytes n)).trans (List.map_id _)

/-- The string in a node's name field. -/
def IFSNode.string (n : IFSNode) : Option (List Byte) := cstr? n.name.toList

/-- Not the "." or ".." of a directory. -/
def IFSNode.isEntry (n : IFSNode) : Bool := n.string != some dot && n.string != some dotDot

/-- What a node says about the entry it stands for: its name, links, mode and size. -/
def IFSNode.key (n : IFSNode) : Option (List Byte) × Word × Word × Word × Nat :=
  (n.string, n.inodeNr, n.parentInodeNr, n.permissions, n.fileSize.toNat)

/-- Nodes that are a source tree, its places numbered by `ino`. -/
structure IsTree (t : SourceTree) (ino : Place → Word) (nodes : List IFSNode) : Prop where
  root : ino [] = 0#32
  injective : ∀ p ∈ t.places, ∀ q ∈ t.places, ino p = ino q → p = q
  /-- The root, then every entry once, under its name in the directory it is in. -/
  entries : (nodes.filter IFSNode.isEntry).map IFSNode.key =
    (some slash, ino [], ino [], sIFDIR, 0) ::
      t.entries.map (fun e => (e.place.head?, ino e.place, ino e.place.tail, e.mode, e.contents.length))
  /-- Every directory has one ".", with its own number. -/
  selves : (nodes.filter (fun n => n.string == some dot)).map (fun n => (n.inodeNr, n.parentInodeNr)) =
    t.dirs.map (fun d => (ino d, ino d))
  /-- Every directory but the root has one "..", with its parent's number. -/
  ups : (nodes.filter (fun n => n.string == some dotDot)).map (fun n => (n.inodeNr, n.parentInodeNr)) =
    t.dirs.tail.map (fun d => (ino d.tail, ino d))
  /-- Nodes share a number only where it is a directory's. -/
  shared : ∀ (i j : Nat) (n m : IFSNode), i < j → nodes[i]? = some n → nodes[j]? = some m →
    n.inodeNr = m.inodeNr →
    ∃ d ∈ t.dirs, n.inodeNr = ino d
  /-- The record of a node's directory comes before it. -/
  earlier : ∀ (i : Nat) (n : IFSNode), nodes[i + 1]? = some n →
    ∃ j, ∃ m : IFSNode, j ≤ i ∧ nodes[j]? = some m ∧ m.isEntry ∧ m.inodeNr = n.parentInodeNr

/-- An image whose used nodes are the tree, followed by 16 free slots, with
`node_cnt` counting them all and all of them inside the file. -/
def HoldsTree (t : SourceTree) (out : List Byte) (base : Nat) : Prop :=
  (∃ ino, IsTree t ino (usedNodes out base)) ∧
    imageNodeCnt out base = (usedNodes out base).length + freeNodeCnt ∧
    imageTable out base + nodeSize * imageNodeCnt out base ≤ out.length

/-- The names of records say which kind they are. -/
def Rec.Named (r : Rec) : Prop :=
  match r.role with
  | .entry => r.name ≠ dot ∧ r.name ≠ dotDot ∧ r.name = r.place.headD slash
  | .self => r.name = dot
  | .up => r.name = dotDot

theorem dotRecs_named (place : Place) (path : List Byte) (ino parentIno mode parentMode : Word) :
    ∀ r ∈ dotRecs place path ino parentIno mode parentMode, r.Named := by
  intro r hr
  simp only [dotRecs, List.mem_cons] at hr
  rcases hr with rfl | hr
  · rfl
  · split at hr
    · obtain rfl := List.mem_singleton.mp hr
      rfl
    · cases hr

theorem Listing.recs_named (l : Listing) (place : Place) (path : List Byte) (ino mode n : Word) :
    ∀ r ∈ (l.recs place path ino mode n).1, r.Named := by
  induction l generalizing place path ino mode n with
  | nil => simp [Listing.recs]
  | self rest ih | parent rest ih => exact ih place path ino mode n
  | other name m rest ih => exact ih place path ino mode (n + 1#32)
  | file name m contents rest ih =>
    intro r hr
    rcases List.mem_cons.mp hr with rfl | hr
    · exact ⟨name.notDot, name.notDotDot, rfl⟩
    · exact ih place path ino mode (n + 1#32) r hr
  | dir name m children rest ihc ihr =>
    intro r hr
    simp only [Listing.recs, List.mem_cons, List.mem_append] at hr
    rcases hr with rfl | (hr | hr) | hr
    · exact ⟨name.notDot, name.notDotDot, rfl⟩
    · exact dotRecs_named _ _ _ _ _ _ r hr
    · exact ihc _ _ _ _ _ r hr
    · exact ihr _ _ _ _ _ r hr

theorem SourceTree.recs_named (t : SourceTree) (pathPrefix : List Byte) :
    ∀ r ∈ t.recs pathPrefix, r.Named := by
  intro r hr
  rcases List.mem_cons.mp hr with rfl | hr
  · exact ⟨(by decide : slash ≠ dot), (by decide : slash ≠ dotDot), rfl⟩
  · cases List.mem_append.mp hr with
    | inl hr => exact dotRecs_named _ _ _ _ _ _ r hr
    | inr hr => exact t.listing.recs_named _ _ _ _ _ r hr

theorem placed_getElem? {rs : List Rec} (off : Nat) {i : Nat} {r : Rec} (h : rs[i]? = some r) :
    ∃ o, (r, o) ∈ places rs off ∧
      ((placedNodes rs off).map IFSNodeContainer.node)[i]? = some (r.container (BitVec.ofNat 32 o)).node := by
  rw [← places_fst rs off, List.getElem?_map, Option.map_eq_some_iff] at h
  obtain ⟨p, hp, rfl⟩ := h
  exact ⟨p.2, List.mem_of_getElem? hp, by simp [placedNodes, hp]⟩

theorem getElem?_placed {rs : List Rec} {off i : Nat} {n : IFSNode}
    (h : ((placedNodes rs off).map IFSNodeContainer.node)[i]? = some n) :
    ∃ r o, rs[i]? = some r ∧ n = (r.container o).node := by
  simp only [placedNodes, List.map_map, List.getElem?_map, Option.map_eq_some_iff] at h
  obtain ⟨p, hp, rfl⟩ := h
  refine ⟨p.1, BitVec.ofNat 32 p.2, ?_, rfl⟩
  rw [← places_fst rs off, List.getElem?_map, hp]
  rfl

theorem freeNode_string (mem : Memory) (k : Nat) : (freeNode mem k).string = some [] := by
  have hfirst : (freeNode mem k).name.toList = 0#8 :: (freeNode mem k).name.toList.tail := by
    have hlen : (freeNode mem k).name.toList.length = 32 := by simp
    cases hl : (freeNode mem k).name.toList with
    | nil =>
      rw [hl] at hlen
      cases hlen
    | cons b bs =>
      have hb : (freeNode mem k).name.toList[0]? = some 0#8 := by simp [freeNode, CharBuf.put]
      rw [hl] at hb
      rw [Option.some.inj hb]
      rfl
  rw [IFSNode.string, hfirst]
  rfl

/-- Where a node of the image comes from. -/
theorem mem_allNodes {mem : Memory} {rs : List Rec} {n : IFSNode} (h : n ∈ allNodes mem rs) :
    (∃ p ∈ places rs (fileTableOffset rs.length), n = (p.1.container (BitVec.ofNat 32 p.2)).node) ∨
      ∃ k, n = freeNode mem k := by
  cases List.mem_append.mp h with
  | inl h =>
    obtain ⟨c, hc, rfl⟩ := List.mem_map.mp h
    obtain ⟨p, hp, rfl⟩ := List.mem_map.mp hc
    exact Or.inl ⟨p, hp, rfl⟩
  | inr h =>
    obtain ⟨k, _, rfl⟩ := List.mem_map.mp h
    exact Or.inr ⟨k, rfl⟩

theorem allNodes_mem (mem : Memory) {rs : List Rec} {r : Rec} (h : r ∈ rs) :
    ∃ o, (r.container o).node ∈ allNodes mem rs := by
  obtain ⟨i, hi⟩ := List.mem_iff_getElem?.mp h
  obtain ⟨o, _, ho⟩ := placed_getElem? (fileTableOffset rs.length) hi
  exact ⟨_, List.mem_append_left _ (List.mem_of_getElem? ho)⟩

theorem places_mem {rs : List Rec} {off : Nat} {p : Rec × Nat} (h : p ∈ places rs off) :
    p.1 ∈ rs := by
  have hm := List.mem_map_of_mem (f := Prod.fst) h
  rwa [places_fst] at hm

/-- Picking nodes and reading something off them, said about the records. -/
theorem placed_filter_map {α : Type} {P : IFSNode → Bool} {Q : Rec → Bool} {g : IFSNode → α}
    {f : Rec → α} (rs : List Rec) (off : Nat) (hp : ∀ r ∈ rs, ∀ o, P (r.container o).node = Q r)
    (hg : ∀ r ∈ rs, ∀ o, g (r.container o).node = f r) :
    (((placedNodes rs off).map IFSNodeContainer.node).filter P).map g = (rs.filter Q).map f := by
  induction rs generalizing off with
  | nil => rfl
  | cons r rs ih =>
    have hrest := ih (alignUp (off + r.contents.length) 4096)
      (fun q hq => hp q (List.mem_cons_of_mem _ hq)) (fun q hq => hg q (List.mem_cons_of_mem _ hq))
    have hone := hp r List.mem_cons_self (BitVec.ofNat 32 off)
    simp only [placedNodes, places, List.map_cons, List.filter_cons, hone] at hrest ⊢
    split
    · rw [List.map_cons, List.map_cons, hg r List.mem_cons_self, hrest]
    · exact hrest

theorem container_string {host : Host} {r : Rec} (hok : Rec.Ok host r) (o : Word) :
    (r.container o).node.string = some r.name := cstr_padded hok.nameNoNul hok.nameShort

/-- A node's string is the name of its role, or neither "." nor "..". -/
theorem container_isEntry {host : Host} {r : Rec} (hok : Rec.Ok host r)
    (hname : r.Named) (o : Word) :
    (r.container o).node.isEntry = r.isEntry := by
  rw [IFSNode.isEntry, container_string hok o]
  unfold Rec.Named at hname
  cases hr : r.role with
  | entry =>
    simp only [hr] at hname
    simp [Rec.isEntry, hr, hname.1, hname.2.1]
  | self | up =>
    simp only [hr] at hname
    simp [Rec.isEntry, hr, hname]

theorem container_self {host : Host} {r : Rec} (hok : Rec.Ok host r) (hname : r.Named) (o : Word) :
    ((r.container o).node.string == some dot) = (r.role == .self) := by
  rw [container_string hok o]
  unfold Rec.Named at hname
  cases hr : r.role with
  | entry =>
    simp only [hr] at hname
    simpa using hname.1
  | self | up =>
    simp only [hr] at hname
    rw [hname]
    rfl

theorem container_up {host : Host} {r : Rec} (hok : Rec.Ok host r) (hname : r.Named) (o : Word) :
    ((r.container o).node.string == some dotDot) = (r.role == .up) := by
  rw [container_string hok o]
  unfold Rec.Named at hname
  cases hr : r.role with
  | entry =>
    simp only [hr] at hname
    simpa using hname.2.1
  | self | up =>
    simp only [hr] at hname
    rw [hname]
    rfl

theorem IsImage.node_placed {mem : Memory} {rs : List Rec} {base : Nat} {out : List Byte}
    (h : IsImage mem rs base out) (hcount : rs.length + 16 < 2 ^ 32) {i : Nat} {r : Rec} (hr : rs[i]? = some r) :
    ∃ o, (r, o) ∈ places rs (fileTableOffset rs.length) ∧
      (imageNodes out base)[i]? = some (r.container (BitVec.ofNat 32 o)).node := by
  obtain ⟨o, hplace, hnode⟩ := placed_getElem? (fileTableOffset rs.length) hr
  refine ⟨o, hplace, ?_⟩
  rw [h.nodes hcount, allNodes, List.getElem?_append_left (List.getElem?_eq_some_iff.mp hnode).1, hnode]

/-- The node of a record in a file that is an image, and where its contents are. -/
theorem IsImage.node_at {rs : List Rec} {base : Nat} {out : List Byte} (h : IsImage zeroMemory rs base out)
    (hsize : imageSize rs < 2 ^ 32) {i : Nat} {r : Rec} (hr : rs[i]? = some r) :
    ∃ o, (r, o) ∈ places rs (fileTableOffset rs.length) ∧
      (imageNodes out base)[i]? = some (r.container (BitVec.ofNat 32 o)).node ∧
      (r.container (BitVec.ofNat 32 o)).node.fileOffset.toNat = o ∧
      (r.container (BitVec.ofNat 32 o)).node.fileSize.toNat = r.contents.length := by
  have hlen := length_lt_of_imageSize hsize
  obtain ⟨o, hplace, hnode⟩ := h.node_placed (by omega) hr
  have hend : o + r.contents.length ≤ imageSize rs := (places_bounds _ hplace).2
  refine ⟨o, hplace, hnode, ?_, ?_⟩
  · change (BitVec.ofNat 32 o).toNat = o
    rw [BitVec.toNat_ofNat, Nat.mod_eq_of_lt (by omega)]
  · change (BitVec.ofNat 32 r.contents.length).toNat = r.contents.length
    rw [BitVec.toNat_ofNat, Nat.mod_eq_of_lt (by omega)]

theorem SourceTree.recs_dirs (t : SourceTree) (pathPrefix : List Byte) (hlt : t.inodes < 2 ^ 32) :
    dirsOf .self (t.recs pathPrefix) = t.dirs ∧ dirsOf .up (t.recs pathPrefix) = t.dirs.tail := by
  have hself := t.listing.recs_selves [] pathPrefix 0#32 t.mode.val 2#32
  have hup := t.listing.recs_ups [] pathPrefix 0#32 t.mode.val (n := 2#32) (by decide)
    (by rw [Nat.add_comm]; exact hlt)
  refine ⟨?_, ?_⟩
  · change dirsOf .self (_ ++ _) = _
    rw [dirsOf_append, hself, dirsOf_self_dotRecs]
    rfl
  · change dirsOf .up (_ ++ _) = _
    rw [dirsOf_append, hup]
    rfl

theorem mem_dirsOf {role : Role} {rs : List Rec} {r : Rec} (h : r ∈ rs) (hr : r.role = role) :
    r.place ∈ dirsOf role rs :=
  List.mem_map_of_mem (List.mem_filter.mpr ⟨h, by simp [hr]⟩)

/-- What a record that is no entry denotes is a directory. -/
theorem SourceTree.target_dir {t : SourceTree} {pathPrefix : List Byte}
    (hlt : t.inodes < 2 ^ 32) {r : Rec}
    (h : r ∈ t.recs pathPrefix) (hr : r.role ≠ .entry) : r.target ∈ t.dirs := by
  obtain ⟨hself, hup⟩ := t.recs_dirs pathPrefix hlt
  cases hrole : r.role with
  | entry => exact absurd hrole hr
  | self =>
    rw [Rec.target, hrole, ← hself]
    exact mem_dirsOf h hrole
  | up =>
    have hm := mem_dirsOf h hrole
    rw [hup] at hm
    rw [Rec.target, hrole]
    cases t.listing.dirs_tail [] r.place hm with
    | inl he => exact he ▸ List.mem_cons_self
    | inr he => exact List.mem_cons_of_mem _ he

/-- Two entry records of a tree are at different places. -/
theorem SourceTree.recs_apart {t : SourceTree} (pathPrefix : List Byte) (h : t.listing.Distinct) :
    (t.recs pathPrefix).Pairwise
      (fun r q => r.isEntry = true → q.isEntry = true → r.place ≠ q.place) := by
  have hnodup := t.places_nodup h
  rw [← t.recs_places pathPrefix, bindings, List.map_map] at hnodup
  exact List.pairwise_filter.mp (List.pairwise_map.mp hnodup)

theorem SourceTree.recs_entries (t : SourceTree) (pathPrefix : List Byte) :
    entriesOf (t.recs pathPrefix) = ⟨[], sIFDIR, []⟩ :: t.entries := by
  have hl := t.listing.recs_entries [] pathPrefix 0#32 t.mode.val 2#32
  have happ := entriesOf_append (dotRecs [] pathPrefix 0#32 0#32 t.mode.val 0#32)
    (t.listing.recs [] pathPrefix 0#32 t.mode.val 2#32).1
  rw [entriesOf_dotRecs, List.nil_append, hl] at happ
  exact congrArg (_ :: ·) happ

/-- Every entry has its record. -/
theorem entry_record {t : SourceTree} (pathPrefix : List Byte) {e : Entry} (h : e ∈ t.entries) :
    ∃ r ∈ t.recs pathPrefix, r.role = .entry ∧ e = ⟨r.place, r.permissions, r.contents⟩ := by
  have hm : e ∈ entriesOf (t.recs pathPrefix) := by
    rw [t.recs_entries]
    exact List.mem_cons_of_mem _ h
  obtain ⟨r, hr, rfl⟩ := List.mem_map.mp hm
  obtain ⟨hmem, hrole⟩ := List.mem_filter.mp hr
  exact ⟨r, hmem, by simpa [Rec.isEntry] using hrole, rfl⟩

/-- A record whose name is neither "." nor ".." is the root's or an entry's. -/
theorem entry_of_name {t : SourceTree} {pathPrefix : List Byte} {r : Rec}
    (h : r ∈ t.recs pathPrefix) (hdot : r.name ≠ dot) (hdots : r.name ≠ dotDot) :
    r.role = .entry ∧ (r.place = [] ∧ r.name = slash ∨
      (⟨r.place, r.permissions, r.contents⟩ : Entry) ∈ t.entries ∧
        r.place = r.name :: r.place.tail) := by
  have hname := t.recs_named pathPrefix r h
  unfold Rec.Named at hname
  cases hrole : r.role with
  | self =>
    simp only [hrole] at hname
    exact absurd hname hdot
  | up =>
    simp only [hrole] at hname
    exact absurd hname hdots
  | entry =>
    simp only [hrole] at hname
    have hm : (⟨r.place, r.permissions, r.contents⟩ : Entry) ∈ entriesOf (t.recs pathPrefix) :=
      List.mem_map_of_mem (f := fun r : Rec => (⟨r.place, r.permissions, r.contents⟩ : Entry))
        (List.mem_filter.mpr ⟨h, by simp [Rec.isEntry, hrole]⟩)
    rw [t.recs_entries] at hm
    refine ⟨rfl, ?_⟩
    cases hplace : r.place with
    | nil => exact Or.inl ⟨rfl, by rw [hname.2.2, hplace]; rfl⟩
    | cons x xs =>
      rw [hplace] at hm
      cases List.mem_cons.mp hm with
      | inl he => exact absurd (congrArg Entry.place he) (by simp)
      | inr hm => exact Or.inr ⟨hm, by rw [hname.2.2, hplace]; rfl⟩

theorem SourceTree.entries_head (t : SourceTree) {e : Entry} (h : e ∈ t.entries) :
    e.place.head? = some (e.place.headD slash) := by
  obtain ⟨xs, m, _, hp⟩ := t.listing.entries_under [] e h
  cases hplace : e.place with
  | nil => exact absurd (hplace.symm.trans hp).symm (List.append_ne_nil_of_right_ne_nil xs (List.cons_ne_nil m []))
  | cons x xs => rfl

/-- What the entry records say is what the entries are, under any numbering. -/
theorem entries_key (rs : List Rec) (ino : Place → Word) (hnamed : ∀ r ∈ rs, r.Named) :
    (rs.filter Rec.isEntry).map
        (fun r => (some r.name, ino r.target, ino r.home, r.permissions, r.contents.length)) =
      (entriesOf rs).map (fun e =>
        (some (e.place.headD slash), ino e.place, ino e.place.tail, e.mode, e.contents.length)) := by
  rw [entriesOf, List.map_map]
  refine List.map_congr_left ?_
  intro r hr
  obtain ⟨hmem, hentry⟩ := List.mem_filter.mp hr
  have hrole : r.role = .entry := by simpa [Rec.isEntry] using hentry
  have hname := hnamed r hmem
  simp only [Rec.Named, hrole] at hname
  simp [Rec.target, Rec.home, hrole, hname.2.2]

/-- The dot nodes of one role are the directories', each with its two numbers. -/
theorem placed_dots {rs : List Rec} {ino : Place → Word} (off : Nat) {P : IFSNode → Bool}
    {role : Role}
    (f : Place → Place) (hP : ∀ r ∈ rs, ∀ o, P (r.container o).node = (r.role == role))
    (hlinks : ∀ r ∈ rs, r.inodeNr = ino r.target ∧ r.parentInodeNr = ino r.home)
    (hf : ∀ r : Rec, r.role = role → r.target = f r.place ∧ r.home = r.place) :
    (((placedNodes rs off).map IFSNodeContainer.node).filter P).map (fun n => (n.inodeNr, n.parentInodeNr)) =
      (dirsOf role rs).map (fun d => (ino (f d), ino d)) := by
  have hread : ∀ r ∈ rs, ∀ o : Word, ((r.container o).node.inodeNr, (r.container o).node.parentInodeNr) =
      (ino r.target, ino r.home) := by
    intro r hr o
    obtain ⟨ht, hh⟩ := hlinks r hr
    rw [container_inodeNr, container_parentInodeNr, ht, hh]
  rw [placed_filter_map (g := fun n => (n.inodeNr,
    n.parentInodeNr)) rs off hP hread, dirsOf, List.map_map]
  refine List.map_congr_left ?_
  intro r hr
  have hrole : r.role = role := by simpa using (List.mem_filter.mp hr).2
  obtain ⟨ht, hh⟩ := hf r hrole
  rw [ht, hh]
  rfl

section
variable {host : Host} {t : SourceTree} {pathPrefix : List Byte} {ino : Place → Word}

theorem Packable.placed_entries (h : Packable host t pathPrefix)
    (hnum : Numbering t (t.recs pathPrefix) ino)
    (hsize : ∀ r ∈ t.recs pathPrefix, r.contents.length < 2 ^ 32) (off : Nat) :
    (((placedNodes (t.recs pathPrefix) off).map IFSNodeContainer.node).filter IFSNode.isEntry).map IFSNode.key =
      (some slash, ino [], ino [], sIFDIR, 0) ::
        t.entries.map (fun e => (e.place.head?, ino e.place, ino e.place.tail, e.mode, e.contents.length)) := by
  have hok := h.recs_ok
  have hnamed := t.recs_named pathPrefix
  have hread : ∀ r ∈ t.recs pathPrefix, ∀ o : Word, (r.container o).node.key =
      (some r.name, ino r.target, ino r.home, r.permissions, r.contents.length) := by
    intro r hr o
    obtain ⟨ht, hh⟩ := hnum.links r hr
    have hs : (BitVec.ofNat 32 r.contents.length).toNat = r.contents.length := by
      rw [BitVec.toNat_ofNat]
      exact Nat.mod_eq_of_lt (hsize r hr)
    simp only [IFSNode.key, container_string (hok r hr) o, container_inodeNr,
      container_parentInodeNr, ht, hh]
    simp only [Rec.container, hs]
  rw [placed_filter_map (t.recs pathPrefix) off
      (fun r hr o => container_isEntry (hok r hr) (hnamed r hr) o) hread,
    entries_key (t.recs pathPrefix) ino hnamed, t.recs_entries, List.map_cons]
  refine congrArg (_ :: ·) (List.map_congr_left ?_)
  intro e he
  rw [t.entries_head he]

/-- Of two records with one number one denotes a directory, as no two entries are at one place. -/
theorem SourceTree.recs_shared (hdistinct : t.listing.Distinct) (hlt : t.inodes < 2 ^ 32)
    (hnum : Numbering t (t.recs pathPrefix) ino) {i j : Nat} {r q : Rec} (hij : i < j)
    (hr : (t.recs pathPrefix)[i]? = some r) (hq : (t.recs pathPrefix)[j]? = some q) (he : r.inodeNr = q.inodeNr) :
    ∃ d ∈ t.dirs, r.inodeNr = ino d := by
  have hrm := List.mem_of_getElem? hr
  have hqm := List.mem_of_getElem? hq
  have hrnr := (hnum.links r hrm).1
  rw [hrnr, (hnum.links q hqm).1] at he
  have hsame := hnum.injective _ (hnum.placed r hrm).1 _ (hnum.placed q hqm).1 he
  rw [hrnr]
  by_cases hre : r.role = .entry
  · by_cases hqe : q.role = .entry
    · have happ := t.recs_apart pathPrefix hdistinct
      obtain ⟨hi, hri⟩ := List.getElem?_eq_some_iff.mp hr
      obtain ⟨hj, hqj⟩ := List.getElem?_eq_some_iff.mp hq
      have hne := List.pairwise_iff_getElem.mp happ i j hi hj hij
      rw [hri, hqj] at hne
      exact absurd (by simpa [Rec.target, hre, hqe] using hsame)
        (hne (by simp [Rec.isEntry, hre]) (by simp [Rec.isEntry, hqe]))
    · exact ⟨q.target, SourceTree.target_dir hlt hqm hqe, by rw [hsame]⟩
  · exact ⟨r.target, SourceTree.target_dir hlt hrm hre, rfl⟩

theorem Packable.placed_earlier (h : Packable host t pathPrefix)
    (hnum : Numbering t (t.recs pathPrefix) ino) (off : Nat) {i : Nat} {n : IFSNode}
    (hn : ((placedNodes (t.recs pathPrefix) off).map IFSNodeContainer.node)[i + 1]? = some n) :
    ∃ j, ∃ m : IFSNode, j ≤ i ∧
      ((placedNodes (t.recs pathPrefix) off).map IFSNodeContainer.node)[j]? = some m ∧
      m.isEntry ∧ m.inodeNr = n.parentInodeNr := by
  obtain ⟨r, o, hr, rfl⟩ := getElem?_placed hn
  obtain ⟨j, q, hj, hq, hrole, hplace⟩ := hnum.earlier i r hr
  obtain ⟨o', _, hm⟩ := placed_getElem? off hq
  have hqm := List.mem_of_getElem? hq
  refine ⟨j, _, hj, hm, ?_, ?_⟩
  · rw [container_isEntry (h.recs_ok q hqm) (t.recs_named pathPrefix q hqm)]
    simp [Rec.isEntry, hrole]
  · rw [container_inodeNr, container_parentInodeNr, (hnum.links q hqm).1,
      (hnum.links r (List.mem_of_getElem? hr)).2, ← hplace]
    simp [Rec.target, hrole]

end

/-- While the numbers last, the nodes of a packable tree's records are the tree. -/
theorem Packable.placed_isTree {host : Host} {t : SourceTree} {pathPrefix : List Byte}
    (h : Packable host t pathPrefix) (hlt : t.inodes < 2 ^ 32)
    (hsize : ∀ r ∈ t.recs pathPrefix, r.contents.length < 2 ^ 32) (off : Nat) :
    IsTree t (inoOf (bindings (t.recs pathPrefix)))
      ((placedNodes (t.recs pathPrefix) off).map IFSNodeContainer.node) := by
  have hok := h.recs_ok
  have hnamed := t.recs_named pathPrefix
  have hnum := t.numbering pathPrefix h.distinct hlt
  obtain ⟨hself, hup⟩ := t.recs_dirs pathPrefix hlt
  refine ⟨hnum.root, hnum.injective, h.placed_entries hnum hsize off, ?_, ?_, ?_,
    fun i n => h.placed_earlier hnum off⟩
  · rw [← hself]
    exact placed_dots off id (fun r hr o => container_self (hok r hr) (hnamed r hr) o) hnum.links
      (fun r hrole => by simp [Rec.target, Rec.home, hrole])
  · rw [← hup]
    exact placed_dots off List.tail (fun r hr o => container_up (hok r hr) (hnamed r hr) o) hnum.links
      (fun r hrole => by simp [Rec.target, Rec.home, hrole])
  · intro i j n m hij hn hm he
    obtain ⟨r, o, hr, rfl⟩ := getElem?_placed hn
    obtain ⟨q, o', hq, rfl⟩ := getElem?_placed hm
    exact SourceTree.recs_shared h.distinct hlt hnum hij hr hq he

/-- The used nodes are the records when none has the parent number of a free slot. -/
theorem IsImage.usedNodes_eq {mem : Memory} {rs : List Rec} {base : Nat} {out : List Byte}
    (h : IsImage mem rs base out) (hlt : rs.length + 16 < 2 ^ 32)
    (hparent : ∀ r ∈ rs, r.parentInodeNr ≠ -1) :
    usedNodes out base = (placedNodes rs (fileTableOffset rs.length)).map IFSNodeContainer.node := by
  rw [usedNodes, h.nodes hlt, allNodes, List.filter_append]
  have hfree : ((List.range freeNodeCnt).map (freeNode mem)).filter (fun n => n.parentInodeNr ≠ -1) = [] := by
    rw [List.filter_eq_nil_iff]
    intro n hn
    obtain ⟨k, _, rfl⟩ := List.mem_map.mp hn
    simp [freeNode]
  rw [hfree, List.append_nil, List.filter_eq_self]
  intro n hn
  obtain ⟨i, hi⟩ := List.mem_iff_getElem?.mp hn
  obtain ⟨r, o, hr, rfl⟩ := getElem?_placed hi
  rw [container_parentInodeNr, decide_eq_true_eq]
  exact hparent r (List.mem_of_getElem? hr)

/-- While the numbers stay below 2^31 no record has that parent number. -/
theorem SourceTree.parent_ne {t : SourceTree} (pathPrefix : List Byte) (hd : t.listing.Distinct)
    (hlt : t.inodes ≤ 2 ^ 31) : ∀ r ∈ t.recs pathPrefix, r.parentInodeNr ≠ -1 := by
  intro r hr he
  have hnum := t.numbering pathPrefix hd (by omega)
  have hb := hnum.bounded r.home (hnum.placed r hr).2
  have hfree : (-1 : Word).toNat = 2 ^ 32 - 1 := rfl
  rw [← (hnum.links r hr).2, he, hfree] at hb
  omega

/-- For a packable tree whose image stays below 4 GiB and whose inode numbers stay
within `int32_t`, the node table written is the tree. -/
theorem mkifs_holdsTree (host : Host) (t : SourceTree)
    (pathPrefix bootloader : List Byte) (fuel : Nat)
    (h : Packable host t pathPrefix) (hd : t.listing.depth < fuel)
    (hsize : imageSize (t.recs pathPrefix) < 2 ^ 32) (hlt : t.inodes ≤ 2 ^ 31) :
    ∃ out, mkifs host zeroMemory fuel bootloader pathPrefix = .ok out ∧
      HoldsTree t out (alignUp bootloader.length 4096) := by
  obtain ⟨out, hrun, himage⟩ := h.mkifs_image bootloader hd hsize
  have hlen := length_lt_of_imageSize hsize
  obtain ⟨hcnt, htab⟩ := himage.header_fields (by omega)
  have hused := himage.usedNodes_eq (by omega) (SourceTree.parent_ne pathPrefix h.distinct hlt)
  refine ⟨out, hrun, ⟨inoOf (bindings (t.recs pathPrefix)), ?_⟩, ?_, ?_⟩
  · rw [hused]
    exact h.placed_isTree (by omega) (contents_lt_of_imageSize hsize) _
  · rw [hcnt, hused, List.length_map, placedNodes_length]
    rfl
  · have hflat := tableBlocks_flatten zeroMemory (t.recs pathPrefix)
    have hin := himage.table.length_le (by
      intro hnil
      rw [hnil] at hflat
      simp at hflat)
    rw [hflat] at hin
    rw [hcnt, htab]
    exact hin

theorem bootTree_holdsTree :
    ∃ out, mkifs bootHost zeroMemory 2 [] rootPath = .ok out ∧ HoldsTree bootTree out 0 :=
  mkifs_holdsTree bootHost bootTree rootPath [] 2 bootTree_packable (by decide) (by decide) (by decide)

/-- Eight letters that spell a number in base 16. -/
def letters : Nat → Nat → List Byte
  | 0, _ => []
  | k + 1, n => BitVec.ofNat 8 (97 + n % 16) :: letters k (n / 16)

theorem letters_length (k n : Nat) : (letters k n).length = k := by
  induction k generalizing n with
  | zero => rfl
  | succ k ih => simp [letters, ih]

theorem letters_ge (k n : Nat) : ∀ b ∈ letters k n, 97 ≤ b.toNat := by
  induction k generalizing n with
  | zero => simp [letters]
  | succ k ih =>
    intro b hb
    rcases List.mem_cons.mp hb with rfl | hb
    · rw [BitVec.toNat_ofNat]
      omega
    · exact ih (n / 16) b hb

theorem letters_injective (k : Nat) {m n : Nat} (hm : m < 16 ^ k) (hn : n < 16 ^ k)
    (h : letters k m = letters k n) : m = n := by
  induction k generalizing m n with
  | zero =>
    simp only [Nat.pow_zero] at hm hn
    omega
  | succ k ih =>
    obtain ⟨hb, hrest⟩ := List.cons.inj h
    have hdigit := congrArg BitVec.toNat hb
    rw [BitVec.toNat_ofNat, BitVec.toNat_ofNat] at hdigit
    have hquot := ih (by rw [Nat.pow_succ] at hm; omega) (by rw [Nat.pow_succ] at hn; omega) hrest
    omega

/-- The name of the k-th FIFO. -/
def fifoName (k : Nat) : FileName :=
  have hlow : ∀ b : Byte, b.toNat < 97 → b ∉ letters 8 k := fun b hb hm =>
    Nat.lt_irrefl _ (Nat.lt_of_lt_of_le hb (letters_ge 8 k b hm))
  have hlen : ∀ bs : List Byte, bs.length < 8 → letters 8 k ≠ bs := fun bs hbs he =>
    Nat.lt_irrefl _ (letters_length 8 k ▸ he.symm ▸ hbs)
  ⟨letters 8 k, hlen [] (by decide), hlow 0#8 (by decide), hlow 47#8 (by decide), hlen dot (by decide),
    hlen dotDot (by decide)⟩

/-- So many FIFOs, then the rest. -/
def fifos : Nat → Listing → Listing
  | 0, rest => rest
  | k + 1, rest => .other (fifoName k) ⟨0o010644#32, by decide⟩ (fifos k rest)

def aName : FileName := ⟨ascii ['a'], by decide, by decide, by decide, by decide, by decide⟩

/-- A directory of `k` FIFOs and then one empty file. -/
def crowdedTree (k : Nat) : SourceTree :=
  ⟨⟨0o040755#32, rfl⟩, fifos k (.file aName ⟨0o100644#32, rfl⟩ [] .nil)⟩

def crowdedHost (k : Nat) : Host :=
  { stat := fun path =>
      if path = joinPath rootPath dot then some ⟨0o040755#32, 4096⟩
      else if path = joinPath rootPath aName.bytes then some ⟨0o100644#32, 0⟩
      else some ⟨0o010644#32, 0⟩
    opendir := fun path => if path = rootPath then some (crowdedTree k).listing.names else none
    contents := fun _ => some [] }

theorem fifos_recs (k : Nat) (rest : Listing) (place : Place) (path : List Byte)
    (ino mode n : Word) :
    (fifos k rest).recs place path ino mode n = rest.recs place path ino mode (n + BitVec.ofNat 32 k) := by
  induction k generalizing n with
  | zero => simp [fifos]
  | succ k ih =>
    rw [fifos, Listing.recs, ih]
    congr 1
    rw [BitVec.add_assoc, BitVec.add_comm 1#32, ← BitVec.ofNat_add]

theorem fifos_names {k : Nat} {rest : Listing} {x : List Byte} (h : x ∈ (fifos k rest).entryNames) :
    (∃ j, j < k ∧ x = (fifoName j).bytes) ∨ x ∈ rest.entryNames := by
  induction k with
  | zero => exact Or.inr h
  | succ k ih =>
    rcases List.mem_cons.mp h with rfl | h
    · exact Or.inl ⟨k, Nat.lt_succ_self k, rfl⟩
    · rcases ih h with ⟨j, hj, he⟩ | h
      · exact Or.inl ⟨j, Nat.lt_succ_of_lt hj, he⟩
      · exact Or.inr h

theorem fifoName_length (k : Nat) : (fifoName k).bytes.length = 8 := letters_length 8 k

theorem fifos_distinct {k : Nat} {rest : Listing} (hk : k ≤ 16 ^ 8) (h : rest.Distinct)
    (hnot : ∀ j, (fifoName j).bytes ∉ rest.entryNames) : (fifos k rest).Distinct := by
  induction k with
  | zero => exact h
  | succ k ih =>
    refine ⟨?_, ih (by omega)⟩
    intro hm
    rcases fifos_names hm with ⟨j, hj, he⟩ | hm
    · exact absurd (letters_injective 8 (by omega) (by omega) he) (by omega)
    · exact hnot k hm

theorem fifos_short (k : Nat) {rest : Listing} (h : rest.Short) : (fifos k rest).Short := by
  induction k with
  | zero => exact h
  | succ k ih => exact ⟨by rw [fifoName_length]; decide, ih⟩

theorem fifos_fits (k : Nat) {rest : Listing} {len : Nat} (hlen : len < 1000) (h : rest.Fits len) :
    (fifos k rest).Fits len := by
  induction k with
  | zero => exact h
  | succ k ih => exact ⟨by rw [fifoName_length]; omega, ih⟩

theorem fifos_depth (k : Nat) (rest : Listing) : (fifos k rest).depth = rest.depth := by
  induction k with
  | zero => rfl
  | succ k ih => exact ih

theorem fifos_entries (k : Nat) (rest : Listing) (place : Place) :
    (fifos k rest).entries place = rest.entries place := by
  induction k with
  | zero => rfl
  | succ k ih => exact ih

theorem joinPath_injective {path x y : List Byte} (h : joinPath path x = joinPath path y) : x = y :=
  List.append_cancel_left h

theorem fifos_on (k j : Nat) {rest : Listing} {mode : Word}
    (h : rest.On (crowdedHost j) rootPath mode) : (fifos k rest).On (crowdedHost j) rootPath mode := by
  induction k with
  | zero => exact h
  | succ k ih =>
    refine ⟨⟨0, ?_⟩, ih⟩
    have hdot : joinPath rootPath (fifoName k).bytes ≠ joinPath rootPath dot :=
      fun he => (fifoName k).notDot (joinPath_injective he)
    have ha : joinPath rootPath (fifoName k).bytes ≠ joinPath rootPath aName.bytes := by
      intro he
      have hlen := congrArg List.length (joinPath_injective he)
      rw [fifoName_length] at hlen
      exact absurd hlen (by decide)
    simp only [crowdedHost, hdot, ha, if_false]

theorem crowded_packable {k : Nat} (hk : k ≤ 16 ^ 8) :
    Packable (crowdedHost k) (crowdedTree k) rootPath := by
  have hname : ∀ j, (fifoName j).bytes ∉ [aName.bytes] := by
    intro j hm
    have hlen := congrArg List.length (List.mem_singleton.mp hm)
    rw [fifoName_length] at hlen
    exact absurd hlen (by decide)
  refine ⟨⟨⟨4096, rfl⟩, rfl, ?_⟩, by decide, by decide, ?_, ?_, ?_⟩
  · exact fifos_on k k ⟨rfl, rfl, trivial⟩
  · exact fifos_fits k (by decide) ⟨by decide, trivial⟩
  · exact fifos_short k ⟨by decide, trivial⟩
  · exact fifos_distinct hk ⟨by simp [Listing.entryNames], trivial⟩ hname

/-- Where the counter has come round to zero the file gets the root's number. -/
theorem crowded_recs {k : Nat} (hk : 2#32 + BitVec.ofNat 32 k = 0#32) :
    (crowdedTree k).recs rootPath =
      [rootRec rootPath, ⟨.self, [], dot, 0#32, 0#32, 0o040755#32, [], joinPath rootPath dot⟩,
        ⟨.entry, [aName.bytes], aName.bytes, 0#32, 0#32, 0o100644#32, [], joinPath rootPath aName.bytes⟩] := by
  simp only [SourceTree.recs, crowdedTree, fifos_recs, hk]
  rfl

theorem crowded_not_tree {k : Nat} (hk : k ≤ 16 ^ 8) (hwrap : 2#32 + BitVec.ofNat 32 k = 0#32) :
    ∃ out, mkifs (crowdedHost k) zeroMemory 1 [] rootPath = .ok out ∧
      ¬ HoldsTree (crowdedTree k) out 0 := by
  have hpack := crowded_packable hk
  have hrecs := crowded_recs hwrap
  have hdepth : (crowdedTree k).listing.depth < 1 := by
    rw [crowdedTree, fifos_depth]
    decide
  obtain ⟨out, hrun, himage⟩ := hpack.mkifs_image [] hdepth (by rw [hrecs]; decide)
  refine ⟨out, hrun, ?_⟩
  rintro ⟨⟨ino, htree⟩, _⟩
  have hused : usedNodes out 0 = _ := himage.usedNodes_eq (by rw [hrecs]; decide) (by
    rw [hrecs]
    decide)
  have hnums := placed_filter_map (P := IFSNode.isEntry) (Q := Rec.isEntry) (g := IFSNode.inodeNr)
    (f := Rec.inodeNr) ((crowdedTree k).recs rootPath) (fileTableOffset ((crowdedTree k).recs rootPath).length)
    (fun r hr o => container_isEntry (hpack.recs_ok r hr) ((crowdedTree k).recs_named rootPath r hr) o)
    (fun _ _ _ => rfl)
  rw [← hused, hrecs] at hnums
  have hentries := congrArg (List.map (fun key => key.2.1)) htree.entries
  rw [List.map_map, List.map_cons, List.map_map] at hentries
  have hplaces : (crowdedTree k).entries = [⟨[aName.bytes], 0o100644#32, []⟩] := by
    rw [SourceTree.entries, crowdedTree, fifos_entries]
    rfl
  have hboth := hentries.symm.trans hnums
  rw [hplaces] at hboth
  have hroot : ino [] = 0#32 := (List.cons.inj hboth).1
  have ha : ino [aName.bytes] = 0#32 := (List.cons.inj (List.cons.inj hboth).2).1
  have hmem : [aName.bytes] ∈ (crowdedTree k).places := by
    rw [SourceTree.places, hplaces]
    exact List.mem_cons_of_mem _ (List.mem_singleton.mpr rfl)
  exact absurd (htree.injective _ List.mem_cons_self _ hmem (hroot.trans ha.symm)) (by decide)

/-- With 2^32 - 2 FIFOs in a directory a file after them gets the root's inode number. -/
theorem mkifs_wraps_inodes :
    Packable (crowdedHost 4294967294) (crowdedTree 4294967294) rootPath ∧
      imageSize ((crowdedTree 4294967294).recs rootPath) < 2 ^ 32 ∧
      ∃ out, mkifs (crowdedHost 4294967294) zeroMemory 1 [] rootPath = .ok out ∧
        ¬ HoldsTree (crowdedTree 4294967294) out 0 := by
  refine ⟨crowded_packable (by decide), ?_, crowded_not_tree (by decide) (by decide)⟩
  rw [crowded_recs (by decide)]
  decide

end CheviotBoot.Mkifs
