import CheviotBoot.Lib.Outcome
import CheviotBoot.Mkifs.Determinism
import CheviotBoot.Mkifs.NodeTable

namespace CheviotBoot.Mkifs
open Lib

/-- The record of a named entry: no ".", no ".." and no free slot. -/
def IFSNode.isNamed (n : IFSNode) : Bool := n.isEntry && n.string != some []

/-- Every named record stands at the position that its inode number says. -/
def Indexed (nodes : List IFSNode) : Prop :=
  ∀ i n, nodes[i]? = some n → n.isNamed = true → n.inodeNr = BitVec.ofNat 32 i

/-- The nodes `WriteFileTable` writes one after the other. -/
def tableNodes (mem : Memory) (cs : List IFSNodeContainer) : List IFSNode :=
  (calculateFileOffsets cs (fileTableOffset cs.length) (fileTableOffset cs.length)).1.map
      IFSNodeContainer.node ++
    (List.range freeNodeCnt).map (freeNode mem)

theorem writeFileTable_writes (mem : Memory) (cs : List IFSNodeContainer) (ifsBase : Nat) (fd : Fd) :
    (writeFileTable mem cs ifsBase fd).1 = (tableNodes mem cs).foldl (fun fd n => fd.write n.bytes)
      (((fd.lseek ifsBase).write (ifsHeader cs.length).bytes).lseek (ifsBase + nodeTableOffset)) := by
  rw [tableNodes, List.foldl_append, List.foldl_map, List.foldl_map]
  rfl

/-- How many entries are of another kind. -/
def Listing.others : Listing → Nat
  | .nil => 0
  | .self rest | .parent rest | .file _ _ _ rest => rest.others
  | .other _ _ rest => rest.others + 1
  | .dir _ _ children rest => children.others + rest.others

/-- How many such entries are walked before each entry that gets a record; `k` are before
the listing. -/
def Listing.skips : Listing → Nat → List Nat
  | .nil, _ => []
  | .self rest, k | .parent rest, k => rest.skips k
  | .file _ _ _ rest, k => k :: rest.skips k
  | .other _ _ rest, k => rest.skips (k + 1)
  | .dir _ _ children rest, k => k :: (children.skips k ++ rest.skips (k + children.others))

/-- For each entry record, how far its inode number is ahead of its position. -/
def gaps : Nat → List Rec → List Word
  | _, [] => []
  | pos, r :: rs =>
    if r.isEntry then (r.inodeNr - BitVec.ofNat 32 pos) :: gaps (pos + 1) rs else gaps (pos + 1) rs

theorem gaps_append (pos : Nat) (as bs : List Rec) :
    gaps pos (as ++ bs) = gaps pos as ++ gaps (pos + as.length) bs := by
  induction as generalizing pos with
  | nil => rfl
  | cons r as ih =>
    have hlen : pos + (r :: as).length = pos + 1 + as.length := by
      rw [List.length_cons]
      omega
    rw [List.cons_append, gaps, gaps, ih, hlen]
    by_cases hr : r.isEntry = true
    · simp [hr]
    · simp [hr]

theorem gaps_dotRecs (pos : Nat) (place : Place) (path : List Byte)
    (ino parentIno mode parentMode : Word) :
    gaps pos (dotRecs place path ino parentIno mode parentMode) = [] := by
  unfold dotRecs
  split <;> rfl

theorem ahead_zero (n p : Word) : n - p = 0#32 ↔ n = p := by
  constructor
  · intro h
    bv_omega
  · rintro rfl
    bv_omega

theorem ahead_ofNat {n : Word} {pos k : Nat} (hn : n = BitVec.ofNat 32 (pos + k)) :
    n - BitVec.ofNat 32 pos = BitVec.ofNat 32 k := by
  rw [hn, BitVec.ofNat_add, BitVec.add_comm, BitVec.add_sub_cancel]

theorem gaps_zero_iff {pos : Nat} {rs : List Rec} :
    (∀ g ∈ gaps pos rs, g = 0#32) ↔
      ∀ i r, rs[i]? = some r → r.isEntry = true → r.inodeNr = BitVec.ofNat 32 (pos + i) := by
  induction rs generalizing pos with
  | nil => simp [gaps]
  | cons r rs ih =>
    have hhead : (r.isEntry = true → r.inodeNr - BitVec.ofNat 32 pos = 0#32) ↔
        (r.isEntry = true → r.inodeNr = BitVec.ofNat 32 (pos + 0)) :=
      imp_congr_right fun _ => by rw [ahead_zero, Nat.add_zero]
    have hsplit : (∀ g ∈ gaps pos (r :: rs), g = 0#32) ↔
        (r.isEntry = true → r.inodeNr - BitVec.ofNat 32 pos = 0#32) ∧ ∀ g ∈ gaps (pos + 1) rs, g = 0#32 := by
      rw [gaps]
      by_cases hr : r.isEntry = true
      · simp [hr]
      · simp [hr]
    rw [hsplit, hhead, ih]
    constructor
    · rintro ⟨hfirst, hrest⟩ i q hi
      cases i with
      | zero =>
        obtain rfl : r = q := by simpa using hi
        exact hfirst
      | succ i =>
        have hq := hrest i q (by simpa using hi)
        rwa [Nat.add_assoc, Nat.add_comm 1 i] at hq
    · intro hall
      refine ⟨hall 0 r rfl, fun i q hi => ?_⟩
      have hq := hall (i + 1) q (by simpa using hi)
      rwa [Nat.add_comm i 1, ← Nat.add_assoc] at hq

/-- The counter is ahead of the table by what was skipped. -/
theorem Listing.recs_ahead (l : Listing) (place : Place) (path : List Byte) (ino mode : Word)
    (pos k : Nat) {n : Word} (hn : n = BitVec.ofNat 32 (pos + k)) :
    (l.recs place path ino mode n).2 =
        BitVec.ofNat 32 (pos + (l.recs place path ino mode n).1.length + (k + l.others)) ∧
      gaps pos (l.recs place path ino mode n).1 = (l.skips k).map (BitVec.ofNat 32) := by
  induction l generalizing place path ino mode pos k n with
  | nil => exact ⟨hn, rfl⟩
  | self rest ih | parent rest ih => exact ih place path ino mode pos k hn
  | other name m rest ih =>
    obtain ⟨hcount, hgaps⟩ := ih place path ino mode pos (k + 1) (n := n + 1#32) (by
      rw [hn, ← Nat.add_assoc, BitVec.ofNat_add (pos + k)])
    refine ⟨?_, hgaps⟩
    rw [Listing.recs, hcount, Listing.others]
    congr 1
    omega
  | file name m contents rest ih =>
    obtain ⟨hcount, hgaps⟩ := ih place path ino mode (pos + 1) k (n := n + 1#32) (by
      rw [hn, Nat.add_right_comm, BitVec.ofNat_add (pos + k)])
    refine ⟨?_, ?_⟩
    · rw [Listing.recs]
      simp only [hcount, Listing.others, List.length_cons]
      congr 1
      omega
    · rw [Listing.recs]
      simp only [gaps, Rec.isEntry, beq_self_eq_true, if_true, hgaps, Listing.skips, List.map_cons,
        ahead_ofNat hn]
  | dir name m children rest ihc ihr =>
    obtain ⟨dots, hdots⟩ : ∃ dots,
      dots = dotRecs (name.bytes :: place) (joinPath path name.bytes) n ino m.val mode := ⟨_, rfl⟩
    obtain ⟨hbelow, hbelowGaps⟩ := ihc (name.bytes :: place) (joinPath path name.bytes) n m.val
      (pos + 1 + dots.length) k (n := n + 1#32 + BitVec.ofNat 32 dots.length) (by
        rw [hn, Nat.add_right_comm, Nat.add_right_comm pos, BitVec.ofNat_add (pos + k + 1),
          BitVec.ofNat_add (pos + k)])
    obtain ⟨below, hbelowDef⟩ : ∃ below,
      below = children.recs (name.bytes :: place) (joinPath path name.bytes) n m.val
        (n + 1#32 + BitVec.ofNat 32 dots.length) := ⟨_, rfl⟩
    rw [← hbelowDef] at hbelow hbelowGaps
    obtain ⟨hlater, hlaterGaps⟩ := ihr place path ino mode (pos + 1 + dots.length + below.1.length)
      (k + children.others) (n := below.2) hbelow
    rw [Listing.recs]
    simp only [← hdots, ← hbelowDef]
    refine ⟨?_, ?_⟩
    · rw [hlater]
      simp only [List.length_cons, List.length_append, Listing.others]
      congr 1
      omega
    · rw [gaps, List.append_assoc, gaps_append, gaps_append, hbelowGaps, hlaterGaps, hdots, gaps_dotRecs]
      simp only [Rec.isEntry, beq_self_eq_true, if_true, Listing.skips, List.map_cons, List.map_append,
        List.nil_append, ahead_ofNat hn]

theorem SourceTree.recs_gaps (t : SourceTree) (pathPrefix : List Byte) :
    gaps 0 (t.recs pathPrefix) = 0#32 :: (t.listing.skips 0).map (BitVec.ofNat 32) := by
  obtain ⟨_, hgaps⟩ := t.listing.recs_ahead [] pathPrefix 0#32 t.mode.val 2 0 (n := 2#32) rfl
  have hroot : (rootRec pathPrefix).isEntry = true := rfl
  have hnr : (rootRec pathPrefix).inodeNr - BitVec.ofNat 32 0 = 0#32 := (ahead_zero _ _).mpr rfl
  rw [SourceTree.recs, gaps, if_pos hroot, hnr, gaps_append, gaps_dotRecs, List.nil_append]
  exact congrArg (_ :: ·) hgaps

theorem ofNat_zero_iff (k : Nat) : BitVec.ofNat 32 k = 0#32 ↔ k % 2 ^ 32 = 0 := by
  constructor
  · intro h
    have hnat := congrArg BitVec.toNat h
    rwa [BitVec.toNat_ofNat] at hnat
  · intro h
    apply BitVec.eq_of_toNat_eq
    rwa [BitVec.toNat_ofNat]

/-- No entry is numbered past its record's position because of what was skipped before it. -/
def SourceTree.SkipsNone (t : SourceTree) : Prop := ∀ k ∈ t.listing.skips 0, k % 2 ^ 32 = 0

instance (t : SourceTree) : Decidable t.SkipsNone := inferInstanceAs (Decidable (∀ k ∈ _, _))

/-- The parts of a node that say whether it is in its place. -/
def IFSNode.label (n : IFSNode) : CharBuf 32 × Word := (n.name, n.inodeNr)

theorem indexed_congr {ns ms : List IFSNode} (h : ns.map IFSNode.label = ms.map IFSNode.label) :
    Indexed ns ↔ Indexed ms := by
  have hone : ∀ {ns ms : List IFSNode}, ns.map IFSNode.label = ms.map IFSNode.label →
      Indexed ns → Indexed ms := by
    intro ns ms h hns i m hm hnamed
    have hi : (ms.map IFSNode.label)[i]? = some m.label := by rw [List.getElem?_map, hm, Option.map_some]
    rw [← h, List.getElem?_map, Option.map_eq_some_iff] at hi
    obtain ⟨n, hn, hlabel⟩ := hi
    obtain ⟨hname, hnr⟩ := Prod.mk.inj hlabel
    rw [← hnr]
    refine hns i n hn ?_
    rw [← hnamed]
    simp only [IFSNode.isNamed, IFSNode.isEntry, IFSNode.string, hname]
  exact ⟨hone h, hone h.symm⟩

theorem calculateFileOffsets_labels (cs : List IFSNodeContainer) (off last : Nat) :
    ((calculateFileOffsets cs off last).1.map IFSNodeContainer.node).map IFSNode.label =
      (cs.map IFSNodeContainer.node).map IFSNode.label := by
  induction cs generalizing off last with
  | nil => rfl
  | cons c cs ih =>
    simp only [calculateFileOffsets, List.map_cons]
    rw [ih]
    rfl

theorem freeNode_unnamed (mem : Memory) (k : Nat) : (freeNode mem k).isNamed = false := by
  simp [IFSNode.isNamed, freeNode_string]

/-- The free slots and the offsets have no say in it. -/
theorem tableNodes_indexed (mem : Memory) (cs : List IFSNodeContainer) :
    Indexed (tableNodes mem cs) ↔ Indexed (cs.map IFSNodeContainer.node) := by
  rw [← indexed_congr (calculateFileOffsets_labels cs (fileTableOffset cs.length) (fileTableOffset cs.length)),
    tableNodes]
  constructor
  · intro h i n hn
    refine h i n ?_
    rw [List.getElem?_append_left (List.getElem?_eq_some_iff.mp hn).1, hn]
  · intro h i n hn hnamed
    rw [List.getElem?_append] at hn
    split at hn
    · exact h i n hn hnamed
    · obtain ⟨k, _, rfl⟩ := List.mem_map.mp (List.mem_of_getElem? hn)
      rw [freeNode_unnamed] at hnamed
      cases hnamed

/-- Entries have names. -/
theorem SourceTree.recs_nonempty {t : SourceTree} {pathPrefix : List Byte} {r : Rec}
    (h : r ∈ t.recs pathPrefix) : r.name ≠ [] := by
  by_cases hdot : r.name = dot
  · rw [hdot]
    decide
  · by_cases hdots : r.name = dotDot
    · rw [hdots]
      decide
    · cases (entry_of_name h hdot hdots).2 with
      | inl hroot =>
        rw [hroot.2]
        decide
      | inr hentry =>
        obtain ⟨name, hname⟩ := t.listing.entries_name [] _ hentry.1
        rw [(List.cons.inj (hentry.2.symm.trans hname)).1]
        exact name.nonempty

theorem container_isNamed {host : Host} {t : SourceTree} {pathPrefix : List Byte} {r : Rec}
    (h : Packable host t pathPrefix) (hr : r ∈ t.recs pathPrefix) (o : Word) :
    (r.container o).node.isNamed = r.isEntry := by
  have hok := h.recs_ok r hr
  have hne : r.name ≠ [] := SourceTree.recs_nonempty hr
  rw [IFSNode.isNamed, container_isEntry hok (t.recs_named pathPrefix r hr), container_string hok]
  simp [hne]

/-- For a packable tree the table is in order where nothing was skipped. -/
theorem Packable.indexed_iff {host : Host} {t : SourceTree} {pathPrefix : List Byte}
    (h : Packable host t pathPrefix) {cs : List IFSNodeContainer}
    (hcs : List.Forall₂ (fun c r => ∃ o, c = Rec.container o r) cs (t.recs pathPrefix)) :
    Indexed (cs.map IFSNodeContainer.node) ↔ t.SkipsNone := by
  have hrecs : Indexed (cs.map IFSNodeContainer.node) ↔
      ∀ i r, (t.recs pathPrefix)[i]? = some r → r.isEntry = true → r.inodeNr = BitVec.ofNat 32 (0 + i) := by
    constructor
    · intro hall i r hr hentry
      obtain ⟨c, hc, o, rfl⟩ := forall₂_getElem?_right hcs hr
      have hnode : (cs.map IFSNodeContainer.node)[i]? = some (r.container o).node := by
        rw [List.getElem?_map, hc, Option.map_some]
      have hnr := hall i _ hnode (by rw [container_isNamed h (List.mem_of_getElem? hr), hentry])
      rwa [Nat.zero_add]
    · intro hall i n hn hnamed
      rw [List.getElem?_map, Option.map_eq_some_iff] at hn
      obtain ⟨c, hc, rfl⟩ := hn
      obtain ⟨r, hr, o, rfl⟩ := forall₂_getElem? hcs hc
      have hnr := hall i r hr (by rw [← container_isNamed h (List.mem_of_getElem? hr) o]; exact hnamed)
      rwa [Nat.zero_add] at hnr
  rw [hrecs, ← gaps_zero_iff, t.recs_gaps, SourceTree.SkipsNone]
  simp only [List.mem_cons, forall_eq_or_imp, true_and, List.mem_map, forall_exists_index, and_imp,
    forall_apply_eq_imp_iff₂, ofNat_zero_iff]

theorem Packable.table_indexed {host : Host} {t : SourceTree} {pathPrefix : List Byte} {fuel : Nat}
    (h : Packable host t pathPrefix) (hd : t.listing.depth < fuel) :
    ∃ cs, buildList host zeroMemory fuel pathPrefix = .ok cs ∧
      (Indexed (tableNodes zeroMemory cs) ↔ t.SkipsNone) := by
  obtain ⟨cs, hlist, hcs⟩ := h.list_containers hd
  exact ⟨cs, hlist, (tableNodes_indexed zeroMemory cs).trans (h.indexed_iff hcs)⟩

/-- The tool makes a record for an entry of this mode. -/
def Recorded (st : Stat) : Prop := sIsDir st.stMode = true ∨ sIsReg st.stMode = true

/-- One more node at the end of the list, and one more inode number used up. -/
def Walk.added (s : Walk) (c : IFSNodeContainer) : Walk :=
  ⟨s.list ++ [c], s.currentInodeNr + 1#32, s.mallocs + 1⟩

/-- What every step of a walk keeps: `P` of the list and the counter, `Q` of the last answer. -/
structure WalkRule (host : Host) (P : Walk → Prop) (Q : Stat → Prop) : Prop where
  stat : ∀ path st, host.stat path = some st → Q st
  dots : ∀ s c, P s → c.node.string = some dot ∨ c.node.string = some dotDot → P (s.added c)
  entry : ∀ s c, P s → c.node.inodeNr = s.currentInodeNr → P (s.added c)
  /-- An entry of another kind uses up a number and leaves no node. -/
  skip : ∀ s st, P s → Q st → ¬ Recorded st → P ⟨s.list, s.currentInodeNr + 1#32, s.mallocs + 1⟩

section
variable {host : Host} {P : Walk → Prop} {Q : Stat → Prop} (mem : Memory) (h : WalkRule host P Q)
include h

theorem WalkRule.addDots {name : List Byte} (hname : name = dot ∨ name = dotDot) (ino : Word)
    (parent : IFSNodeContainer) {s : Walk} (hs : P s) :
    Yields (fun p : Walk × Stat => P p.1 ∧ Q p.2) (addDots host mem name ino parent s) := by
  unfold Mkifs.addDots
  simp only [Walk.malloc]
  apply yields_bind_any
  intro nodeName hnode
  apply yields_bind_any
  intro path _
  apply yields_bind_any
  intro pathStr _
  apply yields_bind_any
  intro st hst
  refine yields_ok ⟨h.dots s _ hs ?_, h.stat _ _ (orStop_eq_ok.mp hst)⟩
  cases hname with
  | inl hdot =>
    subst hdot
    exact Or.inl (strcpy_string (orStop_eq_ok.mp hnode) (by decide))
  | inr hdots =>
    subst hdots
    exact Or.inr (strcpy_string (orStop_eq_ok.mp hnode) (by decide))

theorem WalkRule.scanEntry {recurse : List (List Byte) → IFSNodeContainer → Walk → Except Stop Walk}
    (hrec : ∀ names node s, P s → Yields P (recurse names node s)) (parent : IFSNodeContainer) {s : Walk}
    {st : Stat} (dName : List Byte) (hs : P s) (hst : Q st) :
    Yields (fun p : Walk × Stat => P p.1 ∧ Q p.2) (scanEntry host mem recurse parent s st dName) := by
  unfold Mkifs.scanEntry
  apply Yields.ite
  · intro _
    exact yields_ok ⟨hs, hst⟩
  · intro _
    simp only [Walk.malloc]
    apply yields_bind_any
    intro path _
    apply yields_bind_any
    intro nameStr _
    apply yields_bind_any
    intro path' _
    apply yields_bind_any
    intro pathStr _
    obtain ⟨found, hfound⟩ : ∃ found, found = (host.stat pathStr).getD st := ⟨_, rfl⟩
    have hkept : Q found := by
      cases hanswer : host.stat pathStr with
      | none => rw [hfound, hanswer]; exact hst
      | some answer => rw [hfound, hanswer]; exact h.stat _ _ hanswer
    simp only [← hfound]
    apply Yields.ite
    · intro _
      apply yields_bind_any
      intro newDir _
      refine (hrec newDir _ _ (h.entry s _ hs rfl)).bind fun s' hs' => ?_
      exact yields_ok ⟨hs', hkept⟩
    · intro hdir
      apply Yields.ite
      · intro _
        exact yields_ok ⟨h.entry s _ hs rfl, hkept⟩
      · intro hreg
        exact yields_ok ⟨h.skip s found hs hkept (not_or.mpr ⟨hdir, hreg⟩), hkept⟩

theorem WalkRule.scanDir {recurse : List (List Byte) → IFSNodeContainer → Walk → Except Stop Walk}
    (hrec : ∀ names node s, P s → Yields P (recurse names node s)) (parent : IFSNodeContainer)
    (names : List (List Byte)) {s : Walk} {st : Stat} (hs : P s) (hst : Q st) :
    Yields P (scanDir host mem recurse parent names s st) := by
  induction names generalizing s st with
  | nil => exact yields_ok hs
  | cons dName rest ih =>
    unfold Mkifs.scanDir
    refine (h.scanEntry mem hrec parent dName hs hst).bind ?_
    rintro ⟨s', st'⟩ ⟨hs', hst'⟩
    exact ih hs' hst'

theorem WalkRule.recursive (fuel : Nat) (dir : Option (List (List Byte))) (parent : IFSNodeContainer)
    {s : Walk} (hs : P s) : Yields P (recursive host mem fuel dir parent s) := by
  induction fuel generalizing dir parent s with
  | zero =>
    intro s' hs'
    cases hs'
  | succ fuel ih =>
    unfold Mkifs.recursive
    refine (h.addDots mem (Or.inl rfl) _ parent hs).bind ?_
    rintro ⟨s₁, st₁⟩ hfirst
    have hscan : ∀ p : Walk × Stat, P p.1 ∧ Q p.2 → Yields P (do
        let dir ← orStop .nullDir dir
        Mkifs.scanDir host mem (fun names node s => Mkifs.recursive host mem fuel (some names) node s)
          parent dir p.1 p.2) := by
      rintro ⟨s₂, st₂⟩ ⟨hs₂, hst₂⟩
      apply yields_bind_any
      intro names _
      exact h.scanDir mem (fun names node s hs => ih (some names) node hs) parent names hs₂ hst₂
    dsimp only
    split
    · exact (h.addDots mem (Or.inr rfl) _ parent hfirst.1).bind hscan
    · exact hscan (s₁, st₁) hfirst

end

/-- What the walk of a host keeps that knows no other kind of entry. -/
structure InOrder (s : Walk) : Prop where
  counter : s.currentInodeNr = BitVec.ofNat 32 s.list.length
  indexed : Indexed (s.list.map IFSNodeContainer.node)

/-- A node that is unnamed or numbered by the counter keeps the order. -/
theorem InOrder.add {s : Walk} (h : InOrder s) (c : IFSNodeContainer)
    (hc : c.node.isNamed = true → c.node.inodeNr = s.currentInodeNr) : InOrder (s.added c) := by
  refine ⟨?_, ?_⟩
  · rw [Walk.added, List.length_append, h.counter, BitVec.ofNat_add]
    rfl
  · intro i n hn hnamed
    rw [Walk.added, List.map_append, List.getElem?_append] at hn
    split at hn
    · exact h.indexed i n hn hnamed
    · rename_i hi
      rw [List.length_map] at hi hn
      have hlast := (List.getElem?_eq_some_iff.mp hn).1
      simp only [List.map_cons, List.map_nil, List.length_singleton] at hlast
      have hpos : i = s.list.length := by omega
      rw [hpos, Nat.sub_self] at hn
      obtain rfl : c.node = n := by simpa using hn
      rw [hc hnamed, h.counter, hpos]

section
variable {host : Host} (mem : Memory) (hkinds : ∀ path st, host.stat path = some st → Recorded st)
include hkinds

theorem inOrder_rule : WalkRule host InOrder Recorded where
  stat := hkinds
  dots := fun s c hs hname => hs.add c fun hnamed => by
    cases hname with
    | inl hdot => simp [IFSNode.isNamed, IFSNode.isEntry, hdot] at hnamed
    | inr hdots => simp [IFSNode.isNamed, IFSNode.isEntry, hdots] at hnamed
  entry := fun s c hs hnr => hs.add c fun _ => hnr
  skip := fun _ _ _ hst hother => absurd hst hother

/-- On a host without other kinds of entry every completed walk leaves the records at their
numbers, whatever the names, the memory and the answers that `stat` withholds. -/
theorem buildList_indexed {fuel : Nat} {pathPrefix : List Byte} :
    Yields (fun cs => Indexed (cs.map IFSNodeContainer.node)) (buildList host mem fuel pathPrefix) := by
  intro cs hrun
  obtain ⟨path, name, s, _, _, hrec, rfl⟩ := buildList_ok.mp hrun
  have hstart : InOrder ⟨[rootNode (mem.heap 0) path name], 1#32, 1⟩ := by
    refine ⟨rfl, ?_⟩
    intro i n hn _
    cases i with
    | zero =>
      obtain rfl := Option.some.inj hn
      rfl
    | succ i => simp at hn
  exact ((inOrder_rule hkinds).recursive mem fuel _ _ hstart s hrec).indexed

end

end CheviotBoot.Mkifs
