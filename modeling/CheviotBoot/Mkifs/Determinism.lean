import CheviotBoot.Lib.Lockstep
import CheviotBoot.Mkifs.Image

namespace CheviotBoot.Mkifs
open Lib

/-- What a run prints depends on what it is given, and not on the bytes it
finds in memory it has not written. -/
def DependsOnlyOnInputs (host : Host) (fuel : Nat) (bootloader pathPrefix : List Byte) : Prop :=
  ∀ mem mem' : Memory, mkifs host mem fuel bootloader pathPrefix = mkifs host mem' fuel bootloader pathPrefix

/-- A container with another `file_size`. -/
def IFSNodeContainer.sized (c : IFSNodeContainer) (z : Word) : IFSNodeContainer :=
  { c with node := { c.node with fileSize := z } }

/-- Memory that differs only in the `file_size` bytes of the first container. -/
def Memory.sized (mem : Memory) (z : Word) : Memory :=
  { mem with heap := fun k => if k = 0 then (mem.heap 0).sized z else mem.heap k }

/-- Walks past the first `malloc` whose lists go on alike after `pre` and `pre'`. -/
def Ahead (pre pre' : List IFSNodeContainer) (s s' : Walk) : Prop :=
  1 ≤ s.mallocs ∧ ∃ l, s.list = pre ++ l ∧ s' = { s with list := pre' ++ l }

/-- The same, with the `struct stat` left behind. -/
def AheadSt (pre pre' : List IFSNodeContainer) (p p' : Walk × Stat) : Prop :=
  Ahead pre pre' p.1 p'.1 ∧ p.2 = p'.2

section
variable {host : Host} {mem : Memory} {z : Word} {pre pre' : List IFSNodeContainer}

theorem sized_heap {k : Nat} (h : 1 ≤ k) : (mem.sized z).heap k = mem.heap k := by
  have hk : k ≠ 0 := by omega
  simp only [Memory.sized, hk, if_false]

theorem append_tail {s : Walk} {l : List IFSNodeContainer} (hl : s.list = pre ++ l)
    {n : Word} {k : Nat} (c : IFSNodeContainer) :
    ∃ l', s.list ++ [c] = pre ++ l' ∧
      (⟨pre' ++ l ++ [c], n, k⟩ : Walk) = { (⟨s.list ++ [c], n, k⟩ : Walk) with list := pre' ++ l' } := by
  refine ⟨l ++ [c], ?_, ?_⟩
  · rw [hl, List.append_assoc]
  · rw [List.append_assoc]

theorem addDots_lockstep {name : List Byte} {ino : Word} {parent : IFSNodeContainer} {s s' : Walk}
    (h : Ahead pre pre' s s') :
    Lockstep (AheadSt pre pre') (addDots host mem name ino parent s)
      (addDots host (mem.sized z) name ino parent s') := by
  obtain ⟨hm, l, hl, rfl⟩ := h
  simp only [addDots, Walk.malloc, sized_heap hm]
  apply lockstep_bind_same
  intro nodeName
  apply lockstep_bind_same
  intro path
  apply lockstep_bind_same
  intro pathStr
  apply lockstep_bind_same
  intro st
  exact .ok ⟨⟨Nat.le_succ_of_le hm, append_tail hl _⟩, rfl⟩

theorem scanEntry_lockstep {recurse recurse' : List (List Byte) → IFSNodeContainer →
    Walk → Except Stop Walk}
    (hrec : ∀ names node s s', Ahead pre pre' s s' →
      Lockstep (Ahead pre pre') (recurse names node s) (recurse' names node s'))
    {parent : IFSNodeContainer} {s s' : Walk} (st : Stat) (dName : List Byte) (h : Ahead pre pre' s s') :
    Lockstep (AheadSt pre pre') (scanEntry host mem recurse parent s st dName)
      (scanEntry host (mem.sized z) recurse' parent s' st dName) := by
  unfold scanEntry
  split
  · exact .ok ⟨h, rfl⟩
  · obtain ⟨hm, l, hl, rfl⟩ := h
    simp only [Walk.malloc, sized_heap hm]
    apply lockstep_bind_same
    intro path
    apply lockstep_bind_same
    intro nameStr
    apply lockstep_bind_same
    intro path
    apply lockstep_bind_same
    intro pathStr
    split
    · apply lockstep_bind_same
      intro newDir
      exact (hrec _ _ _ _ ⟨Nat.le_succ_of_le hm, append_tail hl _⟩).bind (fun _ _ hs => .ok ⟨hs, rfl⟩)
    · split
      · exact .ok ⟨⟨Nat.le_succ_of_le hm, append_tail hl _⟩, rfl⟩
      · exact .ok ⟨⟨Nat.le_succ_of_le hm, l, hl, rfl⟩, rfl⟩

theorem scanDir_lockstep {recurse recurse' : List (List Byte) → IFSNodeContainer →
    Walk → Except Stop Walk}
    (hrec : ∀ names node s s', Ahead pre pre' s s' →
      Lockstep (Ahead pre pre') (recurse names node s) (recurse' names node s'))
    {parent : IFSNodeContainer} (names : List (List Byte)) {s s' : Walk} (st : Stat) (h : Ahead pre pre' s s') :
    Lockstep (Ahead pre pre') (scanDir host mem recurse parent names s st)
      (scanDir host (mem.sized z) recurse' parent names s' st) := by
  induction names generalizing s s' st with
  | nil => exact .ok h
  | cons dName rest ih =>
    refine (scanEntry_lockstep hrec st dName h).bind ?_
    rintro ⟨t, st⟩ ⟨t', st'⟩ ⟨ht, rfl⟩
    exact ih st ht

/-- Past the first `malloc` the walk neither looks at what stands in the list
before it nor at the first container's bytes. -/
theorem recursive_lockstep (fuel : Nat) (dir : Option (List (List Byte)))
    (parent : IFSNodeContainer) {s s' : Walk} (h : Ahead pre pre' s s') :
    Lockstep (Ahead pre pre') (recursive host mem fuel dir parent s)
      (recursive host (mem.sized z) fuel dir parent s') := by
  induction fuel generalizing dir parent s s' with
  | zero => exact .error _
  | succ fuel ih =>
    unfold recursive
    refine (addDots_lockstep h).bind ?_
    rintro ⟨t, st⟩ ⟨t', st'⟩ ⟨ht, rfl⟩
    have hscan : ∀ p p' : Walk × Stat, AheadSt pre pre' p p' → Lockstep (Ahead pre pre')
        (orStop .nullDir dir >>= fun names =>
          scanDir host mem (fun names node s => recursive host mem fuel (some names) node s) parent names p.1 p.2)
        (orStop .nullDir dir >>= fun names => scanDir host (mem.sized z)
          (fun names node s => recursive host (mem.sized z) fuel (some names) node s) parent names p'.1 p'.2) := by
      rintro ⟨u, st⟩ ⟨u', st'⟩ ⟨hu, rfl⟩
      apply lockstep_bind_same
      intro names
      exact scanDir_lockstep (fun names node s s' h => ih (some names) node h) names st hu
    dsimp only
    split
    · exact (addDots_lockstep ht).bind hscan
    · exact hscan _ _ ⟨ht, rfl⟩

end

@[simp] theorem sized_realPath (c : IFSNodeContainer) (z : Word) :
    (c.sized z).realPath = c.realPath := rfl

@[simp] theorem sized_inodeNr (c : IFSNodeContainer) (z : Word) :
    (c.sized z).node.inodeNr = c.node.inodeNr := rfl

@[simp] theorem sized_parentInodeNr (c : IFSNodeContainer) (z : Word) :
    (c.sized z).node.parentInodeNr = c.node.parentInodeNr := rfl

theorem scanDir_sized {host : Host} {mem : Memory}
    {recurse : List (List Byte) → IFSNodeContainer → Walk →
      Except Stop Walk} (parent : IFSNodeContainer)
    (z : Word) (names : List (List Byte)) (s : Walk) (st : Stat) :
    scanDir host mem recurse (parent.sized z) names s st = scanDir host mem recurse parent names s st := by
  induction names generalizing s st with
  | nil => rfl
  | cons dName rest ih =>
    simp only [scanDir, scanEntry, sized_realPath, sized_inodeNr, ih]

/-- The walk does not look at its directory's `file_size`. -/
theorem recursive_sized {host : Host} {mem : Memory} (fuel : Nat) (dir : Option (List (List Byte)))
    (parent : IFSNodeContainer) (z : Word) (s : Walk) :
    recursive host mem fuel dir (parent.sized z) s = recursive host mem fuel dir parent s := by
  cases fuel with
  | zero => rfl
  | succ fuel =>
    simp only [recursive, addDots, scanDir_sized, sized_realPath,
      sized_inodeNr, sized_parentInodeNr]

/-- The lists built from the two memories differ in the root's `file_size` alone. -/
theorem buildList_sized {host : Host} {mem : Memory} {fuel : Nat} {pathPrefix : List Byte}
    {cs : List IFSNodeContainer} (z : Word) (h : buildList host mem fuel pathPrefix = .ok cs) :
    ∃ root rest, cs = root :: rest ∧ root.node.fileSize = (mem.heap 0).node.fileSize ∧
      sIsReg root.node.permissions = false ∧
      buildList host (mem.sized z) fuel pathPrefix = .ok (root.sized z :: rest) := by
  obtain ⟨path, name, s, hpath, hname, hrun, rfl⟩ := buildList_ok.mp h
  have hlock : Lockstep (Ahead [rootNode (mem.heap 0) path name] [(rootNode (mem.heap 0) path name).sized z])
      (recursive host mem fuel (host.opendir pathPrefix) (rootNode (mem.heap 0) path name)
        ⟨[rootNode (mem.heap 0) path name], 1#32, 1⟩)
      (recursive host (mem.sized z) fuel (host.opendir pathPrefix) (rootNode (mem.heap 0) path name)
        ⟨[(rootNode (mem.heap 0) path name).sized z], 1#32, 1⟩) :=
    recursive_lockstep fuel _ _ ⟨Nat.le_refl 1, [], rfl, rfl⟩
  rw [hrun] at hlock
  obtain ⟨s', hs', _, l, hl, rfl⟩ := hlock.succeeds
  rw [← recursive_sized fuel _ _ z] at hs'
  exact ⟨_, l, hl, rfl, (by decide : sIsReg sIFDIR = false),
    buildList_ok.mpr ⟨path, name, _, hpath, hname, hs', rfl⟩⟩

/-- A container placed further on. -/
def IFSNodeContainer.moved (d : Word) (c : IFSNodeContainer) : IFSNodeContainer :=
  { c with node := { c.node with fileOffset := c.node.fileOffset + d } }

theorem roundDown_add (w : Word) :
    (w + 4096#32) / 4096#32 * 4096#32 = w / 4096#32 * 4096#32 + 4096#32 := by
  apply BitVec.eq_of_toNat_eq
  have hw := w.isLt
  simp only [BitVec.toNat_add, BitVec.toNat_mul, BitVec.toNat_udiv,
    BitVec.toNat_ofNat, Nat.reducePow, Nat.reduceMod] at hw ⊢
  omega

theorem alignUp32_add (v : Word) :
    alignUp32 (v + 4096#32) 4096#32 = alignUp32 v 4096#32 + 4096#32 := by
  have hsum : v + 4096#32 + 4096#32 - 1 = v + 4096#32 - 1 + 4096#32 := by
    rw [BitVec.sub_eq_add_neg, BitVec.sub_eq_add_neg,
      BitVec.add_assoc, BitVec.add_comm 4096#32 (-1), BitVec.add_assoc (v + 4096#32)]
  rw [alignUp32, alignUp32, hsum, roundDown_add]

/-- Starting a page later moves every node, and the end, by a page. -/
theorem calculateFileOffsets_moved (cs : List IFSNodeContainer) (o e : Word) :
    (calculateFileOffsets cs (o + 4096#32).toNat (e + 4096#32).toNat).1 =
        (calculateFileOffsets cs o.toNat e.toNat).1.map (IFSNodeContainer.moved 4096#32) ∧
      BitVec.ofNat 32 (calculateFileOffsets cs (o + 4096#32).toNat (e + 4096#32).toNat).2 =
        BitVec.ofNat 32 (calculateFileOffsets cs o.toNat e.toNat).2 + 4096#32 := by
  induction cs generalizing o e with
  | nil =>
    refine ⟨rfl, ?_⟩
    simp only [calculateFileOffsets, BitVec.ofNat_toNat, BitVec.setWidth_eq]
  | cons c cs ih =>
    have hends : o + 4096#32 + c.node.fileSize = o + c.node.fileSize + 4096#32 := by
      rw [BitVec.add_assoc, BitVec.add_comm 4096#32, BitVec.add_assoc]
    obtain ⟨hlist, htotal⟩ := ih (alignUp32 (o + c.node.fileSize) 4096#32) (o + c.node.fileSize)
    simp only [calculateFileOffsets, BitVec.ofNat_toNat, BitVec.setWidth_eq, hends]
    have hpage : (4096 : Word) = 4096#32 := rfl
    rw [hpage, alignUp32_add, hlist, htotal]
    exact ⟨rfl, rfl⟩

/-- Whether a content round succeeds does not depend on where it writes. -/
theorem writeContent_lockstep {host : Host} (base : Nat) (fd fd' : Fd) {c q : IFSNodeContainer}
    (hmode : q.node.permissions = c.node.permissions) (hpath : q.realPath = c.realPath)
    (hsize : q.node.fileSize = c.node.fileSize) :
    Lockstep (fun _ _ => True) (writeContent host base fd c) (writeContent host base fd' q) := by
  unfold writeContent
  rw [hmode, hpath, hsize]
  apply Lockstep.ite
  · apply lockstep_bind_same
    intro path
    apply lockstep_bind_same
    intro contents
    apply Lockstep.ite
    · exact .error _
    · exact .ok trivial
  · exact .ok trivial

theorem calculateFileOffsets_cons (c : IFSNodeContainer) (rest : List IFSNodeContainer)
    (off last : Nat) {e : Word} (he : BitVec.ofNat 32 off + c.node.fileSize = e) :
    calculateFileOffsets (c :: rest) off last =
      (⟨{ c.node with fileOffset := BitVec.ofNat 32 off }, c.realPath⟩ ::
        (calculateFileOffsets rest (alignUp32 e 4096#32).toNat e.toNat).1,
        (calculateFileOffsets rest (alignUp32 e 4096#32).toNat e.toNat).2) := by
  subst he
  rfl

/-- The root's extra page moves everything placed after it, and the end. -/
theorem calculateFileOffsets_sized (root : IFSNodeContainer) (rest : List IFSNodeContainer)
    (off last : Nat) {z : Word} (hz : z = root.node.fileSize + 4096#32) :
    ∃ r r' l n n', calculateFileOffsets (root :: rest) off last = (r :: l, n) ∧
      calculateFileOffsets (root.sized z :: rest) off last =
        (r' :: l.map (IFSNodeContainer.moved 4096#32), n') ∧
      r.node.permissions = root.node.permissions ∧ r'.node.permissions = root.node.permissions ∧
      BitVec.ofNat 32 n' = BitVec.ofNat 32 n + 4096#32 := by
  obtain ⟨e, he⟩ : ∃ e, e = BitVec.ofNat 32 off + root.node.fileSize := ⟨_, rfl⟩
  have hgrown : BitVec.ofNat 32 off + (root.sized z).node.fileSize = e + 4096#32 := by
    rw [he, BitVec.add_assoc, ← hz]
    rfl
  obtain ⟨hlist, htotal⟩ := calculateFileOffsets_moved rest (alignUp32 e 4096#32) e
  have hfirst := calculateFileOffsets_cons root rest off last he.symm
  have hsecond := calculateFileOffsets_cons (root.sized z) rest off last hgrown
  rw [alignUp32_add, hlist] at hsecond
  exact ⟨_, _, _, _, _, hfirst, hsecond, rfl, rfl, htotal⟩

theorem writeFileContents_sized {host : Host} {base : Nat} {r r' : IFSNodeContainer}
    {l : List IFSNodeContainer} {d : Word} {fd fd₁ : Fd} (fd' : Fd) (hr : sIsReg r.node.permissions = false)
    (hr' : sIsReg r'.node.permissions = false)
    (h : writeFileContents host base (r :: l) fd = .ok fd₁) :
    ∃ fd₁', writeFileContents host base (r' :: l.map (IFSNodeContainer.moved d)) fd' = .ok fd₁' := by
  have hlock : Lockstep (fun _ _ => True) (l.foldlM (writeContent host base) fd)
      ((l.map (IFSNodeContainer.moved d)).foldlM (writeContent host base) fd') :=
    lockstep_foldlM (IFSNodeContainer.moved d)
      (fun a b c _ => writeContent_lockstep (c := c) (q := c.moved d) base a b rfl rfl rfl) l trivial
  have hskip : ∀ (c : IFSNodeContainer) (f : Fd), sIsReg c.node.permissions = false →
      writeContent host base f c = .ok f := by
    intro c f hc
    simp only [writeContent, hc, Bool.false_eq_true, if_false]
  rw [writeFileContents, List.foldlM_cons, hskip r fd hr] at h
  rw [writeFileContents, List.foldlM_cons, hskip r' fd' hr']
  have hrun : l.foldlM (writeContent host base) fd = .ok fd₁ := h
  rw [hrun] at hlock
  obtain ⟨fd₁', hrun', _⟩ := hlock.succeeds
  exact ⟨fd₁', hrun'⟩

/-- When a run ends well, by its passes. -/
theorem mkifs_ok {host : Host} {mem : Memory} {fuel : Nat} {bootloader pathPrefix out : List Byte} :
    mkifs host mem fuel bootloader pathPrefix = .ok out ↔
      ∃ cs fd fd', buildList host mem fuel pathPrefix = .ok cs ∧
        writeFileContents host (alignUp bootloader.length 4096)
          (writeFileTable mem cs (alignUp bootloader.length 4096) ((⟨[], 0⟩ : Fd).write bootloader)).2.1
          (writeFileTable mem cs (alignUp bootloader.length 4096) ((⟨[], 0⟩ : Fd).write bootloader)).1 = .ok fd ∧
        writeBootloaderHeader (alignUp bootloader.length 4096)
          (writeFileTable mem cs (alignUp bootloader.length 4096) ((⟨[], 0⟩ : Fd).write bootloader)).2.2 fd =
            .ok fd' ∧ fd'.data = out := by
  unfold mkifs writeIFS
  simp only [writeBootloader]
  cases buildList host mem fuel pathPrefix with
  | error e => simp [bind, Except.bind]
  | ok cs =>
    obtain ⟨table, htable⟩ : ∃ table, table =
      writeFileTable mem cs (alignUp bootloader.length 4096) ((⟨[], 0⟩ : Fd).write bootloader) := ⟨_, rfl⟩
    obtain ⟨fd₀, list, size⟩ := table
    simp only [bind, Except.bind, Except.ok.injEq, ← htable]
    cases hfd : writeFileContents host (alignUp bootloader.length 4096) list fd₀ with
    | error e => simp [← htable, hfd]
    | ok fd =>
      cases hboot : writeBootloaderHeader (alignUp bootloader.length 4096) size fd with
      | error e => simp [← htable, hfd, hboot]
      | ok fd' => simp [← htable, hfd, hboot, pure, Except.pure]

/-- A run from memory with another page of root size ends too, and records another `ifs_size`. -/
theorem mkifs_sized {host : Host} {mem : Memory} {fuel : Nat}
    {bootloader pathPrefix out : List Byte} {z : Word}
    (hz : z = (mem.heap 0).node.fileSize + 4096#32)
    (h : mkifs host mem fuel bootloader pathPrefix = .ok out) :
    ∃ out', mkifs host (mem.sized z) fuel bootloader pathPrefix = .ok out' ∧ out ≠ out' := by
  obtain ⟨cs, fd, fd₁, hlist, hcontents, hboot, rfl⟩ := mkifs_ok.mp h
  obtain ⟨root, rest, rfl, hsize, hmode, hlist'⟩ := buildList_sized z hlist
  obtain ⟨base, hbase⟩ : ∃ base, base = alignUp bootloader.length 4096 := ⟨_, rfl⟩
  obtain ⟨fd₀, hfd₀⟩ : ∃ fd₀, fd₀ = (⟨[], 0⟩ : Fd).write bootloader := ⟨_, rfl⟩
  rw [← hbase, ← hfd₀] at hcontents hboot
  have htable : ∀ (mem : Memory) (c : IFSNodeContainer), (writeFileTable mem (c :: rest) base fd₀).2 =
      calculateFileOffsets (c :: rest) (fileTableOffset (rest.length + 1)) (fileTableOffset (rest.length + 1)) :=
    fun _ _ => rfl
  obtain ⟨r, r', l, n, n', hfirst, hsecond, hr, hr', hn⟩ := calculateFileOffsets_sized root rest
    (fileTableOffset (rest.length + 1)) (fileTableOffset (rest.length + 1)) (hz.trans (by rw [hsize]))
  rw [htable, hfirst] at hcontents hboot
  obtain ⟨fd', hcontents'⟩ := writeFileContents_sized
    (writeFileTable (mem.sized z) (root.sized z :: rest) base fd₀).1 (hr ▸ hmode) (hr' ▸ hmode) hcontents
  obtain ⟨fd₂, hboot₂, hnew, _⟩ := writeBootloaderHeader_holds base n fd
  obtain ⟨fd₃, hboot₃, hnew', _⟩ := writeBootloaderHeader_holds base n' fd'
  obtain rfl : fd₂ = fd₁ := Except.ok.inj (hboot₂.symm.trans hboot)
  refine ⟨fd₃.data, mkifs_ok.mpr ⟨_, fd', fd₃, hlist', ?_, ?_, rfl⟩, ?_⟩
  · rw [← hbase, ← hfd₀, htable, hsecond]
    exact hcontents'
  · rw [← hbase, ← hfd₀, htable, hsecond]
    exact hboot₃
  · intro he
    have hread := hnew.read
    have hread' := hnew'.read
    rw [he] at hread
    simp only [List.length_append, le32_length] at hread hread'
    have hsame := List.append_cancel_left (hread.symm.trans hread')
    have hpage := le32_injective hsame
    rw [hn] at hpage
    bv_omega

/-- No run of the tool depends on its inputs alone: where it ends well from some
memory it ends well from another with another output. -/
theorem mkifs_depends_on_memory (host : Host) (fuel : Nat) (bootloader pathPrefix : List Byte)
    (h : ∃ mem out, mkifs host mem fuel bootloader pathPrefix = .ok out) :
    ¬ DependsOnlyOnInputs host fuel bootloader pathPrefix := by
  obtain ⟨mem, out, hrun⟩ := h
  obtain ⟨out', hrun', hne⟩ := mkifs_sized rfl hrun
  intro hsame
  have he := hsame mem (mem.sized ((mem.heap 0).node.fileSize + 4096#32))
  rw [hrun, hrun'] at he
  exact hne (Except.ok.inj he)

theorem bootTree_depends_on_memory : ¬ DependsOnlyOnInputs bootHost 2 [] rootPath := by
  obtain ⟨out, hrun, _⟩ := bootTree_packable.mkifs_image [] (by decide : bootTree.listing.depth < 2) (by decide)
  exact mkifs_depends_on_memory bootHost 2 [] rootPath ⟨zeroMemory, out, hrun⟩

/-- The same files packed from zeroed memory and from memory where the root's
`file_size` bytes happen to be 4096. -/
theorem bootTree_two_outputs : ∃ out out',
    mkifs bootHost zeroMemory 2 [] rootPath = .ok out ∧
      mkifs bootHost (zeroMemory.sized 4096#32) 2 [] rootPath = .ok out' ∧ out ≠ out' := by
  obtain ⟨out, hrun, _⟩ := bootTree_packable.mkifs_image [] (by decide : bootTree.listing.depth < 2) (by decide)
  obtain ⟨out', hrun', hne⟩ := mkifs_sized (z := 4096#32) (by decide) hrun
  exact ⟨out, out', hrun, hrun', hne⟩

end CheviotBoot.Mkifs
