import CheviotBoot.Mkifs.Determinism
import CheviotBoot.Mkifs.Packed

namespace CheviotBoot.Mkifs
open Lib

/-- Two hosts that answer the walk alike; what they have in their files may differ. -/
structure Unmoved (host host' : Host) : Prop where
  stat : host'.stat = host.stat
  opendir : host'.opendir = host.opendir

/-- For a node's file the hosts have the same bytes as far as the recorded size. -/
def SameBytes (host host' : Host) (c : IFSNodeContainer) : Prop :=
  sIsReg c.node.permissions = true → ∀ path, cstr? c.realPath.toList = some path →
    (host'.contents path).map (List.take c.node.fileSize.toNat) =
      (host.contents path).map (List.take c.node.fileSize.toNat)

section
variable {host host' : Host} (h : Unmoved host host') (mem : Memory)
include h

theorem scanDir_unmoved {recurse recurse' : List (List Byte) → IFSNodeContainer → Walk → Except Stop Walk}
    (hrec : recurse' = recurse) (parent : IFSNodeContainer) (names : List (List Byte)) (s : Walk) (st : Stat) :
    scanDir host' mem recurse' parent names s st = scanDir host mem recurse parent names s st := by
  subst hrec
  have hentry : ∀ s st dName,
      scanEntry host' mem recurse' parent s st dName = scanEntry host mem recurse' parent s st dName := by
    intro s st dName
    simp only [scanEntry, h.stat, h.opendir]
  induction names generalizing s st with
  | nil => rfl
  | cons dName rest ih =>
    simp only [scanDir, hentry, ih]

theorem recursive_unmoved (fuel : Nat) (dir : Option (List (List Byte))) (parent : IFSNodeContainer) (s : Walk) :
    recursive host' mem fuel dir parent s = recursive host mem fuel dir parent s := by
  induction fuel generalizing dir parent s with
  | zero => rfl
  | succ fuel ih =>
    have hdots : ∀ name ino parent s, addDots host' mem name ino parent s = addDots host mem name ino parent s := by
      intro name ino parent s
      simp only [addDots, h.stat]
    have hrec : (fun names node s => recursive host' mem fuel (some names) node s) =
        fun names node s => recursive host mem fuel (some names) node s := by
      funext names node s
      exact ih (some names) node s
    simp only [recursive, hdots, scanDir_unmoved h mem hrec]

/-- The walk looks into no file. -/
theorem buildList_unmoved (fuel : Nat) (pathPrefix : List Byte) :
    buildList host' mem fuel pathPrefix = buildList host mem fuel pathPrefix := by
  simp only [buildList, h.opendir, recursive_unmoved h]

end

/-- A file is read as far as its recorded size and no further. -/
theorem writeContent_sameBytes {host host' : Host} {c : IFSNodeContainer} (h : SameBytes host host' c) (base : Nat)
    (fd : Fd) : writeContent host' base fd c = writeContent host base fd c := by
  unfold writeContent
  by_cases hreg : sIsReg c.node.permissions = true
  · rw [if_pos hreg, if_pos hreg]
    cases hpath : cstr? c.realPath.toList with
    | none => rfl
    | some path =>
      have hsame := h hreg path hpath
      cases hold : host.contents path with
      | none =>
        rw [hold, Option.map_none, Option.map_eq_none_iff] at hsame
        simp only [orStop, bind, Except.bind, hsame, hold]
      | some bs =>
        rw [hold, Option.map_some, Option.map_eq_some_iff] at hsame
        obtain ⟨bs', hnew, htake⟩ := hsame
        simp only [orStop, bind, Except.bind, hold, hnew, htake]
  · rw [if_neg hreg, if_neg hreg]

theorem writeFileContents_sameBytes {host host' : Host} {cs : List IFSNodeContainer}
    (h : ∀ c ∈ cs, SameBytes host host' c) (base : Nat) (fd : Fd) :
    writeFileContents host' base cs fd = writeFileContents host base cs fd := by
  induction cs generalizing fd with
  | nil => rfl
  | cons c cs ih =>
    obtain ⟨hfirst, hrest⟩ := List.forall_mem_cons.mp h
    unfold writeFileContents at ih ⊢
    rw [List.foldlM_cons, List.foldlM_cons, writeContent_sameBytes hfirst]
    exact bind_congr fun fd => ih hrest fd

theorem writeContent_ends {host : Host} {c : IFSNodeContainer} (h : Readable host c) (base : Nat) (fd : Fd) :
    ∃ fd', writeContent host base fd c = .ok fd' := by
  unfold writeContent
  by_cases hreg : sIsReg c.node.permissions = true
  · obtain ⟨path, bs, hpath, hbs, hsize⟩ := h hreg
    have hlen : (bs.take c.node.fileSize.toNat).length = c.node.fileSize.toNat := List.length_take_of_le hsize
    simp only [hreg, if_true, orStop, bind, Except.bind, hpath, hbs, hlen, ne_eq, not_true, if_false]
    exact ⟨_, rfl⟩
  · rw [if_neg hreg]
    exact ⟨fd, rfl⟩

theorem writeFileContents_ends {host : Host} {cs : List IFSNodeContainer} (h : ∀ c ∈ cs, Readable host c)
    (base : Nat) (fd : Fd) : ∃ fd', writeFileContents host base cs fd = .ok fd' := by
  induction cs generalizing fd with
  | nil => exact ⟨fd, rfl⟩
  | cons c cs ih =>
    obtain ⟨hfirst, hrest⟩ := List.forall_mem_cons.mp h
    obtain ⟨fd₁, hfd₁⟩ := writeContent_ends hfirst base fd
    obtain ⟨fd₂, hfd₂⟩ := ih hrest fd₁
    exact ⟨fd₂, bind_eq_ok.mpr ⟨fd₁, hfd₁, hfd₂⟩⟩

/-- The offsets change nothing about what is read. -/
theorem calculateFileOffsets_all {P : IFSNodeContainer → Prop}
    (hP : ∀ (c : IFSNodeContainer) o, P c → P ⟨{ c.node with fileOffset := o }, c.realPath⟩)
    (cs : List IFSNodeContainer) (off last : Nat) (h : ∀ c ∈ cs, P c) :
    ∀ c ∈ (calculateFileOffsets cs off last).1, P c := by
  induction cs generalizing off last with
  | nil => exact h
  | cons c cs ih =>
    obtain ⟨hfirst, hrest⟩ := List.forall_mem_cons.mp h
    exact List.forall_mem_cons.mpr ⟨hP c _ hfirst, ih _ _ hrest⟩

/-- The tool comes to an end exactly where the walk does and every file is then still there and at
least as long as it was; and of what is in the files it sees as much as they were long. -/
theorem mkifs_ends_iff (host : Host) (mem : Memory) (fuel : Nat) (bootloader pathPrefix : List Byte) :
    ((∃ out, mkifs host mem fuel bootloader pathPrefix = .ok out) ↔
        ∃ cs, buildList host mem fuel pathPrefix = .ok cs ∧ ∀ c ∈ cs, Readable host c) ∧
      ∀ host', Unmoved host host' →
        (∀ cs, buildList host mem fuel pathPrefix = .ok cs → ∀ c ∈ cs, SameBytes host host' c) →
          mkifs host' mem fuel bootloader pathPrefix = mkifs host mem fuel bootloader pathPrefix := by
  refine ⟨⟨?_, ?_⟩, fun host' hunmoved hsame => ?_⟩
  · rintro ⟨out, hrun⟩
    obtain ⟨cs, fd, fd', hlist, hcontents, -⟩ := mkifs_ok.mp hrun
    exact ⟨cs, hlist, calculateFileOffsets_readable cs (writeFileContents_readable hcontents)⟩
  · rintro ⟨cs, hlist, hread⟩
    obtain ⟨table, htable⟩ : ∃ table, table =
      writeFileTable mem cs (alignUp bootloader.length 4096) ((⟨[], 0⟩ : Fd).write bootloader) := ⟨_, rfl⟩
    have hread' : ∀ c ∈ table.2.1, Readable host c := by
      rw [htable]
      exact calculateFileOffsets_all (fun c o hc => hc) cs _ _ hread
    obtain ⟨fd, hfd⟩ := writeFileContents_ends hread' (alignUp bootloader.length 4096) table.1
    obtain ⟨fd', hfd', -⟩ := writeBootloaderHeader_holds (alignUp bootloader.length 4096) table.2.2 fd
    exact ⟨fd'.data, mkifs_ok.mpr ⟨cs, fd, fd', hlist, by rw [← htable]; exact hfd, by rw [← htable]; exact hfd', rfl⟩⟩
  · unfold mkifs writeIFS
    rw [buildList_unmoved hunmoved]
    cases hlist : buildList host mem fuel pathPrefix with
    | error e => rfl
    | ok cs =>
      have hcontents : ∀ base fd, writeFileContents host' base (writeFileTable mem cs base fd).2.1
          (writeFileTable mem cs base fd).1 = writeFileContents host base (writeFileTable mem cs base fd).2.1
            (writeFileTable mem cs base fd).1 :=
        fun base fd => writeFileContents_sameBytes
          (calculateFileOffsets_all (fun c o hc => hc) cs _ _ (hsame cs hlist)) base _
      simp only [bind, Except.bind, hcontents]

end CheviotBoot.Mkifs
