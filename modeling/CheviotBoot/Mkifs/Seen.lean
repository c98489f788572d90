import CheviotBoot.Mkifs.Indexing

namespace CheviotBoot.Mkifs
open Lib

/-- The host serves this listing under `path`, the path of a directory with the given mode: any
`stat`, `opendir` or `open` may fail, and what does not fail answers as the tree says. -/
def Listing.ServedBy (host : Host) : Listing → List Byte → Word → Prop
  | .nil, _, _ => True
  | .self rest, path, mode | .parent rest, path, mode => rest.ServedBy host path mode
  | .file name m contents rest, path, mode =>
    let own := joinPath path name.bytes
    (∀ st, host.stat own = some st → st = ⟨m.val, contents.length⟩) ∧ host.opendir own = none ∧
      (∀ bs, host.contents own = some bs → bs = contents) ∧ rest.ServedBy host path mode
  | .other name m rest, path, mode =>
    (∀ st, host.stat (joinPath path name.bytes) = some st → st.stMode = m.val) ∧ rest.ServedBy host path mode
  | .dir name m children rest, path, mode =>
    let sub := joinPath path name.bytes
    (∀ st, host.stat sub = some st → st.stMode = m.val) ∧
      (∀ st, host.stat (joinPath sub dot) = some st → st.stMode = m.val) ∧
      (∀ st, host.stat (joinPath sub dotDot) = some st → st.stMode = mode) ∧
      (∀ names, host.opendir sub = some names → names = children.names) ∧ host.contents sub = none ∧
      children.ServedBy host sub m.val ∧ rest.ServedBy host path mode

structure SourceTree.ServedBy (host : Host) (t : SourceTree) (pathPrefix : List Byte) : Prop where
  root : ∀ st, host.stat (joinPath pathPrefix dot) = some st → st.stMode = t.mode.val
  opened : ∀ names, host.opendir pathPrefix = some names → names = t.listing.names
  entries : t.listing.ServedBy host pathPrefix t.mode.val

/-- A host that holds the listing serves it, if no path is both a directory and a file to it. -/
theorem Listing.On.servedBy {host : Host} {l : Listing} {path : List Byte} {mode : Word}
    (hkinds : ∀ path, host.opendir path = none ∨ host.contents path = none) (h : l.On host path mode) :
    l.ServedBy host path mode := by
  have only : ∀ {path : List Byte} {answer st : Stat}, host.stat path = some answer →
      host.stat path = some st → st = answer := fun h h' => Option.some.inj (h'.symm.trans h)
  induction l generalizing path mode with
  | nil => trivial
  | self rest ih | parent rest ih => exact ih h
  | file name m contents rest ih =>
    obtain ⟨hstat, hcontents, hrest⟩ := h
    have hfile := (hkinds (joinPath path name.bytes)).resolve_right (by simp [hcontents])
    exact ⟨fun st hst => only hstat hst, hfile,
      fun bs hbs => Option.some.inj (hbs.symm.trans hcontents), ih hrest⟩
  | other name m rest ih =>
    obtain ⟨⟨size, hstat⟩, hrest⟩ := h
    exact ⟨fun st hst => congrArg Stat.stMode (only hstat hst), ih hrest⟩
  | dir name m children rest ihc ihr =>
    obtain ⟨⟨_, hstat⟩, ⟨_, hdot⟩, ⟨_, hup⟩, hopen, hbelow, hrest⟩ := h
    have hdir := (hkinds (joinPath path name.bytes)).resolve_left (by simp [hopen])
    exact ⟨fun st hst => congrArg Stat.stMode (only hstat hst), fun st hst => congrArg Stat.stMode (only hdot hst),
      fun st hst => congrArg Stat.stMode (only hup hst),
      fun names hnames => Option.some.inj (hnames.symm.trans hopen), hdir, ihc hbelow, ihr hrest⟩

theorem SourceTree.On.servedBy {host : Host} {t : SourceTree} {pathPrefix : List Byte}
    (hkinds : ∀ path, host.opendir path = none ∨ host.contents path = none) (h : t.On host pathPrefix) :
    t.ServedBy host pathPrefix := by
  obtain ⟨⟨size, hroot⟩, hopened, hentries⟩ := h
  refine ⟨fun st hst => ?_, fun names hnames => Option.some.inj (hnames.symm.trans hopened),
    hentries.servedBy hkinds⟩
  rw [Option.some.inj (hst.symm.trans hroot)]

/-- What `st` holds for an entry: the answer, or where there is none what it held before. -/
def sees (host : Host) (path : List Byte) (st : Stat) (name : FileName) : Stat :=
  (host.stat (joinPath path name.bytes)).getD st

/-- What `st` holds when the loop over a directory starts: the answer for its "..". -/
def entered (host : Host) (sub : List Byte) : Stat := (host.stat (joinPath sub dotDot)).getD ⟨0#32, 0⟩

/-- Every entry is recorded with the mode and, in 32 bits, the size that are its own. -/
def Listing.SeesOwn (host : Host) : Listing → List Byte → Stat → Prop
  | .nil, _, _ => True
  | .self rest, path, st | .parent rest, path, st => rest.SeesOwn host path st
  | .file name m contents rest, path, st =>
    (sees host path st name).stMode = m.val ∧
      (sees host path st name).stSize % 2 ^ 32 = contents.length ∧
      rest.SeesOwn host path (sees host path st name)
  | .other name _ rest, path, st => rest.SeesOwn host path (sees host path st name)
  | .dir name m children rest, path, st =>
    (sees host path st name).stMode = m.val ∧
      children.SeesOwn host (joinPath path name.bytes) (entered host (joinPath path name.bytes)) ∧
      rest.SeesOwn host path (sees host path st name)

/-- The root has no "..": its loop starts with the answer for ".". -/
def SourceTree.SeesOwn (host : Host) (t : SourceTree) (pathPrefix : List Byte) : Prop :=
  t.listing.SeesOwn host pathPrefix ((host.stat (joinPath pathPrefix dot)).getD ⟨0#32, 0⟩)

/-- A listing as the walk records it, starting with this `st`: the names are the listing's, modes
and sizes are what `st` held, and a file is cut off at the size recorded for it. -/
inductive SeenAs (host : Host) : List Byte → Stat → Listing → Listing → Prop
  | nil (path : List Byte) (st : Stat) : SeenAs host path st .nil .nil
  | self {path : List Byte} {st : Stat} {rest rest' : Listing} (tail : SeenAs host path st rest rest') :
    SeenAs host path st (.self rest) (.self rest')
  | parent {path : List Byte} {st : Stat} {rest rest' : Listing}
    (tail : SeenAs host path st rest rest') : SeenAs host path st (.parent rest) (.parent rest')
  | file {path : List Byte} {st : Stat} {name : FileName} {m m' : RegMode} {contents : List Byte}
    {rest rest' : Listing} (mode : m'.val = (sees host path st name).stMode)
    (size : (sees host path st name).stSize % 2 ^ 32 ≤ contents.length)
    (tail : SeenAs host path (sees host path st name) rest rest') :
    SeenAs host path st (.file name m contents rest)
      (.file name m' (contents.take ((sees host path st name).stSize % 2 ^ 32)) rest')
  | dir {path : List Byte} {st : Stat} {name : FileName} {m m' : DirMode}
    {children children' rest rest' : Listing} (mode : m'.val = (sees host path st name).stMode)
    (below : SeenAs host (joinPath path name.bytes) (entered host (joinPath path name.bytes)) children children')
    (tail : SeenAs host path (sees host path st name) rest rest') :
    SeenAs host path st (.dir name m children rest) (.dir name m' children' rest')

theorem SeenAs.inodes {host : Host} {path : List Byte} {st : Stat} {l l' : Listing}
    (h : SeenAs host path st l l') : l'.inodes = l.inodes := by
  induction h with
  | nil => rfl
  | self _ ih | parent _ ih => exact ih
  | file _ _ _ ih => exact congrArg (· + 1) ih
  | dir _ _ _ ihb iht => rw [Listing.inodes, Listing.inodes, ihb, iht]

/-- Records that agree but for the modes of those that are no entries. -/
structure Rec.Agrees (r q : Rec) : Prop where
  same : r = { q with permissions := r.permissions }
  entry : q.role = .entry → r.permissions = q.permissions

theorem Rec.agrees_entry (r : Rec) : r.Agrees r := ⟨rfl, fun _ => rfl⟩

theorem dotRecs_agree (place : Place) (path : List Byte) (ino parentIno st up m mode : Word) :
    List.Forall₂ Rec.Agrees (dotRecs place path ino parentIno st up) (dotRecs place path ino parentIno m mode) := by
  rw [dotRecs, dotRecs]
  refine List.Forall₂.cons ⟨rfl, ?_⟩ ?_
  · intro h
    cases h
  · split
    · refine List.Forall₂.cons ⟨rfl, ?_⟩ List.Forall₂.nil
      intro h
      cases h
    · exact List.Forall₂.nil

/-- What the contents pass needs of a node: that its file can be read and is as long as recorded. -/
def Readable (host : Host) (c : IFSNodeContainer) : Prop :=
  sIsReg c.node.permissions = true → ∃ path bs, cstr? c.realPath.toList = some path ∧
    host.contents path = some bs ∧ c.node.fileSize.toNat ≤ bs.length

theorem Readable.entry {host : Host} {path name : List Byte} {ino mode n : Word} {size : Nat}
    (h : Readable host (entryNode path ino name mode n (List.replicate size 0#8))) (hreg : sIsReg mode = true)
    (hnul : 0#8 ∉ joinPath path name) (hlen : (joinPath path name).length < 1024) :
    ∃ bs, host.contents (joinPath path name) = some bs ∧ size % 2 ^ 32 ≤ bs.length := by
  obtain ⟨path', bs, hpath, hbs, hsize⟩ := h hreg
  obtain rfl := Option.some.inj ((cstr_padded hnul hlen).symm.trans hpath)
  refine ⟨bs, hbs, ?_⟩
  simpa [entryNode, Rec.container, BitVec.toNat_ofNat] using hsize

/-- The node of a file that is at least as long as recorded is that of what is stored of it. -/
theorem entryNode_stored (path name : List Byte) (ino mode n : Word) (place : Place) {contents : List Byte}
    {size : Nat} (h : size % 2 ^ 32 ≤ contents.length) :
    entryNode path ino name mode n (List.replicate size 0#8) =
      Rec.container placeholderOffset
        ⟨.entry, place, name, n, ino, mode, contents.take (size % 2 ^ 32), joinPath path name⟩ := by
  have hsize : BitVec.ofNat 32 size = BitVec.ofNat 32 (size % 2 ^ 32) := by
    apply BitVec.eq_of_toNat_eq
    rw [BitVec.toNat_ofNat, BitVec.toNat_ofNat, Nat.mod_mod]
  simp only [entryNode, Rec.container, List.length_replicate, List.length_take, Nat.min_eq_left h, hsize]

theorem sees_recorded {host : Host} {path : List Byte} {st : Stat} {name : FileName} (hst : Recorded st)
    (h : ∀ answer, host.stat (joinPath path name.bytes) = some answer → Recorded answer) :
    Recorded (sees host path st name) := by
  rw [sees]
  cases hs : host.stat (joinPath path name.bytes) with
  | none => exact hst
  | some answer => exact h answer hs

section
variable {host : Host} {path : List Byte} {parent : IFSNodeContainer}
    (hp : 0#8 ∉ path) (hl : path.length < 1024) (hr : parent.realPath = padded 1024 path)
include hp hl hr

/-- A node for "." or ".." that was made is its record's container. -/
theorem addDots_ran {name : List Byte} (hn : 0#8 ∉ name) (hlen : name.length ≤ 2) (role : Role) (place : Place)
    (ino : Word) {s s' : Walk} {st : Stat}
    (h : addDots host zeroMemory name ino parent s = .ok (s', st)) :
    path.length + 1 + name.length < 1024 ∧ host.stat (joinPath path name) = some st ∧
      s' = ⟨s.list ++ [Rec.container placeholderOffset
        ⟨role, place, name, ino, parent.node.inodeNr, st.stMode, [], joinPath path name⟩],
          s.currentInodeNr + 1#32, s.mallocs + 1⟩ := by
  by_cases hfit : path.length + 1 + name.length < 1024
  · rw [addDots_fits role place ino s hn hlen hp hr hfit] at h
    cases hstat : host.stat (joinPath path name) with
    | none =>
      rw [hstat] at h
      cases h
    | some answer =>
      rw [hstat] at h
      obtain ⟨rfl, rfl⟩ := Prod.mk.inj (Except.ok.inj h)
      exact ⟨hfit, rfl, rfl⟩
  · rw [addDots_overruns ino s hlen hp hl hr (Nat.not_lt.mp hfit)] at h
    cases h

/-- A round that ended had room for the path it built. -/
theorem scanEntry_fits {recurse : List (List Byte) → IFSNodeContainer → Walk → Except Stop Walk}
    {name : FileName} (hlen : name.bytes.length ≤ 31) {s : Walk} {st : Stat} {r : Walk × Stat}
    (h : scanEntry host zeroMemory recurse parent s st name.bytes = .ok r) :
    path.length + 1 + name.bytes.length < 1024 := by
  by_contra hlong
  have hd : ¬ (name.bytes = dot ∨ name.bytes = dotDot) := by simp [name.notDot, name.notDotDot]
  rw [scanEntry_overruns recurse s st name.noNul hd hp hl hr hlen (Nat.not_lt.mp hlong)] at h
  cases h

/-- The root's walk: its ".", then its entries. -/
theorem recursive_root {fuel : Nat} {dir : Option (List (List Byte))} (hi : parent.node.inodeNr = 0#32)
    (place : Place) (parentIno m mode : Word)
    (hself : ∀ st, host.stat (joinPath path dot) = some st → sIsReg st.stMode = false) {s s' : Walk}
    (h : recursive host zeroMemory (fuel + 1) dir parent s = .ok s') :
    ∃ names made st k, dir = some names ∧ host.stat (joinPath path dot) = some st ∧
      List.Forall₂ Rec.Agrees made (dotRecs place path 0#32 parentIno m mode) ∧
      (∀ r ∈ made, Rec.Stored host r) ∧
      scanDir host zeroMemory (fun names node s => recursive host zeroMemory fuel (some names) node s) parent names
        ⟨s.list ++ made.map (Rec.container placeholderOffset), s.currentInodeNr + 1#32, k⟩ st = .ok s' := by
  rw [recursive, bind_eq_ok] at h
  obtain ⟨⟨s₁, st₁⟩, hdot, hrest⟩ := h
  obtain ⟨hfits, hstat, rfl⟩ := addDots_ran hp hl hr (by decide) (by decide) .self place _ hdot
  simp only [hi, ne_eq, not_true_eq_false, if_false] at hrest
  obtain ⟨_, hsame, hscan⟩ := bind_eq_ok.mp hrest
  obtain rfl := Except.ok.inj hsame
  obtain ⟨names, hnames, hrun⟩ := bind_eq_ok.mp hscan
  refine ⟨names, dotRecs place path 0#32 parentIno st₁.stMode 0#32, st₁, _, orStop_eq_ok.mp hnames, hstat,
    dotRecs_agree _ _ _ _ _ _ _ _, fun r hrm => ?_, hrun⟩
  have hroom : path.length + (if 0#32 ≠ 0#32 then 3 else 2) < 1024 := by
    rw [if_neg (fun hz => hz rfl)]
    exact hfits
  exact (dotRecs_ok hp hroom (hself st₁ hstat) (by decide) r hrm).stored

/-- The walk of any other directory: its "." and "..", then its entries. -/
theorem recursive_ran {fuel : Nat} {names : List (List Byte)} {ino parentIno : Word}
    (hi : parent.node.inodeNr = ino) (hpi : parent.node.parentInodeNr = parentIno) (hz : ino ≠ 0#32)
    (place : Place) (m mode : Word)
    (hself : ∀ st, host.stat (joinPath path dot) = some st → sIsReg st.stMode = false)
    (habove : ∀ st, host.stat (joinPath path dotDot) = some st → sIsReg st.stMode = false) {s s' : Walk}
    (h : recursive host zeroMemory (fuel + 1) (some names) parent s = .ok s') :
    ∃ made up k, host.stat (joinPath path dotDot) = some up ∧
      List.Forall₂ Rec.Agrees made (dotRecs place path ino parentIno m mode) ∧
      (∀ r ∈ made, Rec.Stored host r) ∧
      scanDir host zeroMemory (fun names node s => recursive host zeroMemory fuel (some names) node s) parent names
        ⟨s.list ++ made.map (Rec.container placeholderOffset), s.currentInodeNr + 2#32, k⟩ up = .ok s' := by
  subst hi hpi
  rw [recursive, bind_eq_ok] at h
  obtain ⟨⟨s₁, st₁⟩, hdot, hrest⟩ := h
  obtain ⟨_, hstat, rfl⟩ := addDots_ran hp hl hr (by decide) (by decide) .self place _ hdot
  dsimp only at hrest
  rw [if_pos hz, bind_eq_ok] at hrest
  obtain ⟨⟨s₂, st₂⟩, hup, hscan⟩ := hrest
  obtain ⟨hfits, hstat', rfl⟩ := addDots_ran hp hl hr (by decide) (by decide) .up place _ hup
  refine ⟨dotRecs place path parent.node.inodeNr parent.node.parentInodeNr st₁.stMode st₂.stMode, st₂,
    s.mallocs + 1 + 1, hstat', dotRecs_agree _ _ _ _ _ _ _ _, fun r hrm => ?_, ?_⟩
  · exact (dotRecs_ok hp (by rw [if_pos hz]; exact hfits) (hself st₁ hstat) (habove st₂ hstat') r hrm).stored
  · have hdots : dotRecs place path parent.node.inodeNr parent.node.parentInodeNr st₁.stMode st₂.stMode =
        [⟨.self, place, dot, parent.node.inodeNr, parent.node.inodeNr, st₁.stMode, [], joinPath path dot⟩,
          ⟨.up, place, dotDot, parent.node.parentInodeNr, parent.node.inodeNr, st₂.stMode, [],
            joinPath path dotDot⟩] := by
      rw [dotRecs, if_pos hz]
    have hcounter : s.currentInodeNr + 2#32 = s.currentInodeNr + 1#32 + 1#32 := by
      rw [BitVec.add_assoc]
      rfl
    rw [hdots, hcounter, List.map_cons, List.map_singleton, List.append_cons]
    simp only [orStop, bind, Except.bind] at hscan
    exact hscan

/-- A loop that ended began with its first entry, of a recorded kind: a directory that was walked, or a file. -/
theorem scanDir_ran {recurse : List (List Byte) → IFSNodeContainer → Walk → Except Stop Walk}
    {name : FileName} {names : List (List Byte)} {ino : Word} {s s' : Walk} {st : Stat}
    (hi : parent.node.inodeNr = ino) (hlen : name.bytes.length ≤ 31) (hseen : Recorded (sees host path st name))
    (h : scanDir host zeroMemory recurse parent (name.bytes :: names) s st = .ok s') :
    ∃ s₁, scanDir host zeroMemory recurse parent names s₁ (sees host path st name) = .ok s' ∧
      0#8 ∉ joinPath path name.bytes ∧ (joinPath path name.bytes).length < 1024 ∧
      (sIsDir (sees host path st name).stMode = true ∧
          (∃ names, host.opendir (joinPath path name.bytes) = some names ∧
            recurse names (entryNode path ino name.bytes (sees host path st name).stMode s.currentInodeNr [])
              ⟨s.list ++ [entryNode path ino name.bytes (sees host path st name).stMode s.currentInodeNr []],
                s.currentInodeNr + 1#32, s.mallocs + 1⟩ = .ok s₁) ∨
        sIsReg (sees host path st name).stMode = true ∧
          s₁ = ⟨s.list ++ [entryNode path ino name.bytes (sees host path st name).stMode s.currentInodeNr
              (List.replicate (sees host path st name).stSize 0#8)],
            s.currentInodeNr + 1#32, s.mallocs + 1⟩) := by
  rw [scanDir, bind_eq_ok] at h
  obtain ⟨⟨s₁, st₁⟩, hentry, htail⟩ := h
  have hf := scanEntry_fits hp hl hr hlen hentry
  have hzero := scanEntry_zero recurse name (List.replicate (sees host path st name).stSize 0#8) s st
    hp hr hi hlen hf (rfl : _ = sees host path st name) (fun _ => by rw [List.length_replicate])
  rw [hzero] at hentry
  have hsub : (joinPath path name.bytes).length < 1024 := by rw [joinPath_length]; exact hf
  by_cases hdir : sIsDir (sees host path st name).stMode = true
  · rw [if_pos hdir, bind_eq_ok] at hentry
    obtain ⟨names, hopen, hrun⟩ := hentry
    obtain ⟨s', hrec, hret⟩ := bind_eq_ok.mp hrun
    obtain ⟨rfl, rfl⟩ := Prod.mk.inj (Except.ok.inj hret)
    exact ⟨s', htail, joinPath_noNul hp name.noNul, hsub, Or.inl ⟨hdir, names, orStop_eq_ok.mp hopen, hrec⟩⟩
  · have hreg := hseen.resolve_left hdir
    rw [if_neg hdir, if_pos hreg] at hentry
    obtain ⟨rfl, rfl⟩ := Prod.mk.inj (Except.ok.inj hentry)
    exact ⟨_, htail, joinPath_noNul hp name.noNul, hsub, Or.inr ⟨hreg, rfl⟩⟩

end

/-- Nodes are only ever added, at the end. -/
theorem extends_rule (host : Host) (pre : List IFSNodeContainer) :
    WalkRule host (fun s => pre <+: s.list) (fun _ => True) where
  stat := fun _ _ _ => trivial
  dots := fun _ _ hs _ => hs.trans (List.prefix_append _ _)
  entry := fun _ _ hs _ => hs.trans (List.prefix_append _ _)
  skip := fun _ _ hs _ _ => hs

/-- A walk from `s` to `s'` of a directory that it saw as this listing: the nodes it added are
those of `rs`, which agree with the listing's records and can be stored. -/
structure WalkedAs (host : Host) (place : Place) (path : List Byte) (ino mode : Word) (s s' : Walk)
    (l : Listing) (rs : List Rec) : Prop where
  list : s'.list = s.list ++ rs.map (Rec.container placeholderOffset)
  agree : List.Forall₂ Rec.Agrees rs (l.recs place path ino mode s.currentInodeNr).1
  counter : s'.currentInodeNr = (l.recs place path ino mode s.currentInodeNr).2
  stored : ∀ r ∈ rs, Rec.Stored host r

section
variable {host : Host} {place : Place} {path : List Byte} {ino mode : Word} {s s' : Walk} {name : FileName}

theorem WalkedAs.file {m : RegMode} {contents : List Byte} {rest : Listing} {r : Rec} {rs : List Rec} {k : Nat}
    (h : WalkedAs host place path ino mode
      ⟨s.list ++ [r.container placeholderOffset], s.currentInodeNr + 1#32, k⟩ s' rest rs)
    (hr : r = ⟨.entry, name.bytes :: place, name.bytes, s.currentInodeNr, ino, m.val, contents,
      joinPath path name.bytes⟩) (hstored : r.Stored host) :
    WalkedAs host place path ino mode s s' (.file name m contents rest) (r :: rs) := by
  refine ⟨?_, ?_, h.counter, List.forall_mem_cons.mpr ⟨hstored, h.stored⟩⟩
  · rw [h.list, List.map_cons, ← List.append_cons]
  · subst hr
    exact List.Forall₂.cons (Rec.agrees_entry _) h.agree

theorem WalkedAs.dir {m : DirMode} {children rest : Listing} {r : Rec} {made below later : List Rec} {s₁ : Walk}
    {k : Nat} (hn : s.currentInodeNr ≠ 0#32)
    (hr : r = ⟨.entry, name.bytes :: place, name.bytes, s.currentInodeNr, ino, m.val, [],
      joinPath path name.bytes⟩) (hstored : r.Stored host)
    (hmade : List.Forall₂ Rec.Agrees made (dotRecs (name.bytes :: place) (joinPath path name.bytes)
      s.currentInodeNr ino m.val mode)) (hmades : ∀ q ∈ made, Rec.Stored host q)
    (hb : WalkedAs host (name.bytes :: place) (joinPath path name.bytes) s.currentInodeNr m.val
      ⟨s.list ++ [r.container placeholderOffset] ++ made.map (Rec.container placeholderOffset),
        s.currentInodeNr + 1#32 + 2#32, k⟩ s₁ children below)
    (ht : WalkedAs host place path ino mode s₁ s' rest later) :
    WalkedAs host place path ino mode s s' (.dir name m children rest) (r :: (made ++ below ++ later)) := by
  have hrecs : (Listing.dir name m children rest).recs place path ino mode s.currentInodeNr =
      (r :: (dotRecs (name.bytes :: place) (joinPath path name.bytes) s.currentInodeNr ino m.val mode ++
        (children.recs (name.bytes :: place) (joinPath path name.bytes) s.currentInodeNr m.val
          (s.currentInodeNr + 1#32 + 2#32)).1 ++ (rest.recs place path ino mode s₁.currentInodeNr).1),
        (rest.recs place path ino mode s₁.currentInodeNr).2) := by
    rw [hb.counter, hr]
    simp only [Listing.recs, dotRecs_length hn]
  refine ⟨?_, ?_, ?_, List.forall_mem_cons.mpr ⟨hstored, ?_⟩⟩
  · rw [ht.list, hb.list]
    simp
  · rw [hrecs]
    exact List.Forall₂.cons (Rec.agrees_entry r) (List.rel_append (List.rel_append hmade hb.agree) ht.agree)
  · rw [hrecs]
    exact ht.counter
  · intro q hq
    rcases List.mem_append.mp hq with hq | hq
    · cases List.mem_append.mp hq with
      | inl hq => exact hmades q hq
      | inr hq => exact hb.stored q hq
    · exact ht.stored q hq

end

/-- A walk that ended recorded its directory as it saw it, if every node it left can be read. -/
theorem scanDir_seen {host : Host} (l : Listing) (fuel : Nat) {path : List Byte} {ino mode : Word}
    {parent : IFSNodeContainer} (place : Place) (recMode : Word) {s s' : Walk} {st : Stat}
    (hserved : l.ServedBy host path mode) (hplain : l.Plain) (hshort : l.Short) (hp : 0#8 ∉ path)
    (hl : path.length < 1024) (hr : parent.realPath = padded 1024 path) (hi : parent.node.inodeNr = ino)
    (hmode : sIsDir mode = true) (hst : Recorded st) (hn : s.currentInodeNr ≠ 0#32)
    (hlt : s.currentInodeNr.toNat + l.inodes < 2 ^ 32)
    (hrun : scanDir host zeroMemory
      (fun names node s => recursive host zeroMemory fuel (some names) node s) parent l.names s st = .ok s')
    (hread : ∀ c ∈ s'.list, Readable host c) :
    ∃ l' rs, SeenAs host path st l l' ∧ WalkedAs host place path ino recMode s s' l' rs := by
  induction l generalizing fuel path ino mode parent place recMode s s' st with
  | nil =>
    obtain rfl := Except.ok.inj hrun
    exact ⟨.nil, [], .nil path st, (List.append_nil _).symm, List.Forall₂.nil, rfl, by simp⟩
  | self rest ih =>
    rw [Listing.names, scanDir, scanEntry_dots (Or.inl rfl)] at hrun
    obtain ⟨l', rs, hseen, hwalked⟩ :=
      ih fuel place recMode hserved hplain hshort hp hl hr hi hmode hst hn hlt hrun hread
    exact ⟨.self l', rs, .self hseen, hwalked.list, hwalked.agree, hwalked.counter, hwalked.stored⟩
  | parent rest ih =>
    rw [Listing.names, scanDir, scanEntry_dots (Or.inr rfl)] at hrun
    obtain ⟨l', rs, hseen, hwalked⟩ :=
      ih fuel place recMode hserved hplain hshort hp hl hr hi hmode hst hn hlt hrun hread
    exact ⟨.parent l', rs, .parent hseen, hwalked.list, hwalked.agree, hwalked.counter, hwalked.stored⟩
  | other name m rest ih => exact hplain.elim
  | file name m contents rest ih =>
    obtain ⟨hstat, hopen, hcontents, hrest⟩ := hserved
    have hkind : Recorded (sees host path st name) := sees_recorded hst fun answer ha => by
      rw [hstat answer ha]
      exact Or.inr m.property
    obtain ⟨s₁, htail, hnul, hlen, hwhich⟩ := scanDir_ran hp hl hr hi hshort.1 hkind hrun
    rcases hwhich with ⟨_, names, hnames, _⟩ | ⟨hreg, rfl⟩
    · rw [hopen] at hnames
      cases hnames
    · rw [Listing.inodes] at hlt
      have hnext : (s.currentInodeNr + 1#32).toNat = s.currentInodeNr.toNat + 1 := toNat_succ (by omega)
      have hroom : (s.currentInodeNr + 1#32).toNat + rest.inodes < 2 ^ 32 := by omega
      obtain ⟨l', rs, hseen, hwalked⟩ := ih fuel place recMode hrest hplain hshort.2 hp hl hr hi hmode hkind
        (ne_zero_of_le hn (Nat.le_of_lt (hnext ▸ Nat.lt_succ_self _))) hroom htail hread
      -- the contents pass read what the tree has, and as much as was recorded
      obtain ⟨bs, hbs, hcut⟩ := (hread _ (by
        rw [hwalked.list]
        exact List.mem_append_left _ (List.mem_append_right _ List.mem_cons_self))).entry hreg hnul hlen
      obtain rfl := hcontents bs hbs
      rw [entryNode_stored path name.bytes ino _ _ (name.bytes :: place) hcut] at hwalked
      refine ⟨.file name ⟨_, hreg⟩ _ l', _, .file rfl hcut hseen, hwalked.file rfl ?_⟩
      exact ⟨Nat.lt_succ_of_le hshort.1, name.noNul, hlen, hnul,
        fun _ => ⟨bs, hbs, by rw [List.length_take, Nat.min_eq_left hcut]⟩⟩
  | dir name m children rest ihc ihr =>
    obtain ⟨hstat, hdot, hup, hopen, hnone, hbelow, hrest⟩ := hserved
    have hkind : Recorded (sees host path st name) := sees_recorded hst fun answer ha => by
      rw [Recorded, hstat answer ha]
      exact Or.inl m.property
    obtain ⟨s₁, htail, hnul, hlen, hwhich⟩ := scanDir_ran hp hl hr hi hshort.1 hkind hrun
    have hgrown : s₁.list <+: s'.list := (extends_rule host s₁.list).scanDir zeroMemory
      (fun names node _ => (extends_rule host s₁.list).recursive zeroMemory fuel (some names) node)
      parent rest.names (List.prefix_refl _) trivial s' htail
    rcases hwhich with ⟨hdir, names, hnames, hrec⟩ | ⟨hreg, rfl⟩
    · obtain rfl := hopen names hnames
      obtain ⟨node, hnode⟩ : ∃ node, node =
        entryNode path ino name.bytes (sees host path st name).stMode s.currentInodeNr [] := ⟨_, rfl⟩
      have hnr : node.realPath = padded 1024 (joinPath path name.bytes) := hnode ▸ container_realPath _ _
      have hni : node.node.inodeNr = s.currentInodeNr := hnode ▸ container_inodeNr _ _
      have hnp : node.node.parentInodeNr = ino := hnode ▸ container_parentInodeNr _ _
      rw [← hnode] at hrec
      cases fuel with
      | zero => cases hrec
      | succ fuel =>
        rw [Listing.inodes] at hlt
        obtain ⟨made, up, k, hstat', hmade, hmades, hscan⟩ := recursive_ran hnul hlen hnr hni hnp hn
          (name.bytes :: place) (sees host path st name).stMode recMode
          (fun answer ha => by rw [hdot answer ha]; exact m.not_reg)
          (fun answer ha => by rw [hup answer ha]; exact DirMode.not_reg ⟨mode, hmode⟩) hrec
        obtain ⟨hne, hin⟩ := inside_counter hn hlt
        have hinside : (s.currentInodeNr + 1#32 + 2#32).toNat + children.inodes < 2 ^ 32 := by
          rw [hin]
          omega
        obtain ⟨children', below, hseenb, hwalkedb⟩ := ihc fuel (name.bytes :: place)
          (sees host path st name).stMode hbelow hplain.1 hshort.2.1 hnul hlen hnr hni m.property
          (Or.inl (by rw [hup up hstat']; exact hmode)) hne hinside hscan (fun c hc => hread c (hgrown.subset hc))
        have hcount := children'.recs_counter (name.bytes :: place) (joinPath path name.bytes) s.currentInodeNr
          (sees host path st name).stMode hne (by rw [hseenb.inodes]; exact hinside)
        rw [← hwalkedb.counter, hseenb.inodes, hin] at hcount
        obtain ⟨rest', later, hseenr, hwalkedr⟩ := ihr (fuel + 1) place recMode hrest hplain.2
          hshort.2.2 hp hl hr hi hmode hkind (ne_zero_of_le hn (by omega)) (by omega) htail hread
        refine ⟨.dir name ⟨_, hdir⟩ children' rest', _, .dir rfl ?_ hseenr,
          WalkedAs.dir hn rfl ?_ hmade hmades (hnode ▸ hwalkedb) hwalkedr⟩
        · rw [entered, hstat', Option.getD_some]
          exact hseenb
        · exact ⟨Nat.lt_succ_of_le hshort.1, name.noNul, hlen, hnul,
            fun hreg => absurd hreg (by simp [DirMode.not_reg ⟨_, hdir⟩])⟩
    · -- recorded as a file it stops the contents pass
      obtain ⟨bs, hbs, _⟩ := (hread _ (hgrown.subset
        (List.mem_append_right _ List.mem_cons_self))).entry hreg hnul hlen
      rw [hnone] at hbs
      cases hbs

/-- A list that was built and can be stored is that of the tree as the walk saw it. -/
theorem buildList_seen {host : Host} {t : SourceTree} {pathPrefix : List Byte} {fuel : Nat}
    {cs : List IFSNodeContainer} (hserved : t.ServedBy host pathPrefix) (hplain : t.listing.Plain)
    (hshort : t.listing.Short) (hp : 0#8 ∉ pathPrefix) (hlt : t.inodes < 2 ^ 32)
    (hlist : buildList host zeroMemory fuel pathPrefix = .ok cs) (hread : ∀ c ∈ cs, Readable host c) :
    ∃ (t' : SourceTree) (rs : List Rec),
      SeenAs host pathPrefix ((host.stat (joinPath pathPrefix dot)).getD ⟨0#32, 0⟩) t.listing t'.listing ∧
      List.Forall₂ (fun c r => ∃ o, c = Rec.container o r) cs rs ∧
      List.Forall₂ Rec.Agrees rs (t'.recs pathPrefix) ∧ ∀ r ∈ rs, Rec.Stored host r := by
  obtain ⟨hl, s, hrun, rfl⟩ := buildList_root.mp hlist
  obtain ⟨root, hroot⟩ : ∃ root, root = (rootRec pathPrefix).container 0#32 := ⟨_, rfl⟩
  have hnr : root.realPath = padded 1024 pathPrefix := hroot ▸ container_realPath _ _
  have hni : root.node.inodeNr = 0#32 := hroot ▸ container_inodeNr _ _
  rw [← hroot] at hrun
  cases fuel with
  | zero => cases hrun
  | succ fuel =>
    obtain ⟨names, made, st, k, hnames, hstat, hmade, hmades, hscan⟩ := recursive_root hp hl hnr hni []
      0#32 t.mode.val 0#32 (fun st hst => by rw [hserved.root st hst]; exact t.mode.not_reg) hrun
    obtain rfl := hserved.opened names hnames
    obtain ⟨l', rs, hseen, hwalked⟩ := scanDir_seen t.listing fuel [] t.mode.val hserved.entries
      hplain hshort hp hl hnr hni t.mode.property (Or.inl (by rw [hserved.root st hstat]; exact t.mode.property))
      (by simp) (by rw [Nat.add_comm]; exact hlt) hscan hread
    refine ⟨⟨t.mode, l'⟩, rootRec pathPrefix :: (made ++ rs), ?_, ?_, ?_, ?_⟩
    · rw [hstat, Option.getD_some]
      exact hseen
    · rw [hwalked.list, hroot, List.append_assoc, ← List.map_append]
      exact containers_cons _ _ _ _
    · exact List.Forall₂.cons (Rec.agrees_entry _) (List.rel_append hmade hwalked.agree)
    · refine List.forall_mem_cons.mpr ⟨⟨by simp [rootRec, slash], by simp [rootRec, slash], hl, hp, fun hreg => ?_⟩,
        List.forall_mem_append.mpr ⟨hmades, hwalked.stored⟩⟩
      exact absurd hreg (by decide : ¬ sIsReg sIFDIR = true)

end CheviotBoot.Mkifs
