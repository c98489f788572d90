import CheviotBoot.Mkifs.Source

namespace CheviotBoot.Mkifs
open Lib

theorem zeroMemory_heap (k : Nat) : zeroMemory.heap k = ⟨zeroNode, padded 1024 []⟩ := rfl

theorem joinPath_noNul {path name : List Byte} (hp : 0#8 ∉ path) (hn : 0#8 ∉ name) :
    0#8 ∉ joinPath path name := by
  simp [joinPath, slash, hp, hn]

theorem joinPath_length (path name : List Byte) :
    (joinPath path name).length = path.length + 1 + name.length := by
  simp [joinPath, slash]
  omega

section
variable {path name : List Byte} (hp : 0#8 ∉ path)
include hp

theorem strncpy_path (hl : path.length < 1024) :
    strncpy (padded 1024 []) (padded 1024 path).toList 1023 = padded 1024 path :=
  strncpy_padded hp (Nat.le_of_lt_succ hl) (Nat.le_of_lt hl)

theorem strncat_slash (hl : path.length + 1 < 1024) :
    strncat (padded 1024 path) slash 1023 = some (padded 1024 (path ++ slash)) :=
  strncat_padded hp (by decide) hl

theorem strncat_name (hlen : name.length ≤ 31) (hf : path.length + 1 + name.length < 1024) :
    strncat (padded 1024 (path ++ slash)) name 1023 = some (padded 1024 (joinPath path name)) :=
  strncat_padded (by simp [slash, hp]) (by omega) (by simpa [slash] using hf)

theorem strncat_dots (hlen : name.length ≤ 2) (hf : path.length + 1 + name.length < 1024) :
    strncat (padded 1024 path) (slash ++ name) 1023 = some (padded 1024 (joinPath path name)) := by
  rw [strncat_padded hp (by simp [slash]; omega) (by simp [slash]; omega), joinPath, List.append_assoc]

theorem cstr_joinPath (hn : 0#8 ∉ name) (hf : path.length + 1 + name.length < 1024) :
    cstr? (padded 1024 (joinPath path name)).toList = some (joinPath path name) :=
  cstr_padded (joinPath_noNul hp hn) (by rw [joinPath_length]; exact hf)

end

/-- In zeroed memory the node for "." or ".." is the record's container, where its path fits. -/
theorem addDots_fits {host : Host} {name path : List Byte} {parent : IFSNodeContainer} (role : Role)
    (place : Place) (ino : Word) (s : Walk) (hn : 0#8 ∉ name) (hl : name.length ≤ 2) (hp : 0#8 ∉ path)
    (hr : parent.realPath = padded 1024 path) (hf : path.length + 1 + name.length < 1024) :
    addDots host zeroMemory name ino parent s =
      (orStop .exitFailure (host.stat (joinPath path name))).map fun st =>
        (⟨s.list ++ [Rec.container placeholderOffset
            ⟨role, place, name, ino, parent.node.inodeNr, st.stMode, [], joinPath path name⟩],
          s.currentInodeNr + 1#32, s.mallocs + 1⟩, st) := by
  have hcpy := strncpy_path hp (by omega)
  have hcat := strncat_dots hp hl hf
  have hname : strcpy (padded 32 []) name = some (padded 32 name) := strcpy_padded (by omega)
  have hstr := cstr_joinPath hp hn hf
  cases hs : host.stat (joinPath path name) with
  | none =>
    simp only [addDots, Walk.malloc, zeroMemory_heap, zeroNode, hr, hcpy, hcat, hname, hstr, hs, orStop, bind,
      Except.bind, Except.map]
  | some st =>
    simp only [addDots, Walk.malloc, zeroMemory_heap, zeroNode, hr, hcpy, hcat, hname, hstr, hs, orStop,
      Walk.addTail, Rec.container, List.length_nil, bind, Except.bind, pure, Except.pure, Except.map]

theorem addDots_overruns {host : Host} {name path : List Byte} {parent : IFSNodeContainer} (ino : Word) (s : Walk)
    (hlen : name.length ≤ 2) (hp : 0#8 ∉ path) (hl : path.length < 1024)
    (hr : parent.realPath = padded 1024 path) (hlong : 1024 ≤ path.length + 1 + name.length) :
    addDots host zeroMemory name ino parent s = .error .overrun := by
  have hname : strcpy (padded 32 []) name = some (padded 32 name) := strcpy_padded (by omega)
  have hcpy := strncpy_path hp hl
  have hcat : strncat (padded 1024 path) (slash ++ name) 1023 = none :=
    strncat_overruns hp hl (by simp [slash]; omega) (by simp [slash]; omega)
  simp only [addDots, Walk.malloc, zeroMemory_heap, zeroNode, hr, hcpy, hcat, hname, orStop, bind, Except.bind]

theorem addDots_zero {host : Host} {name path : List Byte} {parentIno mode : Word} {size : Nat}
    {parent : IFSNodeContainer} (role : Role) (place : Place) (ino : Word) (s : Walk)
    (hn : 0#8 ∉ name) (hl : name.length ≤ 2) (hp : 0#8 ∉ path)
    (hr : parent.realPath = padded 1024 path) (hi : parent.node.inodeNr = parentIno)
    (hf : path.length + 1 + name.length < 1024)
    (hs : host.stat (joinPath path name) = some ⟨mode, size⟩) :
    addDots host zeroMemory name ino parent s = .ok
      (⟨s.list ++ [Rec.container placeholderOffset
          ⟨role, place, name, ino, parentIno, mode, [], joinPath path name⟩],
        s.currentInodeNr + 1#32, s.mallocs + 1⟩, ⟨mode, size⟩) := by
  subst hi
  rw [addDots_fits role place ino s hn hl hp hr hf, hs]
  rfl

theorem scanEntry_dots {host : Host} {mem : Memory}
    {recurse : List (List Byte) → IFSNodeContainer → Walk → Except Stop Walk}
    {parent : IFSNodeContainer} {s : Walk} {st : Stat} {dName : List Byte}
    (h : dName = dot ∨ dName = dotDot) : scanEntry host mem recurse parent s st dName = .ok (s, st) := by
  simp only [scanEntry, h, if_true, pure, Except.pure]

/-- The node of an entry in zeroed memory, before its kind is looked at. -/
def entryNode (path : List Byte) (ino : Word) (name : List Byte) (mode n : Word)
    (contents : List Byte) :
    IFSNodeContainer :=
  Rec.container placeholderOffset ⟨.entry, [], name, n, ino, mode, contents, joinPath path name⟩

@[simp] theorem container_realPath (offset : Word) (r : Rec) :
    (r.container offset).realPath = padded 1024 r.path := rfl

@[simp] theorem container_inodeNr (offset : Word) (r : Rec) :
    (r.container offset).node.inodeNr = r.inodeNr := rfl

@[simp] theorem container_parentInodeNr (offset : Word) (r : Rec) :
    (r.container offset).node.parentInodeNr = r.parentInodeNr := rfl

section
variable {host : Host} {path : List Byte} {ino : Word} {parent : IFSNodeContainer}

/-- One round on a proper entry in zeroed memory, down to the case on its kind. -/
theorem scanEntry_bytes (recurse : List (List Byte) → IFSNodeContainer → Walk → Except Stop Walk)
    {name : List Byte} (contents : List Byte) (s : Walk) (st : Stat) {found : Stat}
    (hn : 0#8 ∉ name) (hd : ¬ (name = dot ∨ name = dotDot))
    (hp : 0#8 ∉ path) (hr : parent.realPath = padded 1024 path) (hi : parent.node.inodeNr = ino)
    (hl : name.length ≤ 31) (hf : path.length + 1 + name.length < 1024)
    (hs : (host.stat (joinPath path name)).getD st = found)
    (hc : sIsReg found.stMode = true → BitVec.ofNat 32 contents.length = BitVec.ofNat 32 found.stSize) :
    scanEntry host zeroMemory recurse parent s st name =
      if sIsDir found.stMode then do
        let names ← orStop .exitFailure (host.opendir (joinPath path name))
        let s ← recurse names
          (entryNode path ino name found.stMode s.currentInodeNr [])
          ⟨s.list ++ [entryNode path ino name found.stMode s.currentInodeNr []],
            s.currentInodeNr + 1#32, s.mallocs + 1⟩
        return (s, found)
      else if sIsReg found.stMode then
        .ok (⟨s.list ++ [entryNode path ino name found.stMode s.currentInodeNr contents],
          s.currentInodeNr + 1#32, s.mallocs + 1⟩, found)
      else .ok (⟨s.list, s.currentInodeNr + 1#32, s.mallocs + 1⟩, found) := by
  have hcpy := strncpy_path hp (by omega)
  have hname : strncpy (padded 32 []) name 31 = padded 32 name := strncpy_string hn hl
  have hcat := strncat_slash hp (by omega)
  have hstr : cstr? (padded 32 name).toList = some name := cstr_padded hn (by omega)
  have hcat' := strncat_name hp hl hf
  have hpath := cstr_joinPath hp hn hf
  simp only [scanEntry, hd, if_false, Walk.malloc, zeroMemory_heap, zeroNode,
    hr, hi, hcpy, hname, hcat, hstr,
    hcat', hpath, hs, orStop, Walk.addTail, entryNode, Rec.container, bind, Except.bind,
    pure, Except.pure, List.length_nil]
  by_cases hreg : sIsReg found.stMode = true
  · simp only [hreg, if_true, hc hreg]
  · simp only [hreg, Bool.false_eq_true, if_false]

/-- An entry whose path does not fit stops the round, with the slash or with the name. -/
theorem scanEntry_overruns (recurse : List (List Byte) → IFSNodeContainer → Walk → Except Stop Walk)
    {name : List Byte} (s : Walk) (st : Stat) (hn : 0#8 ∉ name) (hd : ¬ (name = dot ∨ name = dotDot))
    (hp : 0#8 ∉ path) (hl : path.length < 1024) (hr : parent.realPath = padded 1024 path)
    (hlen : name.length ≤ 31) (hlong : 1024 ≤ path.length + 1 + name.length) :
    scanEntry host zeroMemory recurse parent s st name = .error .overrun := by
  have hcpy := strncpy_path hp hl
  by_cases hslash : path.length + 1 < 1024
  · have hname : strncpy (padded 32 []) name 31 = padded 32 name := strncpy_string hn hlen
    have hstr : cstr? (padded 32 name).toList = some name := cstr_padded hn (by omega)
    have hcat := strncat_slash hp hslash
    have hcat' : strncat (padded 1024 (path ++ slash)) name 1023 = none :=
      strncat_overruns (by simp [slash, hp]) (by simpa [slash] using hslash) (by omega)
        (by simpa [slash] using hlong)
    simp only [scanEntry, hd, if_false, Walk.malloc, zeroMemory_heap, zeroNode, hr, hcpy, hname, hcat, hstr, hcat',
      orStop, bind, Except.bind]
  · have hcat : strncat (padded 1024 path) slash 1023 = none :=
      strncat_overruns hp hl (by decide) (Nat.not_lt.mp hslash)
    simp only [scanEntry, hd, if_false, Walk.malloc, zeroMemory_heap, hr, hcpy, hcat, orStop, bind, Except.bind]

theorem scanEntry_zero (recurse : List (List Byte) → IFSNodeContainer → Walk → Except Stop Walk)
    (name : FileName) (contents : List Byte) (s : Walk) (st : Stat) {found : Stat}
    (hp : 0#8 ∉ path) (hr : parent.realPath = padded 1024 path) (hi : parent.node.inodeNr = ino)
    (hl : name.bytes.length ≤ 31) (hf : path.length + 1 + name.bytes.length < 1024)
    (hs : (host.stat (joinPath path name.bytes)).getD st = found)
    (hc : sIsReg found.stMode = true → BitVec.ofNat 32 contents.length = BitVec.ofNat 32 found.stSize) :
    scanEntry host zeroMemory recurse parent s st name.bytes =
      if sIsDir found.stMode then do
        let names ← orStop .exitFailure (host.opendir (joinPath path name.bytes))
        let s ← recurse names
          (entryNode path ino name.bytes found.stMode s.currentInodeNr [])
          ⟨s.list ++ [entryNode path ino name.bytes found.stMode s.currentInodeNr []],
            s.currentInodeNr + 1#32, s.mallocs + 1⟩
        return (s, found)
      else if sIsReg found.stMode then
        .ok (⟨s.list ++ [entryNode path ino name.bytes found.stMode s.currentInodeNr contents],
          s.currentInodeNr + 1#32, s.mallocs + 1⟩, found)
      else .ok (⟨s.list, s.currentInodeNr + 1#32, s.mallocs + 1⟩, found) :=
  scanEntry_bytes recurse contents s st name.noNul (by simp [name.notDot, name.notDotDot]) hp hr hi hl hf hs hc

end

/-- Entering a directory: its dots, then whatever the scan of its entries gives. -/
theorem recursive_zero {host : Host} {path : List Byte} {ino parentIno mode : Word}
    {parent : IFSNodeContainer} {size : Nat} {k : Word} (fuel : Nat) (names : List (List Byte)) (place : Place)
    (parentMode : Word) (s : Walk) (rs : List Rec)
    (hp : 0#8 ∉ path) (hr : parent.realPath = padded 1024 path) (hi : parent.node.inodeNr = ino)
    (hpi : parent.node.parentInodeNr = parentIno)
    (hf : path.length + (if ino ≠ 0#32 then 3 else 2) < 1024)
    (hdot : host.stat (joinPath path dot) = some ⟨mode, size⟩)
    (hup : ino ≠ 0#32 → ∃ size, host.stat (joinPath path dotDot) = some ⟨parentMode, size⟩)
    (hscan : ∀ (t : Walk) (st : Stat),
      t.currentInodeNr = s.currentInodeNr +
        BitVec.ofNat 32 (dotRecs place path ino parentIno mode parentMode).length →
      ∃ m, scanDir host zeroMemory
        (fun names node s => recursive host zeroMemory fuel (some names) node s) parent names t st =
          .ok ⟨t.list ++ rs.map (Rec.container placeholderOffset), k, m⟩) :
    ∃ m, recursive host zeroMemory (fuel + 1) (some names) parent s =
      .ok ⟨s.list ++ (dotRecs place path ino parentIno mode parentMode ++ rs).map
        (Rec.container placeholderOffset), k, m⟩ := by
  subst hi hpi
  have hself := addDots_zero .self place parent.node.inodeNr s
    (by decide : 0#8 ∉ dot) (by decide) hp hr rfl
    (by simp only [dot, List.length_singleton]; split at hf <;> omega) hdot
  by_cases hz : parent.node.inodeNr = 0#32
  · have hd : dotRecs place path parent.node.inodeNr parent.node.parentInodeNr mode parentMode =
        [⟨.self, place, dot, parent.node.inodeNr, parent.node.inodeNr, mode, [], joinPath path dot⟩] := by
      simp [dotRecs, hz]
    rw [hd] at hscan ⊢
    obtain ⟨m, hm⟩ := hscan ⟨s.list ++ [Rec.container placeholderOffset
      ⟨.self, place, dot, parent.node.inodeNr, parent.node.inodeNr, mode, [], joinPath path dot⟩],
      s.currentInodeNr + 1#32, s.mallocs + 1⟩ ⟨mode, size⟩ rfl
    refine ⟨m, ?_⟩
    have hz' : ¬ (parent.node.inodeNr ≠ 0#32) := by simp [hz]
    simp only [recursive, hself, bind, Except.bind, hz', if_false, orStop, hm]
    simp
  · obtain ⟨size', hs'⟩ := hup hz
    rw [if_pos hz] at hf
    have hup' := addDots_zero .up place parent.node.parentInodeNr ⟨s.list ++ [Rec.container placeholderOffset
      ⟨.self, place, dot, parent.node.inodeNr, parent.node.inodeNr, mode, [], joinPath path dot⟩],
      s.currentInodeNr + 1#32, s.mallocs + 1⟩ (by decide : 0#8 ∉ dotDot) (by decide) hp hr rfl
      (by simp only [dotDot, List.length_cons, List.length_nil]; omega) hs'
    have hd : dotRecs place path parent.node.inodeNr parent.node.parentInodeNr mode parentMode =
        [⟨.self, place, dot, parent.node.inodeNr, parent.node.inodeNr, mode, [], joinPath path dot⟩,
          ⟨.up, place, dotDot, parent.node.parentInodeNr, parent.node.inodeNr, parentMode, [],
            joinPath path dotDot⟩] := by
      simp [dotRecs, hz]
    rw [hd] at hscan ⊢
    obtain ⟨m, hm⟩ := hscan ⟨(s.list ++ [Rec.container placeholderOffset
      ⟨.self, place, dot, parent.node.inodeNr, parent.node.inodeNr, mode, [], joinPath path dot⟩]) ++
      [Rec.container placeholderOffset ⟨.up, place, dotDot, parent.node.parentInodeNr, parent.node.inodeNr,
        parentMode, [], joinPath path dotDot⟩],
      s.currentInodeNr + 1#32 + 1#32, s.mallocs + 1 + 1⟩ ⟨parentMode, size'⟩
      (by simp [BitVec.add_assoc])
    refine ⟨m, ?_⟩
    have hz' : parent.node.inodeNr ≠ 0#32 := hz
    simp only [recursive, hself, bind, Except.bind, if_pos hz', hup', orStop, hm]
    simp

/-- What the listing of one directory entry alone makes, its parent's mode given. -/
def dirRecs (name : FileName) (m : DirMode) (children : Listing) (place : Place) (path : List Byte)
    (ino mode n : Word) : List Rec × Word :=
  (Listing.dir name m children .nil).recs place path ino mode n

/-- A directory just entered is walked to its end. -/
theorem recursive_child {host : Host} {path : List Byte} {ino mode : Word} (fuel : Nat) (name : FileName)
    (m : DirMode) (children : Listing) (place : Place) (s : Walk) {size : Nat} (hp : 0#8 ∉ path)
    (hfit : path.length + 1 + name.bytes.length + 3 < 1024)
    (hdot : host.stat (joinPath (joinPath path name.bytes) dot) = some ⟨m.val, size⟩)
    (hup : ∃ size, host.stat (joinPath (joinPath path name.bytes) dotDot) = some ⟨mode, size⟩)
    (hscan : ∀ (node : IFSNodeContainer) (t : Walk) (st : Stat),
      node.realPath = padded 1024 (joinPath path name.bytes) → node.node.inodeNr = s.currentInodeNr →
        ∃ k, scanDir host zeroMemory
            (fun names node s => recursive host zeroMemory fuel (some names) node s) node children.names t st =
          .ok ⟨t.list ++ (children.recs (name.bytes :: place) (joinPath path name.bytes) s.currentInodeNr
              m.val t.currentInodeNr).1.map (Rec.container placeholderOffset),
            (children.recs (name.bytes :: place) (joinPath path name.bytes) s.currentInodeNr
              m.val t.currentInodeNr).2, k⟩) :
    ∃ k, recursive host zeroMemory (fuel + 1) (some children.names)
        (entryNode path ino name.bytes m.val s.currentInodeNr [])
        ⟨s.list ++ [entryNode path ino name.bytes m.val s.currentInodeNr []],
          s.currentInodeNr + 1#32, s.mallocs + 1⟩ =
      .ok ⟨s.list ++ (dirRecs name m children place path ino mode s.currentInodeNr).1.map
          (Rec.container placeholderOffset),
        (dirRecs name m children place path ino mode s.currentInodeNr).2, k⟩ := by
  obtain ⟨node, hnode⟩ : ∃ node, node =
    entryNode path ino name.bytes m.val s.currentInodeNr [] := ⟨_, rfl⟩
  have hnr : node.realPath = padded 1024 (joinPath path name.bytes) := hnode ▸ container_realPath _ _
  have hni : node.node.inodeNr = s.currentInodeNr := hnode ▸ container_inodeNr _ _
  have hnp : node.node.parentInodeNr = ino := hnode ▸ container_parentInodeNr _ _
  obtain ⟨below, hbelow⟩ : ∃ below, below =
    children.recs (name.bytes :: place) (joinPath path name.bytes) s.currentInodeNr m.val
      (s.currentInodeNr + 1#32 + BitVec.ofNat 32 (dotRecs (name.bytes :: place) (joinPath path name.bytes)
        s.currentInodeNr ino m.val mode).length) := ⟨_, rfl⟩
  have hlen := joinPath_length path name.bytes
  obtain ⟨k, hk⟩ := recursive_zero (k := below.2) fuel children.names (name.bytes :: place) mode
    ⟨s.list ++ [node], s.currentInodeNr + 1#32, s.mallocs + 1⟩ below.1 (joinPath_noNul hp name.noNul) hnr hni hnp
    (by rw [hlen]; split <;> omega) hdot (fun _ => hup) (fun t st ht => by
      rw [hbelow, ← ht]
      exact hscan node t st hnr hni)
  refine ⟨k, ?_⟩
  rw [← hnode, hk]
  simp [dirRecs, Listing.recs, ← hbelow, hnode, entryNode, Rec.container]

/-- The walk of a listing appends exactly its records. -/
theorem scanDir_zero {host : Host} (l : Listing) (fuel : Nat) {path : List Byte} {ino mode : Word}
    {parent : IFSNodeContainer} (place : Place) (s : Walk) (st : Stat)
    (hon : l.On host path mode) (hp : 0#8 ∉ path) (hs : l.Short) (hf : l.Fits path.length)
    (hd : l.depth ≤ fuel) (hr : parent.realPath = padded 1024 path) (hi : parent.node.inodeNr = ino) :
    ∃ m, scanDir host zeroMemory
        (fun names node s => recursive host zeroMemory fuel (some names) node s) parent l.names s st =
      .ok ⟨s.list ++ (l.recs place path ino mode s.currentInodeNr).1.map (Rec.container placeholderOffset),
        (l.recs place path ino mode s.currentInodeNr).2, m⟩ := by
  induction l generalizing fuel path ino mode parent place s st with
  | nil => exact ⟨s.mallocs, by simp [Listing.names, scanDir, Listing.recs]⟩
  | self rest ih =>
    obtain ⟨m, hm⟩ := ih fuel place s st hon hp hs hf hd hr hi
    exact ⟨m, by
      simp only [Listing.names, scanDir, scanEntry_dots (Or.inl rfl), bind,
        Except.bind, Listing.recs, hm]⟩
  | parent rest ih =>
    obtain ⟨m, hm⟩ := ih fuel place s st hon hp hs hf hd hr hi
    exact ⟨m, by
      simp only [Listing.names, scanDir, scanEntry_dots (Or.inr rfl), bind,
        Except.bind, Listing.recs, hm]⟩
  | file name m contents rest ih =>
    obtain ⟨hst, _, hrest⟩ := hon
    have hfound : (host.stat (joinPath path name.bytes)).getD st = ⟨m.val, contents.length⟩ := by
      rw [hst, Option.getD_some]
    have hentry := scanEntry_zero
      (fun names node s => recursive host zeroMemory fuel (some names) node s)
      name contents s st hp hr hi hs.1 hf.1 hfound (fun _ => rfl)
    simp only [m.not_dir, m.property, Bool.false_eq_true, if_false, if_true] at hentry
    obtain ⟨k, hk⟩ := ih fuel place
      ⟨s.list ++ [entryNode path ino name.bytes m.val s.currentInodeNr contents],
        s.currentInodeNr + 1#32, s.mallocs + 1⟩ ⟨m.val, contents.length⟩
      hrest hp hs.2 hf.2 hd hr hi
    refine ⟨k, ?_⟩
    simp only [Listing.names, scanDir, hentry, bind, Except.bind, hk]
    simp [Listing.recs, entryNode, Rec.container]
  | other name m rest ih =>
    obtain ⟨⟨size, hst⟩, hrest⟩ := hon
    have hfound : (host.stat (joinPath path name.bytes)).getD st = ⟨m.val, size⟩ := by
      rw [hst, Option.getD_some]
    have hentry := scanEntry_zero
      (fun names node s => recursive host zeroMemory fuel (some names) node s)
      name [] s st hp hr hi hs.1 hf.1 hfound (fun h => by simp [m.property.2] at h)
    simp only [m.property.1, m.property.2, Bool.false_eq_true, if_false] at hentry
    obtain ⟨k, hk⟩ := ih fuel place ⟨s.list, s.currentInodeNr + 1#32, s.mallocs + 1⟩ ⟨m.val, size⟩
      hrest hp hs.2 hf.2 hd hr hi
    exact ⟨k, by simp only [Listing.names, scanDir, hentry, bind, Except.bind, hk, Listing.recs]⟩
  | dir name m children rest ihc ihr =>
    obtain ⟨⟨size, hst⟩, ⟨dsize, hdot⟩, hup, hopen, hbelow, hrest⟩ := hon
    obtain ⟨fuel, rfl⟩ : ∃ f, fuel = f + 1 := ⟨fuel - 1, by simp only [Listing.depth] at hd; omega⟩
    have hfound : (host.stat (joinPath path name.bytes)).getD st = ⟨m.val, size⟩ := by
      rw [hst, Option.getD_some]
    have hentry := scanEntry_zero
      (fun names node s => recursive host zeroMemory (fuel + 1) (some names) node s)
      name [] s st hp hr hi hs.1 (by have := hf.1; omega) hfound
      (fun h => by simp [m.not_reg] at h)
    simp only [m.property, if_true, hopen, orStop, bind, Except.bind] at hentry
    obtain ⟨k, hk⟩ := recursive_child fuel name m children place s hp hf.1 hdot hup (fun node t st hnr hni =>
      ihc fuel (name.bytes :: place) t st hbelow (joinPath_noNul hp name.noNul) hs.2.1
        (by rw [joinPath_length]; exact hf.2.1) (by simp only [Listing.depth] at hd; omega) hnr hni)
    rw [hk] at hentry
    obtain ⟨j, hj⟩ := ihr (fuel + 1) place ⟨_, _, k⟩ ⟨m.val, size⟩ hrest hp hs.2.2 hf.2.2
      (by simp only [Listing.depth] at hd; omega) hr hi
    refine ⟨j, ?_⟩
    simp only [Listing.names, scanDir, hentry, bind, Except.bind, pure, Except.pure]
    rw [hj]
    simp [dirRecs, Listing.recs]

/-- The root's container, made of what `malloc` returned. -/
def rootNode (c : IFSNodeContainer) (path : CharBuf 1024) (name : CharBuf 32) : IFSNodeContainer :=
  { node := { c.node with name := name, permissions := sIFDIR, inodeNr := 0#32, parentInodeNr := 0#32 }
    realPath := path }

/-- With the root's strings copied the list is that of the walk from it. -/
theorem buildList_run {host : Host} {mem : Memory} {fuel : Nat} {pathPrefix : List Byte} {path : CharBuf 1024}
    {name : CharBuf 32} (hpath : strcpy (mem.heap 0).realPath pathPrefix = some path)
    (hname : strcpy (mem.heap 0).node.name slash = some name) :
    buildList host mem fuel pathPrefix =
      (recursive host mem fuel (host.opendir pathPrefix) (rootNode (mem.heap 0) path name)
        ⟨[rootNode (mem.heap 0) path name], 1#32, 1⟩).map Walk.list := by
  unfold buildList
  simp only [Walk.malloc, hpath, hname, orStop]
  change (recursive host mem fuel (host.opendir pathPrefix) (rootNode (mem.heap 0) path name)
    ⟨[rootNode (mem.heap 0) path name], 1#32, 1⟩ >>= fun s => Except.ok s.list) = _
  cases recursive host mem fuel (host.opendir pathPrefix) (rootNode (mem.heap 0) path name)
    ⟨[rootNode (mem.heap 0) path name], 1#32, 1⟩ with
  | error e => rfl
  | ok s => rfl

/-- When the list is built, and from what walk. -/
theorem buildList_ok {host : Host} {mem : Memory} {fuel : Nat} {pathPrefix : List Byte}
    {cs : List IFSNodeContainer} :
    buildList host mem fuel pathPrefix = .ok cs ↔
      ∃ path name s, strcpy (mem.heap 0).realPath pathPrefix = some path ∧
        strcpy (mem.heap 0).node.name slash = some name ∧
        recursive host mem fuel (host.opendir pathPrefix) (rootNode (mem.heap 0) path name)
          ⟨[rootNode (mem.heap 0) path name], 1#32, 1⟩ = .ok s ∧ s.list = cs := by
  cases hpath : strcpy (mem.heap 0).realPath pathPrefix with
  | none => simp [buildList, Walk.malloc, hpath, orStop, bind, Except.bind]
  | some path =>
    cases hname : strcpy (mem.heap 0).node.name slash with
    | none => simp [buildList, Walk.malloc, hpath, hname, orStop, bind, Except.bind]
    | some name =>
      rw [buildList_run hpath hname]
      cases hrun : recursive host mem fuel (host.opendir pathPrefix) (rootNode (mem.heap 0) path name)
        ⟨[rootNode (mem.heap 0) path name], 1#32, 1⟩ with
      | error e => simp [Except.map, hrun]
      | ok s => simp [Except.map, hrun]

/-- In zeroed memory the walk starts from the root's record. -/
theorem buildList_root {host : Host} {pathPrefix : List Byte} {fuel : Nat} {cs : List IFSNodeContainer} :
    buildList host zeroMemory fuel pathPrefix = .ok cs ↔ pathPrefix.length < 1024 ∧
      ∃ s, recursive host zeroMemory fuel (host.opendir pathPrefix) ((rootRec pathPrefix).container 0#32)
        ⟨[(rootRec pathPrefix).container 0#32], 1#32, 1⟩ = .ok s ∧ s.list = cs := by
  have hname : strcpy (zeroMemory.heap 0).node.name slash = some (padded 32 slash) :=
    strcpy_padded (by decide : slash.length < 32)
  have hpath : pathPrefix.length < 1024 →
      strcpy (zeroMemory.heap 0).realPath pathPrefix = some (padded 1024 pathPrefix) := fun h => strcpy_padded h
  have hroot : rootNode (zeroMemory.heap 0) (padded 1024 pathPrefix) (padded 32 slash) =
      (rootRec pathPrefix).container 0#32 := rfl
  rw [buildList_ok]
  constructor
  · rintro ⟨path, name, s, hcopied, hcalled, hrun, hlist⟩
    have hfits := strcpy_fits hcopied
    obtain rfl := Option.some.inj ((hpath hfits).symm.trans hcopied)
    obtain rfl := Option.some.inj (hname.symm.trans hcalled)
    rw [hroot] at hrun
    exact ⟨hfits, s, hrun, hlist⟩
  · rintro ⟨hfits, s, hrun, hlist⟩
    rw [← hroot] at hrun
    exact ⟨_, _, s, hpath hfits, hname, hrun, hlist⟩

/-- A packable tree is walked to the end, given fuel for its depth, and the list
is its records in order. -/
theorem buildList_zero {host : Host} {t : SourceTree} {pathPrefix : List Byte} {fuel : Nat}
    (h : Packable host t pathPrefix) (hd : t.listing.depth < fuel) :
    buildList host zeroMemory fuel pathPrefix = .ok ((rootRec pathPrefix).container 0#32 ::
      (t.recs pathPrefix).tail.map (Rec.container placeholderOffset)) := by
  obtain ⟨fuel, rfl⟩ : ∃ f, fuel = f + 1 := ⟨fuel - 1, by omega⟩
  have hlen := h.rootFits
  obtain ⟨size, hroot⟩ := h.held.root
  obtain ⟨root, hnode⟩ : ∃ root, root = (rootRec pathPrefix).container 0#32 := ⟨_, rfl⟩
  have hnr : root.realPath = padded 1024 pathPrefix := hnode ▸ container_realPath _ _
  have hni : root.node.inodeNr = 0#32 := hnode ▸ container_inodeNr _ _
  have hnp : root.node.parentInodeNr = 0#32 := hnode ▸ container_parentInodeNr _ _
  obtain ⟨m, hm⟩ := recursive_zero (k := (t.listing.recs [] pathPrefix 0#32 t.mode.val 2#32).2)
    fuel t.listing.names [] 0#32 ⟨[root], 1#32, 1⟩
    (t.listing.recs [] pathPrefix 0#32 t.mode.val 2#32).1 h.noNul hnr hni hnp (by simpa using hlen) hroot
    (fun hz => absurd rfl hz)
    (fun s st hs => by
      have he : s.currentInodeNr = 2#32 := by simpa [dotRecs] using hs
      rw [← he]
      exact scanDir_zero t.listing fuel [] s st h.held.entries h.noNul h.short h.fits (by omega) hnr hni)
  rw [hnode] at hm
  exact buildList_root.mpr ⟨by omega, _, h.held.opened.symm ▸ hm, rfl⟩

end CheviotBoot.Mkifs
