import CheviotBoot.Mkifs.NewNodes
import CheviotBoot.Mkifs.Numbering

namespace CheviotBoot.Mkifs
open Lib

/-- A place for a node: the path of the directory it is in, and its name there. -/
structure Spot where
  directory : List Byte
  name : List Byte

/-- The path of the node. -/
def Spot.path (p : Spot) : List Byte := joinPath p.directory p.name

section
variable (host : Host)

/-- The node for "." or ".." of a directory, with the inode counter after it. -/
def visitDots (name path : List Byte) (n : Word) : Logged Spot Stop (Word × Stat) :=
  ⟨[⟨path, name⟩], (orStop .exitFailure (host.stat (joinPath path name))).map fun st => (n + 1#32, st)⟩

/-- What an entry that is a directory leads to. -/
def visitBelow (visit : List (List Byte) → List Byte → Word → Word → Logged Spot Stop Word)
    (path : List Byte) (n : Word) (st : Stat) : Logged Spot Stop (Word × Stat) :=
  if sIsDir st.stMode then
    (Logged.silent (orStop .exitFailure (host.opendir path))).andThen fun names =>
    (visit names path n (n + 1#32)).andThen fun n => .silent (.ok (n, st))
  else .silent (.ok (n + 1#32, st))

def visitEntry (visit : List (List Byte) → List Byte → Word → Word → Logged Spot Stop Word)
    (path : List Byte) (n : Word) (st : Stat) (dName : List Byte) : Logged Spot Stop (Word × Stat) :=
  if dName = dot ∨ dName = dotDot then .silent (.ok (n, st))
  else
    let below := visitBelow host visit (joinPath path dName) n ((host.stat (joinPath path dName)).getD st)
    ⟨⟨path, dName⟩ :: below.log, below.result⟩

def visitEntries (visit : List (List Byte) → List Byte → Word → Word → Logged Spot Stop Word)
    (path : List Byte) : List (List Byte) → Word → Stat → Logged Spot Stop Word
  | [], n, _ => .silent (.ok n)
  | dName :: rest, n, st =>
    (visitEntry host visit path n st dName).andThen fun (n, st) => visitEntries visit path rest n st

/-- The walk of the source tree by paths of any length, down to some depth: where the nodes
of a directory are, of number `ino` and with the counter at `n`, and of all that is below it. -/
def visit : Nat → Option (List (List Byte)) → List Byte → Word → Word → Logged Spot Stop Word
  | 0, _, _, _, _ => .silent (.error .outOfFuel)
  | fuel + 1, dir, path, ino, n =>
    (visitDots host dot path n).andThen fun (n, st) =>
    (if ino ≠ 0#32 then visitDots host dotDot path n else .silent (.ok (n, st))).andThen fun (n, st) =>
    (Logged.silent (orStop .nullDir dir)).andThen fun dir =>
    visitEntries host (fun names path ino n => visit fuel (some names) path ino n) path dir n st

end

/-- The node has the path of this place, and its parent that of the directory. -/
structure NewNode.At (p : Spot) (new : NewNode) : Prop where
  parent : cstr? new.parent.realPath.toList = some p.directory
  name : new.name = p.name
  realPath : ∃ b, new.realPath = some b ∧ cstr? b.toList = some p.path

/-- The logged walk follows the one by paths, and overruns at the first that is too long. -/
abbrev Follows {α β : Type} (R : α → β → Prop) : Logged Spot Stop α → Logged NewNode Stop β → Prop :=
  Tracks (fun p => p.path.length < 1024) Stop.overrun NewNode.At R

theorem follows_cons {α β : Type} {R : α → β → Prop} {x : Logged Spot Stop α} {y : Logged NewNode Stop β}
    (h : Follows R x y) {p : Spot} {new : NewNode} (hat : new.At p) (hlen : p.path.length < 1024) :
    Follows R ⟨p :: x.log, x.result⟩ ⟨new :: y.log, y.result⟩ := h.cons hat hlen

/-- The counters agree; and so does what `stat` answered last. -/
def Counts (n : Word) (s : Walk) : Prop := s.currentInodeNr = n

def CountsSeen (a : Word × Stat) (b : Walk × Stat) : Prop := b.1.currentInodeNr = a.1 ∧ b.2 = a.2

section
variable {host : Host} {path : List Byte} {parent : IFSNodeContainer}
    (hp : 0#8 ∉ path) (hl : path.length < 1024) (hr : parent.realPath = padded 1024 path)
include hp hl hr

theorem addDots_follows {name : List Byte} (hn : 0#8 ∉ name) (hlen : name.length ≤ 2) (ino : Word) (s : Walk) :
    Follows CountsSeen (visitDots host name path s.currentInodeNr)
      (addDotsLogged host zeroMemory name ino parent s) := by
  by_cases hf : path.length + 1 + name.length < 1024
  · have hpath : dotsPath zeroMemory name parent s = some (padded 1024 (joinPath path name)) := by
      simp only [dotsPath, Walk.malloc, zeroMemory_heap, hr, strncpy_path hp hl, strncat_dots hp hlen hf]
    have hlen' : (joinPath path name).length < 1024 := by rw [joinPath_length]; exact hf
    rw [addDotsLogged, addDots_fits .self [] ino s hn hlen hp hr hf, hpath]
    refine Tracks.cons (?_ : Follows CountsSeen (.silent _) (.silent _)) ⟨?_, rfl, _, rfl, ?_⟩ hlen'
    · cases host.stat (joinPath path name) with
      | none => exact tracks_error (by decide)
      | some st => exact tracks_ok ⟨rfl, rfl⟩
    · rw [hr]
      exact cstr_padded hp hl
    · exact cstr_padded (joinPath_noNul hp hn) hlen'
  · refine tracks_stop ?_ (addDots_overruns ino s hlen hp hl hr (Nat.not_lt.mp hf))
    rw [Spot.path, joinPath_length]
    exact hf

/-- The path and the call of an entry whose path fits. -/
theorem entryCall_zero {name : List Byte} (hn : 0#8 ∉ name) (hlen : name.length ≤ 31)
    (hf : path.length + 1 + name.length < 1024) (s : Walk) (st : Stat) {found : Stat}
    (hs : (host.stat (joinPath path name)).getD st = found) :
    entryPath zeroMemory parent s name = some (padded 1024 (joinPath path name)) ∧
      entryCall host zeroMemory parent s st name =
        if sIsDir found.stMode then
          (host.opendir (joinPath path name)).map fun names =>
            (names, entryNode path parent.node.inodeNr name found.stMode s.currentInodeNr [],
              ⟨s.list ++ [entryNode path parent.node.inodeNr name found.stMode s.currentInodeNr []],
                s.currentInodeNr + 1#32, s.mallocs + 1⟩)
        else none := by
  have hcpy := strncpy_path hp hl
  have hname : strncpy (padded 32 []) name 31 = padded 32 name := strncpy_string hn hlen
  have hcat := strncat_slash hp (by omega)
  have hstr : cstr? (padded 32 name).toList = some name := cstr_padded hn (by omega)
  have hcat' := strncat_name hp hlen hf
  have hpath := cstr_joinPath hp hn hf
  constructor
  · simp only [entryPath, Walk.malloc, zeroMemory_heap, zeroNode, hr, hcpy, hname, hcat, hstr, hcat', bind,
      Option.bind]
  · simp only [entryCall, Walk.malloc, zeroMemory_heap, zeroNode, hr, hcpy, hname, hcat, hstr, hcat', hpath, hs,
      Walk.addTail, entryNode, Rec.container, List.length_nil, bind, Option.bind]
    cases host.opendir (joinPath path name) with
    | none => rfl
    | some names => rfl

/-- One round of the loop, where the walk below the entry follows. -/
theorem scanEntry_follows {visit : List (List Byte) → List Byte → Word → Word → Logged Spot Stop Word}
    {recurse : List (List Byte) → IFSNodeContainer → Walk → Logged NewNode Stop Walk} {name : List Byte}
    (hn : 0#8 ∉ name) (hlen : name.length ≤ 31) (s : Walk) (st : Stat)
    (hbelow : ∀ names node t, host.opendir (joinPath path name) = some names → 0#8 ∉ joinPath path name →
      (joinPath path name).length < 1024 → node.realPath = padded 1024 (joinPath path name) →
        Follows Counts (visit names (joinPath path name) node.node.inodeNr t.currentInodeNr)
          (recurse names node t)) :
    Follows CountsSeen (visitEntry host visit path s.currentInodeNr st name)
      (scanEntryLogged host zeroMemory recurse parent s st name) := by
  by_cases hd : name = dot ∨ name = dotDot
  · have hlogged : scanEntryLogged host zeroMemory recurse parent s st name = .silent (.ok (s, st)) := by
      simp only [scanEntryLogged, hd, if_true, scanEntry_dots hd]
      rfl
    rw [visitEntry, if_pos hd, hlogged]
    exact tracks_ok ⟨rfl, rfl⟩
  · rw [visitEntry, if_neg hd]
    by_cases hf : path.length + 1 + name.length < 1024
    · obtain ⟨found, hfound⟩ : ∃ found, found = (host.stat (joinPath path name)).getD st := ⟨_, rfl⟩
      obtain ⟨hpath, hcall⟩ := entryCall_zero hp hl hr hn hlen hf s st hfound.symm
      have hrun := scanEntry_bytes (fun names node s => (recurse names node s).result)
        (List.replicate found.stSize 0#8) s st hn hd hp hr rfl hlen hf hfound.symm
        (fun _ => by rw [List.length_replicate])
      have hlen' : (joinPath path name).length < 1024 := by rw [joinPath_length]; exact hf
      have hat : NewNode.At ⟨path, name⟩ ⟨parent, name, some (padded 1024 (joinPath path name))⟩ :=
        ⟨by rw [hr]; exact cstr_padded hp hl, rfl, _, rfl, cstr_padded (joinPath_noNul hp hn) hlen'⟩
      rw [scanEntryLogged, if_neg hd, hpath, hcall, hrun, ← hfound, visitBelow]
      by_cases hdir : sIsDir found.stMode = true
      · simp only [hdir, if_true]
        cases hopen : host.opendir (joinPath path name) with
        | none =>
          have hstop : Follows CountsSeen (.silent (.error .exitFailure)) (.silent (.error .exitFailure)) :=
            tracks_error (by decide)
          exact follows_cons hstop hat hlen'
        | some names =>
          have hchild := hbelow names
            (entryNode path parent.node.inodeNr name found.stMode s.currentInodeNr [])
            ⟨s.list ++ [entryNode path parent.node.inodeNr name found.stMode s.currentInodeNr []],
              s.currentInodeNr + 1#32, s.mallocs + 1⟩ hopen (joinPath_noNul hp hn) hlen' rfl
          have hseen : ∀ n t, Counts n t →
              Follows CountsSeen (.silent (.ok (n, found))) (.silent (.ok (t, found))) :=
            fun n t ht => tracks_ok ⟨ht, rfl⟩
          have hall := follows_cons (hchild.andThen hseen) hat hlen'
          rw [Logged.andThen_silent_log, Logged.andThen_silent_log, Logged.andThen_result,
            Logged.andThen_result] at hall
          simp only [orStop, Logged.silent_ok_andThen, Logged.andThen_silent_log, Logged.andThen_result]
          exact hall
      · simp only [hdir, Bool.false_eq_true, if_false]
        have hseen : ∀ t : Walk, t.currentInodeNr = s.currentInodeNr + 1#32 →
            Follows CountsSeen (.silent (.ok (s.currentInodeNr + 1#32, found))) (.silent (.ok (t, found))) :=
          fun t ht => tracks_ok ⟨ht, rfl⟩
        by_cases hreg : sIsReg found.stMode = true
        · rw [if_pos hreg]
          exact follows_cons (hseen _ rfl) hat hlen'
        · rw [if_neg hreg]
          exact follows_cons (hseen _ rfl) hat hlen'
    · have hover : (scanEntryLogged host zeroMemory recurse parent s st name).result = .error .overrun := by
        rw [scanEntryLogged_result]
        exact scanEntry_overruns _ s st hn hd hp hl hr hlen (Nat.not_lt.mp hf)
      refine tracks_stop ?_ hover
      rw [Spot.path, joinPath_length]
      exact hf

end

/-- `readdir` returns C strings that fit a name's 32 bytes. -/
def Host.ShortNames (host : Host) : Prop :=
  ∀ path names, host.opendir path = some names → ∀ name ∈ names, 0#8 ∉ name ∧ name.length ≤ 31

section
variable {host : Host} {path : List Byte} {parent : IFSNodeContainer}

/-- The loop over a directory. -/
theorem scanDir_follows {visit : List (List Byte) → List Byte → Word → Word → Logged Spot Stop Word}
    {recurse : List (List Byte) → IFSNodeContainer → Walk → Logged NewNode Stop Walk}
    (hp : 0#8 ∉ path) (hl : path.length < 1024) (hr : parent.realPath = padded 1024 path)
    (hbelow : ∀ sub names node t, host.opendir sub = some names → 0#8 ∉ sub → sub.length < 1024 →
      node.realPath = padded 1024 sub →
        Follows Counts (visit names sub node.node.inodeNr t.currentInodeNr) (recurse names node t))
    {names : List (List Byte)} (hnames : ∀ name ∈ names, 0#8 ∉ name ∧ name.length ≤ 31) (s : Walk) (st : Stat) :
    Follows Counts (visitEntries host visit path names s.currentInodeNr st)
      (scanDirLogged host zeroMemory recurse parent names s st) := by
  induction names generalizing s st with
  | nil => exact tracks_ok rfl
  | cons name rest ih =>
    obtain ⟨⟨hn, hlen⟩, hrest⟩ := List.forall_mem_cons.mp hnames
    refine (scanEntry_follows hp hl hr hn hlen s st (fun names node t => hbelow _ names node t)).andThen ?_
    rintro ⟨n, st'⟩ ⟨t, st''⟩ ⟨rfl, rfl⟩
    exact ih hrest t st''

/-- The walk of the tool in zeroed memory follows the walk by paths. -/
theorem recursive_follows (hshort : host.ShortNames) (fuel : Nat) {dir : Option (List (List Byte))}
    (hdir : ∀ names, dir = some names → ∀ name ∈ names, 0#8 ∉ name ∧ name.length ≤ 31)
    (hp : 0#8 ∉ path) (hl : path.length < 1024) (hr : parent.realPath = padded 1024 path) (s : Walk) :
    Follows Counts (visit host fuel dir path parent.node.inodeNr s.currentInodeNr)
      (recursiveLogged host zeroMemory fuel dir parent s) := by
  induction fuel generalizing dir path parent s with
  | zero => exact tracks_error (by decide)
  | succ fuel ih =>
    rw [visit, recursiveLogged]
    refine (addDots_follows hp hl hr (by decide) (by decide) _ s).andThen ?_
    rintro ⟨n, st⟩ ⟨s₁, st₁⟩ ⟨rfl, rfl⟩
    refine Tracks.andThen (R := CountsSeen) ?_ ?_
    · by_cases hz : parent.node.inodeNr = 0#32
      · simp only [hz, ne_eq, not_true_eq_false, if_false]
        exact tracks_ok ⟨rfl, rfl⟩
      · simp only [hz, ne_eq, not_false_eq_true, if_true]
        exact addDots_follows hp hl hr (by decide) (by decide) _ s₁
    · rintro ⟨n, st⟩ ⟨s₂, st₂⟩ ⟨rfl, rfl⟩
      cases dir with
      | none => exact tracks_error (by decide)
      | some names =>
        refine scanDir_follows hp hl hr ?_ (hdir names rfl) s₂ st₂
        intro sub names node t hopen hnul hsub hnode
        exact ih (fun _ h => by cases h; exact hshort sub names hopen) hnul hsub hnode t

end

/-- A run never leaves a `real_path`, and each node it makes has that of its parent with a slash and
its own name; those in the list are the root's and nodes so made. -/
structure PathsExact (host : Host) (mem : Memory) (fuel : Nat) (pathPrefix : List Byte) : Prop where
  inside : buildList host mem fuel pathPrefix ≠ .error .overrun
  root : ∃ realPath, strcpy (mem.heap 0).realPath pathPrefix = some realPath ∧
    cstr? realPath.toList = some pathPrefix
  nodes : ∀ new ∈ newNodes host mem fuel pathPrefix, ∃ path realPath,
    cstr? new.parent.realPath.toList = some path ∧ new.realPath = some realPath ∧
      cstr? realPath.toList = some (joinPath path new.name)
  listed : ∀ cs, buildList host mem fuel pathPrefix = .ok cs → ∀ c ∈ cs,
    strcpy (mem.heap 0).realPath pathPrefix = some c.realPath ∨
      ∃ new ∈ newNodes host mem fuel pathPrefix, new.realPath = some c.realPath

/-- All paths that the walk comes to leave room for their NUL. -/
def PathsFit (host : Host) (fuel : Nat) (pathPrefix : List Byte) : Prop :=
  pathPrefix.length < 1024 ∧
    ∀ p ∈ (visit host fuel (host.opendir pathPrefix) pathPrefix 0#32 1#32).log, p.path.length < 1024

section
variable {host : Host} {pathPrefix : List Byte}

/-- In zeroed memory the run is that of the walk from the root's record. -/
theorem buildList_follows (fuel : Nat) (hshort : host.ShortNames) (hp : 0#8 ∉ pathPrefix)
    (hl : pathPrefix.length < 1024) :
    ∃ y, Follows Counts (visit host fuel (host.opendir pathPrefix) pathPrefix 0#32 1#32) y ∧
      newNodes host zeroMemory fuel pathPrefix = y.log ∧
      buildList host zeroMemory fuel pathPrefix = y.result.map Walk.list := by
  have hname : strcpy (zeroMemory.heap 0).node.name slash = some (padded 32 slash) :=
    strcpy_padded (by decide : slash.length < 32)
  have hpath : strcpy (zeroMemory.heap 0).realPath pathPrefix = some (padded 1024 pathPrefix) := strcpy_padded hl
  obtain ⟨root, hroot⟩ : ∃ root, root =
    rootNode (zeroMemory.heap 0) (padded 1024 pathPrefix) (padded 32 slash) := ⟨_, rfl⟩
  have hr : root.realPath = padded 1024 pathPrefix := by rw [hroot]; rfl
  have hi : root.node.inodeNr = 0#32 := by rw [hroot]; rfl
  refine ⟨recursiveLogged host zeroMemory fuel (host.opendir pathPrefix) root ⟨[root], 1#32, 1⟩, ?_, ?_, ?_⟩
  · have hfollows := recursive_follows hshort fuel (hshort pathPrefix) hp hl hr ⟨[root], 1#32, 1⟩
    rwa [hi] at hfollows
  · rw [newNodes, hpath, hname, hroot]
  · rw [buildList_run hpath hname, recursiveLogged_result, hroot]

/-- Where a path does not fit the run leaves its array. -/
theorem buildList_overruns {fuel : Nat} (hshort : host.ShortNames) (hp : 0#8 ∉ pathPrefix)
    (h : ¬ PathsFit host fuel pathPrefix) : buildList host zeroMemory fuel pathPrefix = .error .overrun := by
  by_cases hl : pathPrefix.length < 1024
  · obtain ⟨y, hfollows, _, hrun⟩ := buildList_follows fuel hshort hp hl
    have hlong : ∃ p ∈ (visit host fuel (host.opendir pathPrefix) pathPrefix 0#32 1#32).log,
        ¬ p.path.length < 1024 := by
      simpa only [PathsFit, hl, true_and, not_forall, exists_prop] using h
    rw [hrun, hfollows.stops hlong]
    rfl
  · have hcpy : strcpy (zeroMemory.heap 0).realPath pathPrefix = none := if_neg (by omega)
    simp only [buildList, Walk.malloc, hcpy, orStop, bind, Except.bind]

theorem pathsExact_of_fit {fuel : Nat} (hshort : host.ShortNames) (hp : 0#8 ∉ pathPrefix)
    (h : PathsFit host fuel pathPrefix) : PathsExact host zeroMemory fuel pathPrefix := by
  obtain ⟨hl, hfits⟩ := h
  obtain ⟨y, hfollows, hnew, hrun⟩ := buildList_follows fuel hshort hp hl
  obtain ⟨hnever, hres⟩ := hfollows.results hfits
  refine ⟨?_, ⟨padded 1024 pathPrefix, strcpy_padded hl, cstr_padded hp hl⟩, ?_, ?_⟩
  · rw [hrun]
    intro hover
    generalize (visit host fuel (host.opendir pathPrefix) pathPrefix 0#32 1#32).result = walked at hnever hres
    generalize y.result = run at hres hover
    cases hres with
    | ok _ => cases hover
    | error e => exact hnever (congrArg _ (Except.error.inj hover))
  · intro new hmem
    rw [hnew] at hmem
    obtain ⟨p, _, hat⟩ := forall₂_mem_right (hfollows.logs hfits) hmem
    obtain ⟨realPath, hreal, hstr⟩ := hat.realPath
    rw [hat.name]
    exact ⟨p.directory, realPath, hat.parent, hreal, hstr⟩
  · exact fun cs hcs => buildList_listed hcs

end

/-- The walk ends, with this of its result, and its paths fit exactly when that holds. -/
def EndsFitting {α : Type} (x : Logged Spot Stop α) (P : α → Prop) (fits : Prop) : Prop :=
  ∃ a, x.result = .ok a ∧ P a ∧ ((∀ p ∈ x.log, p.path.length < 1024) ↔ fits)

section
variable {host : Host} {α β : Type} {P : α → Prop} {Q : β → Prop} {p q : Prop}

theorem endsFitting_silent {a : α} (h : P a) : EndsFitting (.silent (.ok a)) P True :=
  ⟨a, rfl, h, iff_of_true (List.forall_mem_nil _) trivial⟩

theorem EndsFitting.andThen {x : Logged Spot Stop α} {f : α → Logged Spot Stop β} (h : EndsFitting x P p)
    (hf : ∀ a, P a → EndsFitting (f a) Q q) : EndsFitting (x.andThen f) Q (p ∧ q) := by
  rcases x with ⟨log, result⟩
  obtain ⟨a, rfl, ha, hfits⟩ := h
  obtain ⟨b, hb, hQ, hrest⟩ := hf a ha
  refine ⟨b, hb, hQ, ?_⟩
  rw [← hfits, ← hrest]
  exact List.forall_mem_append

theorem EndsFitting.mono {x : Logged Spot Stop α} {P' : α → Prop} (h : EndsFitting x P p)
    (hP : ∀ a, P a → P' a) (hpq : p ↔ q) : EndsFitting x P' q := by
  obtain ⟨a, ha, hPa, hfits⟩ := h
  exact ⟨a, ha, hP a hPa, hfits.trans hpq⟩

theorem EndsFitting.cons {x : Logged Spot Stop α} (h : EndsFitting x P p) (spot : Spot) :
    EndsFitting ⟨spot :: x.log, x.result⟩ P (spot.path.length < 1024 ∧ p) := by
  obtain ⟨a, ha, hP, hfits⟩ := h
  refine ⟨a, ha, hP, ?_⟩
  rw [← hfits]
  exact List.forall_mem_cons

theorem visitDots_fitting {name path : List Byte} {st : Stat} (n : Word)
    (hst : host.stat (joinPath path name) = some st) :
    EndsFitting (visitDots host name path n) (fun a => a.1 = n + 1#32)
      (path.length + 1 + name.length < 1024) := by
  refine ⟨(n + 1#32, st), ?_, rfl, ?_⟩
  · rw [visitDots, hst]
    rfl
  · rw [← joinPath_length]
    exact List.forall_mem_singleton

theorem visitEntry_fitting {visit : List (List Byte) → List Byte → Word → Word → Logged Spot Stop Word}
    {path : List Byte} {found : Stat} (name : FileName) (n : Word) (st : Stat) {R : Word × Stat → Prop}
    (hst : host.stat (joinPath path name.bytes) = some found)
    (hbelow : EndsFitting (visitBelow host visit (joinPath path name.bytes) n found) R p) :
    EndsFitting (visitEntry host visit path n st name.bytes) R
      (path.length + 1 + name.bytes.length < 1024 ∧ p) := by
  have hd : ¬ (name.bytes = dot ∨ name.bytes = dotDot) := by simp [name.notDot, name.notDotDot]
  rw [visitEntry, if_neg hd, hst, ← joinPath_length]
  exact hbelow.cons ⟨path, name.bytes⟩

/-- A directory other than the root whose entries are walked to the end. -/
theorem visit_fitting {path : List Byte} {ino : Word} (fuel : Nat) (names : List (List Byte)) (n : Word)
    (hz : ino ≠ 0#32) {st up : Stat} (hdot : host.stat (joinPath path dot) = some st)
    (hup : host.stat (joinPath path dotDot) = some up) {R : Word → Prop}
    (hentries : ∀ st, EndsFitting
      (visitEntries host (fun names path ino n => visit host fuel (some names) path ino n) path names
        (n + 2#32) st) R p) :
    EndsFitting (visit host (fuel + 1) (some names) path ino n) R (path.length + 3 < 1024 ∧ p) := by
  have hnext : n + 1#32 + 1#32 = n + 2#32 := by
    rw [BitVec.add_assoc]
    rfl
  have hrest : ∀ a : Word × Stat, a.1 = n + 1#32 → EndsFitting
      ((visitDots host dotDot path a.1).andThen fun b =>
        visitEntries host (fun names path ino n => visit host fuel (some names) path ino n) path names b.1 b.2)
      R (path.length + 1 + dotDot.length < 1024 ∧ p) := by
    intro a ha
    refine (visitDots_fitting a.1 hup).andThen fun b hb => ?_
    rw [hb, ha, hnext]
    exact hentries b.2
  have hrun := (visitDots_fitting n hdot).andThen hrest
  have hvisit : visit host (fuel + 1) (some names) path ino n =
      (visitDots host dot path n).andThen fun a => (visitDots host dotDot path a.1).andThen fun b =>
        visitEntries host (fun names path ino n => visit host fuel (some names) path ino n) path names b.1 b.2 := by
    simp only [visit, hz, ne_eq, not_false_eq_true, if_true, orStop, Logged.silent_ok_andThen]
  rw [hvisit]
  refine hrun.mono (fun _ h => h) ?_
  rw [← and_assoc]
  refine and_congr ?_ Iff.rfl
  simp only [dot, dotDot, List.length_cons, List.length_nil]
  omega

/-- A proper entry, and the entries after it. -/
theorem visitEntries_cons_fitting {visit : List (List Byte) → List Byte → Word → Word → Logged Spot Stop Word}
    {path : List Byte} {found : Stat} (name : FileName) {names : List (List Byte)} {n : Word} {st : Stat}
    {K R : Word → Prop} (hst : host.stat (joinPath path name.bytes) = some found)
    (hbelow : EndsFitting (visitBelow host visit (joinPath path name.bytes) n found) (fun a => K a.1) p)
    (hrest : ∀ k st, K k → EndsFitting (visitEntries host visit path names k st) R q) :
    EndsFitting (visitEntries host visit path (name.bytes :: names) n st) R
      ((path.length + 1 + name.bytes.length < 1024 ∧ p) ∧ q) :=
  (visitEntry_fitting name n st hst hbelow).andThen fun a ha => hrest a.1 a.2 ha

/-- One that is no directory. -/
theorem visitEntries_leaf_fitting {visit : List (List Byte) → List Byte → Word → Word → Logged Spot Stop Word}
    {path : List Byte} {found : Stat} (name : FileName) {names : List (List Byte)} {n : Word} {st : Stat}
    {R : Word → Prop} (hst : host.stat (joinPath path name.bytes) = some found)
    (hdir : sIsDir found.stMode = false)
    (hrest : ∀ st, EndsFitting (visitEntries host visit path names (n + 1#32) st) R q) :
    EndsFitting (visitEntries host visit path (name.bytes :: names) n st) R
      (path.length + 1 + name.bytes.length < 1024 ∧ q) := by
  have hbelow : EndsFitting (visitBelow host visit (joinPath path name.bytes) n found)
      (fun a => a.1 = n + 1#32) True := by
    rw [visitBelow, hdir]
    exact endsFitting_silent rfl
  have hlater : ∀ k st, k = n + 1#32 → EndsFitting (visitEntries host visit path names k st) R q :=
    fun k st hk => hk ▸ hrest st
  refine (visitEntries_cons_fitting (K := (· = n + 1#32)) name hst hbelow hlater).mono (fun _ h => h) ?_
  rw [and_true]

/-- The entries of a directory that the host holds are walked to the end, and their paths fit exactly
where the listing does. -/
theorem visitEntries_fitting (l : Listing) (fuel : Nat) {path : List Byte} {mode n : Word} (st : Stat)
    (hon : l.On host path mode) (hd : l.depth ≤ fuel) (hn : n ≠ 0#32) (hlt : n.toNat + l.inodes < 2 ^ 32) :
    EndsFitting (visitEntries host (fun names path ino n => visit host fuel (some names) path ino n) path
      l.names n st) (fun k => k.toNat = n.toNat + l.inodes) (l.Fits path.length) := by
  induction l generalizing fuel path mode n st with
  | nil => exact endsFitting_silent rfl
  | self rest ih =>
    have hskip : visitEntry host (fun names path ino n => visit host fuel (some names) path ino n) path n st dot =
        .silent (.ok (n, st)) := if_pos (Or.inl rfl)
    rw [Listing.names, visitEntries, hskip]
    exact ih fuel st hon hd hn hlt
  | parent rest ih =>
    have hskip : visitEntry host (fun names path ino n => visit host fuel (some names) path ino n) path n st dotDot =
        .silent (.ok (n, st)) := if_pos (Or.inr rfl)
    rw [Listing.names, visitEntries, hskip]
    exact ih fuel st hon hd hn hlt
  | file name m contents rest ih =>
    obtain ⟨hst, _, hrest⟩ := hon
    rw [Listing.inodes] at hlt ⊢
    have hnext : (n + 1#32).toNat = n.toNat + 1 := toNat_succ (by omega)
    have hlater := fun st' => ih fuel st' hrest hd
      (ne_zero_of_le hn (by omega : n.toNat ≤ (n + 1#32).toNat)) (by omega)
    exact (visitEntries_leaf_fitting name hst m.not_dir hlater).mono (fun k hk => by omega) Iff.rfl
  | other name m rest ih =>
    obtain ⟨⟨size, hst⟩, hrest⟩ := hon
    rw [Listing.inodes] at hlt ⊢
    have hnext : (n + 1#32).toNat = n.toNat + 1 := toNat_succ (by omega)
    have hlater := fun st' => ih fuel st' hrest hd
      (ne_zero_of_le hn (by omega : n.toNat ≤ (n + 1#32).toNat)) (by omega)
    exact (visitEntries_leaf_fitting name hst m.property.1 hlater).mono (fun k hk => by omega) Iff.rfl
  | dir name m children rest ihc ihr =>
    obtain ⟨⟨size, hst⟩, ⟨dsize, hdot⟩, ⟨usize, hup⟩, hopen, hchildren, hrest⟩ := hon
    rw [Listing.inodes] at hlt
    rw [Listing.depth] at hd
    obtain ⟨fuel, rfl⟩ : ∃ f, fuel = f + 1 := ⟨fuel - 1, by omega⟩
    obtain ⟨hne, hin⟩ := inside_counter hn (by omega : n.toNat + (children.inodes + 3) < 2 ^ 32)
    have hbelow : EndsFitting (visitBelow host
        (fun names path ino n => visit host (fuel + 1) (some names) path ino n) (joinPath path name.bytes) n
        ⟨m.val, size⟩) (fun a => a.1.toNat = n.toNat + 3 + children.inodes)
        ((joinPath path name.bytes).length + 3 < 1024 ∧ children.Fits (joinPath path name.bytes).length) := by
      simp only [visitBelow, m.property, if_true, hopen, orStop, Logged.silent_ok_andThen]
      have hdown := visit_fitting fuel children.names (n + 1#32) hn hdot hup fun st' =>
        ihc fuel st' hchildren (by omega) hne (by omega)
      refine (hdown.andThen fun k hk => endsFitting_silent ?_).mono (fun _ h => h) (by rw [and_true])
      rw [hin] at hk
      exact hk
    have hlater : ∀ k st', k.toNat = n.toNat + 3 + children.inodes → EndsFitting
        (visitEntries host (fun names path ino n => visit host (fuel + 1) (some names) path ino n) path
          rest.names k st')
        (fun j => j.toNat = n.toNat + (children.inodes + rest.inodes + 3)) (rest.Fits path.length) := by
      intro k st' hk
      have hk' := ne_zero_of_le hn (by omega : n.toNat ≤ k.toNat)
      have htail := ihr (fuel + 1) st' hrest (by omega) hk' (by omega)
      exact htail.mono (fun j hj => by omega) Iff.rfl
    refine (visitEntries_cons_fitting name hst hbelow hlater).mono (fun _ h => h) ?_
    rw [Listing.Fits, joinPath_length]
    constructor
    · rintro ⟨⟨_, hdots, hsub⟩, htail⟩
      exact ⟨hdots, hsub, htail⟩
    · rintro ⟨hdots, hsub, htail⟩
      exact ⟨⟨by omega, hdots, hsub⟩, htail⟩

/-- For a tree that the host holds the paths are those of the listing. -/
theorem pathsFit_iff {t : SourceTree} {pathPrefix : List Byte} {fuel : Nat} (hon : t.On host pathPrefix)
    (hlt : t.inodes < 2 ^ 32) (hd : t.listing.depth < fuel) :
    PathsFit host fuel pathPrefix ↔ pathPrefix.length + 2 < 1024 ∧ t.listing.Fits pathPrefix.length := by
  obtain ⟨⟨size, hdot⟩, hopen, hentries⟩ := hon
  obtain ⟨fuel, rfl⟩ : ∃ f, fuel = f + 1 := ⟨fuel - 1, by omega⟩
  have hroom : (2#32 : Word).toNat + t.listing.inodes < 2 ^ 32 := by
    rw [Nat.add_comm]
    exact hlt
  have hrest : ∀ a : Word × Stat, a.1 = 1#32 + 1#32 → EndsFitting
      (visitEntries host (fun names path ino n => visit host fuel (some names) path ino n) pathPrefix
        t.listing.names a.1 a.2)
      (fun k => k.toNat = 2 + t.listing.inodes) (t.listing.Fits pathPrefix.length) := by
    intro a ha
    rw [ha]
    exact visitEntries_fitting t.listing fuel a.2 hentries (Nat.le_of_lt_succ hd) (by decide) hroom
  have hrun := (visitDots_fitting 1#32 hdot).andThen hrest
  have hvisit : visit host (fuel + 1) (host.opendir pathPrefix) pathPrefix 0#32 1#32 =
      (visitDots host dot pathPrefix 1#32).andThen fun a =>
        visitEntries host (fun names path ino n => visit host fuel (some names) path ino n) pathPrefix
          t.listing.names a.1 a.2 := by
    simp only [visit, hopen, ne_eq, not_true_eq_false, if_false, orStop, Logged.silent_ok_andThen]
  obtain ⟨_, _, _, hfits⟩ := hrun
  have hlen : dot.length = 1 := rfl
  rw [PathsFit, hvisit, hfits]
  constructor
  · rintro ⟨_, hroot, hlisting⟩
    exact ⟨by omega, hlisting⟩
  · rintro ⟨hroot, hlisting⟩
    exact ⟨by omega, by omega, hlisting⟩

end

/-- With names that fit and memory zeroed the paths are exact precisely where those of the walk fit:
for a tree that the host holds whole, where those of its listing do. -/
theorem pathsExact_iff {host : Host} {pathPrefix : List Byte} (hshort : host.ShortNames) (hp : 0#8 ∉ pathPrefix) :
    (∀ fuel, PathsExact host zeroMemory fuel pathPrefix ↔ PathsFit host fuel pathPrefix) ∧
      ∀ (t : SourceTree) fuel, t.On host pathPrefix → t.inodes < 2 ^ 32 → t.listing.depth < fuel →
        (PathsExact host zeroMemory fuel pathPrefix ↔
          pathPrefix.length + 2 < 1024 ∧ t.listing.Fits pathPrefix.length) := by
  have hiff : ∀ fuel, PathsExact host zeroMemory fuel pathPrefix ↔ PathsFit host fuel pathPrefix := by
    intro fuel
    refine ⟨fun h => ?_, pathsExact_of_fit hshort hp⟩
    exact Classical.not_not.mp fun hn => h.inside (buildList_overruns hshort hp hn)
  exact ⟨hiff, fun t fuel hon hlt hd => (hiff fuel).trans (pathsFit_iff hon hlt hd)⟩

theorem bootHost_shortNames : bootHost.ShortNames := by
  intro path names hopen
  simp only [bootHost] at hopen
  split at hopen
  · obtain rfl := Option.some.inj hopen
    decide
  · split at hopen
    · obtain rfl := Option.some.inj hopen
      decide
    · cases hopen

theorem bootTree_pathsExact : PathsExact bootHost zeroMemory 2 rootPath :=
  have hiff := (pathsExact_iff bootHost_shortNames (by decide)).2 bootTree 2 bootTree_packable.held
  (hiff (by decide) (by decide)).mpr ⟨by decide, bootTree_packable.fits⟩

def deepName : FileName :=
  ⟨List.replicate 31 100#8, by decide, by decide, by decide, by decide, by decide⟩

/-- Directories one in another, each with a name of 31 bytes. -/
def nested : Nat → Listing
  | 0 => .nil
  | k + 1 => .dir deepName plainDir (nested k) .nil

/-- A host that holds them where the path of the innermost has 1025 bytes. -/
def nestedHost : Host where
  stat := fun _ => some ⟨plainDir.val, 4096⟩
  opendir := fun path => some (if path.length < 1024 then [deepName.bytes] else [])
  contents := fun _ => none

theorem nestedHost_shortNames : nestedHost.ShortNames := by
  intro path names hopen name hname
  obtain rfl := Option.some.inj hopen
  split at hname
  · obtain rfl := List.mem_singleton.mp hname
    decide
  · cases hname

theorem nestedHost_opendir {k : Nat} {path : List Byte} (h : path.length + 32 * k = 1025) :
    nestedHost.opendir path = some (nested k).names := by
  cases k with
  | zero => exact congrArg some (if_neg (by omega))
  | succ k => exact congrArg some (if_pos (by omega))

theorem nested_on (k : Nat) {path : List Byte} (h : path.length + 32 * k = 1025) :
    (nested k).On nestedHost path plainDir.val := by
  induction k generalizing path with
  | zero => trivial
  | succ k ih =>
    have hsub : (joinPath path deepName.bytes).length + 32 * k = 1025 := by
      have hlen : deepName.bytes.length = 31 := by decide
      rw [joinPath_length, hlen]
      omega
    exact ⟨⟨4096, rfl⟩, ⟨4096, rfl⟩, ⟨4096, rfl⟩, nestedHost_opendir hsub, ih hsub, trivial⟩

theorem nested_not_fits {k len : Nat} (h : len + 32 * (k + 1) = 1025) : ¬ (nested (k + 1)).Fits len := by
  have hlen : deepName.bytes.length = 31 := by decide
  induction k generalizing len with
  | zero =>
    rintro ⟨hdots, _⟩
    omega
  | succ k ih =>
    rintro ⟨_, hbelow, _⟩
    exact ih (by omega) hbelow

theorem nested_short (k : Nat) : (nested k).Short := by
  induction k with
  | zero => trivial
  | succ k ih => exact ⟨by decide, ih, trivial⟩

theorem nested_inodes (k : Nat) : (nested k).inodes = 3 * k := by
  induction k with
  | zero => rfl
  | succ k ih =>
    simp only [nested, Listing.inodes, ih]
    omega

theorem nested_depth (k : Nat) : (nested k).depth = k := by
  induction k with
  | zero => rfl
  | succ k ih => simp [nested, Listing.depth, ih]

/-- With 32 of them the name of the innermost is appended past the end of its array. -/
theorem nested_overruns : ¬ ∀ (host : Host) (t : SourceTree) (pathPrefix : List Byte) (fuel : Nat),
    t.On host pathPrefix → t.listing.Short → host.ShortNames → 0#8 ∉ pathPrefix →
      PathsExact host zeroMemory fuel pathPrefix := by
  intro hall
  have hon : SourceTree.On nestedHost ⟨plainDir, nested 32⟩ rootPath :=
    ⟨⟨4096, rfl⟩, nestedHost_opendir (by decide), nested_on 32 (by decide)⟩
  have hlong : ¬ PathsFit nestedHost 33 rootPath := by
    have hinodes : SourceTree.inodes ⟨plainDir, nested 32⟩ < 2 ^ 32 := by
      simp [SourceTree.inodes, nested_inodes]
    have hdepth : (nested 32).depth < 33 := by simp [nested_depth]
    rw [pathsFit_iff hon hinodes hdepth]
    exact fun hfits => nested_not_fits (k := 31) (by decide) hfits.2
  have hexact := hall nestedHost ⟨plainDir, nested 32⟩ rootPath 33 hon (nested_short 32) nestedHost_shortNames
    (by decide)
  exact hexact.inside (buildList_overruns nestedHost_shortNames (by decide) hlong)

end CheviotBoot.Mkifs
