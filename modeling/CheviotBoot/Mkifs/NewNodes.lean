import CheviotBoot.Lib.Logged
import CheviotBoot.Mkifs.Walk

namespace CheviotBoot.Mkifs
open Lib

/-- A node that is made: the node of the directory it is in, its name, and its `real_path`, none
where a string operation leaves the array. -/
structure NewNode where
  parent : IFSNodeContainer
  name : List Byte
  realPath : Option (CharBuf 1024)

/-- `real_path` of the node for "." or "..". -/
def dotsPath (mem : Memory) (name : List Byte) (parent : IFSNodeContainer) (s : Walk) :
    Option (CharBuf 1024) :=
  strncat (strncpy (s.malloc mem).1.realPath parent.realPath.toList 1023) (slash ++ name) 1023

/-- `real_path` of the node for an entry. -/
def entryPath (mem : Memory) (parent : IFSNodeContainer) (s : Walk) (dName : List Byte) :
    Option (CharBuf 1024) := do
  let path ← strncat (strncpy (s.malloc mem).1.realPath parent.realPath.toList 1023) slash 1023
  let name ← cstr? (strncpy (s.malloc mem).1.node.name dName 31).toList
  strncat path name 1023

/-- The call that a round of the `readdir` loop makes, where the entry is a directory that opens. -/
def entryCall (host : Host) (mem : Memory) (parent : IFSNodeContainer) (s : Walk) (st : Stat)
    (dName : List Byte) : Option (List (List Byte) × IFSNodeContainer × Walk) := do
  let (node, s) := s.malloc mem
  let path ← strncat (strncpy node.realPath parent.realPath.toList 1023) slash 1023
  let nameStr ← cstr? (strncpy node.node.name dName 31).toList
  let path ← strncat path nameStr 1023
  let pathStr ← cstr? path.toList
  let st := (host.stat pathStr).getD st
  let node : IFSNodeContainer :=
    { node := { node.node with
        name := strncpy node.node.name dName 31
        permissions := st.stMode
        inodeNr := s.currentInodeNr
        parentInodeNr := parent.node.inodeNr
        fileSize := 0#32
        fileOffset := placeholderOffset }
      realPath := path }
  if sIsDir st.stMode then
    let names ← host.opendir pathStr
    some (names, node, { s with currentInodeNr := s.currentInodeNr + 1#32 }.addTail node)
  else none

section
variable (host : Host) (mem : Memory)

/-- `addDots`, `scanEntry`, `scanDir` and `recursive` with a log of the nodes they make. -/
def addDotsLogged (name : List Byte) (inodeNr : Word) (parent : IFSNodeContainer) (s : Walk) :
    Logged NewNode Stop (Walk × Stat) :=
  ⟨[⟨parent, name, dotsPath mem name parent s⟩], addDots host mem name inodeNr parent s⟩

def scanEntryLogged (recurse : List (List Byte) → IFSNodeContainer → Walk → Logged NewNode Stop Walk)
    (parent : IFSNodeContainer) (s : Walk) (st : Stat) (dName : List Byte) :
    Logged NewNode Stop (Walk × Stat) where
  log :=
    if dName = dot ∨ dName = dotDot then [] else
      ⟨parent, dName, entryPath mem parent s dName⟩ ::
        match entryCall host mem parent s st dName with
        | some (names, node, s) => (recurse names node s).log
        | none => []
  result := scanEntry host mem (fun names node s => (recurse names node s).result) parent s st dName

def scanDirLogged (recurse : List (List Byte) → IFSNodeContainer → Walk → Logged NewNode Stop Walk)
    (parent : IFSNodeContainer) : List (List Byte) → Walk → Stat → Logged NewNode Stop Walk
  | [], s, _ => .silent (.ok s)
  | dName :: rest, s, st =>
    (scanEntryLogged host mem recurse parent s st dName).andThen fun (s, st) =>
      scanDirLogged recurse parent rest s st

def recursiveLogged :
    Nat → Option (List (List Byte)) → IFSNodeContainer → Walk → Logged NewNode Stop Walk
  | 0, _, _, _ => .silent (.error .outOfFuel)
  | fuel + 1, dir, parent, s =>
    (addDotsLogged host mem dot parent.node.inodeNr parent s).andThen fun (s, st) =>
    (if parent.node.inodeNr ≠ 0#32 then addDotsLogged host mem dotDot parent.node.parentInodeNr parent s
      else .silent (.ok (s, st))).andThen fun (s, st) =>
    (Logged.silent (orStop .nullDir dir)).andThen fun dir =>
    scanDirLogged host mem (fun names node s => recursiveLogged fuel (some names) node s) parent dir s st

end

/-- A round that ended has gone down with its node, has added it, or has made none for the list. -/
theorem scanEntry_made {host : Host} {mem : Memory} {parent : IFSNodeContainer} {s : Walk} {st : Stat}
    {dName : List Byte} (hd : ¬ (dName = dot ∨ dName = dotDot))
    {recurse : List (List Byte) → IFSNodeContainer → Walk → Except Stop Walk} {r : Walk × Stat}
    (h : scanEntry host mem recurse parent s st dName = .ok r) :
    ∃ node t, entryPath mem parent s dName = some node.realPath ∧
      (t.list = s.list ∨ t.list = s.list ++ [node]) ∧
      (r.1 = t ∨ ∃ names, entryCall host mem parent s st dName = some (names, node, t) ∧
        recurse names node t = .ok r.1) := by
  simp only [scanEntry, hd, if_false, Walk.malloc, bind_eq_ok, orStop_eq_ok] at h
  obtain ⟨slashed, hslash, name, hname, path, hpath, pathStr, hstr, hrest⟩ := h
  have hentry : entryPath mem parent s dName = some path := by
    simp only [entryPath, Walk.malloc, hslash, hname, hpath, bind, Option.bind]
  by_cases hdir : sIsDir ((host.stat pathStr).getD st).stMode = true
  · rw [if_pos hdir] at hrest
    simp only [bind_eq_ok, orStop_eq_ok] at hrest
    obtain ⟨names, hopen, s', hrun, hret⟩ := hrest
    obtain rfl := Except.ok.inj hret
    refine ⟨_, _, hentry, Or.inr rfl, Or.inr ⟨names, ?_, hrun⟩⟩
    simp only [entryCall, Walk.malloc, hslash, hname, hpath, hstr, hdir, hopen, if_true, bind, Option.bind]
  · rw [if_neg hdir] at hrest
    by_cases hreg : sIsReg ((host.stat pathStr).getD st).stMode = true
    · rw [if_pos hreg] at hrest
      obtain rfl := Except.ok.inj hrest
      exact ⟨_, _, hentry, Or.inr rfl, Or.inl rfl⟩
    · rw [if_neg hreg] at hrest
      obtain rfl := Except.ok.inj hrest
      exact ⟨⟨(mem.heap s.mallocs).node, path⟩, ⟨s.list, s.currentInodeNr + 1#32, s.mallocs + 1⟩, hentry,
        Or.inl rfl, Or.inl rfl⟩

theorem scanEntryLogged_result {host : Host} {mem : Memory}
    (recurse : List (List Byte) → IFSNodeContainer → Walk → Logged NewNode Stop Walk)
    (parent : IFSNodeContainer) (s : Walk) (st : Stat) (dName : List Byte) :
    (scanEntryLogged host mem recurse parent s st dName).result =
      scanEntry host mem (fun names node s => (recurse names node s).result) parent s st dName := rfl

theorem scanDirLogged_result {host : Host} {mem : Memory}
    (recurse : List (List Byte) → IFSNodeContainer → Walk → Logged NewNode Stop Walk)
    (parent : IFSNodeContainer) (names : List (List Byte)) (s : Walk) (st : Stat) :
    (scanDirLogged host mem recurse parent names s st).result =
      scanDir host mem (fun names node s => (recurse names node s).result) parent names s st := by
  induction names generalizing s st with
  | nil => rfl
  | cons dName rest ih =>
    rw [scanDirLogged, Logged.andThen_result, scanDir]
    exact bind_congr fun r => ih r.1 r.2

/-- The log changes nothing. -/
theorem recursiveLogged_result {host : Host} {mem : Memory} (fuel : Nat) (dir : Option (List (List Byte)))
    (parent : IFSNodeContainer) (s : Walk) :
    (recursiveLogged host mem fuel dir parent s).result = recursive host mem fuel dir parent s := by
  induction fuel generalizing dir parent s with
  | zero => rfl
  | succ fuel ih =>
    simp only [recursiveLogged, recursive, Logged.andThen_result, Logged.silent_result, scanDirLogged_result, ih]
    refine bind_congr fun r => ?_
    split
    · rfl
    · rfl

/-- What is in the list after a run that was not before has been logged. -/
def Listed {α : Type} (walk : α → Walk) (s : Walk) (x : Logged NewNode Stop α) : Prop :=
  ∀ a, x.result = .ok a → ∀ c ∈ (walk a).list, c ∈ s.list ∨ ∃ new ∈ x.log, new.realPath = some c.realPath

section
variable {host : Host} {mem : Memory} {α β : Type} {walk : α → Walk} {walk' : β → Walk} {s : Walk}

theorem listed_silent {x : Except Stop α} (h : ∀ a, x = .ok a → (walk a).list = s.list) :
    Listed walk s (.silent x) :=
  fun a ha _ hc => Or.inl (h a ha ▸ hc)

theorem Listed.andThen {x : Logged NewNode Stop α} {f : α → Logged NewNode Stop β} (h : Listed walk s x)
    (hf : ∀ a, Listed walk' (walk a) (f a)) : Listed walk' s (x.andThen f) := by
  rcases x with ⟨log, e | a⟩
  · intro b hb
    cases hb
  · intro b hb c hc
    rcases hf a b hb c hc with hold | ⟨new, hnew, hpath⟩
    · rcases h a rfl c hold with hold | ⟨new, hnew, hpath⟩
      · exact Or.inl hold
      · exact Or.inr ⟨new, List.mem_append_left _ hnew, hpath⟩
    · exact Or.inr ⟨new, List.mem_append_right _ hnew, hpath⟩

theorem addDots_listed (name : List Byte) (ino : Word) (parent : IFSNodeContainer) (s : Walk) :
    Listed Prod.fst s (addDotsLogged host mem name ino parent s) := by
  intro a ha c hc
  simp only [addDotsLogged, addDots, Walk.malloc, Walk.addTail, bind_eq_ok, orStop_eq_ok] at ha
  obtain ⟨nodeName, _, path, hpath, pathStr, _, st, _, hret⟩ := ha
  obtain rfl := Except.ok.inj hret
  rcases List.mem_append.mp hc with hold | hnew
  · exact Or.inl hold
  · obtain rfl := List.mem_singleton.mp hnew
    exact Or.inr ⟨_, List.mem_singleton_self _, hpath⟩

theorem scanEntry_listed {recurse : List (List Byte) → IFSNodeContainer → Walk → Logged NewNode Stop Walk}
    (hrec : ∀ names node t, Listed id t (recurse names node t)) (parent : IFSNodeContainer) (s : Walk) (st : Stat)
    (dName : List Byte) : Listed Prod.fst s (scanEntryLogged host mem recurse parent s st dName) := by
  intro a ha c hc
  rw [scanEntryLogged_result] at ha
  by_cases hd : dName = dot ∨ dName = dotDot
  · rw [scanEntry_dots hd] at ha
    obtain rfl := Except.ok.inj ha
    exact Or.inl hc
  · obtain ⟨node, t, hpath, hlist, hend⟩ := scanEntry_made hd ha
    have hlog : (scanEntryLogged host mem recurse parent s st dName).log =
        ⟨parent, dName, entryPath mem parent s dName⟩ ::
          match entryCall host mem parent s st dName with
          | some (names, node, t) => (recurse names node t).log
          | none => [] := if_neg hd
    have hadded : c ∈ t.list → c ∈ s.list ∨
        ∃ new ∈ (scanEntryLogged host mem recurse parent s st dName).log, new.realPath = some c.realPath := by
      intro hct
      rcases hlist with hsame | hnew
      · exact Or.inl (hsame ▸ hct)
      · rw [hnew] at hct
        rcases List.mem_append.mp hct with hold | hlast
        · exact Or.inl hold
        · obtain rfl := List.mem_singleton.mp hlast
          rw [hlog]
          exact Or.inr ⟨_, List.mem_cons_self, hpath⟩
    rcases hend with rfl | ⟨names, hcall, hrun⟩
    · exact hadded hc
    · rcases hrec names node t a.1 hrun c hc with hct | ⟨new, hnew, hnewPath⟩
      · exact hadded hct
      · rw [hlog, hcall]
        exact Or.inr ⟨new, List.mem_cons_of_mem _ hnew, hnewPath⟩

theorem scanDir_listed {recurse : List (List Byte) → IFSNodeContainer → Walk → Logged NewNode Stop Walk}
    (hrec : ∀ names node t, Listed id t (recurse names node t)) (parent : IFSNodeContainer)
    (names : List (List Byte)) (s : Walk) (st : Stat) :
    Listed id s (scanDirLogged host mem recurse parent names s st) := by
  induction names generalizing s st with
  | nil =>
    refine listed_silent fun a ha => ?_
    rw [← Except.ok.inj ha]
    rfl
  | cons dName rest ih => exact (scanEntry_listed hrec parent s st dName).andThen fun r => ih r.1 r.2

/-- Every node of the list that the walk has not found there is one that it made. -/
theorem recursive_listed (fuel : Nat) (dir : Option (List (List Byte))) (parent : IFSNodeContainer) (s : Walk) :
    Listed id s (recursiveLogged host mem fuel dir parent s) := by
  induction fuel generalizing dir parent s with
  | zero =>
    intro a ha
    cases ha
  | succ fuel ih =>
    refine (addDots_listed _ _ _ _).andThen fun r => ?_
    have hup : Listed Prod.fst r.1 (if parent.node.inodeNr ≠ 0#32 then
        addDotsLogged host mem dotDot parent.node.parentInodeNr parent r.1 else .silent (.ok (r.1, r.2))) := by
      split
      · exact addDots_listed _ _ _ _
      · refine listed_silent fun a ha => ?_
        rw [← Except.ok.inj ha]
    refine hup.andThen fun r => ?_
    have hopened : Listed (fun _ => r.1) r.1 (Logged.silent (orStop .nullDir dir)) := listed_silent fun _ _ => rfl
    refine hopened.andThen fun names => ?_
    exact scanDir_listed (fun names node t => ih (some names) node t) parent names r.1 r.2

end

/-- The nodes that a run makes below the root. -/
def newNodes (host : Host) (mem : Memory) (fuel : Nat) (pathPrefix : List Byte) : List NewNode :=
  match strcpy (mem.heap 0).realPath pathPrefix, strcpy (mem.heap 0).node.name slash with
  | some path, some name =>
    let root := rootNode (mem.heap 0) path name
    (recursiveLogged host mem fuel (host.opendir pathPrefix) root ⟨[root], 1#32, 1⟩).log
  | _, _ => []

theorem buildList_listed {host : Host} {mem : Memory} {fuel : Nat} {pathPrefix : List Byte}
    {cs : List IFSNodeContainer} (h : buildList host mem fuel pathPrefix = .ok cs) : ∀ c ∈ cs,
    strcpy (mem.heap 0).realPath pathPrefix = some c.realPath ∨
      ∃ new ∈ newNodes host mem fuel pathPrefix, new.realPath = some c.realPath := by
  obtain ⟨path, name, s, hpath, hname, hrun, rfl⟩ := buildList_ok.mp h
  rw [← recursiveLogged_result] at hrun
  intro c hc
  rcases recursive_listed fuel _ _ _ s hrun c hc with hroot | ⟨new, hnew, hreal⟩
  · obtain rfl := List.mem_singleton.mp hroot
    exact Or.inl hpath
  · refine Or.inr ⟨new, ?_, hreal⟩
    rw [newNodes, hpath, hname]
    exact hnew

end CheviotBoot.Mkifs
