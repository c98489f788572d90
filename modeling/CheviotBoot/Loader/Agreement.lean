import CheviotBoot.Lib.Loop
import CheviotBoot.Loader.Inside

namespace CheviotBoot.Loader
open Lib

/-- The locals of the two scans. -/
structure Scan where
  ifsNode : Word
  bootDirFound : Bool
  bootInodeNr : Word
  fileFound : Bool

/-- The body of the first loop. -/
def dirRound (m : Mem) (dirname : List Byte) (s : Scan) : ForInStep Scan :=
  if strCmp m s.ifsNode dirname = 0 then
    .done { s with bootDirFound := true, bootInodeNr := m.word (s.ifsNode + 32#32) }
  else .yield { s with ifsNode := s.ifsNode + 60#32 }

/-- The body of the second. -/
def fileRound (m : Mem) (filename : List Byte) (s : Scan) : ForInStep Scan :=
  if strCmp m s.ifsNode filename = 0 ∧ m.word (s.ifsNode + 36#32) = s.bootInodeNr then
    .done { s with fileFound := true }
  else .yield { s with ifsNode := s.ifsNode + 60#32 }

/-- The two loops and what follows each: none where the function returns -1, and else `ifs_node`.
`boot_inode_nr` starts as what is on the stack. -/
def scanTable (m : Mem) (ifsImage : Word) (dirname filename : List Byte) (onStack : Word) : Option Word :=
  let table := ifsImage + m.word (ifsImage + 4#32)
  let nodeCnt := (m.word (ifsImage + 8#32)).toInt.toNat
  let s := forBreak (dirRound m dirname) nodeCnt ⟨table, false, onStack, false⟩
  if s.bootDirFound = false then none
  else
    let s := forBreak (fileRound m filename) nodeCnt { s with ifsNode := table }
    if s.fileFound = false then none else some s.ifsNode

/-- The scans as `elf_find` has them, and as `elf_load` does. -/
def elfFindScan (m : Mem) (ifsImage : Word) (dirname filename : List Byte) (onStack : Word) : Option Word :=
  scanTable m ifsImage dirname filename onStack

def elfLoadScan (m : Mem) (ifsImage : Word) (filename : List Byte) (onStack : Word) : Option Word :=
  scanTable m ifsImage bootName filename onStack

/-- What a caller of `elf_find` has after the call: its value, `*file` and `*file_size`. -/
structure Lookup where
  result : Word
  file : Word
  fileSize : Word
  deriving DecidableEq

/-- A call of `elf_find`. Where the function ends without `return` the caller takes what is in the
register for the value. -/
def callElfFind (m : Mem) (ifsImage : Word) (dirname filename : List Byte) (onStack inRegister : Word)
    (file fileSize : Word) : Lookup :=
  match elfFindScan m ifsImage dirname filename onStack with
  | none => ⟨-1, file, fileSize⟩
  | some ifsNode => ⟨inRegister, ifsImage + m.word (ifsNode + 52#32), m.word (ifsNode + 56#32)⟩

/-- Record `t` of the node table. -/
def recordAt (m : Mem) (ifsImage : Word) (t : Nat) : Word :=
  ifsImage + m.word (ifsImage + 4#32) + BitVec.ofNat 32 (60 * t)

def recordCnt (m : Mem) (ifsImage : Word) : Nat := (m.word (ifsImage + 8#32)).toInt.toNat

/-- The string at the start of a record. -/
def Named (m : Mem) (node : Word) (name : List Byte) : Prop := m.Carries node (name ++ [0#8])

/-- The first record of a name whose parent is the number of the first record of the directory's. -/
def Selected (m : Mem) (ifsImage : Word) (dirname filename : List Byte) (node : Word) : Prop :=
  ∃ d, First (fun t => Named m (recordAt m ifsImage t) dirname) (recordCnt m ifsImage) d ∧
    ∃ f, First (fun t => Named m (recordAt m ifsImage t) filename ∧
        m.word (recordAt m ifsImage t + 36#32) = m.word (recordAt m ifsImage d + 32#32)) (recordCnt m ifsImage) f ∧
      recordAt m ifsImage f = node

/-- Both lookups select the record there is to select, and `elf_find` says which case it is,
whatever was on the stack, in the register and behind its pointers. -/
structure Unambiguous (m : Mem) (ifsImage : Word) (filename : List Byte) : Prop where
  find : ∀ onStack node, elfFindScan m ifsImage bootName filename onStack = some node ↔
    Selected m ifsImage bootName filename node
  load : ∀ onStack node, elfLoadScan m ifsImage filename onStack = some node ↔
    Selected m ifsImage bootName filename node
  found : ∀ node, Selected m ifsImage bootName filename node → ∀ onStack inRegister file fileSize,
    callElfFind m ifsImage bootName filename onStack inRegister file fileSize =
      ⟨0#32, ifsImage + m.word (node + 52#32), m.word (node + 56#32)⟩
  failed : (∀ node, ¬ Selected m ifsImage bootName filename node) → ∀ onStack inRegister file fileSize,
    callElfFind m ifsImage bootName filename onStack inRegister file fileSize = ⟨-1, file, fileSize⟩

/-- A loop over the records that leaves at one that is wanted goes as far as the search does. -/
theorem forBreak_findNode {σ : Type} {body : σ → ForInStep σ} {isWanted : Word → Bool} (visit left : Word → σ)
    (hbody : ∀ a, body (visit a) = if isWanted a then .done (left a) else .yield (visit (a + 60#32))) (cnt : Nat)
    (a : Word) : forBreak body cnt (visit a) =
      match findNode isWanted cnt a with
      | some node => left node
      | none => visit (a + BitVec.ofNat 32 (60 * cnt)) := by
  induction cnt generalizing a with
  | zero => exact congrArg visit (BitVec.add_zero a).symm
  | succ cnt ih =>
    rw [forBreak, findNode, hbody]
    cases isWanted a with
    | true => rfl
    | false =>
      have hnext : a + 60#32 + BitVec.ofNat 32 (60 * cnt) = a + BitVec.ofNat 32 (60 * (cnt + 1)) := by
        rw [offset_add, Nat.mul_succ, Nat.add_comm]
      rw [← hnext]
      exact ih (a + 60#32)

theorem dirRounds_eq (m : Mem) (dirname : List Byte) (onStack : Word) (cnt : Nat) (a : Word) :
    forBreak (dirRound m dirname) cnt ⟨a, false, onStack, false⟩ =
      match findNode (fun node => strCmp m node dirname == 0) cnt a with
      | some node => ⟨node, true, m.word (node + 32#32), false⟩
      | none => ⟨a + BitVec.ofNat 32 (60 * cnt), false, onStack, false⟩ := by
  refine forBreak_findNode (fun a => Scan.mk a false onStack false)
    (fun a => Scan.mk a true (m.word (a + 32#32)) false) (fun a => ?_) cnt a
  by_cases h : strCmp m a dirname = 0
  · simp [dirRound, h]
  · simp [dirRound, h]

theorem fileRounds_eq (m : Mem) (filename : List Byte) (nr : Word) (cnt : Nat) (a : Word) :
    forBreak (fileRound m filename) cnt ⟨a, true, nr, false⟩ =
      match findNode (fun node => strCmp m node filename == 0 && m.word (node + 36#32) == nr) cnt a with
      | some node => ⟨node, true, nr, true⟩
      | none => ⟨a + BitVec.ofNat 32 (60 * cnt), true, nr, false⟩ := by
  refine forBreak_findNode (fun a => Scan.mk a true nr false) (fun a => Scan.mk a true nr true) (fun a => ?_) cnt a
  by_cases h : strCmp m a filename = 0 ∧ m.word (a + 36#32) = nr
  · simp [fileRound, h]
  · rw [fileRound, if_neg h, if_neg]
    simpa using h

/-- The scans are the search for the file, whatever was on the stack. -/
theorem scanTable_eq (m : Mem) (ifsImage : Word) (dirname filename : List Byte) (onStack : Word) :
    scanTable m ifsImage dirname filename onStack = findFile m ifsImage dirname filename := by
  simp only [scanTable, findFile, dirRounds_eq]
  cases findNode (fun node => strCmp m node dirname == 0) _ _ with
  | none => rfl
  | some dir =>
    simp only [Bool.true_eq_false, if_false, fileRounds_eq, Option.bind_eq_bind, Option.bind_some]
    cases findNode (fun node => strCmp m node filename == 0 && m.word (node + 36#32) == m.word (dir + 32#32)) _ _ with
    | none => rfl
    | some node => rfl

/-- The search for a node ends with the first that is wanted. -/
theorem findNode_some (m : Mem) (isWanted : Word → Bool) (cnt : Nat) (a node : Word) :
    findNode isWanted cnt a = some node ↔
      ∃ t, First (fun u => isWanted (a + BitVec.ofNat 32 (60 * u)) = true) cnt t ∧
        a + BitVec.ofNat 32 (60 * t) = node := by
  have hrun := Reader.run_scan m (fun a => pure (isWanted a)) cnt a
  have hsome := Reading.scan_some (m := m) (fun a => pure (isWanted a)) 60 cnt a node
  rw [hrun] at hsome
  exact hsome

/-- What the search finds is the record there is to select. -/
theorem findFile_selected (m : Mem) (ifsImage : Word) {dirname filename : List Byte} (hd : 0#8 ∉ dirname)
    (hf : 0#8 ∉ filename) (node : Word) :
    findFile m ifsImage dirname filename = some node ↔ Selected m ifsImage dirname filename node := by
  rw [findFile]
  simp only [Option.bind_eq_bind, Option.bind_eq_some_iff, findNode_some m, beq_iff_eq, Bool.and_eq_true,
    strCmp_eq_zero hd, strCmp_eq_zero hf]
  constructor
  · rintro ⟨_, ⟨d, hfirst, rfl⟩, f, hfile, he⟩
    exact ⟨d, hfirst, f, hfile, he⟩
  · rintro ⟨d, hfirst, f, hfile, he⟩
    exact ⟨_, ⟨d, hfirst, rfl⟩, f, hfile, he⟩

/-- Both functions go on with what the scans find. -/
theorem kernelFile_scan (m : Mem) (ifsImage : Word) (filename : List Byte) (onStack : Word) :
    kernelFile m ifsImage filename = (elfLoadScan m ifsImage filename onStack).map
      (fun node => ⟨ifsImage + m.word (node + 52#32), 0#32, m.word (node + 56#32)⟩) := by
  rw [elfLoadScan, scanTable_eq, kernelFile]

theorem elfFind_scan (m : Mem) (ifsImage : Word) (dirname filename : List Byte)
    (onStack inRegister file fileSize : Word) :
    callElfFind m ifsImage dirname filename onStack inRegister file fileSize =
      match elfFind m ifsImage dirname filename with
      | .failed => ⟨-1, file, fileSize⟩
      | .found file fileSize => ⟨inRegister, file, fileSize⟩ := by
  rw [callElfFind, elfFindScan, scanTable_eq, elfFind]
  cases findFile m ifsImage dirname filename with
  | none => rfl
  | some node => rfl

/-- The lookups agree, and report what they found without ambiguity exactly when there is nothing to find:
else the value of `elf_find` is what the register held. -/
theorem unambiguous_iff (m : Mem) (ifsImage : Word) (filename : List Byte) (hf : 0#8 ∉ filename) :
    Unambiguous m ifsImage filename ↔ ∀ node, ¬ Selected m ifsImage bootName filename node := by
  have hselected := findFile_selected m ifsImage (by decide : 0#8 ∉ bootName) hf
  constructor
  · intro h node hnode
    have hzero := h.found node hnode 0#32 1#32 0#32 0#32
    rw [callElfFind, (h.find 0#32 node).mpr hnode] at hzero
    cases hzero
  · intro hnone
    refine ⟨fun onStack node => ?_, fun onStack node => ?_, fun node hnode => absurd hnode (hnone node),
      fun _ onStack inRegister file fileSize => ?_⟩
    · rw [elfFindScan, scanTable_eq, hselected]
    · rw [elfLoadScan, scanTable_eq, hselected]
    · have hfind : findFile m ifsImage bootName filename = none :=
        Option.eq_none_iff_forall_ne_some.mpr fun node hnode => hnone node ((hselected node).mp hnode)
      rw [callElfFind, elfFindScan, scanTable_eq, hfind]

/-- Nothing is found in zeroed memory. -/
theorem zeroed_unambiguous : Unambiguous (fun _ => 0#8) 0#32 kernelString :=
  (unambiguous_iff (fun _ => 0#8) 0#32 kernelString (by decide)).mpr (by
    rintro node ⟨d, hfirst, _⟩
    have hcnt : recordCnt (fun _ => 0#8) 0#32 = 0 := by decide
    exact Nat.not_lt_zero d (hcnt ▸ hfirst.1.1))

/-- The kernel of a sample image is found, and `elf_find` returns nothing to say so. -/
theorem sampleImage_ambiguous : ¬ ∀ m ifsImage filename, 0#8 ∉ filename → Unambiguous m ifsImage filename := by
  intro h
  have hsample := h (sampleMem (sampleEhdr 52 1)) 0x200000#32 kernelString (by decide)
  have hfind : findFile (sampleMem (sampleEhdr 52 1)) 0x200000#32 bootName kernelString = some 0x20004C#32 := by
    decide +kernel
  have hnode := (findFile_selected _ _ (by decide) (by decide) _).mp hfind
  have hzero := hsample.found _ hnode 0#32 1#32 0#32 0#32
  rw [callElfFind, (hsample.find 0#32 _).mpr hnode] at hzero
  cases hzero

end CheviotBoot.Loader
