import CheviotBoot.Lists.Sequences
import CheviotBoot.Mkifs.Extents

namespace CheviotBoot.Mkifs
open Lib CheviotBoot.Lists

variable {κ α : Type} [DecidableEq κ] [DecidableEq α]

/-- `GetNodeCnt` on the list in memory. -/
def getNodeCnt (m : ListHeap κ α) (ifsFileList : κ) (fuel : Nat) : Option Nat :=
  walk m.next (fun _ cnt => cnt + 1) fuel (m.head ifsFileList) 0

/-- The containers in memory, and the two variables of `CalculateFileOffsets`. -/
structure Offsets (α : Type) where
  container : α → IFSNodeContainer
  offset : Nat
  fileSize : Nat

/-- A round of `CalculateFileOffsets`. -/
def placeNode (node : α) (s : Offsets α) : Offsets α :=
  let placed := (s.container node).placeAt s.offset
  let ends := placed.node.fileOffset + placed.node.fileSize
  ⟨Function.update s.container node placed, (alignUp32 ends 4096).toNat, ends.toNat⟩

/-- `CalculateFileOffsets` on the list in memory. -/
def calculateOffsets (m : ListHeap κ α) (ifsFileList : κ) (fuel : Nat) (container : α → IFSNodeContainer)
    (offset : Nat) : Option (Offsets α) :=
  walk m.next placeNode fuel (m.head ifsFileList) ⟨container, offset, offset⟩

section
variable {m : ListHeap κ α} {ifsFileList : κ} {l : List α} {fuel : Nat}

omit [DecidableEq κ] [DecidableEq α] in
theorem getNodeCnt_eq (h : m.Holds ifsFileList l) (hfuel : l.length < fuel) :
    getNodeCnt m ifsFileList fuel = some l.length := by
  rw [getNodeCnt, h.forward.walk _ hfuel, List.foldl_add_const, Nat.zero_add, Nat.one_mul]

/-- The rounds place every container of the list where the pass over the sequence does, and change no
other. -/
theorem placeNode_rounds (hn : l.Nodup) (s : Offsets α) :
    (l.map (l.foldl (fun s x => placeNode x s) s).container, (l.foldl (fun s x => placeNode x s) s).fileSize) =
        calculateFileOffsets (l.map s.container) s.offset s.fileSize ∧
      ∀ e, e ∉ l → (l.foldl (fun s x => placeNode x s) s).container e = s.container e := by
  induction l generalizing s with
  | nil => exact ⟨rfl, fun _ _ => rfl⟩
  | cons x l ih =>
    obtain ⟨hx, hn⟩ := List.nodup_cons.mp hn
    obtain ⟨hplaced, hkept⟩ := ih hn (placeNode x s)
    have hothers : ∀ e, e ≠ x → (placeNode x s).container e = s.container e :=
      fun e he => Function.update_of_ne he _ s.container
    have hrest : l.map (placeNode x s).container = l.map s.container :=
      List.map_congr_left fun e he => hothers e fun hex => hx (hex ▸ he)
    have hfirst : (l.foldl (fun s x => placeNode x s) (placeNode x s)).container x =
        (s.container x).placeAt s.offset :=
      (hkept x hx).trans (Function.update_self x _ s.container)
    rw [hrest] at hplaced
    constructor
    · rw [List.foldl_cons, List.map_cons, hfirst]
      exact congrArg (Prod.map ((s.container x).placeAt s.offset :: ·) id) hplaced
    · intro e he
      rw [List.mem_cons, not_or] at he
      exact (hkept e he.2).trans (hothers e he.1)

omit [DecidableEq κ] in
theorem calculateOffsets_eq (h : m.Holds ifsFileList l) (hfuel : l.length < fuel)
    (container : α → IFSNodeContainer) (offset : Nat) :
    ∃ r, calculateOffsets m ifsFileList fuel container offset = some r ∧
      (l.map r.container, r.fileSize) = calculateFileOffsets (l.map container) offset offset ∧
      ∀ e, e ∉ l → r.container e = container e :=
  ⟨_, h.forward.walk placeNode hfuel _, placeNode_rounds h.nodup ⟨container, offset, offset⟩⟩

/-- How the tool makes its list: the root node at the head and each further one at the tail. -/
def listNodes (ifsFileList : κ) (root : α) (nodes : List α) : List (ListOp κ α) :=
  .addHead ifsFileList root :: nodes.map (.addTail ifsFileList)

omit [DecidableEq α] in
theorem listNodes_runs (ifsFileList : κ) {root : α} {nodes : List α} (hn : (root :: nodes).Nodup) :
    ∃ s, Runs ListStep (Sequences.put (fun _ => none) ifsFileList []) (listNodes ifsFileList root nodes) s ∧
      s ifsFileList = some (root :: nodes) ∧ ∀ e, e ∉ root :: nodes → s.Fresh e := by
  induction nodes using List.reverseRecOn with
  | nil =>
    have hstart : ∀ e : α, Sequences.Fresh (Sequences.put (fun _ => none) ifsFileList []) e := by
      intro e
      have hnone : Sequences.Fresh (fun _ : κ => none) e := fun k l hk => (by cases hk)
      exact hnone.put ifsFileList List.not_mem_nil
    have hempty : Sequences.put (fun _ => none) ifsFileList [] ifsFileList = some ([] : List α) :=
      Function.update_self ifsFileList _ _
    refine ⟨_, Runs.nil.snoc (.addHead hempty (hstart root)), Function.update_self ifsFileList _ _, ?_⟩
    exact fun e he => (hstart e).put ifsFileList he
  | append_singleton nodes e ih =>
    rw [← List.cons_append] at hn ⊢
    obtain ⟨hbefore, -, hdis⟩ := List.nodup_append'.mp hn
    obtain ⟨s, hruns, hs, hfresh⟩ := ih hbefore
    have he : s.Fresh e := hfresh e fun he => hdis he (List.mem_singleton.mpr rfl)
    have hops : listNodes ifsFileList root (nodes ++ [e]) =
        listNodes ifsFileList root nodes ++ [.addTail ifsFileList e] := by
      simp [listNodes]
    rw [hops]
    refine ⟨_, hruns.snoc (.addTail hs he), Function.update_self ifsFileList _ _, ?_⟩
    intro x hx
    have hx' : x ∉ root :: nodes := fun hmem => hx (List.mem_append_left [e] hmem)
    exact (hfresh x hx').put ifsFileList hx

end

end CheviotBoot.Mkifs
