import CheviotBoot.Lib.BitField
import CheviotBoot.Lib.CString

namespace CheviotBoot.Board
open Lib

/-- The part of `bootinfo` that identifies the board. -/
structure BoardInfo where
  revision : Word
  memSize : Nat
  boardType : Word
  cpuType : Word
  cpustr : CharBuf 16
  videocoreBase : Word
  videocoreCeiling : Word

/-- `strcpy` into `cpustr`, for names it holds. -/
def BoardInfo.named (b : BoardInfo) (name : List Byte) : BoardInfo :=
  { b with cpustr := b.cpustr.put 0 (name ++ [0#8]) }

/-- "UNKNOWN". -/
def unknownCpu : List Byte := [85#8, 78#8, 75#8, 78#8, 79#8, 87#8, 78#8]

/-- "BCM28" or "BCM27", and two digits. -/
def bcmName (series tens units : Byte) : List Byte := [66#8, 67#8, 77#8, 50#8, series, tens, units]

def cpuName : Nat → List Byte
  | 0 => bcmName 56#8 51#8 53#8
  | 1 => bcmName 56#8 51#8 54#8
  | 2 => bcmName 56#8 51#8 55#8
  | 3 => bcmName 55#8 49#8 49#8
  | 4 => bcmName 55#8 49#8 50#8
  | _ => unknownCpu

def configuredMemory : Nat → Nat
  | 0 => 256 * 1024 * 1024
  | 1 => 512 * 1024 * 1024
  | 2 => 1024 * 1024 * 1024
  | 3 => 2048 * 1024 * 1024
  | 4 => 4096 * 1024 * 1024
  | 5 => 8192 * 1024 * 1024
  | _ => 128 * 1024 * 1024

/-- `parse_revision`: the globals `revision`, `videocore_base` and `videocore_size`, and `bootinfo`
as it was. The early return of an old-style code leaves the VideoCore range alone, and `cpu_type`
is only stored there. -/
def parseRevision (revision videocoreBase videocoreSize : Word) (b : BoardInfo) : BoardInfo :=
  let b := { b with revision := revision }
  if revision &&& (1#32 <<< 23) = 0#32 then
    { b with memSize := 128 * 1024 * 1024, boardType := 0xFF#32, cpuType := 0x0F#32 }.named unknownCpu
  else
    let b := { b with boardType := (revision >>> 4) &&& 0x00FF#32 }
    let memSize := configuredMemory ((revision >>> 20) &&& 0x07#32).toNat
    let b := { b with memSize := if 0x7FF00000 ≤ memSize then 0x7FF00000 else memSize }
    let b := b.named (cpuName ((revision >>> 12) &&& 0x0F#32).toNat)
    { b with videocoreBase := videocoreBase, videocoreCeiling := videocoreBase + videocoreSize }

/-- The memory sizes that come out, in pages. -/
theorem parseRevision_memSize (revision videocoreBase videocoreSize : Word) (b : BoardInfo) :
    ∃ pages, (parseRevision revision videocoreBase videocoreSize b).memSize = 4096 * pages ∧
      pages ≤ 0x7FF00 := by
  unfold parseRevision
  by_cases h : revision &&& (1#32 <<< 23) = 0#32
  · rw [if_pos h]
    exact ⟨32768, rfl, by decide⟩
  · rw [if_neg h]
    generalize ((revision >>> 20) &&& 0x07#32).toNat = config
    change ∃ pages, (if 0x7FF00000 ≤ configuredMemory config then 0x7FF00000 else configuredMemory config) =
      4096 * pages ∧ pages ≤ 0x7FF00
    rcases config with _ | _ | _ | _ | _ | _ | _
    · exact ⟨65536, rfl, by decide⟩
    · exact ⟨131072, rfl, by decide⟩
    · exact ⟨262144, rfl, by decide⟩
    · exact ⟨0x7FF00, rfl, by decide⟩
    · exact ⟨0x7FF00, rfl, by decide⟩
    · exact ⟨0x7FF00, rfl, by decide⟩
    · exact ⟨32768, rfl, by decide⟩

/-- 256 MiB shifted by the memory configuration, where there is one of that number. -/
def memoryOf (config : Nat) : Nat := if config ≤ 5 then (256 * 1024 * 1024) <<< config else 128 * 1024 * 1024

/-- `bootinfo` says of the board what its revision word does, and where the VideoCore's memory is. -/
structure BoardInfo.Identifies (b : BoardInfo) (code base size : Word) : Prop where
  revision : b.revision = code
  unknown : code.getLsbD 23 = false → b.boardType = 0xFF#32 ∧ b.cpuType = 0x0F#32 ∧
    cstr? b.cpustr.toList = some unknownCpu ∧ b.memSize = 128 * 1024 * 1024
  boardType : code.getLsbD 23 = true → b.boardType = (getField code 4 8).setWidth 32
  cpuType : code.getLsbD 23 = true → b.cpuType = (getField code 12 4).setWidth 32
  cpustr : code.getLsbD 23 = true → cstr? b.cpustr.toList = some (cpuName (getField code 12 4).toNat)
  memSize : code.getLsbD 23 = true → b.memSize = min (memoryOf (getField code 20 3).toNat) 0x7FF00000
  pages : 4096 ∣ b.memSize
  videocoreBase : b.videocoreBase = base
  videocoreCeiling : b.videocoreCeiling = base + size

theorem configuredMemory_eq (config : Nat) : configuredMemory config = memoryOf config := by
  rcases config with _ | _ | _ | _ | _ | _ | config <;> rfl

theorem cpuName_string (cpu : Nat) : 0#8 ∉ cpuName cpu ∧ (cpuName cpu).length = 7 := by
  unfold cpuName
  split <;> decide

/-- A name that `cpustr` holds is read back from it. -/
theorem named_cpustr (b : BoardInfo) {name : List Byte} (hnul : 0#8 ∉ name) (hlen : name.length = 7) :
    cstr? (b.named name).cpustr.toList = some name := by
  have hcopy : strcpy b.cpustr name = some (b.named name).cpustr := by
    rw [strcpy, if_pos (by omega)]
    rfl
  exact strcpy_string hcopy hnul

theorem field_toNat (revision : Word) (pos : Nat) {len : Nat} (hlen : len ≤ 32) :
    ((revision >>> pos) &&& ones len).toNat = (getField revision pos len).toNat := by
  rw [shift_and_ones, BitVec.toNat_setWidth_of_le hlen]

/-- The early return of an old-style revision code. -/
theorem parseRevision_old {revision : Word} (h : revision.getLsbD 23 = false)
    (videocoreBase videocoreSize : Word) (b : BoardInfo) :
    parseRevision revision videocoreBase videocoreSize b =
      { b with
        revision := revision, memSize := 128 * 1024 * 1024, boardType := 0xFF#32, cpuType := 0x0F#32,
        cpustr := (b.named unknownCpu).cpustr } := by
  rw [parseRevision, if_pos ((and_one_shift_eq_zero revision (by decide)).mpr h)]
  rfl

/-- What is decoded from a new-style one; `cpu_type` stays as it was. -/
theorem parseRevision_new {revision : Word} (h : revision.getLsbD 23 = true)
    (videocoreBase videocoreSize : Word) (b : BoardInfo) :
    parseRevision revision videocoreBase videocoreSize b =
      { revision := revision
        memSize := min (memoryOf (getField revision 20 3).toNat) 0x7FF00000
        boardType := (getField revision 4 8).setWidth 32
        cpuType := b.cpuType
        cpustr := (b.named (cpuName (getField revision 12 4).toNat)).cpustr
        videocoreBase := videocoreBase
        videocoreCeiling := videocoreBase + videocoreSize } := by
  have hbit : ¬ revision &&& (1#32 <<< 23) = 0#32 := by
    rw [and_one_shift_eq_zero revision (by decide), h]
    exact Bool.true_eq_false_eq_False
  have hboard : (revision >>> 4) &&& 0x00FF#32 = (getField revision 4 8).setWidth 32 := shift_and_ones revision 4 8
  have hconfig : ((revision >>> 20) &&& 0x07#32).toNat = (getField revision 20 3).toNat :=
    field_toNat revision 20 (by decide : 3 ≤ 32)
  have hcpu : ((revision >>> 12) &&& 0x0F#32).toNat = (getField revision 12 4).toNat :=
    field_toNat revision 12 (by decide : 4 ≤ 32)
  have hmin : min (memoryOf (getField revision 20 3).toNat) 0x7FF00000 =
      if 0x7FF00000 ≤ configuredMemory (getField revision 20 3).toNat then 0x7FF00000
      else configuredMemory (getField revision 20 3).toNat := by
    rw [configuredMemory_eq]
    split <;> omega
  rw [parseRevision, if_neg hbit, hboard, hconfig, hcpu, hmin]
  rfl

/-- The board is identified exactly where the fields left unstored held the right values before: the cpu
type with a new-style code, the VideoCore's range with an old-style one. The ceiling is a 32-bit address,
which is the end of the range unless that lies beyond them. -/
theorem parseRevision_identifies_iff (revision videocoreBase videocoreSize : Word) (b : BoardInfo) :
    ((parseRevision revision videocoreBase videocoreSize b).Identifies revision videocoreBase videocoreSize ↔
      (revision.getLsbD 23 = true → b.cpuType = (getField revision 12 4).setWidth 32) ∧
        (revision.getLsbD 23 = false → b.videocoreBase = videocoreBase ∧
          b.videocoreCeiling = videocoreBase + videocoreSize)) ∧
      ((parseRevision revision videocoreBase videocoreSize b).Identifies revision videocoreBase videocoreSize →
        ((parseRevision revision videocoreBase videocoreSize b).videocoreCeiling.toNat =
          videocoreBase.toNat + videocoreSize.toNat ↔ videocoreBase.toNat + videocoreSize.toNat < 2 ^ 32)) := by
  obtain ⟨pages, hmem, -⟩ := parseRevision_memSize revision videocoreBase videocoreSize b
  have hpages : 4096 ∣ (parseRevision revision videocoreBase videocoreSize b).memSize := ⟨pages, hmem⟩
  constructor
  · cases h : revision.getLsbD 23 with
    | false =>
      rw [parseRevision_old h] at hpages ⊢
      constructor
      · intro hid
        exact ⟨fun ht => (by cases ht), fun _ => ⟨hid.videocoreBase, hid.videocoreCeiling⟩⟩
      · rintro ⟨-, hvideocore⟩
        obtain ⟨hbase, hceiling⟩ := hvideocore rfl
        have hname : cstr? (b.named unknownCpu).cpustr.toList = some unknownCpu := named_cpustr b (by decide) rfl
        refine ⟨rfl, fun _ => ⟨rfl, rfl, hname, rfl⟩, ?_, ?_, ?_, ?_, hpages, hbase, hceiling⟩
        all_goals
          intro ht
          rw [h] at ht
          cases ht
    | true =>
      rw [parseRevision_new h] at hpages ⊢
      constructor
      · intro hid
        exact ⟨fun _ => hid.cpuType h, fun hf => by cases hf⟩
      · rintro ⟨hcpu, -⟩
        obtain ⟨hnul, hlen⟩ := cpuName_string (getField revision 12 4).toNat
        have hname := named_cpustr b hnul hlen
        refine ⟨rfl, ?_, fun _ => rfl, fun _ => hcpu rfl, fun _ => hname, fun _ => rfl, hpages, rfl, rfl⟩
        intro hf
        rw [h] at hf
        cases hf
  · intro hid
    rw [hid.videocoreCeiling, BitVec.toNat_add]
    constructor
    · intro hsum
      rw [← hsum]
      exact Nat.mod_lt _ (by decide)
    · exact Nat.mod_eq_of_lt

/-- The cpu of a board of 1 GiB is named and its number is not stored. -/
theorem newStyle_unnumbered :
    ¬ (parseRevision 0xA03111#32 0x3B400000#32 0x04C00000#32
      ⟨0#32, 0, 0#32, 0#32, padded 16 [], 0#32, 0#32⟩).Identifies 0xA03111#32 0x3B400000#32 0x04C00000#32 := by
  intro h
  have hcpu := h.cpuType (by decide)
  rw [parseRevision_new (by decide)] at hcpu
  revert hcpu
  decide

end CheviotBoot.Board
