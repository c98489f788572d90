import Mathlib.Tactic.Common
import CheviotBoot.Lib.Bytes

namespace CheviotBoot.Board
open Lib

/-- The pins that the two level registers have a bit for on both boards. -/
abbrev LevelPin := Fin 54

/-- `lev`. The block takes writes to `set` and `clr` in at once. -/
structure Levels where
  lev : Vector Word 2
  deriving DecidableEq

/-- `hal_mmio_write` to `set[i]`: ones set their bits. -/
def Levels.writeSet (r : Levels) (i : Fin 2) (w : Word) : Levels := { r with lev := r.lev.set i (r.lev[i] ||| w) }

/-- `hal_mmio_write` to `clr[i]`: ones clear their bits. -/
def Levels.writeClr (r : Levels) (i : Fin 2) (w : Word) : Levels := { r with lev := r.lev.set i (r.lev[i] &&& ~~~w) }

/-- The word of a bank of 32 pins. -/
def LevelPin.word (p : LevelPin) : Fin 2 := ⟨p.val / 32, by omega⟩

/-- The first pin of the bank. -/
def LevelPin.bank (p : LevelPin) : LevelPin := ⟨p.val / 32 * 32, by omega⟩

def driveLevel (r : Levels) (pin : LevelPin) (state : Bool) : Levels :=
  if state then r.writeSet pin.word (1#32 <<< (pin.val % 32)) else r.writeClr pin.word (1#32 <<< (pin.val % 32))

def readLevel (r : Levels) (pin : LevelPin) : Bool :=
  let lev := r.lev[pin.word]
  -- in C the comparison goes before the `&`, so the mask is its truth value
  let mask : Word := if 1#32 <<< (pin.val % 32) ≠ 0#32 then 1#32 else 0#32
  if lev &&& mask ≠ 0#32 then true else false

namespace RaspberryPi1

def setGpio : Levels → LevelPin → Bool → Levels := driveLevel
def getGpio : Levels → LevelPin → Bool := readLevel

end RaspberryPi1

namespace RaspberryPi4

def setGpio : Levels → LevelPin → Bool → Levels := driveLevel
def getGpio : Levels → LevelPin → Bool := readLevel

end RaspberryPi4

/-- One call of `set_gpio`. -/
structure Drive where
  pin : LevelPin
  state : Bool
  deriving DecidableEq

def drives (setGpio : Levels → LevelPin → Bool → Levels) (r : Levels) (calls : List Drive) : Levels :=
  calls.foldl (fun r c => setGpio r c.pin c.state) r

/-- A pin's own bit of the level registers. -/
def Levels.level (r : Levels) (p : LevelPin) : Bool := r.lev[p.word].getLsbD (p.val % 32)

/-- What a pin was last driven to, or its level before. -/
def driven (r : Levels) (calls : List Drive) (p : LevelPin) : Bool :=
  (calls.filter (·.pin = p)).getLast?.elim (r.level p) Drive.state

theorem getLsbD_one_shiftLeft {i : Nat} (hi : i < 32) (j : Nat) :
    (1#32 <<< i : Word).getLsbD j = decide (i = j) := by
  rw [← BitVec.twoPow_eq, BitVec.getLsbD_twoPow]
  simp [hi]

theorem level_set (r : Levels) (i : Fin 2) (w : Word) (q : LevelPin) :
    ({ r with lev := r.lev.set i w } : Levels).level q =
      if i = q.word then w.getLsbD (q.val % 32) else r.level q := by
  by_cases hi : i = q.word
  · simp [Levels.level, hi]
  · have hne : i.val ≠ q.word.val := fun h => hi (Fin.ext h)
    simp [Levels.level, hi, hne]

/-- A call drives its own pin and no other. -/
theorem level_driveLevel (r : Levels) (pin q : LevelPin) (state : Bool) :
    (driveLevel r pin state).level q = if pin = q then state else r.level q := by
  have hpin : pin.val % 32 < 32 := Nat.mod_lt _ (by decide)
  have hq : q.val % 32 < 32 := Nat.mod_lt _ (by decide)
  have hbit := getLsbD_one_shiftLeft hpin (q.val % 32)
  by_cases hw : pin.word = q.word
  · have hsame : pin.val % 32 = q.val % 32 ↔ pin = q := by
      have hdiv : pin.val / 32 = q.val / 32 := congrArg Fin.val hw
      rw [Fin.ext_iff]
      omega
    have hold : r.lev[pin.word].getLsbD (q.val % 32) = r.level q := by simp only [hw, Levels.level]
    cases state with
    | true =>
      rw [driveLevel, if_pos rfl, Levels.writeSet, level_set, if_pos hw, BitVec.getLsbD_or, hbit, hold]
      by_cases he : pin = q
      · simp [he]
      · simp [he, hsame]
    | false =>
      rw [driveLevel, if_neg Bool.false_ne_true, Levels.writeClr, level_set, if_pos hw, BitVec.getLsbD_and,
        BitVec.getLsbD_not, hbit, hold]
      by_cases he : pin = q
      · simp [he]
      · simp [he, hsame, hq]
  · have he : pin ≠ q := fun he => hw (congrArg LevelPin.word he)
    cases state with
    | true => rw [driveLevel, if_pos rfl, Levels.writeSet, level_set, if_neg hw, if_neg he]
    | false => rw [driveLevel, if_neg Bool.false_ne_true, Levels.writeClr, level_set, if_neg hw, if_neg he]

/-- After some calls every pin has the level it was last driven to. -/
theorem level_drives (r : Levels) (calls : List Drive) (p : LevelPin) :
    (drives driveLevel r calls).level p = driven r calls p := by
  induction calls generalizing r with
  | nil => rfl
  | cons c calls ih =>
    rw [drives, List.foldl_cons, ← drives, ih, driven, driven, level_driveLevel]
    by_cases he : c.pin = p
    · rw [if_pos he, List.filter_cons_of_pos (by simpa using he), List.getLast?_cons]
      cases (calls.filter (·.pin = p)).getLast? with
      | none => rfl
      | some last => rfl
    · rw [if_neg he, List.filter_cons_of_neg (by simpa using he)]

/-- What is read is the first bit of the word, whichever pin is asked for. -/
theorem readLevel_eq (r : Levels) (p : LevelPin) : readLevel r p = r.level p.bank := by
  have hmask : (1#32 <<< (p.val % 32) : Word) ≠ 0#32 := by
    intro h
    have hbit := getLsbD_one_shiftLeft (Nat.mod_lt p.val (by decide)) (p.val % 32)
    simp [h] at hbit
  have hword : p.bank.word = p.word := by
    apply Fin.ext
    change p.val / 32 * 32 / 32 = p.val / 32
    omega
  have hfirst : p.bank.val % 32 = 0 := Nat.mul_mod_left _ _
  simp only [readLevel, Levels.level, hword, hfirst, if_pos hmask, BitVec.and_one_eq_setWidth_ofBool_getLsbD]
  cases r.lev[p.word].getLsbD 0 with
  | true => rfl
  | false => rfl

/-- On either board a pin reads back as it was driven exactly where the first pin of its bank has the
same level. -/
theorem getGpio_reads_iff (r : Levels) (calls : List Drive) (p : LevelPin) :
    (RaspberryPi1.getGpio (drives RaspberryPi1.setGpio r calls) p = driven r calls p ↔
        driven r calls p.bank = driven r calls p) ∧
      (RaspberryPi4.getGpio (drives RaspberryPi4.setGpio r calls) p = driven r calls p ↔
        driven r calls p.bank = driven r calls p) := by
  have hread : readLevel (drives driveLevel r calls) p = driven r calls p.bank := by
    rw [readLevel_eq, level_drives]
  exact ⟨Eq.congr_left hread, Eq.congr_left hread⟩

/-- With all levels low a pin that was driven high reads low. -/
theorem secondPin_misread : ¬ ∀ r calls p,
    RaspberryPi1.getGpio (drives RaspberryPi1.setGpio r calls) p = driven r calls p ∧
      RaspberryPi4.getGpio (drives RaspberryPi4.setGpio r calls) p = driven r calls p := by
  intro h
  have hpin := (h ⟨Vector.replicate 2 0#32⟩ [⟨1, true⟩] 1).1
  revert hpin
  decide

end CheviotBoot.Board
