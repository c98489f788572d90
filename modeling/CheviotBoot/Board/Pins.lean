import CheviotBoot.Lib.LastSaid
import CheviotBoot.Board.Gpio
import CheviotBoot.Board.Levels

namespace CheviotBoot.Board
open Lib

namespace RaspberryPi1

/-- The registers of the BCM2835 that pin configuration touches, and the pull each pin has taken
over from `pud` at its last clock. -/
structure Pins where
  fsel : Vector Word 6
  pud : Word
  pull : LevelPin → BitVec 2
  levels : Levels

/-- `hal_mmio_write` to `pud_clk[i]`: the pins whose bits are set take over `pud`. -/
def Pins.writePudClk (r : Pins) (i : Fin 2) (w : Word) : Pins :=
  { r with pull := fun p => if p.word = i ∧ w.getLsbD (p.val % 32) = true then r.pud.setWidth 2 else r.pull p }

def configureGpio (r : Pins) (pin : LevelPin) (fn : FSel) (action : PullUpDown) : Pins :=
  let r := { r with pud := action.bits }
  let r := r.writePudClk pin.word (1#32 <<< (pin.val % 32))
  let r := { r with pud := PullUpDown.pullNone.bits }
  let r := r.writePudClk pin.word 0#32
  let shift := pin.val % 10 * 3
  let mask := ~~~(7#32 <<< shift)
  let fsel := (r.fsel[pin.val / 10] &&& mask) ||| (fn.bits <<< shift)
  { r with fsel := r.fsel.set (pin.val / 10) fsel }

/-- A call of `configure_gpio` or of `set_gpio`. -/
inductive Op
  | configure (pin : LevelPin) (fn : FSel) (action : PullUpDown)
  | set (pin : LevelPin) (state : Bool)
  deriving DecidableEq

def Op.apply (r : Pins) : Op → Pins
  | .configure pin fn action => configureGpio r pin fn action
  | .set pin state => { r with levels := setGpio r.levels pin state }

def operate (r : Pins) (ops : List Op) : Pins := ops.foldl Op.apply r

/-- `LED_PIN`. -/
def ledPin : LevelPin := 16

def initLed : List Op := [.configure ledPin .output .pullNone]

/-- `led_on` and `led_off`, over and over. -/
def blinkLed (cnt : Nat) : List Op := (List.replicate cnt [.set ledPin false, .set ledPin true]).flatten

/-- The pins of `init_aux_uart`. -/
def initAuxUart : List Op := [.configure 14 .fn5 .pullNone, .configure 15 .fn5 .pullNone]

def boardInit : List Op := initLed ++ blinkLed 10 ++ initAuxUart

/-- A pin's function field: ten pins to a word. -/
def Pins.fselOf (r : Pins) (q : LevelPin) : BitVec 3 := getField r.fsel[q.val / 10] (3 * (q.val % 10)) 3

/-- What an operation says of a pin's function. -/
def Op.function : Op → LevelPin → Option (BitVec 3)
  | .configure pin fn _, q => if pin = q then some (fn.bits.setWidth 3) else none
  | .set _ _, _ => none

/-- What it says of the pull. -/
def Op.pull : Op → LevelPin → Option (BitVec 2)
  | .configure pin _ action, q => if pin = q then some (action.bits.setWidth 2) else none
  | .set _ _, _ => none

/-- What it says of the level. -/
def Op.level : Op → LevelPin → Option Bool
  | .configure _ _ _, _ => none
  | .set pin state, q => if pin = q then some state else none

/-- The function word is masked and written as on the other board. -/
theorem configureGpio_fselOf (r : Pins) (pin q : LevelPin) (fn : FSel) (action : PullUpDown) :
    (configureGpio r pin fn action).fselOf q = if pin = q then fn.bits.setWidth 3 else r.fselOf q := by
  have hother := fselOf_configureGpio ⟨r.fsel, Vector.replicate 4 0#32⟩ ⟨pin.val, by omega⟩ ⟨q.val, by omega⟩ fn action
  simp only [Fin.mk.injEq, ← Fin.ext_iff] at hother
  exact hother

theorem configureGpio_pull (r : Pins) (pin q : LevelPin) (fn : FSel) (action : PullUpDown) :
    (configureGpio r pin fn action).pull q = if pin = q then action.bits.setWidth 2 else r.pull q := by
  have hbit := getLsbD_one_shiftLeft (Nat.mod_lt pin.val (by decide : 32 > 0)) (q.val % 32)
  have hsame : (q.word = pin.word ∧ (1#32 <<< (pin.val % 32) : Word).getLsbD (q.val % 32) = true) ↔ pin = q := by
    rw [hbit, decide_eq_true_eq, Fin.ext_iff, Fin.ext_iff]
    simp only [LevelPin.word]
    omega
  simp only [configureGpio, Pins.writePudClk, BitVec.getLsbD_zero, Bool.false_eq_true, and_false, if_false, hsame]

theorem operate_function (r : Pins) (ops : List Op) (q : LevelPin) :
    (operate r ops).fselOf q = lastSaid Op.function r.fselOf ops q := by
  refine view_foldl Pins.fselOf ?_ r ops q
  intro r op q
  cases op with
  | configure pin fn action =>
    rw [Op.apply, configureGpio_fselOf, Op.function]
    split_ifs <;> rfl
  | set pin state => rfl

theorem operate_pull (r : Pins) (ops : List Op) (q : LevelPin) :
    (operate r ops).pull q = lastSaid Op.pull r.pull ops q := by
  refine view_foldl Pins.pull ?_ r ops q
  intro r op q
  cases op with
  | configure pin fn action =>
    rw [Op.apply, configureGpio_pull, Op.pull]
    split_ifs <;> rfl
  | set pin state => rfl

theorem operate_level (r : Pins) (ops : List Op) (q : LevelPin) :
    (operate r ops).levels.level q = lastSaid Op.level r.levels.level ops q := by
  refine view_foldl (fun r => r.levels.level) ?_ r ops q
  intro r op q
  cases op with
  | configure pin fn action => rfl
  | set pin state =>
    rw [Op.apply, setGpio, level_driveLevel, Op.level]
    split_ifs <;> rfl

/-- Every pin has the function, the pull and the level that were last asked for it, and what it had
where none was. -/
theorem operate_per_pin (r : Pins) (ops : List Op) (q : LevelPin) :
    (operate r ops).fselOf q = lastSaid Op.function r.fselOf ops q ∧
      (operate r ops).pull q = lastSaid Op.pull r.pull ops q ∧
      (operate r ops).levels.level q = lastSaid Op.level r.levels.level ops q :=
  ⟨operate_function r ops q, operate_pull r ops q, operate_level r ops q⟩

/-- What `board_init` says of each pin. -/
theorem boardInit_tells : ∀ q : LevelPin,
    boardInit.reverse.findSome? (Op.function · q) =
        (if q = 16 then some 1#3 else if q = 14 ∨ q = 15 then some 2#3 else none) ∧
      boardInit.reverse.findSome? (Op.pull · q) = (if q = 14 ∨ q = 15 ∨ q = 16 then some 0#2 else none) ∧
      boardInit.reverse.findSome? (Op.level · q) = (if q = 16 then some true else none) := by
  decide

end RaspberryPi1

namespace RaspberryPi4

def boardInit : List Call := initAuxUart ++ initGpios

/-- What a call tells of a pin's function. -/
def function (c : Call) (q : Pin) : Option (BitVec 3) := if c.pin = q then some (c.fn.bits.setWidth 3) else none

/-- What it tells of a pin's pull: it reaches all pins of the word. -/
def pull (c : Call) (q : Pin) : Option (BitVec 2) :=
  if c.pin.val / 16 = q.val / 16 then some (getField (c.action.bits <<< (c.pin.val % 16)) (2 * (q.val % 16)) 2)
  else none

theorem run_function (r : Gpio) (calls : List Call) (q : Pin) :
    (run r calls).fselOf q = lastSaid function r.fselOf calls q := by
  refine view_foldl Gpio.fselOf ?_ r calls q
  intro r c q
  rw [Call.apply, fselOf_configureGpio, function]
  split_ifs <;> rfl

theorem run_pull (r : Gpio) (calls : List Call) (q : Pin) :
    (run r calls).pullOf q = lastSaid pull r.pullOf calls q := by
  refine view_foldl Gpio.pullOf ?_ r calls q
  intro r c q
  rw [Call.apply, pullOf_configureGpio, pull]
  split_ifs <;> rfl

theorem boardInit_tells : ∀ q : Pin,
    boardInit.reverse.findSome? (function · q) =
        (if q = 14 ∨ q = 15 then some 2#3 else if 34 ≤ q ∧ q ≤ 39 then some 0#3
          else if q = 44 ∨ 48 ≤ q ∧ q ≤ 52 then some 7#3 else none) ∧
      boardInit.reverse.findSome? (pull · q) = (if 16 ≤ q ∧ q ≤ 31 then none else some 0#2) := by
  decide

end RaspberryPi4

/-- How `board_init` leaves the pins. On the Raspberry Pi 4 it also takes the pulls off all pins but
those from 16 to 31. -/
theorem boardInit_pins (r : RaspberryPi1.Pins) (r' : Gpio) :
    (∀ q, (RaspberryPi1.operate r RaspberryPi1.boardInit).fselOf q =
        (if q = 16 then 1#3 else if q = 14 ∨ q = 15 then 2#3 else r.fselOf q) ∧
      (RaspberryPi1.operate r RaspberryPi1.boardInit).pull q =
        (if q = 14 ∨ q = 15 ∨ q = 16 then 0#2 else r.pull q) ∧
      (RaspberryPi1.operate r RaspberryPi1.boardInit).levels.level q =
        (if q = 16 then true else r.levels.level q)) ∧
    ∀ q, (run r' RaspberryPi4.boardInit).fselOf q =
        (if q = 14 ∨ q = 15 then 2#3 else if 34 ≤ q ∧ q ≤ 39 then 0#3
          else if q = 44 ∨ 48 ≤ q ∧ q ≤ 52 then 7#3 else r'.fselOf q) ∧
      (run r' RaspberryPi4.boardInit).pullOf q = (if 16 ≤ q ∧ q ≤ 31 then r'.pullOf q else 0#2) := by
  refine ⟨fun q => ?_, fun q => ?_⟩
  · obtain ⟨hfunction, hpull, hlevel⟩ := RaspberryPi1.boardInit_tells q
    rw [RaspberryPi1.operate_function, RaspberryPi1.operate_pull, RaspberryPi1.operate_level, lastSaid, lastSaid,
      lastSaid, hfunction, hpull, hlevel]
    refine ⟨?_, ?_, ?_⟩
    · split_ifs <;> rfl
    · split_ifs <;> rfl
    · split_ifs <;> rfl
  · obtain ⟨hfunction, hpull⟩ := RaspberryPi4.boardInit_tells q
    rw [RaspberryPi4.run_function, RaspberryPi4.run_pull, lastSaid, lastSaid, hfunction, hpull]
    refine ⟨?_, ?_⟩
    · split_ifs <;> rfl
    · split_ifs <;> rfl

end CheviotBoot.Board
