import Mathlib.Data.List.Induction
import CheviotBoot.Lib.BitField

namespace CheviotBoot.Board

open Lib

/-- The pins of the BCM2711. -/
abbrev Pin := Fin 58

/-- GPIO alternate function select. -/
inductive FSel where
  | input | output | fn5 | fn4 | fn0 | fn1 | fn2 | fn3
  deriving DecidableEq, Repr

def FSel.bits : FSel → Word
  | .input => 0#32
  | .output => 1#32
  | .fn5 => 2#32
  | .fn4 => 3#32
  | .fn0 => 4#32
  | .fn1 => 5#32
  | .fn2 => 6#32
  | .fn3 => 7#32

/-- GPIO pin pull-up configuration. -/
inductive PullUpDown where
  | pullNone | pullUp | pullDown
  deriving DecidableEq, Repr

def PullUpDown.bits : PullUpDown → Word
  | .pullNone => 0#32
  | .pullUp => 1#32
  | .pullDown => 2#32

/-- The registers of the block that pin configuration touches. -/
structure Gpio where
  fsel : Vector Word 6
  pupPdnCntrl : Vector Word 4
  deriving DecidableEq

/-- The pull register is overwritten whole; the function register is read, masked and written. -/
def configureGpio (r : Gpio) (pin : Pin) (fn : FSel) (action : PullUpDown) : Gpio :=
  let pup := (action.bits &&& 3#32) <<< (pin.val % 16)
  let shift := pin.val % 10 * 3
  let mask := ~~~(7#32 <<< shift)
  let fsel := (r.fsel[pin.val / 10] &&& mask) ||| (fn.bits <<< shift)
  { pupPdnCntrl := r.pupPdnCntrl.set (pin.val / 16) pup
    fsel := r.fsel.set (pin.val / 10) fsel }

/-- One call of `configureGpio`. -/
structure Call where
  pin : Pin
  fn : FSel
  action : PullUpDown
  deriving DecidableEq

def Call.apply (r : Gpio) (c : Call) : Gpio := configureGpio r c.pin c.fn c.action

def run (r : Gpio) (calls : List Call) : Gpio := calls.foldl Call.apply r

/-- The calls `init_gpios` makes: the Wi-Fi pins, then the SD card's. -/
def initGpios : List Call :=
  [34, 35, 36, 37, 38, 39].map (⟨·, .input, .pullNone⟩) ++ [48, 49, 50, 51, 52, 44].map (⟨·, .fn3, .pullNone⟩)

/-- The calls `init_aux_uart` makes. -/
def RaspberryPi4.initAuxUart : List Call := [⟨14, .fn5, .pullNone⟩, ⟨15, .fn5, .pullNone⟩]

/-- A pin's function field: ten pins to a word. -/
def Gpio.fselOf (r : Gpio) (q : Pin) : BitVec 3 := getField r.fsel[q.val / 10] (3 * (q.val % 10)) 3

/-- A pin's pull field: sixteen pins to a word. -/
def Gpio.pullOf (r : Gpio) (q : Pin) : BitVec 2 :=
  getField r.pupPdnCntrl[q.val / 16] (2 * (q.val % 16)) 2

/-- The last call that names a pin. -/
def lastCall (q : Pin) (calls : List Call) : Option Call := (calls.filter (·.pin = q)).getLast?

/-- After a sequence of calls every pin has what the last call naming it said, or what it had. -/
def PerPin (r : Gpio) (calls : List Call) : Prop :=
  ∀ q, (run r calls).fselOf q = ((lastCall q calls).elim (r.fselOf q) fun c => c.fn.bits.setWidth 3) ∧
    (run r calls).pullOf q = (lastCall q calls).elim (r.pullOf q) fun c => c.action.bits.setWidth 2

/-- The step on which overwriting the whole pull register does no harm. -/
structure Meets (r : Gpio) (c : Call) : Prop where
  placed : c.action = .pullNone ∨ c.pin.val % 16 = 0
  alone : ∀ q : Pin, q ≠ c.pin → q.val / 16 = c.pin.val / 16 → r.pullOf q = 0#2

/-- Every call of a sequence meets the condition in the state it finds. -/
def AllMeet (r : Gpio) : List Call → Prop
  | [] => True
  | c :: calls => Meets r c ∧ AllMeet (c.apply r) calls

theorem FSel.bits_lt (fn : FSel) : fn.bits.toNat < 2 ^ 3 := by
  cases fn <;> decide

theorem PullUpDown.bits_lt (action : PullUpDown) : action.bits.toNat < 2 ^ 2 := by
  cases action <;> decide

theorem PullUpDown.bits_mask (action : PullUpDown) : action.bits &&& 3#32 = action.bits := by
  cases action <;> rfl

theorem PullUpDown.bits_eq_zero {action : PullUpDown} :
    action.bits.setWidth 2 = 0#2 ↔ action = .pullNone := by
  cases action <;> decide

/-- Two pins sharing a function word have fields that do not meet. -/
theorem fields_apart (len : Nat) {p q : Pin} {n : Nat} (hne : q ≠ p) (hw : q.val / n = p.val / n) :
    len * (q.val % n) + len ≤ len * (p.val % n) ∨ len * (p.val % n) + len ≤ len * (q.val % n) := by
  have hmod : q.val % n ≠ p.val % n := by
    intro h
    apply hne
    apply Fin.ext
    rw [← Nat.div_add_mod q.val n, ← Nat.div_add_mod p.val n, hw, h]
  cases Nat.lt_or_gt_of_ne hmod with
  | inl h =>
    left
    exact Nat.mul_le_mul_left len h
  | inr h =>
    right
    exact Nat.mul_le_mul_left len h

theorem configureGpio_fsel (r : Gpio) (pin : Pin) (fn : FSel) (action : PullUpDown) :
    (configureGpio r pin fn action).fsel =
      r.fsel.set (pin.val / 10) (setField r.fsel[pin.val / 10] (3 * (pin.val % 10)) 3 fn.bits) := by
  have hones : (7#32 : Word) = ones 3 := rfl
  simp only [configureGpio, setField, hones, Nat.mul_comm 3]

theorem configureGpio_pup (r : Gpio) (pin : Pin) (fn : FSel) (action : PullUpDown) :
    (configureGpio r pin fn action).pupPdnCntrl =
      r.pupPdnCntrl.set (pin.val / 16) (action.bits <<< (pin.val % 16)) := by
  simp only [configureGpio, action.bits_mask]

/-- The function fields are configured per pin. -/
theorem fselOf_configureGpio (r : Gpio) (pin q : Pin) (fn : FSel) (action : PullUpDown) :
    (configureGpio r pin fn action).fselOf q = if pin = q then fn.bits.setWidth 3 else r.fselOf q := by
  simp only [Gpio.fselOf, configureGpio_fsel, Vector.getElem_set]
  by_cases he : pin = q
  · subst he
    simp only [if_true]
    exact getField_setField_same _ fn.bits_lt (by omega)
  · by_cases hw : pin.val / 10 = q.val / 10
    · have hapart := fields_apart 3 (Ne.symm he) hw.symm
      simp only [he, hw, if_true, if_false]
      exact getField_setField_other _ fn.bits_lt (by omega) hapart
    · simp only [he, hw, if_false]

/-- The pull fields are not: the whole word is replaced. -/
theorem pullOf_configureGpio (r : Gpio) (pin q : Pin) (fn : FSel) (action : PullUpDown) :
    (configureGpio r pin fn action).pullOf q =
      if pin.val / 16 = q.val / 16 then getField (action.bits <<< (pin.val % 16)) (2 * (q.val % 16)) 2
      else r.pullOf q := by
  simp only [Gpio.pullOf, configureGpio_pup, Vector.getElem_set]
  by_cases hw : pin.val / 16 = q.val / 16
  · simp only [hw, if_true]
  · simp only [hw, if_false]

/-- A pull field lands in its own place only as zero bits or at the start of the word. -/
theorem pull_placed_iff (action : PullUpDown) : ∀ p : Fin 16,
    getField (action.bits <<< p.val) (2 * p.val) 2 = action.bits.setWidth 2 ↔
      action = .pullNone ∨ p.val = 0 := by
  cases action <;> decide

/-- Placed so, it leaves zeros in the other fields. -/
theorem pull_placed_other {action : PullUpDown} {p q : Nat} (hp : action = .pullNone ∨ p = 0)
    (hq : q < 16) (hne : q ≠ p) : getField (action.bits <<< p) (2 * q) 2 = 0#2 := by
  apply BitVec.eq_of_getLsbD_eq
  intro i hi
  rw [getLsbD_getField]
  cases hp with
  | inl hnone =>
    subst hnone
    simp [PullUpDown.bits]
  | inr hzero =>
    subst hzero
    have hhigh := getLsbD_of_lt action.bits_lt (by omega : 2 ≤ 2 * q + i)
    simp [hhigh]

/-- A call configures its own pin and no other exactly when it meets the condition. -/
theorem pullOf_apply_iff (r : Gpio) (c : Call) :
    (∀ q, (c.apply r).pullOf q = if c.pin = q then c.action.bits.setWidth 2 else r.pullOf q) ↔ Meets r c := by
  simp only [Call.apply, pullOf_configureGpio]
  constructor
  · intro h
    have hplaced : c.action = .pullNone ∨ c.pin.val % 16 = 0 := by
      have hown := h c.pin
      simp only [if_true] at hown
      exact (pull_placed_iff c.action ⟨c.pin.val % 16, by omega⟩).mp hown
    refine ⟨hplaced, ?_⟩
    intro q hne hw
    have hq := h q
    have hmod : q.val % 16 ≠ c.pin.val % 16 := fun he => hne (Fin.ext (by omega))
    rw [if_pos hw.symm, if_neg (Ne.symm hne), pull_placed_other hplaced (by omega) hmod] at hq
    exact hq.symm
  · intro h q
    by_cases hw : c.pin.val / 16 = q.val / 16
    · rw [if_pos hw]
      by_cases he : c.pin = q
      · rw [if_pos he, ← he]
        exact (pull_placed_iff c.action ⟨c.pin.val % 16, by omega⟩).mpr h.placed
      · have hmod : q.val % 16 ≠ c.pin.val % 16 := fun hm => he (Fin.ext (by omega))
        rw [if_neg he, h.alone q (Ne.symm he) hw.symm]
        exact pull_placed_other h.placed (by omega) hmod
    · have he : c.pin ≠ q := fun he => hw (by rw [he])
      rw [if_neg hw, if_neg he]

theorem run_concat (r : Gpio) (calls : List Call) (c : Call) :
    run r (calls ++ [c]) = c.apply (run r calls) := by
  unfold run
  rw [List.foldl_append]
  rfl

theorem lastCall_concat (q : Pin) (calls : List Call) (c : Call) :
    lastCall q (calls ++ [c]) = if c.pin = q then some c else lastCall q calls := by
  unfold lastCall
  by_cases he : c.pin = q
  · simp [he]
  · simp [he]

theorem allMeet_concat (r : Gpio) (calls : List Call) (c : Call) :
    AllMeet r (calls ++ [c]) ↔ AllMeet r calls ∧ Meets (run r calls) c := by
  induction calls generalizing r with
  | nil => simp [AllMeet, run]
  | cons d calls ih =>
    simp only [List.cons_append, AllMeet, ih, and_assoc]
    rfl

/-- One more call keeps the per-pin reading exactly when it meets the condition. -/
theorem perPin_concat {r : Gpio} {calls : List Call} (h : PerPin r calls) (c : Call) :
    PerPin r (calls ++ [c]) ↔ Meets (run r calls) c := by
  rw [← pullOf_apply_iff]
  unfold PerPin
  rw [run_concat]
  refine forall_congr' fun q => ?_
  have hsel : (c.apply (run r calls)).fselOf q =
      ((lastCall q (calls ++ [c])).elim (r.fselOf q) fun d => d.fn.bits.setWidth 3) := by
    rw [Call.apply, fselOf_configureGpio, lastCall_concat]
    by_cases he : c.pin = q
    · simp only [he, if_true, Option.elim]
    · simp only [he, if_false]
      exact (h q).1
  have hpull : ((lastCall q (calls ++ [c])).elim (r.pullOf q) fun d => d.action.bits.setWidth 2) =
      if c.pin = q then c.action.bits.setWidth 2 else (run r calls).pullOf q := by
    rw [lastCall_concat]
    by_cases he : c.pin = q
    · simp only [he, if_true, Option.elim]
    · simp only [he, if_false]
      exact (h q).2.symm
  rw [hpull]
  exact and_iff_right hsel

/-- Over a whole run the pins read per pin in every state exactly when every call meets the condition. -/
theorem perPin_iff (r : Gpio) (calls : List Call) :
    (∀ done, done <+: calls → PerPin r done) ↔ AllMeet r calls := by
  induction calls using List.reverseRecOn with
  | nil =>
    refine iff_of_true ?_ trivial
    intro done hdone
    rw [List.prefix_nil.mp hdone]
    exact fun q => ⟨rfl, rfl⟩
  | append_singleton calls c ih =>
    rw [allMeet_concat, ← ih]
    constructor
    · intro h
      have hbefore : ∀ done, done <+: calls → PerPin r done :=
        fun done hdone => h done (hdone.trans (List.prefix_append calls [c]))
      exact ⟨hbefore, (perPin_concat (hbefore calls (List.prefix_refl calls)) c).mp (h _ (List.prefix_refl _))⟩
    · rintro ⟨hbefore, hmeets⟩ done hdone
      cases List.prefix_concat_iff.mp hdone with
      | inl heq =>
        rw [heq]
        exact (perPin_concat (hbefore calls (List.prefix_refl calls)) c).mpr hmeets
      | inr hpre => exact hbefore done hpre

/-- The function words commute whatever the calls. -/
theorem fsel_comm (r : Gpio) {a b : Call} (hne : a.pin ≠ b.pin) :
    (b.apply (a.apply r)).fsel = (a.apply (b.apply r)).fsel := by
  simp only [Call.apply, configureGpio_fsel]
  apply Vector.ext
  intro i hi
  simp only [Vector.getElem_set]
  by_cases hw : a.pin.val / 10 = b.pin.val / 10
  · have hapart := fields_apart 3 (Ne.symm hne) hw.symm
    simp only [hw, if_true]
    rw [setField_comm _ a.fn.bits_lt b.fn.bits_lt hapart]
    grind
  · simp only [hw, Ne.symm hw, if_false]
    grind

/-- Calls that meet the condition in either order leave the pull words of one another. -/
theorem pup_comm {r : Gpio} {a b : Call} (hne : a.pin ≠ b.pin) (hab : AllMeet r [a, b])
    (hba : AllMeet r [b, a]) :
    (b.apply (a.apply r)).pupPdnCntrl = (a.apply (b.apply r)).pupPdnCntrl := by
  have hsilent : ∀ {c d : Call}, c.pin ≠ d.pin → AllMeet r [c, d] →
    c.pin.val / 16 = d.pin.val / 16 →
      c.action = .pullNone := by
    intro c d hcd h hw
    have hown := (pullOf_apply_iff r c).mpr h.1 c.pin
    rw [if_pos rfl, h.2.1.alone c.pin hcd hw] at hown
    exact PullUpDown.bits_eq_zero.mp hown.symm
  simp only [Call.apply, configureGpio_pup]
  apply Vector.ext
  intro i hi
  simp only [Vector.getElem_set]
  by_cases hw : a.pin.val / 16 = b.pin.val / 16
  · rw [hsilent hne hab hw, hsilent (Ne.symm hne) hba hw.symm, hw]
    simp [PullUpDown.bits]
  · by_cases hb : b.pin.val / 16 = i
    · have ha : a.pin.val / 16 ≠ i := fun ha => hw (ha.trans hb.symm)
      simp only [hb, ha, if_true, if_false]
    · simp only [hb, if_false]

/-- Pins are configured one by one, and calls commute, exactly on runs that meet the condition. -/
theorem configureGpio_per_pin (r : Gpio) :
    (∀ calls, (∀ done, done <+: calls → PerPin r done) ↔ AllMeet r calls) ∧
      ∀ a b, a.pin ≠ b.pin → AllMeet r [a, b] → AllMeet r [b, a] → run r [a, b] = run r [b, a] := by
  refine ⟨perPin_iff r, ?_⟩
  intro a b hne hab hba
  have hsel := fsel_comm r hne
  have hpup := pup_comm hne hab hba
  change b.apply (a.apply r) = a.apply (b.apply r)
  generalize b.apply (a.apply r) = left at hsel hpup
  cases left
  rw [Gpio.mk.injEq]
  exact ⟨hsel, hpup⟩

/-- Registers as they stand after a reset. -/
def resetGpio : Gpio where
  fsel := Vector.replicate 6 0#32
  pupPdnCntrl := Vector.replicate 4 0#32

/-- A pull-up on the first pin of one register and none on a pin of another commute. -/
theorem resetGpio_commutes :
    run resetGpio [⟨16, .output, .pullUp⟩, ⟨1, .input, .pullNone⟩] =
      run resetGpio [⟨1, .input, .pullNone⟩, ⟨16, .output, .pullUp⟩] := by
  refine (configureGpio_per_pin resetGpio).2 ⟨16, .output, .pullUp⟩ ⟨1, .input, .pullNone⟩ (by decide) ?_ ?_
  · exact ⟨⟨Or.inr rfl, by decide⟩, ⟨Or.inl rfl, by decide⟩, trivial⟩
  · exact ⟨⟨Or.inl rfl, by decide⟩, ⟨Or.inr rfl, by decide⟩, trivial⟩

/-- Pin 1's pull-up lands in pin 0's field. -/
theorem configureGpio_misplaced : ¬ ∀ r calls, PerPin r calls := by
  intro h
  have hzero := (h resetGpio [⟨1, .input, .pullUp⟩] 0).2
  revert hzero
  decide

/-- Calls that ask for no pull meet the condition wherever no pull is set. -/
theorem allMeet_of_silent {r : Gpio} {calls : List Call} (hr : ∀ q, r.pullOf q = 0#2)
    (hc : ∀ c ∈ calls, c.action = .pullNone) : AllMeet r calls := by
  induction calls generalizing r with
  | nil => trivial
  | cons c calls ih =>
    have hnone := hc c List.mem_cons_self
    have hmeets : Meets r c := ⟨.inl hnone, fun q _ _ => hr q⟩
    refine ⟨hmeets, ih ?_ fun d hd => hc d (List.mem_cons_of_mem c hd)⟩
    intro q
    rw [(pullOf_apply_iff r c).mpr hmeets q, hr q, hnone]
    exact ite_self _

/-- The board's own calls stay clear of the defect when no pull is set before them. -/
theorem initGpios_per_pin {r : Gpio} (hr : ∀ q, r.pullOf q = 0#2) : PerPin r initGpios := by
  have hmeet : AllMeet r initGpios := allMeet_of_silent hr (by decide)
  exact (perPin_iff r initGpios).mpr hmeet initGpios (List.prefix_refl _)

end CheviotBoot.Board
