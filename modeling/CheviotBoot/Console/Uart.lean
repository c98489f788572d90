import CheviotBoot.Lib.BitField
import CheviotBoot.Lib.Channel
import CheviotBoot.Console.Printf

namespace CheviotBoot.Console
open Lib

/-- `aux_uart_write_ready`, of what it reads from `mu_lsr_reg`. -/
def auxUartWriteReady (lsr : Word) : Bool := decide (lsr &&& 0x20#32 ≠ 0#32)

/-- The processor between its calls of `aux_uart_write_byte`: the characters of those to come,
and whether the first of them has found the transmitter ready. -/
structure Uart (depth : Nat) where
  rest : List Byte
  ready : Bool
  tx : Channel Byte depth

/-- What happens next: the processor reads `mu_lsr_reg`, writes `mu_io_reg` or has nothing to
write, or the transmitter is done with a character. -/
inductive Event
  | poll (lsr : Word)
  | write
  | idle
  | shift
  deriving DecidableEq

namespace Uart

variable {depth : Nat}

/-- Before the first of some characters, with the transmitter at rest. -/
def start (depth : Nat) (chars : List Byte) : Uart depth := ⟨chars, false, .empty Byte depth⟩

/-- Bit 5 of the register stands for room in the transmitter's queue. -/
def Shows (s : Uart depth) (lsr : Word) : Prop := lsr.getLsbD 5 = decide (s.tx.queue.length < depth)

instance (s : Uart depth) (lsr : Word) : Decidable (s.Shows lsr) :=
  inferInstanceAs (Decidable (lsr.getLsbD 5 = decide (s.tx.queue.length < depth)))

def shift (s : Uart depth) : Option (Uart depth) := s.tx.pop.map fun tx => { s with tx }

def idle (s : Uart depth) : Option (Uart depth) := if s.rest = [] then some s else none

/-- What there is on the line, in the queue and to come. -/
def text (s : Uart depth) : List Byte := s.tx.text ++ s.rest

end Uart

namespace RaspberryPi4

/-- `aux_uart_write_byte` waits and then writes. -/
def step {depth : Nat} (s : Uart depth) : Event → Option (Uart depth)
  | .poll lsr =>
    if s.rest ≠ [] ∧ s.ready = false ∧ s.Shows lsr then some { s with ready := auxUartWriteReady lsr } else none
  | .write =>
    match s.rest with
    | [] => none
    | ch :: rest => if s.ready then some ⟨rest, false, s.tx.push ch⟩ else none
  | .idle => s.idle
  | .shift => s.shift

end RaspberryPi4

namespace RaspberryPi1

/-- `aux_uart_write_byte` only writes. -/
def step {depth : Nat} (s : Uart depth) : Event → Option (Uart depth)
  | .poll _ => none
  | .write =>
    match s.rest with
    | [] => none
    | ch :: rest => some { s with rest, tx := s.tx.push ch }
  | .idle => s.idle
  | .shift => s.shift

end RaspberryPi1

/-- How processor and transmitter go on: in any order, but the transmitter does not rest while it
has a character. -/
structure Schedule {depth : Nat} (step : Uart depth → Event → Option (Uart depth)) where
  state : Nat → Uart depth
  event : Nat → Event
  steps : ∀ n, step (state n) (event n) = some (state (n + 1))
  fair : ∀ n, (state n).tx.queue ≠ [] → ∃ m, n ≤ m ∧ event m = .shift

/-- The schedule that one choice of the next event makes. -/
def Schedule.follow {depth : Nat} {step : Uart depth → Event → Option (Uart depth)} {next : Uart depth → Event}
    {go : Uart depth → Uart depth} (hgo : ∀ s, step s (next s) = some (go s))
    (hfair : ∀ s, s.tx.queue ≠ [] → ∃ k, next (go^[k] s) = .shift) (s : Uart depth) : Schedule step where
  state := fun n => go^[n] s
  event := fun n => next (go^[n] s)
  steps := fun n => by rw [hgo, Function.iterate_succ_apply']
  fair := by
    intro n hqueue
    obtain ⟨k, hk⟩ := hfair _ hqueue
    rw [← Function.iterate_add_apply, Nat.add_comm] at hk
    exact ⟨n + k, Nat.le_add_right n k, hk⟩

theorem auxUartWriteReady_eq (lsr : Word) : auxUartWriteReady lsr = lsr.getLsbD 5 := by
  have hand : lsr &&& 0x20#32 = 0#32 ↔ lsr.getLsbD 5 = false := and_one_shift_eq_zero lsr (by decide : 5 < 32)
  simp only [auxUartWriteReady, ne_eq, hand]
  cases lsr.getLsbD 5 <;> rfl

section
variable {depth : Nat} {s t : Uart depth} {e : Event}

theorem idle_some (h : s.idle = some t) : s.rest = [] ∧ t = s := by
  unfold Uart.idle at h
  split_ifs at h with hrest
  cases h
  exact ⟨hrest, rfl⟩

theorem shift_some (h : s.shift = some t) :
    t.rest = s.rest ∧ t.ready = s.ready ∧ s.tx.queue.length = t.tx.queue.length + 1 ∧ t.text = s.text := by
  obtain ⟨tx, hpop, rfl⟩ := Option.map_eq_some_iff.mp h
  obtain ⟨hlength, htext⟩ := Channel.pop_some hpop
  exact ⟨rfl, rfl, hlength, congrArg (· ++ s.rest) htext⟩

/-- All is on the line. -/
structure Uart.Done (s : Uart depth) : Prop where
  rest : s.rest = []
  queue : s.tx.queue = []

theorem Uart.Done.out (h : s.Done) : s.tx.out = s.text := by
  rw [Uart.text, Channel.text, h.rest, h.queue, List.append_nil, List.append_nil]

theorem Uart.Done.no_shift (h : s.Done) : s.shift ≠ some t := by
  intro hshift
  have hlength := (shift_some hshift).2.2.1
  rw [h.queue] at hlength
  cases hlength

/-- A schedule comes to an end where something is used up with every step of the transmitter and,
while that has nothing to do, with every step of the processor. -/
theorem Schedule.done {step : Uart depth → Event → Option (Uart depth)} (sch : Schedule step)
    (μ : Uart depth → Nat) (hdone : ∀ {s t e}, s.Done → step s e = some t → t = s)
    (hle : ∀ n, μ (sch.state (n + 1)) ≤ μ (sch.state n))
    (hshift : ∀ n, sch.event n = .shift → μ (sch.state (n + 1)) < μ (sch.state n))
    (hrest : ∀ n, (sch.state n).tx.queue = [] → (sch.state n).rest ≠ [] →
      μ (sch.state (n + 1)) < μ (sch.state n)) : ∃ n, ∀ m, n ≤ m → (sch.state m).Done := by
  have hless : ∀ n, ¬ (sch.state n).Done → ∃ m, n ≤ m ∧
      (¬ (sch.state m).Done → μ (sch.state (m + 1)) < μ (sch.state m)) := by
    intro n hnot
    by_cases hqueue : (sch.state n).tx.queue = []
    · exact ⟨n, Nat.le_refl n, fun _ => hrest n hqueue fun hnone => hnot ⟨hnone, hqueue⟩⟩
    · obtain ⟨m, hm, hevent⟩ := sch.fair n hqueue
      exact ⟨m, hm, fun _ => hshift m hevent⟩
  obtain ⟨n, -, hn⟩ := eventually_of_measure μ (fun n _ => hle n) hless 0
  refine ⟨n, fun m hm => ?_⟩
  induction m, hm using Nat.le_induction with
  | base => exact hn
  | succ m hm ih =>
    rw [hdone ih (sch.steps m)]
    exact ih

theorem shift_isSome (h : s.tx.queue ≠ []) : ∃ t, s.shift = some t := by
  obtain ⟨tx, hpop⟩ := Channel.pop_isSome h
  exact ⟨{ s with tx }, by rw [Uart.shift, hpop, Option.map_some]⟩

end

namespace RaspberryPi4

variable {depth : Nat} {s t : Uart depth} {e : Event}

/-- What the loop has waited for is still so. -/
def Waited (s : Uart depth) : Prop := s.ready = true → s.rest ≠ [] ∧ s.tx.queue.length < depth

/-- The steps a character has before it, where the processor finds the transmitter ready. -/
def left (s : Uart depth) : Nat := 3 * s.rest.length + s.tx.queue.length - if s.ready then 1 else 0

/-- What one step can do. -/
theorem step_cases (h : step s e = some t) :
    ((∃ lsr, e = .poll lsr) ∧ s.rest ≠ [] ∧ s.ready = false ∧
      t = { s with ready := decide (s.tx.queue.length < depth) }) ∨
    (e = .write ∧ ∃ ch, s.rest = ch :: t.rest ∧ s.ready = true ∧ t.ready = false ∧ t.tx = s.tx.push ch) ∨
    (e = .idle ∧ s.rest = [] ∧ t = s) ∨
    (e = .shift ∧ s.shift = some t) := by
  cases e with
  | poll lsr =>
    simp only [step] at h
    split_ifs at h with hpoll
    obtain ⟨hrest, hready, hshows⟩ := hpoll
    rw [auxUartWriteReady_eq, hshows] at h
    exact Or.inl ⟨⟨lsr, rfl⟩, hrest, hready, (Option.some.inj h).symm⟩
  | write =>
    simp only [step] at h
    cases hrest : s.rest with
    | nil => simp [hrest] at h
    | cons ch rest =>
      simp only [hrest] at h
      split_ifs at h with hready
      cases h
      exact Or.inr (Or.inl ⟨rfl, ch, rfl, hready, rfl, rfl⟩)
  | idle => exact Or.inr (Or.inr (Or.inl ⟨rfl, idle_some h⟩))
  | shift => exact Or.inr (Or.inr (Or.inr ⟨rfl, h⟩))

/-- No step loses, doubles or moves a character. -/
theorem step_text (hs : Waited s) (h : step s e = some t) : Waited t ∧ t.text = s.text := by
  obtain ⟨-, hrest, -, rfl⟩ | ⟨-, ch, hrest, hready, hnot, htx⟩ | ⟨-, -, rfl⟩ | ⟨-, hshift⟩ := step_cases h
  · exact ⟨fun hfree => ⟨hrest, of_decide_eq_true hfree⟩, rfl⟩
  · refine ⟨fun hyes => ?_, ?_⟩
    · rw [hnot] at hyes
      cases hyes
    · rw [Uart.text, Uart.text, htx, (Channel.push_free (hs hready).2 ch).2, hrest, List.append_assoc]
      rfl
  · exact ⟨hs, rfl⟩
  · obtain ⟨hrest, hready, hlength, htext⟩ := shift_some hshift
    refine ⟨fun hyes => ?_, htext⟩
    obtain ⟨hmore, hroom⟩ := hs (hready ▸ hyes)
    exact ⟨hrest ▸ hmore, by omega⟩

/-- No step adds to the steps that are left, and one that finds the transmitter not full or makes it
so is one of them. -/
theorem step_left (hs : Waited s) (h : step s e = some t) :
    left t ≤ left s ∧ (e = .shift → left t < left s) ∧
      (s.tx.queue.length < depth → s.rest ≠ [] → left t < left s) := by
  unfold left
  obtain ⟨⟨lsr, rfl⟩, hrest, hready, rfl⟩ | ⟨rfl, ch, hrest, hready, hnot, htx⟩ | ⟨rfl, hrest, rfl⟩ | ⟨rfl, hshift⟩ :=
    step_cases h
  · have hpos := List.length_pos_of_ne_nil hrest
    simp only [hready, decide_eq_true_eq, Bool.false_eq_true, if_false]
    refine ⟨by omega, by simp, fun hroom _ => ?_⟩
    rw [if_pos hroom]
    omega
  · obtain ⟨hqueue, -⟩ := Channel.push_free (hs hready).2 ch
    simp only [hrest, hready, hnot, htx, hqueue, List.length_append, List.length_cons, List.length_nil, if_true,
      Bool.false_eq_true, if_false]
    exact ⟨by omega, by simp, fun _ _ => by omega⟩
  · exact ⟨Nat.le_refl _, by simp, fun _ hmore => absurd hrest hmore⟩
  · obtain ⟨hrest, hready, hlength, -⟩ := shift_some hshift
    rw [hrest, hready]
    split_ifs with hyes
    · have hpos := List.length_pos_of_ne_nil (hs hyes).1
      exact ⟨by omega, fun _ => by omega, fun _ _ => by omega⟩
    · exact ⟨by omega, fun _ => by omega, fun _ _ => by omega⟩

theorem step_done (hdone : s.Done) (h : step s e = some t) : t = s := by
  obtain ⟨-, hrest, -⟩ | ⟨-, ch, hrest, -⟩ | ⟨-, -, rfl⟩ | ⟨-, hshift⟩ := step_cases h
  · exact absurd hdone.rest hrest
  · rw [hdone.rest] at hrest
    cases hrest
  · rfl
  · exact absurd hshift hdone.no_shift

/-- Over a whole schedule. -/
theorem schedule_text (sch : Schedule (@step depth)) (h : Waited (sch.state 0)) (n : Nat) :
    Waited (sch.state n) ∧ (sch.state n).text = (sch.state 0).text := by
  induction n with
  | zero => exact ⟨h, rfl⟩
  | succ n ih =>
    obtain ⟨hwaited, htext⟩ := ih
    obtain ⟨hnext, hsame⟩ := step_text hwaited (sch.steps n)
    exact ⟨hnext, hsame.trans htext⟩

/-- The processor does not wait forever. -/
theorem schedule_done (hdepth : 0 < depth) (sch : Schedule (@step depth))
    (h : Waited (sch.state 0)) : ∃ n, ∀ m, n ≤ m → (sch.state m).Done := by
  have hleft : ∀ n, _ := fun n => step_left (schedule_text sch h n).1 (sch.steps n)
  refine sch.done left step_done (fun n => (hleft n).1) (fun n => (hleft n).2.1) ?_
  intro n hqueue hrest
  refine (hleft n).2.2 ?_ hrest
  rw [hqueue]
  exact hdepth

/-- What is to come comes out, in order, and all of it. -/
theorem comes_out (hdepth : 0 < depth) (sch : Schedule (@step depth)) {chars : List Byte}
    (hstart : sch.state 0 = .start depth chars) :
    (∀ n, (sch.state n).text = chars ∧ (sch.state n).tx.out <+: chars) ∧
      ∃ n, ∀ m, n ≤ m → (sch.state m).tx.out = chars := by
  have hwaited : Waited (sch.state 0) := by
    rw [hstart]
    intro hready
    cases hready
  have htext : ∀ n, (sch.state n).text = chars := by
    intro n
    rw [(schedule_text sch hwaited n).2, hstart]
    rfl
  obtain ⟨n, hdone⟩ := schedule_done hdepth sch hwaited
  refine ⟨fun n => ⟨htext n, ?_⟩, n, fun m hm => (hdone m hm).out.trans (htext m)⟩
  rw [← htext n, Uart.text, Channel.text, List.append_assoc]
  exact List.prefix_append _ _

/-- The transmitter first. -/
def shiftsFirst (s : Uart depth) : Event :=
  if s.tx.queue ≠ [] then .shift else if s.rest = [] then .idle else if s.ready then .write else .poll 0x20#32

theorem shiftsFirst_steps (hdepth : 0 < depth) (s : Uart depth) : ∃ t, step s (shiftsFirst s) = some t := by
  unfold shiftsFirst
  split_ifs with hqueue hrest hready
  · exact shift_isSome hqueue
  · exact ⟨s, if_pos hrest⟩
  · obtain ⟨ch, rest, hcons⟩ := List.exists_cons_of_ne_nil hrest
    exact ⟨_, by simp only [step, hcons, hready, if_true]; rfl⟩
  · have hempty : s.tx.queue.length < depth := by
      rw [not_not.mp hqueue]
      exact hdepth
    have hshows : s.Shows 0x20#32 := (decide_eq_true hempty).symm
    exact ⟨_, if_pos ⟨hrest, Bool.eq_false_of_not_eq_true hready, hshows⟩⟩

theorem exists_schedule (hdepth : 0 < depth) (s : Uart depth) :
    ∃ sch : Schedule (@step depth), sch.state 0 = s := by
  choose go hgo using shiftsFirst_steps hdepth
  exact ⟨.follow hgo (fun _ hqueue => ⟨0, if_pos hqueue⟩) s, rfl⟩

end RaspberryPi4

namespace RaspberryPi1

variable {depth : Nat} {s t : Uart depth} {e : Event}

def left (s : Uart depth) : Nat := 2 * s.rest.length + s.tx.queue.length

/-- What one step can do. -/
theorem step_cases (h : step s e = some t) :
    (e = .write ∧ ∃ ch, s.rest = ch :: t.rest ∧ t.tx = s.tx.push ch) ∨
    (e = .idle ∧ s.rest = [] ∧ t = s) ∨
    (e = .shift ∧ s.shift = some t) := by
  cases e with
  | poll lsr => cases h
  | write =>
    simp only [step] at h
    cases hrest : s.rest with
    | nil => simp [hrest] at h
    | cons ch rest =>
      simp only [hrest] at h
      cases h
      exact Or.inl ⟨rfl, ch, rfl, rfl⟩
  | idle => exact Or.inr (Or.inl ⟨rfl, idle_some h⟩)
  | shift => exact Or.inr (Or.inr ⟨rfl, h⟩)

/-- Characters get lost, but nothing else happens to them. -/
theorem step_sublist (h : step s e = some t) : t.text.Sublist s.text := by
  obtain ⟨-, ch, hrest, htx⟩ | ⟨-, -, rfl⟩ | ⟨-, hshift⟩ := step_cases h
  · rw [Uart.text, Uart.text, htx, hrest, ← List.singleton_append, ← List.append_assoc]
    exact (Channel.push_sublist s.tx ch).append_right t.rest
  · exact List.Sublist.refl _
  · rw [(shift_some hshift).2.2.2]

/-- None gets lost while there is room for all that are to come. -/
theorem step_text (hroom : s.tx.queue.length + s.rest.length ≤ depth) (h : step s e = some t) :
    t.tx.queue.length + t.rest.length ≤ depth ∧ t.text = s.text := by
  obtain ⟨-, ch, hrest, htx⟩ | ⟨-, -, rfl⟩ | ⟨-, hshift⟩ := step_cases h
  · rw [hrest, List.length_cons] at hroom
    obtain ⟨hqueue, htext⟩ := Channel.push_free (by omega : s.tx.queue.length < depth) ch
    refine ⟨?_, ?_⟩
    · rw [htx, hqueue, List.length_append, List.length_singleton]
      omega
    · rw [Uart.text, Uart.text, htx, htext, hrest, List.append_assoc, List.singleton_append]
  · exact ⟨hroom, rfl⟩
  · obtain ⟨hrest, -, hlength, htext⟩ := shift_some hshift
    exact ⟨by rw [hrest]; omega, htext⟩

theorem step_left (h : step s e = some t) :
    left t ≤ left s ∧ (e = .shift → left t < left s) ∧ (s.rest ≠ [] → left t < left s) := by
  unfold left
  obtain ⟨rfl, ch, hrest, htx⟩ | ⟨rfl, hrest, rfl⟩ | ⟨rfl, hshift⟩ := step_cases h
  · have hpush := s.tx.push_length_le ch
    rw [hrest, htx, List.length_cons]
    exact ⟨by omega, by simp, fun _ => by omega⟩
  · exact ⟨Nat.le_refl _, by simp, fun hmore => absurd hrest hmore⟩
  · obtain ⟨hrest, -, hlength, -⟩ := shift_some hshift
    rw [hrest]
    exact ⟨by omega, fun _ => by omega, fun _ => by omega⟩

theorem step_done (hdone : s.Done) (h : step s e = some t) : t = s := by
  obtain ⟨-, ch, hrest, -⟩ | ⟨-, -, rfl⟩ | ⟨-, hshift⟩ := step_cases h
  · rw [hdone.rest] at hrest
    cases hrest
  · rfl
  · exact absurd hshift hdone.no_shift

theorem schedule_done (sch : Schedule (@step depth)) : ∃ n, ∀ m, n ≤ m → (sch.state m).Done := by
  have hleft : ∀ n, _ := fun n => step_left (sch.steps n)
  exact sch.done left step_done (fun n => (hleft n).1) (fun n => (hleft n).2.1) fun n _ => (hleft n).2.2

theorem schedule_sublist (sch : Schedule (@step depth)) (n : Nat) :
    (sch.state n).text.Sublist (sch.state 0).text := by
  induction n with
  | zero => exact List.Sublist.refl _
  | succ n ih => exact (step_sublist (sch.steps n)).trans ih

theorem schedule_text (sch : Schedule (@step depth))
    (hroom : (sch.state 0).tx.queue.length + (sch.state 0).rest.length ≤ depth) (n : Nat) :
    (sch.state n).tx.queue.length + (sch.state n).rest.length ≤ depth ∧
      (sch.state n).text = (sch.state 0).text := by
  induction n with
  | zero => exact ⟨hroom, rfl⟩
  | succ n ih =>
    obtain ⟨hnext, hsame⟩ := step_text ih.1 (sch.steps n)
    exact ⟨hnext, hsame.trans ih.2⟩

/-- The processor first. -/
def writesFirst (s : Uart depth) : Event :=
  if s.rest ≠ [] then .write else if s.tx.queue ≠ [] then .shift else .idle

theorem writesFirst_steps (s : Uart depth) : ∃ t, step s (writesFirst s) = some t := by
  unfold writesFirst
  split_ifs with hrest hqueue
  · obtain ⟨ch, rest, hcons⟩ := List.exists_cons_of_ne_nil hrest
    exact ⟨_, by simp only [step, hcons]; rfl⟩
  · exact shift_isSome hqueue
  · exact ⟨s, if_pos (not_not.mp hrest)⟩

/-- What the transmitter has got while it has sent nothing. -/
structure Filling (s : Uart depth) : Prop where
  few : s.tx.text.length ≤ depth
  unsent : s.rest ≠ [] → s.tx.out = []

theorem filling_step (hs : Filling s) (h : step s (writesFirst s) = some t) : Filling t := by
  unfold writesFirst at h
  split_ifs at h with hrest hqueue
  · obtain ⟨-, ch, -, htx⟩ | ⟨hevent, -⟩ | ⟨hevent, -⟩ := step_cases h
    · have hout : t.tx.out = [] := by
        rw [htx, Channel.push_out, hs.unsent hrest]
      refine ⟨?_, fun _ => hout⟩
      rw [Channel.text, hout, List.nil_append]
      exact t.tx.bounded
    · cases hevent
    · cases hevent
  · obtain ⟨tx, hpop, rfl⟩ := Option.map_eq_some_iff.mp h
    rw [not_not] at hrest
    refine ⟨?_, fun hmore => absurd hrest hmore⟩
    rw [(Channel.pop_some hpop).2]
    exact hs.few
  · rw [(idle_some h).2]
    exact hs

/-- A slow transmitter gets no more than its queue holds. -/
theorem exists_short (chars : List Byte) : ∃ sch : Schedule (@step depth),
    sch.state 0 = .start depth chars ∧ ∀ n, (sch.state n).tx.out.length ≤ depth := by
  choose go hgo using @writesFirst_steps depth
  have hfair : ∀ n s, s.rest.length = n → s.tx.queue ≠ [] → ∃ k, writesFirst (go^[k] s) = .shift := by
    intro n
    induction n with
    | zero =>
      intro s hn hqueue
      have hrest : ¬ s.rest ≠ [] := not_not.mpr (List.eq_nil_of_length_eq_zero hn)
      exact ⟨0, by rw [Function.iterate_zero_apply, writesFirst, if_neg hrest, if_pos hqueue]⟩
    | succ n ih =>
      intro s hn hqueue
      have hrest : s.rest ≠ [] := List.ne_nil_of_length_eq_add_one hn
      have hstep := hgo s
      rw [writesFirst, if_pos hrest] at hstep
      obtain ⟨-, ch, hcons, htx⟩ | ⟨hevent, -⟩ | ⟨hevent, -⟩ := step_cases hstep
      · rw [hcons, List.length_cons] at hn
        obtain ⟨k, hk⟩ := ih (go s) (by omega) (by rw [htx]; exact Channel.push_ne_nil hqueue ch)
        exact ⟨k + 1, hk⟩
      · cases hevent
      · cases hevent
  refine ⟨.follow hgo (fun s => hfair _ s rfl) (.start depth chars), rfl, fun n => ?_⟩
  have hfilling : Filling (go^[n] (Uart.start depth chars)) := by
    induction n with
    | zero => exact ⟨Nat.zero_le depth, fun _ => rfl⟩
    | succ n ih =>
      rw [Function.iterate_succ_apply']
      exact filling_step ih (hgo _)
  refine Nat.le_trans ?_ hfilling.few
  rw [Channel.text, List.length_append]
  exact Nat.le_add_right _ _

end RaspberryPi1

end CheviotBoot.Console
