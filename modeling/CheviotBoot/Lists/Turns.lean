import Mathlib.Data.List.Rotate
import CheviotBoot.Lists.Circleq

namespace CheviotBoot.Lists
open Lib

variable {α : Type}

def circleqSetHead (newHead : α) (q : Circleq α) : Circleq α := q.setHead (some newHead)

/-- A use of one of the macros that move the head of a circular queue and nothing else. -/
inductive HeadMove (α : Type)
  | setHead (newHead : α)
  | forward
  | reverse

def HeadMove.run : HeadMove α → Circleq α → Option (Circleq α)
  | setHead newHead, q => some (circleqSetHead newHead q)
  | forward, q => circleqForward q
  | reverse, q => circleqReverse q

/-- The head is set to nothing but an entry of the queue. -/
def HeadMove.Inside (l : List α) : HeadMove α → Prop
  | .setHead newHead => newHead ∈ l
  | .forward | .reverse => True

/-- It goes one place on, or is meant to go one back. -/
def HeadMove.Turns : HeadMove α → Prop
  | .setHead _ => False
  | .forward | .reverse => True

/-- The head before each of some moves, and the queue after them. -/
def headsBefore : List (HeadMove α) → Circleq α → Option (List α × Circleq α)
  | [], q => some ([], q)
  | move :: moves, q => do
    let head ← q.head
    let q ← move.run q
    let (heads, q) ← headsBefore moves q
    return (head :: heads, q)

section
variable {q : Circleq α} {a b l : List α} {x : α} {move : HeadMove α}

theorem circleqSetHead_holds (h : q.Holds (a ++ x :: b)) : (circleqSetHead x q).Holds (x :: b ++ a) :=
  Circleq.holds_of_ring (q := circleqSetHead x q) h.ring.swap rfl

/-- Either turn goes one place on. -/
theorem HeadMove.Turns.run_holds (hmove : move.Turns) (h : q.Holds (x :: b)) :
    ∃ v, move.run q = some (q.setHead v) ∧ (q.setHead v).Holds (b ++ [x]) := by
  obtain ⟨hrun, hholds⟩ := circleqForward_holds h
  refine ⟨b.head?.or (some x), ?_, hholds⟩
  cases move with
  | setHead newHead => cases hmove
  | forward => exact hrun
  | reverse => exact (circleqReverse_eq_forward h.head_eq).trans hrun

/-- A move leaves the same ring, entered at one of its entries. -/
theorem HeadMove.Inside.run_holds (hmove : move.Inside l) (h : q.Holds l) (hne : l ≠ []) :
    ∃ v l', move.run q = some (q.setHead v) ∧ (q.setHead v).Holds l' ∧ l'.IsRotated l := by
  have hturn : move.Turns → ∃ v l', move.run q = some (q.setHead v) ∧ (q.setHead v).Holds l' ∧ l'.IsRotated l := by
    intro hturns
    obtain ⟨x, b, rfl⟩ := List.exists_cons_of_ne_nil hne
    obtain ⟨v, hrun, hholds⟩ := hturns.run_holds h
    exact ⟨v, b ++ [x], hrun, hholds, List.isRotated_concat x b⟩
  cases move with
  | setHead newHead =>
    obtain ⟨a, b, rfl⟩ := List.append_of_mem hmove
    exact ⟨some newHead, newHead :: b ++ a, rfl, circleqSetHead_holds h, List.isRotated_append⟩
  | forward => exact hturn trivial
  | reverse => exact hturn trivial

/-- So do any number of them, and every head on the way is an entry. -/
theorem headsBefore_inside {moves : List (HeadMove α)} (hmoves : ∀ move ∈ moves, move.Inside l) (h : q.Holds l)
    (hne : l ≠ []) : ∃ heads q' l', headsBefore moves q = some (heads, q') ∧ (∀ e ∈ heads, e ∈ l) ∧
      q'.Holds l' ∧ l'.IsRotated l := by
  induction moves generalizing q l with
  | nil => exact ⟨[], q, l, rfl, fun e he => absurd he List.not_mem_nil, h, List.IsRotated.refl l⟩
  | cons move moves ih =>
    obtain ⟨hfirst, hrest⟩ := List.forall_mem_cons.mp hmoves
    obtain ⟨v, l₁, hrun, hholds, hrot⟩ := hfirst.run_holds h hne
    have hinside : ∀ move ∈ moves, move.Inside l₁ := by
      intro move hmem
      have hold := hrest move hmem
      cases move with
      | setHead newHead => exact hrot.mem_iff.mpr hold
      | forward => trivial
      | reverse => trivial
    have hne₁ : l₁ ≠ [] := by
      rintro rfl
      exact hne (List.isRotated_nil_iff'.mp hrot).symm
    obtain ⟨heads, q', l', hheads, hmem, hholds', hrot'⟩ := ih hinside hholds hne₁
    obtain ⟨x, b, hl⟩ := List.exists_cons_of_ne_nil hne
    have hhead : q.head = some x := by rw [h.head_eq, hl, List.head?_cons]
    refine ⟨x :: heads, q', l', ?_, List.forall_mem_cons.mpr ⟨?_, fun e he => hrot.mem_iff.mp (hmem e he)⟩,
      hholds', hrot'.trans hrot⟩
    · rw [headsBefore, hhead, Option.bind_eq_bind, Option.bind_some, hrun, Option.bind_eq_bind, Option.bind_some,
        hheads]
      rfl
    · rw [hl]
      exact List.mem_cons_self

/-- Turns pass the entries in order, whichever way each of them is meant to go. -/
theorem headsBefore_turns {turns : List (HeadMove α)} (hturns : ∀ move ∈ turns, move.Turns) (h : q.Holds (a ++ b))
    (hlen : turns.length = a.length) :
    ∃ q', headsBefore turns q = some (a, q') ∧ q'.Holds (b ++ a) ∧ q'.next = q.next ∧ q'.prev = q.prev := by
  induction turns generalizing q a b with
  | nil =>
    obtain rfl := List.eq_nil_of_length_eq_zero hlen.symm
    exact ⟨q, rfl, by rwa [List.append_nil], rfl, rfl⟩
  | cons move turns ih =>
    obtain ⟨hfirst, hrest⟩ := List.forall_mem_cons.mp hturns
    obtain ⟨x, a, rfl⟩ : ∃ x a', a = x :: a' :=
      List.exists_cons_of_ne_nil (List.ne_nil_of_length_eq_add_one hlen.symm)
    rw [List.cons_append] at h
    obtain ⟨v, hrun, hholds⟩ := hfirst.run_holds h
    rw [List.append_assoc] at hholds
    obtain ⟨q', hheads, hlast, hnext, hprev⟩ := ih hrest hholds (Nat.succ.inj hlen)
    refine ⟨q', ?_, ?_, hnext, hprev⟩
    · have hhead : q.head = some x := h.head_eq
      rw [headsBefore, hhead, Option.bind_eq_bind, Option.bind_some, hrun, Option.bind_eq_bind, Option.bind_some,
        hheads]
      rfl
    · rwa [List.append_assoc, List.singleton_append] at hlast

end

/-- However the head of a circular queue has been moved among its entries, as many turns as there
are entries make each of them the head once, in the order of the ring, and bring back the queue as it
was; `CIRCLEQ_REVERSE` among them changes nothing about that. -/
theorem turns_round_robin {q : Circleq α} {l : List α} (h : q.Holds l) (hne : l ≠ []) {moves : List (HeadMove α)}
    (hmoves : ∀ move ∈ moves, move.Inside l) :
    ∃ heads q₁ l₁, headsBefore moves q = some (heads, q₁) ∧ (∀ e ∈ heads, e ∈ l) ∧ q₁.Holds l₁ ∧ l₁.IsRotated l ∧
      ∀ turns : List (HeadMove α), (∀ move ∈ turns, move.Turns) → turns.length = l.length →
        headsBefore turns q₁ = some (l₁, q₁) := by
  obtain ⟨heads, q₁, l₁, hrun, hmem, hholds, hrot⟩ := headsBefore_inside hmoves h hne
  refine ⟨heads, q₁, l₁, hrun, hmem, hholds, hrot, fun turns hturns hlen => ?_⟩
  have hwhole : q₁.Holds (l₁ ++ []) := by rwa [List.append_nil]
  obtain ⟨q₂, hround, hback, hnext, hprev⟩ := headsBefore_turns hturns hwhole (hlen.trans hrot.perm.length_eq.symm)
  have hhead : q₂.head = q₁.head := hback.head_eq.trans hholds.head_eq.symm
  have hsame : q₂ = q₁ := by
    cases q₁
    cases q₂
    cases hhead
    cases hnext
    cases hprev
    rfl
  rw [hround, hsame]

/-- Three entries, entered at the second; turned on, back and on. -/
theorem threeRing_turned : ∃ q₁ l₁, headsBefore [.setHead 2] threeRing = some ([1], q₁) ∧
    l₁.IsRotated [1, 2, 3] ∧ headsBefore [.forward, .reverse, .forward] q₁ = some (l₁, q₁) := by
  have hholds : threeRing.Holds [1, 2, 3] :=
    Circleq.holds_of_ring ⟨by decide, ⟨rfl, rfl, rfl, rfl⟩, ⟨rfl, rfl, rfl, rfl⟩⟩ rfl
  have hinside : ∀ move ∈ [HeadMove.setHead 2], move.Inside [1, 2, 3] :=
    List.forall_mem_singleton.mpr (List.mem_cons_of_mem 1 List.mem_cons_self)
  obtain ⟨heads, q₁, l₁, hrun, -, -, hrot, hround⟩ := turns_round_robin hholds (List.cons_ne_nil 1 [2, 3]) hinside
  have hturns : ∀ move ∈ [HeadMove.forward, .reverse, .forward], (move : HeadMove Nat).Turns :=
    List.forall_mem_cons.mpr ⟨trivial, List.forall_mem_cons.mpr ⟨trivial, List.forall_mem_singleton.mpr trivial⟩⟩
  cases hrun
  exact ⟨_, l₁, rfl, hrot, hround _ hturns rfl⟩

end CheviotBoot.Lists
