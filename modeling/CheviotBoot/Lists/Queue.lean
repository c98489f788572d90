import CheviotBoot.Lib.Chain
import CheviotBoot.Lib.Conforms

namespace CheviotBoot.Lists
open Lib

/-- The header of a queue and the links of all entries. -/
structure Queue (α : Type) where
  head : Option α
  tail : Option α
  next : α → Option α

variable {α : Type} [DecidableEq α]

def Queue.setNext (q : Queue α) (entry : α) (v : Option α) : Queue α :=
  { q with next := Function.update q.next entry v }

def queueInit (q : Queue α) : Queue α := { q with head := none, tail := none }

def queueAddTail (newTail : α) (q : Queue α) : Queue α :=
  let q := q.setNext newTail none
  let q :=
    match q.tail with
    | some tail => q.setNext tail (some newTail)
    | none => { q with head := some newTail }
  { q with tail := some newTail }

/-- `QUEUE_REM_HEAD`; it fails where it would follow NULL. -/
def queueRemHead (q : Queue α) : Option (Queue α) := do
  let head ← q.head
  let q := { q with head := q.next head }
  match q.head with
  | some _ => return q
  | none => return { q with tail := none }

/-- `QUEUE_REM_AFTER`. Only where nothing precedes the entry is the tail looked after. -/
def queueRemAfter (precEntry : Option α) (remEntry : α) (q : Queue α) : Option (Queue α) :=
  match precEntry with
  | some precEntry => some (q.setNext precEntry (q.next remEntry))
  | none => do
    let head ← q.head
    let q := { q with head := q.next head }
    match q.head with
    | some _ => return q
    | none => return { q with tail := none }

/-- A use of one of the macros. -/
inductive QueueOp (α : Type)
  | addTail (newTail : α)
  | remHead
  | remAfter (precEntry : Option α) (remEntry : α)

def QueueOp.run : QueueOp α → Queue α → Option (Queue α)
  | addTail newTail, q => some (queueAddTail newTail q)
  | remHead, q => queueRemHead q
  | remAfter precEntry remEntry, q => queueRemAfter precEntry remEntry q

/-- What each operation does to the entries that were added and not removed, in their order, and where
it may be used. -/
inductive QueueStep (l : List α) : QueueOp α → List α → Prop
  | addTail {e : α} (he : e ∉ l) : QueueStep l (.addTail e) (l ++ [e])
  | remHead {x : α} {b : List α} (h : l = x :: b) : QueueStep l .remHead b
  | remAfter {a b : List α} {p r : α} (h : l = a ++ p :: r :: b) :
      QueueStep l (.remAfter (some p) r) (a ++ p :: b)
  | remFirst {r : α} {b : List α} (h : l = r :: b) : QueueStep l (.remAfter none r) b

/-- The entries are reached from the head one after the other, and the tail is the last of them. -/
structure Queue.Holds (q : Queue α) (l : List α) : Prop where
  nodup : l.Nodup
  reached : Leads q.next q.head l none
  tail : q.tail = l.getLast?
  null : q.tail = none ↔ q.head = none

/-- The last entry is not taken out from behind another. -/
def KeepsTail (l : List α) : QueueOp α → Prop
  | .remAfter (some _) rem => l.getLast? ≠ some rem
  | _ => True

section
variable {q : Queue α} {l : List α}

omit [DecidableEq α] in
theorem Queue.holds_of_reaches (hn : l.Nodup) (h : Chain.Reaches ⟨q.head, q.next⟩ l none)
    (htail : q.tail = l.getLast?) : q.Holds l := by
  have hhead : q.head = l.head? := by rw [← Option.or_none (o := l.head?)]; exact h.start
  refine ⟨hn, h, htail, ?_⟩
  rw [htail, hhead, List.getLast?_eq_none_iff, List.head?_eq_none_iff]

theorem queueAddTail_holds (h : q.Holds l) {e : α} (he : e ∉ l) : (queueAddTail e q).Holds (l ++ [e]) := by
  have hchain : (⟨(queueAddTail e q).head, (queueAddTail e q).next⟩ : Chain α) =
      (Chain.set ⟨q.head, q.next⟩ (some e) none).set l.getLast? (some e) := by
    rw [← h.tail]
    cases ht : q.tail <;> simp [queueAddTail, Queue.setNext, ht]
  have hn : (l ++ [e]).Nodup := List.nodup_append'.mpr ⟨h.nodup, List.nodup_singleton e, by simpa using he⟩
  refine Queue.holds_of_reaches hn ?_ ?_
  · rw [hchain]
    have hreached : Chain.Reaches ⟨q.head, q.next⟩ (l ++ []) none := by
      rw [List.append_nil]
      exact h.reached
    exact hreached.insert (by rw [List.append_nil]; exact h.nodup) (by rw [List.append_nil]; exact he)
  · rw [List.getLast?_concat]
    rfl

omit [DecidableEq α] in
theorem queueRemHead_holds {x : α} (h : q.Holds (x :: l)) : ∃ q', queueRemHead q = some q' ∧ q'.Holds l := by
  have hhead : q.head = some x := h.reached.1
  have hn : l.Nodup := (List.nodup_cons.mp h.nodup).2
  have hreached : Leads q.next (q.next x) l none := h.reached.2
  have hnext : q.next x = l.head? := by
    rw [hreached.start, Option.or_none]
  cases l with
  | nil =>
    refine ⟨⟨none, none, q.next⟩, ?_, Queue.holds_of_reaches hn rfl rfl⟩
    simp [queueRemHead, hhead, hnext]
  | cons y l =>
    refine ⟨⟨some y, q.tail, q.next⟩, ?_, Queue.holds_of_reaches hn ?_ ?_⟩
    · simp [queueRemHead, hhead, hnext]
    · rw [hnext] at hreached
      exact hreached
    · rw [h.tail, List.getLast?_cons_cons]

/-- Taking out the entry behind another leaves the tail as it is, so it must not be the last. -/
theorem queueRemAfter_holds_iff {a b : List α} {p r : α} (h : q.Holds (a ++ p :: r :: b)) :
    (∃ q', queueRemAfter (some p) r q = some q' ∧ q'.Holds (a ++ p :: b)) ↔
      (a ++ p :: r :: b).getLast? ≠ some r := by
  have hsplit : ∀ b, a ++ p :: b = (a ++ [p]) ++ b := fun b => List.append_cons a p b
  have hnext : q.next r = b.head? := by
    have hreached := h.reached
    rw [hsplit] at hreached
    have hnext := Chain.Reaches.next_entry (c := ⟨q.head, q.next⟩) hreached
    rwa [Option.or_none] at hnext
  have hn : (a ++ p :: b).Nodup := by
    have hold := h.nodup
    rw [hsplit] at hold ⊢
    exact (List.nodup_cons.mp (List.nodup_middle.mp hold)).2
  have hr : r ∉ a ++ p :: b := by
    have hold := h.nodup
    rw [hsplit] at hold ⊢
    exact (List.nodup_cons.mp (List.nodup_middle.mp hold)).1
  constructor
  · rintro ⟨q', hrun, hq'⟩ hlast
    have htail : q'.tail = some r := by
      cases Option.some.inj hrun
      rw [← hlast]
      exact h.tail
    exact hr (List.mem_of_getLast? (hq'.tail.symm.trans htail))
  · intro hlast
    refine ⟨_, rfl, Queue.holds_of_reaches hn ?_ ?_⟩
    · have hreached := h.reached
      rw [hsplit] at hreached ⊢
      have hremove := Chain.Reaches.remove (c := ⟨q.head, q.next⟩) hreached (hsplit _ ▸ h.nodup)
      rw [List.getLast?_concat, Option.or_none, ← hnext] at hremove
      exact hremove
    · cases b with
      | nil => exact absurd (by simp) hlast
      | cons y b =>
        refine h.tail.trans ?_
        simp

/-- Each operation does what it is for exactly if it keeps the tail. -/
theorem QueueStep.holds_iff (h : q.Holds l) {op : QueueOp α} {l' : List α} (hstep : QueueStep l op l') :
    KeepsTail l op ↔ ∃ q', op.run q = some q' ∧ q'.Holds l' := by
  cases hstep with
  | addTail he => exact iff_of_true trivial ⟨_, rfl, queueAddTail_holds h he⟩
  | remHead hl =>
    subst hl
    exact iff_of_true trivial (queueRemHead_holds h)
  | remAfter hl =>
    subst hl
    exact (queueRemAfter_holds_iff h).symm
  | remFirst hl =>
    subst hl
    exact iff_of_true trivial (queueRemHead_holds h)

end

/-- Whatever memory holds before, the queue is as it should be in every state of a run from the
initialised one exactly if every removal from behind an entry is of one that is not the last. -/
theorem queue_conforms_iff (q : Queue α) (ops : List (QueueOp α)) :
    Conforms QueueStep QueueOp.run Queue.Holds ops (queueInit q) [] ↔ Meets QueueStep KeepsTail ops [] :=
  conforms_iff (fun _ _ _ _ hR hstep => hstep.holds_iff hR)
    (Queue.holds_of_reaches List.nodup_nil rfl rfl)

/-- Of 1 and 2 the second is taken out from behind the first; 3, added next, is not reached. -/
theorem lostEntry_unreached :
    ¬ Conforms QueueStep QueueOp.run Queue.Holds [.addTail 1, .addTail 2, .remAfter (some 1) 2, .addTail 3]
      (queueInit (⟨none, none, fun _ => none⟩ : Queue Nat)) [] := by
  intro hempty
  obtain ⟨q₁, hq₁, hone⟩ := hempty.2 [1] (.addTail (by decide))
  obtain ⟨q₂, hq₂, htwo⟩ := hone.2 [1, 2] (.addTail (by decide))
  obtain ⟨q₃, hq₃, hremoved⟩ := htwo.2 [1] (.remAfter (a := []) (b := []) rfl)
  obtain ⟨q₄, hq₄, hthree⟩ := hremoved.2 [1, 3] (.addTail (by decide))
  cases hq₁
  cases hq₂
  cases hq₃
  cases hq₄
  have hreached : none = some 3 := hthree.reached.2.1
  cases hreached

end CheviotBoot.Lists
