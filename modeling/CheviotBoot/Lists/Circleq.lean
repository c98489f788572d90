import CheviotBoot.Lib.Conforms
import CheviotBoot.Lib.Ring

namespace CheviotBoot.Lists
open Lib

/-- The header of a circular queue and the links of all entries. -/
structure Circleq (α : Type) where
  head : Option α
  next : α → Option α
  prev : α → Option α

variable {α : Type} [DecidableEq α]

namespace Circleq

def setHead (q : Circleq α) (v : Option α) : Circleq α := { q with head := v }

def setNext (q : Circleq α) (entry : α) (v : Option α) : Circleq α :=
  { q with next := Function.update q.next entry v }

def setPrev (q : Circleq α) (entry : α) (v : Option α) : Circleq α :=
  { q with prev := Function.update q.prev entry v }

end Circleq

def circleqInit (q : Circleq α) : Circleq α := q.setHead none

def circleqTail (q : Circleq α) : Option α :=
  match q.head with
  | some head => q.prev head
  | none => none

/-- `CIRCLEQ_FORWARD`; like the other macros it fails where it would follow NULL. -/
def circleqForward (q : Circleq α) : Option (Circleq α) := do
  let head ← q.head
  return q.setHead (q.next head)

/-- `CIRCLEQ_REVERSE`, which follows the same link. -/
def circleqReverse (q : Circleq α) : Option (Circleq α) :=
  match q.head with
  | some head => some (q.setHead (q.next head))
  | none => some q

def circleqAddHead (newHead : α) (q : Circleq α) : Option (Circleq α) := do
  let q ←
    match q.head with
    | some head => do
      let q := q.setNext newHead q.head
      let q := q.setPrev newHead (q.prev head)
      let q := q.setPrev head (some newHead)
      let prev ← q.prev newHead
      pure (q.setNext prev (some newHead))
    | none =>
      let q := q.setNext newHead (some newHead)
      pure (q.setPrev newHead (some newHead))
  return q.setHead (some newHead)

def circleqAddTail (newTail : α) (q : Circleq α) : Option (Circleq α) :=
  match q.head with
  | some head => do
    let q := q.setNext newTail q.head
    let q := q.setPrev newTail (q.prev head)
    let next ← q.next newTail
    let q := q.setPrev next (some newTail)
    let prev ← q.prev newTail
    return q.setNext prev (some newTail)
  | none =>
    let q := q.setNext newTail (some newTail)
    let q := q.setPrev newTail (some newTail)
    some (q.setHead (some newTail))

def circleqRemHead (q : Circleq α) : Option (Circleq α) := do
  let head ← q.head
  if q.next head ≠ q.head then
    let next ← q.next head
    let q := q.setPrev next (q.prev head)
    let prev ← q.prev head
    let q := q.setNext prev (q.next head)
    return q.setHead (q.next head)
  else return q.setHead none

def circleqRemTail (q : Circleq α) : Option (Circleq α) := do
  let head ← q.head
  if q.next head ≠ q.head then
    let tail ← q.prev head
    let prev ← q.prev tail
    let q := q.setNext prev q.head
    return q.setPrev head (q.prev tail)
  else return q.setHead none

def circleqRemEntry (entry : α) (q : Circleq α) : Option (Circleq α) :=
  if q.next entry ≠ some entry then do
    let next ← q.next entry
    let q := q.setPrev next (q.prev entry)
    let prev ← q.prev entry
    let q := q.setNext prev (q.next entry)
    if q.head = some entry then return q.setHead (q.next entry) else return q
  else some (q.setHead none)

/-- A use of one of the macros. -/
inductive CircleqOp (α : Type)
  | addHead (newHead : α)
  | addTail (newTail : α)
  | remHead
  | remTail
  | remEntry (entry : α)
  | forward
  | reverse

def CircleqOp.run : CircleqOp α → Circleq α → Option (Circleq α)
  | addHead newHead, q => circleqAddHead newHead q
  | addTail newTail, q => circleqAddTail newTail q
  | remHead, q => circleqRemHead q
  | remTail, q => circleqRemTail q
  | remEntry entry, q => circleqRemEntry entry q
  | forward, q => circleqForward q
  | reverse, q => circleqReverse q

/-- What each operation is for, and where it may be used. -/
inductive CircleqStep (l : List α) : CircleqOp α → List α → Prop
  | addHead {e : α} (he : e ∉ l) : CircleqStep l (.addHead e) (e :: l)
  | addTail {e : α} (he : e ∉ l) : CircleqStep l (.addTail e) (l ++ [e])
  | remHead {x : α} {b : List α} (h : l = x :: b) : CircleqStep l .remHead b
  | remTail {x : α} {b : List α} (h : l = b ++ [x]) : CircleqStep l .remTail b
  | remEntry {a b : List α} {e : α} (h : l = a ++ e :: b) : CircleqStep l (.remEntry e) (a ++ b)
  | forward {x : α} {b : List α} (h : l = x :: b) : CircleqStep l .forward (b ++ [x])
  | reverse {x : α} {b : List α} (h : l = b ++ [x]) : CircleqStep l .reverse (x :: b)

/-- The entries form one ring, which reads as the sequence from the head along `next`, and as the
reverse from the tail along `prev`. -/
structure Circleq.Holds (q : Circleq α) (l : List α) : Prop where
  nodup : l.Nodup
  ahead : Leads q.next q.head l q.head
  back : Leads q.prev (circleqTail q) l.reverse (circleqTail q)
  nextPrev : ∀ x ∈ l, ∃ y ∈ l, q.next x = some y ∧ q.prev y = some x
  prevNext : ∀ y ∈ l, ∃ x ∈ l, q.prev y = some x ∧ q.next x = some y
  null : q.head = none ↔ l = []

/-- The ring is not turned back, or has so few entries that it is the same either way. -/
def NotTurnedBack (l : List α) : CircleqOp α → Prop
  | .reverse => l.length ≤ 2
  | _ => True

section
variable {q : Circleq α} {a b l : List α} {e x : α}

omit [DecidableEq α] in
theorem Circleq.holds_of_ring (h : LinkedRing q.next q.prev l) (hhead : q.head = l.head?) : q.Holds l := by
  have htail : circleqTail q = l.reverse.head? := by
    cases l with
    | nil => rw [circleqTail, hhead, List.head?_nil]; rfl
    | cons x l =>
      have hprev : circleqTail q = q.prev x := by rw [circleqTail, hhead, List.head?_cons]
      rw [hprev, h.first.2, List.head?_reverse, List.getLast?_cons]
      cases l.getLast? <;> rfl
  refine ⟨h.nodup, ?_, ?_, fun x hx => h.inverse hx, fun y hy => ?_, ?_⟩
  · rw [hhead]
    exact h.ahead
  · rw [htail]
    exact h.back
  · obtain ⟨x, hx, hback⟩ := h.flip.inverse (List.mem_reverse.mpr hy)
    exact ⟨x, List.mem_reverse.mp hx, hback⟩
  · rw [hhead]
    exact List.head?_eq_none_iff

omit [DecidableEq α] in
theorem Circleq.Holds.head_eq (h : q.Holds l) : q.head = l.head? := by
  cases l with
  | nil => exact h.null.mpr rfl
  | cons x l => exact h.ahead.1

omit [DecidableEq α] in
theorem Circleq.Holds.ring (h : q.Holds l) : LinkedRing q.next q.prev l := by
  refine ⟨h.nodup, ?_, ?_⟩
  · rw [Cyclic, ← h.head_eq]
    exact h.ahead
  · cases l using List.reverseRecOn with
    | nil => exact rfl
    | append_singleton l x =>
      have hback := h.back
      have htail : circleqTail q = (l ++ [x]).reverse.head? := by
        rw [List.reverse_append] at hback ⊢
        exact hback.1
      rw [Cyclic, ← htail]
      exact hback

theorem circleqAddHead_eq {f t : α} (hhead : q.head = some f) (hprev : q.prev f = some t) (hne : e ≠ f) :
    circleqAddHead e q = some ⟨some e, Function.update (Function.update q.next e (some f)) t (some e),
      Function.update (Function.update q.prev e (some t)) f (some e)⟩ := by
  simp [circleqAddHead, Circleq.setHead, Circleq.setNext, Circleq.setPrev, hhead, hprev, hne]

theorem circleqAddTail_eq {f t : α} (hhead : q.head = some f) (hprev : q.prev f = some t) (hne : e ≠ f) :
    circleqAddTail e q = some ⟨some f, Function.update (Function.update q.next e (some f)) t (some e),
      Function.update (Function.update q.prev e (some t)) f (some e)⟩ := by
  simp [circleqAddTail, Circleq.setNext, Circleq.setPrev, hhead, hprev, hne]

theorem circleqRemHead_eq {f t : α} (hhead : q.head = some x) (hnext : q.next x = some f) (hprev : q.prev x = some t)
    (hf : x ≠ f) (ht : x ≠ t) :
    circleqRemHead q =
      some ⟨some f, Function.update q.next t (q.next x), Function.update q.prev f (q.prev x)⟩ := by
  simp [circleqRemHead, Circleq.setHead, Circleq.setNext, Circleq.setPrev, hhead, hnext, hprev, hf, hf.symm, ht]

theorem circleqRemTail_eq {f t : α} (hhead : q.head = some f) (hnext : q.next f ≠ some f) (hlast : q.prev f = some x)
    (hfirst : q.next x = some f) (hprev : q.prev x = some t) :
    circleqRemTail q =
      some ⟨some f, Function.update q.next t (q.next x), Function.update q.prev f (q.prev x)⟩ := by
  simp [circleqRemTail, Circleq.setNext, Circleq.setPrev, hhead, hnext, hlast, hfirst, hprev]

theorem circleqRemEntry_eq {f t : α} (hnext : q.next e = some f) (hprev : q.prev e = some t) (hf : e ≠ f)
    (ht : e ≠ t) : circleqRemEntry e q = some ⟨if q.head = some e then some f else q.head,
      Function.update q.next t (q.next e), Function.update q.prev f (q.prev e)⟩ := by
  by_cases hhead : q.head = some e <;>
    simp [circleqRemEntry, Circleq.setHead, Circleq.setNext, Circleq.setPrev, hhead, hnext, hprev, hf, hf.symm, ht]

/-- The pointers with a new entry between the last and the first. -/
theorem Circleq.Holds.added {f : α} (h : q.Holds (f :: l)) (he : e ∉ f :: l) :
    ∃ t, q.prev f = some t ∧ e ≠ f ∧
      LinkedRing (Function.update (Function.update q.next e (some f)) t (some e))
        (Function.update (Function.update q.prev e (some t)) f (some e)) ((f :: l) ++ [e]) := by
  obtain ⟨t, hlast⟩ := Option.isSome_iff_exists.mp (List.getLast?_isSome.mpr (List.cons_ne_nil f l))
  obtain ⟨-, hprev⟩ := h.ring.ends rfl hlast
  have hne : e ≠ f := fun hef => he (hef ▸ List.mem_cons_self)
  exact ⟨t, hprev, hne, h.ring.insert he rfl hlast⟩

theorem circleqAddHead_holds (h : q.Holds l) (he : e ∉ l) :
    ∃ q', circleqAddHead e q = some q' ∧ q'.Holds (e :: l) := by
  cases l with
  | nil =>
    have hrun : circleqAddHead e q =
        some ⟨some e, Function.update q.next e (some e), Function.update q.prev e (some e)⟩ := by
      simp [circleqAddHead, Circleq.setHead, Circleq.setNext, Circleq.setPrev, h.head_eq]
    exact ⟨_, hrun, Circleq.holds_of_ring (LinkedRing.single q.next q.prev e) rfl⟩
  | cons f l =>
    obtain ⟨t, hprev, hne, hring⟩ := h.added he
    exact ⟨_, circleqAddHead_eq h.head_eq hprev hne, Circleq.holds_of_ring hring.swap rfl⟩

theorem circleqAddTail_holds (h : q.Holds l) (he : e ∉ l) :
    ∃ q', circleqAddTail e q = some q' ∧ q'.Holds (l ++ [e]) := by
  cases l with
  | nil =>
    have hrun : circleqAddTail e q =
        some ⟨some e, Function.update q.next e (some e), Function.update q.prev e (some e)⟩ := by
      simp [circleqAddTail, Circleq.setHead, Circleq.setNext, Circleq.setPrev, h.head_eq]
    exact ⟨_, hrun, Circleq.holds_of_ring (LinkedRing.single q.next q.prev e) rfl⟩
  | cons f l =>
    obtain ⟨t, hprev, hne, hring⟩ := h.added he
    exact ⟨_, circleqAddTail_eq h.head_eq hprev hne, Circleq.holds_of_ring hring rfl⟩

omit [DecidableEq α] in
/-- A queue without entries, whatever their links were. -/
theorem Circleq.holds_nil (q : Circleq α) : (q.setHead none).Holds [] :=
  Circleq.holds_of_ring ⟨List.nodup_nil, rfl, rfl⟩ rfl

theorem circleqRemHead_holds (h : q.Holds (x :: b)) : ∃ q', circleqRemHead q = some q' ∧ q'.Holds b := by
  have hhead : q.head = some x := h.head_eq
  cases b with
  | nil =>
    have hnext : q.next x = some x := h.ring.first.1
    refine ⟨_, ?_, q.holds_nil⟩
    simp [circleqRemHead, hhead, hnext]
  | cons y b =>
    obtain ⟨f, t, hfirst, ⟨hnext, hprev⟩, ⟨hf, ht⟩, hring⟩ := h.ring.unlink (List.cons_ne_nil y b)
    exact ⟨_, circleqRemHead_eq hhead hnext hprev hf ht, Circleq.holds_of_ring hring hfirst.symm⟩

theorem circleqRemTail_holds (h : q.Holds (b ++ [x])) : ∃ q', circleqRemTail q = some q' ∧ q'.Holds b := by
  have hround : LinkedRing q.next q.prev (x :: b) := h.ring.swap
  cases b with
  | nil =>
    have hhead : q.head = some x := h.head_eq
    have hnext : q.next x = some x := hround.first.1
    refine ⟨_, ?_, q.holds_nil⟩
    simp [circleqRemTail, hhead, hnext]
  | cons y b =>
    have hhead : q.head = some y := h.head_eq
    obtain ⟨-, hlast⟩ := h.ring.ends rfl List.getLast?_concat
    have hnext : q.next y ≠ some y := by
      rw [h.ring.first.1]
      intro hy
      have hmem : y ∈ b ++ [x] := by
        cases b with
        | nil =>
          obtain rfl := Option.some.inj hy
          exact List.mem_singleton.mpr rfl
        | cons z b =>
          obtain rfl := Option.some.inj hy
          exact List.mem_cons_self
      exact (List.nodup_cons.mp h.nodup).1 hmem
    obtain ⟨f, t, hfirst, ⟨hfirst', hprev⟩, -, hring⟩ := hround.unlink (List.cons_ne_nil y b)
    obtain rfl := Option.some.inj hfirst
    exact ⟨_, circleqRemTail_eq hhead hnext hlast hfirst' hprev, Circleq.holds_of_ring hring rfl⟩

theorem circleqRemEntry_holds (h : q.Holds (a ++ e :: b)) :
    ∃ q', circleqRemEntry e q = some q' ∧ q'.Holds (a ++ b) := by
  have hround : LinkedRing q.next q.prev (e :: (b ++ a)) := h.ring.swap
  by_cases hrest : b ++ a = []
  · obtain ⟨rfl, rfl⟩ := List.append_eq_nil_iff.mp hrest
    have hnext : q.next e = some e := hround.first.1
    refine ⟨_, ?_, q.holds_nil⟩
    simp [circleqRemEntry, hnext]
  · obtain ⟨f, t, hfirst, ⟨hnext, hprev⟩, ⟨hf, ht⟩, hring⟩ := hround.unlink hrest
    refine ⟨_, circleqRemEntry_eq hnext hprev hf ht, Circleq.holds_of_ring hring.swap ?_⟩
    cases a with
    | nil =>
      have hhead : q.head = some e := h.head_eq
      rw [List.append_nil] at hfirst
      exact (if_pos hhead).trans hfirst.symm
    | cons y a =>
      have hhead : q.head = some y := h.head_eq
      have hye : y ≠ e := by
        rintro rfl
        exact (List.nodup_cons.mp h.nodup).1 (List.mem_append_right a List.mem_cons_self)
      have hne : q.head ≠ some e := by
        rw [hhead]
        exact fun hs => hye (Option.some.inj hs)
      exact (if_neg hne).trans hhead

omit [DecidableEq α] in
theorem circleqForward_holds (h : q.Holds (x :: b)) :
    circleqForward q = some (q.setHead (b.head?.or (some x))) ∧
      (q.setHead (b.head?.or (some x))).Holds (b ++ [x]) := by
  have hhead : q.head = some x := h.head_eq
  have hring : LinkedRing q.next q.prev (b ++ [x]) := LinkedRing.swap (a := [x]) h.ring
  constructor
  · rw [circleqForward, hhead, ← h.ring.first.1]
    rfl
  · refine Circleq.holds_of_ring hring ?_
    cases b <;> rfl

omit [DecidableEq α] in
/-- On a queue with entries there is no difference between the two. -/
theorem circleqReverse_eq_forward (h : q.head = some x) : circleqReverse q = circleqForward q := by
  rw [circleqReverse, circleqForward, h]
  rfl

omit [DecidableEq α] in
/-- What follows the first entry is the last one only in a small ring. -/
theorem second_is_last_iff {y : α} (hn : (y :: (b ++ [x])).Nodup) :
    (b ++ [x]).head?.or (some y) = some x ↔ (y :: (b ++ [x])).length ≤ 2 := by
  cases b with
  | nil => simp
  | cons z b =>
    have hz : z ≠ x := by
      rintro rfl
      have hrest := (List.nodup_cons.mp hn).2
      exact (List.nodup_cons.mp hrest).1 (List.mem_append_right b (List.mem_singleton.mpr rfl))
    simp [hz]

omit [DecidableEq α] in
theorem circleqReverse_holds_iff (h : q.Holds (b ++ [x])) :
    (b ++ [x]).length ≤ 2 ↔ ∃ q', circleqReverse q = some q' ∧ q'.Holds (x :: b) := by
  cases b with
  | nil =>
    obtain ⟨hrun, hq'⟩ := circleqForward_holds (b := []) h
    rw [circleqReverse_eq_forward h.head_eq]
    exact iff_of_true (Nat.le_succ 1) ⟨_, hrun, hq'⟩
  | cons y b =>
    obtain ⟨hrun, -⟩ := circleqForward_holds (b := b ++ [x]) h
    rw [circleqReverse_eq_forward h.head_eq, List.cons_append, ← second_is_last_iff h.nodup, hrun]
    constructor
    · intro hx
      exact ⟨_, rfl, Circleq.holds_of_ring (LinkedRing.swap (b := [x]) h.ring) hx⟩
    · rintro ⟨q', hq', hholds⟩
      obtain rfl := Option.some.inj hq'
      exact hholds.head_eq

omit [DecidableEq α] in
/-- Going forward twice ends where it began only in a small ring. -/
theorem circleqForward_twice_iff (h : q.Holds (x :: b)) :
    (circleqForward q).bind circleqForward = some q ↔ (x :: b).length ≤ 2 := by
  have hhead : q.head = some x := h.head_eq
  have hsame : ∀ v, (some (q.setHead v) = some q ↔ v = some x) := by
    intro v
    rw [Option.some_inj, ← hhead]
    exact ⟨fun hq => congrArg Circleq.head hq, fun hv => by rw [hv]; rfl⟩
  obtain ⟨hrun, hholds⟩ := circleqForward_holds h
  rw [hrun, Option.bind_some]
  cases b with
  | nil =>
    have hq : q.setHead (some x) = q := Option.some.inj ((hsame (some x)).mpr rfl)
    rw [List.head?_nil, Option.none_or] at hrun hholds ⊢
    rw [hq] at hrun ⊢
    exact iff_of_true hrun (Nat.le_succ 1)
  | cons y b =>
    obtain ⟨hrun', -⟩ := circleqForward_holds (b := b ++ [x]) hholds
    have hsize : (y :: (b ++ [x])).length = (x :: y :: b).length := by simp
    rw [hrun', ← hsize, ← second_is_last_iff hholds.nodup]
    exact hsame _

/-- Each operation does what it is for exactly if it does not turn a larger ring back. -/
theorem CircleqStep.holds_iff (h : q.Holds l) {op : CircleqOp α} {l' : List α} (hstep : CircleqStep l op l') :
    NotTurnedBack l op ↔ ∃ q', op.run q = some q' ∧ q'.Holds l' := by
  cases hstep with
  | addHead he => exact iff_of_true trivial (circleqAddHead_holds h he)
  | addTail he => exact iff_of_true trivial (circleqAddTail_holds h he)
  | remHead hl =>
    subst hl
    exact iff_of_true trivial (circleqRemHead_holds h)
  | remTail hl =>
    subst hl
    exact iff_of_true trivial (circleqRemTail_holds h)
  | remEntry hl =>
    subst hl
    exact iff_of_true trivial (circleqRemEntry_holds h)
  | forward hl =>
    subst hl
    exact iff_of_true trivial ⟨_, circleqForward_holds h⟩
  | reverse hl =>
    subst hl
    exact circleqReverse_holds_iff h

/-- One place to the left and one to the right, in either order, lead back only in a small ring. -/
theorem Circleq.Holds.undo_iff (h : q.Holds (x :: b)) :
    (execute CircleqOp.run [.forward, .reverse] q = some q ↔ (x :: b).length ≤ 2) ∧
      (execute CircleqOp.run [.reverse, .forward] q = some q ↔ (x :: b).length ≤ 2) := by
  obtain ⟨hrun, hholds⟩ := circleqForward_holds h
  have htwice := circleqForward_twice_iff h
  have hhead : ∃ y, (q.setHead (b.head?.or (some x))).head = some y := by
    cases b <;> exact ⟨_, rfl⟩
  obtain ⟨y, hy⟩ := hhead
  rw [hrun, Option.bind_some] at htwice
  constructor
  · rw [← htwice, ← circleqReverse_eq_forward hy]
    simp [execute, CircleqOp.run, hrun]
  · rw [← htwice]
    simp [execute, CircleqOp.run, circleqReverse_eq_forward h.head_eq, hrun]

end

/-- The ring reads as the sequence that the operations come to in every state of a run exactly if only
rings of at most two entries are turned back, and it is only in these that turning one way undoes
turning the other. -/
theorem circleq_conforms_iff (q : Circleq α) (ops : List (CircleqOp α)) :
    (Conforms CircleqStep CircleqOp.run Circleq.Holds ops (circleqInit q) [] ↔
      Meets CircleqStep NotTurnedBack ops []) ∧
    ∀ (r : Circleq α) (x : α) (l : List α), r.Holds (x :: l) →
      (execute CircleqOp.run [.forward, .reverse] r = some r ↔ (x :: l).length ≤ 2) ∧
      (execute CircleqOp.run [.reverse, .forward] r = some r ↔ (x :: l).length ≤ 2) :=
  ⟨conforms_iff (fun _ _ _ _ hR hstep => hstep.holds_iff hR) q.holds_nil, fun _ _ _ hr => hr.undo_iff⟩

/-- The entries 1, 2 and 3 in a ring. -/
def threeRing : Circleq Nat := ⟨some 1, fun x => some (x % 3 + 1), fun x => some ((x + 1) % 3 + 1)⟩

theorem threeRing_notUndone : execute CircleqOp.run [.forward, .reverse] threeRing ≠ some threeRing := by
  intro hundone
  have hholds : threeRing.Holds [1, 2, 3] :=
    Circleq.holds_of_ring ⟨by decide, ⟨rfl, rfl, rfl, rfl⟩, ⟨rfl, rfl, rfl, rfl⟩⟩ rfl
  have hsmall := ((circleq_conforms_iff threeRing []).2 threeRing 1 [2, 3] hholds).1.mp hundone
  revert hsmall
  decide

/-- Of 1, 2 and 3 the last should come to the front, and the second does. -/
theorem threeEntries_turned :
    ¬ Conforms CircleqStep CircleqOp.run Circleq.Holds [.addTail 1, .addTail 2, .addTail 3, .reverse]
      (circleqInit (⟨none, fun _ => none, fun _ => none⟩ : Circleq Nat)) [] := by
  intro hempty
  obtain ⟨q₁, hq₁, hone⟩ := hempty.2 [1] (.addTail (by decide))
  obtain ⟨q₂, hq₂, htwo⟩ := hone.2 [1, 2] (.addTail (by decide))
  obtain ⟨q₃, hq₃, hthree⟩ := htwo.2 [1, 2, 3] (.addTail (by decide))
  obtain ⟨q₄, hq₄, hturned⟩ := hthree.2 [3, 1, 2] (.reverse (b := [1, 2]) rfl)
  cases hq₁
  cases hq₂
  cases hq₃
  cases hq₄
  have hhead : some 2 = some 3 := hturned.head_eq
  cases hhead

end CheviotBoot.Lists
