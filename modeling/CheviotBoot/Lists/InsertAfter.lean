import CheviotBoot.Lists.Queue

namespace CheviotBoot.Lists
open Lib

/-- The header of a stack and the links of all entries. -/
structure Stack (α : Type) where
  head : Option α
  next : α → Option α

variable {α : Type} [DecidableEq α]

def Stack.setNext (s : Stack α) (entry : α) (v : Option α) : Stack α :=
  { s with next := Function.update s.next entry v }

def stackInit (s : Stack α) : Stack α := { s with head := none }

def stackAddHead (newHead : α) (s : Stack α) : Stack α :=
  let s := s.setNext newHead s.head
  { s with head := some newHead }

/-- `STACK_REM_HEAD`; it fails where it would follow NULL. -/
def stackRemHead (s : Stack α) : Option (Stack α) := do
  let head ← s.head
  return { s with head := s.next head }

/-- `STACK_INSERT_AFTER`. Its parameter is `prec_entry`, but what it uses is a `prev_entry`, which
is whatever has that name where the macro is used. -/
def stackInsertAfter (_precEntry prevEntry newEntry : α) (s : Stack α) : Stack α :=
  let s := s.setNext newEntry (s.next prevEntry)
  s.setNext prevEntry (some newEntry)

/-- `QUEUE_INSERT_AFTER`, with the same slip. -/
def queueInsertAfter (_precEntry prevEntry newEntry : α) (q : Queue α) : Queue α :=
  let q := q.setNext newEntry (q.next prevEntry)
  let q := q.setNext prevEntry (some newEntry)
  match q.next newEntry with
  | some _ => q
  | none => { q with tail := some newEntry }

/-- A use of one of the stack macros. -/
inductive StackOp (α : Type)
  | addHead (newHead : α)
  | remHead
  | insertAfter (precEntry prevEntry newEntry : α)

def StackOp.run : StackOp α → Stack α → Option (Stack α)
  | addHead newHead, s => some (stackAddHead newHead s)
  | remHead, s => stackRemHead s
  | insertAfter precEntry prevEntry newEntry, s => some (stackInsertAfter precEntry prevEntry newEntry s)

/-- What each operation is for, and where it may be used. -/
inductive StackStep (l : List α) : StackOp α → List α → Prop
  | addHead {e : α} (he : e ∉ l) : StackStep l (.addHead e) (e :: l)
  | remHead {x : α} {b : List α} (h : l = x :: b) : StackStep l .remHead b
  | insertAfter {a b : List α} {p e : α} (prevEntry : α) (h : l = a ++ p :: b) (he : e ∉ l) :
      StackStep l (.insertAfter p prevEntry e) (a ++ p :: e :: b)

structure Stack.Holds (s : Stack α) (l : List α) : Prop where
  nodup : l.Nodup
  reached : Leads s.next s.head l none

/-- Every use of a queue macro. -/
inductive QueueUse (α : Type)
  | old (op : QueueOp α)
  | insertAfter (precEntry prevEntry newEntry : α)

def QueueUse.run : QueueUse α → Queue α → Option (Queue α)
  | old op, q => op.run q
  | insertAfter precEntry prevEntry newEntry, q => some (queueInsertAfter precEntry prevEntry newEntry q)

inductive QueueUseStep (l : List α) : QueueUse α → List α → Prop
  | old {op : QueueOp α} {l' : List α} (h : QueueStep l op l') : QueueUseStep l (.old op) l'
  | insertAfter {a b : List α} {p e : α} (prevEntry : α) (h : l = a ++ p :: b) (he : e ∉ l) :
      QueueUseStep l (.insertAfter p prevEntry e) (a ++ p :: e :: b)

/-- The entry to insert behind has the name that the macro uses. -/
def StackOp.Named : StackOp α → Prop
  | .insertAfter precEntry prevEntry _ => prevEntry = precEntry
  | _ => True

/-- The same, and the tail is not taken out from behind another entry. -/
def QueueUse.Sound (l : List α) : QueueUse α → Prop
  | .old op => KeepsTail l op
  | .insertAfter precEntry prevEntry _ => prevEntry = precEntry

section
variable {a b l : List α} {p e : α}

/-- Two stores that put an entry behind another put it behind `p` if that is the other. -/
theorem inserted_iff {start : Option α} {next : α → Option α} (h : Leads next start (a ++ p :: b) none)
    (hn : (a ++ p :: b).Nodup) (he : e ∉ a ++ p :: b) (prevEntry : α) :
    Leads (Function.update (Function.update next e (next prevEntry)) prevEntry (some e)) start (a ++ p :: e :: b)
      none ↔ prevEntry = p := by
  have hsplit : ∀ b, a ++ p :: b = (a ++ [p]) ++ b := fun b => List.append_cons a p b
  have hp : next p = b.head? := by
    have hnext := Chain.Reaches.next_entry (c := ⟨start, next⟩) h
    rwa [Option.or_none] at hnext
  have hep : p ≠ e := by
    rintro rfl
    exact he (List.mem_append_right a List.mem_cons_self)
  constructor
  · intro hled
    by_contra hne
    have hnext : Function.update (Function.update next e (next prevEntry)) prevEntry (some e) p = some e :=
      Chain.Reaches.next_entry (c := ⟨start, _⟩) hled
    have hsame : Function.update (Function.update next e (next prevEntry)) prevEntry (some e) p = next p := by
      rw [Function.update_of_ne (Ne.symm hne), Function.update_of_ne hep]
    rw [hsame, hp] at hnext
    have hmem : e ∈ b := List.mem_of_mem_head? (Option.mem_def.mpr hnext)
    exact he (List.mem_append_right a (List.mem_cons_of_mem p hmem))
  · rintro rfl
    rw [hsplit] at h hn he
    have hinsert := Chain.Reaches.insert (c := ⟨start, next⟩) h hn he
    rw [List.getLast?_concat, Option.or_none, ← hp] at hinsert
    rw [hsplit]
    exact hinsert

omit [DecidableEq α] in
theorem inserted_nodup (hn : (a ++ p :: b).Nodup) (he : e ∉ a ++ p :: b) : (a ++ p :: e :: b).Nodup := by
  have hsplit : ∀ b, a ++ p :: b = (a ++ [p]) ++ b := fun b => List.append_cons a p b
  rw [hsplit] at hn he ⊢
  exact List.nodup_middle.mpr (List.nodup_cons.mpr ⟨he, hn⟩)

theorem stackInsertAfter_holds_iff {s : Stack α} (h : s.Holds (a ++ p :: b)) (he : e ∉ a ++ p :: b)
    (prevEntry : α) : (stackInsertAfter p prevEntry e s).Holds (a ++ p :: e :: b) ↔ prevEntry = p := by
  rw [← inserted_iff h.reached h.nodup he prevEntry]
  exact ⟨fun hs => hs.reached, fun hled => ⟨inserted_nodup h.nodup he, hled⟩⟩

theorem queueInsertAfter_chain (precEntry prevEntry e : α) (q : Queue α) :
    (queueInsertAfter precEntry prevEntry e q).head = q.head ∧
      (queueInsertAfter precEntry prevEntry e q).next =
        Function.update (Function.update q.next e (q.next prevEntry)) prevEntry (some e) := by
  unfold queueInsertAfter
  simp only [Queue.setNext]
  split <;> exact ⟨rfl, rfl⟩

theorem queueInsertAfter_holds_iff {q : Queue α} (h : q.Holds (a ++ p :: b)) (he : e ∉ a ++ p :: b)
    (prevEntry : α) : (queueInsertAfter p prevEntry e q).Holds (a ++ p :: e :: b) ↔ prevEntry = p := by
  obtain ⟨hhead, hnext⟩ := queueInsertAfter_chain p prevEntry e q
  rw [← inserted_iff h.reached h.nodup he prevEntry]
  constructor
  · intro hq
    have hreached := hq.reached
    rwa [hhead, hnext] at hreached
  · intro hled
    refine Queue.holds_of_reaches (inserted_nodup h.nodup he) ?_ ?_
    · rw [Chain.Reaches, hhead, hnext]
      exact hled
    · obtain rfl := (inserted_iff h.reached h.nodup he prevEntry).mp hled
      have hne : e ≠ prevEntry := by
        rintro rfl
        exact he (List.mem_append_right a List.mem_cons_self)
      have hbehind : Function.update (Function.update q.next e (q.next prevEntry)) prevEntry (some e) e = b.head? := by
        rw [Function.update_of_ne hne, Function.update_self, ← Option.or_none (o := b.head?)]
        exact Chain.Reaches.next_entry (c := ⟨q.head, q.next⟩) h.reached
      simp only [queueInsertAfter, Queue.setNext, hbehind]
      cases b with
      | nil => simp
      | cons y b => simpa using h.tail

/-- Each operation on a stack does what it is for exactly if it names its entry right. -/
theorem StackStep.holds_iff {s : Stack α} (h : s.Holds l) {op : StackOp α} {l' : List α}
    (hstep : StackStep l op l') : op.Named ↔ ∃ s', op.run s = some s' ∧ s'.Holds l' := by
  cases hstep with
  | @addHead e he =>
    have hnext : (stackAddHead e s).next = Function.update s.next e s.head := rfl
    refine iff_of_true trivial ⟨stackAddHead e s, rfl, List.nodup_cons.mpr ⟨he, h.nodup⟩, rfl, ?_⟩
    rw [hnext, Function.update_self]
    exact h.reached.update_other he s.head
  | remHead hl =>
    subst hl
    obtain ⟨hhead, hrest⟩ := h.reached
    refine iff_of_true trivial ⟨{ s with head := s.next _ }, ?_, (List.nodup_cons.mp h.nodup).2, hrest⟩
    simp [StackOp.run, stackRemHead, hhead]
  | insertAfter prevEntry hl he =>
    subst hl
    rw [StackOp.Named, ← stackInsertAfter_holds_iff h he prevEntry]
    exact ⟨fun hs => ⟨_, rfl, hs⟩, fun ⟨s', hrun, hs⟩ => Option.some.inj hrun ▸ hs⟩

theorem QueueUseStep.holds_iff {q : Queue α} (h : q.Holds l) {op : QueueUse α} {l' : List α}
    (hstep : QueueUseStep l op l') : op.Sound l ↔ ∃ q', op.run q = some q' ∧ q'.Holds l' := by
  cases hstep with
  | old hold => exact hold.holds_iff h
  | insertAfter prevEntry hl he =>
    subst hl
    rw [QueueUse.Sound, ← queueInsertAfter_holds_iff h he prevEntry]
    exact ⟨fun hq => ⟨_, rfl, hq⟩, fun ⟨q', hrun, hq⟩ => Option.some.inj hrun ▸ hq⟩

end

/-- Whatever memory holds before, stacks and queues are as they should be in every state of a run
exactly if every insertion finds its entry under the name the macro uses, and no queue loses its
tail. -/
theorem insertions_conform_iff (s : Stack α) (q : Queue α) (ops : List (StackOp α)) (uses : List (QueueUse α)) :
    (Conforms StackStep StackOp.run Stack.Holds ops (stackInit s) [] ↔
        Meets StackStep (fun _ => StackOp.Named) ops []) ∧
      (Conforms QueueUseStep QueueUse.run Queue.Holds uses (queueInit q) [] ↔
        Meets QueueUseStep QueueUse.Sound uses []) :=
  ⟨conforms_iff (fun _ _ _ _ hR hstep => hstep.holds_iff hR) ⟨List.nodup_nil, rfl⟩,
    conforms_iff (fun _ _ _ _ hR hstep => hstep.holds_iff hR) (Queue.holds_of_reaches List.nodup_nil rfl rfl)⟩

end CheviotBoot.Lists
