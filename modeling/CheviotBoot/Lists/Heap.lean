import CheviotBoot.Lists.Sequences

namespace CheviotBoot.Lists
open Lib

/-- The headers of some heaps, which have no tail, and the links of all entries. -/
structure HeapMem (κ α : Type) where
  head : κ → Option α
  next : α → Option α
  prev : α → Option α

variable {κ α : Type} [DecidableEq κ] [DecidableEq α]

namespace HeapMem

def setHead (m : HeapMem κ α) (header : κ) (v : Option α) : HeapMem κ α :=
  { m with head := Function.update m.head header v }

def setNext (m : HeapMem κ α) (entry : α) (v : Option α) : HeapMem κ α :=
  { m with next := Function.update m.next entry v }

def setPrev (m : HeapMem κ α) (entry : α) (v : Option α) : HeapMem κ α :=
  { m with prev := Function.update m.prev entry v }

end HeapMem

def heapInit (header : κ) (m : HeapMem κ α) : HeapMem κ α := m.setHead header none

def heapAddHead (header : κ) (newHead : α) (m : HeapMem κ α) : HeapMem κ α :=
  let m := m.setNext newHead (m.head header)
  let m := m.setPrev newHead none
  let m :=
    match m.head header with
    | some head => m.setPrev head (some newHead)
    | none => m
  m.setHead header (some newHead)

/-- `HEAP_REM_HEAD`; it fails where it would follow NULL. -/
def heapRemHead (header : κ) (m : HeapMem κ α) : Option (HeapMem κ α) := do
  let head ← m.head header
  let m := m.setHead header (m.next head)
  match m.head header with
  | some head => return m.setPrev head none
  | none => return m

/-- `HEAP_INSERT_AFTER`, which does nothing with its header. -/
def heapInsertAfter (_header : κ) (prevEntry newEntry : α) (m : HeapMem κ α) : HeapMem κ α :=
  let m := m.setNext newEntry (m.next prevEntry)
  let m := m.setPrev newEntry (some prevEntry)
  let m := m.setNext prevEntry (some newEntry)
  match m.next newEntry with
  | some next => m.setPrev next (some newEntry)
  | none => m

def heapInsertBefore (header : κ) (nextEntry newEntry : α) (m : HeapMem κ α) : HeapMem κ α :=
  let m := m.setPrev newEntry (m.prev nextEntry)
  let m := m.setNext newEntry (some nextEntry)
  let m := m.setPrev nextEntry (some newEntry)
  match m.prev newEntry with
  | some prev => m.setNext prev (some newEntry)
  | none => m.setHead header (some newEntry)

def heapRemEntry (header : κ) (entry : α) (m : HeapMem κ α) : HeapMem κ α :=
  let m :=
    match m.prev entry with
    | some prev => m.setNext prev (m.next entry)
    | none => m.setHead header (m.next entry)
  match m.next entry with
  | some next => m.setPrev next (m.prev entry)
  | none => m

/-- A use of one of the macros. -/
inductive HeapOp (κ α : Type)
  | init (header : κ)
  | addHead (header : κ) (newHead : α)
  | remHead (header : κ)
  | insertAfter (header : κ) (prevEntry newEntry : α)
  | insertBefore (header : κ) (nextEntry newEntry : α)
  | remEntry (header : κ) (entry : α)

def HeapOp.run : HeapOp κ α → HeapMem κ α → Option (HeapMem κ α)
  | init header, m => some (heapInit header m)
  | addHead header newHead, m => some (heapAddHead header newHead m)
  | remHead header, m => heapRemHead header m
  | insertAfter header prevEntry newEntry, m => some (heapInsertAfter header prevEntry newEntry m)
  | insertBefore header nextEntry newEntry, m => some (heapInsertBefore header nextEntry newEntry m)
  | remEntry header entry, m => some (heapRemEntry header entry m)

/-- The macro of the lists with tails that has the same name. -/
def HeapOp.asList : HeapOp κ α → ListOp κ α
  | init header => .init header
  | addHead header newHead => .addHead header newHead
  | remHead header => .remHead header
  | insertAfter header prevEntry newEntry => .insertAfter header prevEntry newEntry
  | insertBefore header nextEntry newEntry => .insertBefore header nextEntry newEntry
  | remEntry header entry => .remEntry header entry

/-- What is left of lists without their tails. -/
def ListHeap.heap (m : ListHeap κ α) : HeapMem κ α := ⟨m.head, m.next, m.prev⟩

/-- From the header, which is NULL for an empty heap, the entries are reached one after the other,
and each of them points back at the one before. -/
structure HeapMem.Holds (m : HeapMem κ α) (header : κ) (l : List α) : Prop where
  nodup : l.Nodup
  forward : Leads m.next (m.head header) l none
  back : ∀ a e b, l = a ++ e :: b → m.prev e = a.getLast?
  null : m.head header = none ↔ l = []

/-- The headers of other heaps and the links of their entries are as they were. -/
def HeapOp.OthersKept (s : Sequences κ α) (op : HeapOp κ α) (m m' : HeapMem κ α) : Prop :=
  ∀ header l, s header = some l → header ∉ op.asList.headers →
    m'.head header = m.head header ∧ ∀ x ∈ l, m'.next x = m.next x ∧ m'.prev x = m.prev x

section
variable {m m' : ListHeap κ α} {header : κ} {l : List α}

omit [DecidableEq κ] [DecidableEq α] in
theorem ListHeap.Holds.heap (h : m.Holds header l) : m.heap.Holds header l where
  nodup := h.nodup
  forward := h.forward
  back := by
    rintro a e b rfl
    exact h.prev_eq
  null := h.headNull

/-- Without the tails every macro does what the one of the lists does. -/
theorem HeapOp.run_heap (op : HeapOp κ α) (m : ListHeap κ α) :
    op.run m.heap = (op.asList.run m).map ListHeap.heap := by
  cases op with
  | init header => rfl
  | addHead header newHead =>
    cases hhead : m.head header <;>
      simp [run, asList, ListOp.run, heapAddHead, listAddHead, ListHeap.heap, HeapMem.setHead, HeapMem.setNext,
        HeapMem.setPrev, ListHeap.setHead, ListHeap.setNext, ListHeap.setPrev, ListHeap.setTail, hhead]
  | remHead header =>
    cases hhead : m.head header with
    | none => simp [run, asList, ListOp.run, heapRemHead, listRemHead, ListHeap.heap, hhead]
    | some x =>
      cases hnext : m.next x <;>
        simp [run, asList, ListOp.run, heapRemHead, listRemHead, ListHeap.heap, HeapMem.setHead, HeapMem.setPrev,
          ListHeap.setHead, ListHeap.setPrev, ListHeap.setTail, hhead, hnext]
  | insertAfter header prevEntry newEntry =>
    simp only [run, asList, ListOp.run, heapInsertAfter, listInsertAfter, ListHeap.heap, HeapMem.setNext,
      HeapMem.setPrev, ListHeap.setNext, ListHeap.setPrev, ListHeap.setTail, Option.map_some]
    generalize Function.update (Function.update m.next newEntry (m.next prevEntry)) prevEntry (some newEntry)
      newEntry = next
    cases next <;> rfl
  | insertBefore header nextEntry newEntry =>
    simp only [run, asList, ListOp.run, heapInsertBefore, listInsertBefore, ListHeap.heap, HeapMem.setHead,
      HeapMem.setNext, HeapMem.setPrev, ListHeap.setHead, ListHeap.setNext, ListHeap.setPrev, Option.map_some]
    generalize Function.update (Function.update m.prev newEntry (m.prev nextEntry)) nextEntry (some newEntry)
      newEntry = prev
    cases prev <;> rfl
  | remEntry header entry =>
    simp only [run, asList, ListOp.run, heapRemEntry, listRemEntry, ListHeap.heap, HeapMem.setHead, HeapMem.setNext,
      HeapMem.setPrev, ListHeap.setHead, ListHeap.setNext, ListHeap.setPrev, ListHeap.setTail, Option.map_some]
    cases hprev : m.prev entry with
    | none =>
      simp only
      generalize m.next entry = next
      cases next <;> rfl
    | some p =>
      simp only
      generalize Function.update m.next p (m.next entry) entry = next
      cases next <;> rfl

end

/-- Whatever memory holds before, after any run of operations from heaps that were initialised every
heap reads as its sequence, and the next operation does to it what it is for and nothing to the
others. -/
theorem heaps_sequences (m : HeapMem κ α) {ops : List (HeapOp κ α)} {op : HeapOp κ α} {s t : Sequences κ α}
    (h : Runs ListStep (fun _ => none) (ops.map HeapOp.asList) s) (hop : ListStep s op.asList t) :
    ∃ m₁ m₂, execute HeapOp.run ops m = some m₁ ∧ op.run m₁ = some m₂ ∧
      (∀ header l, s header = some l → m₁.Holds header l) ∧ (∀ header l, t header = some l → m₂.Holds header l) ∧
      op.OthersKept s m₁ m₂ := by
  -- the tails these lists have before is of no account
  obtain ⟨m₁, hrun, hrep⟩ := represents_run (represents_none ⟨m.head, fun _ => none, m.next, m.prev⟩) h
  obtain ⟨m₂, hlast, hrep₂, hkept⟩ := hop.simulated hrep
  have hexecute := execute_view HeapOp.run_heap ops (⟨m.head, fun _ => none, m.next, m.prev⟩ : ListHeap κ α)
  rw [hrun] at hexecute
  refine ⟨m₁.heap, m₂.heap, hexecute, ?_, fun header l hl => (hrep.holds header l hl).heap,
    fun header l hl => (hrep₂.holds header l hl).heap, fun header l hl hnot => ?_⟩
  · rw [HeapOp.run_heap, hlast, Option.map_some]
  · obtain ⟨hhead, -, hlinks⟩ := hkept header l hl hnot
    exact ⟨hhead, hlinks⟩

/-- Two heaps in memory that holds anything; the first is given two entries. -/
def twoHeapsOps : List (HeapOp Bool Nat) :=
  [.init false, .init true, .addHead false 1, .insertBefore false 1 2]

theorem twoHeaps_emptied : ∃ m₁ m₂ : HeapMem Bool Nat,
    execute HeapOp.run twoHeapsOps ⟨fun _ => some 7, fun _ => some 8, fun _ => some 9⟩ = some m₁ ∧
      (HeapOp.remEntry false 2).run m₁ = some m₂ ∧ m₁.Holds false [2, 1] ∧ m₂.Holds false [1] := by
  have hnone : ∀ e : Nat, Sequences.Fresh (fun _ : Bool => none) e := fun e k l hk => (by cases hk)
  have hfresh : ∀ e : Nat, ((Sequences.put (fun _ => none) false []).put true []).Fresh e :=
    fun e => ((hnone e).put false List.not_mem_nil).put true List.not_mem_nil
  have hone := (hfresh 2).put false (l := [1]) (by decide)
  have hruns : Runs ListStep (fun _ => none) (twoHeapsOps.map HeapOp.asList) _ :=
    ((((Runs.nil.snoc (.init false)).snoc (.init true)).snoc (.addHead (l := []) rfl (hfresh 1))).snoc
      (.insertBefore (a := []) (b := []) rfl hone))
  obtain ⟨m₁, m₂, hrun, hlast, hbefore, hafter, -⟩ :=
    @heaps_sequences Bool Nat _ _ ⟨fun _ => some 7, fun _ => some 8, fun _ => some 9⟩ twoHeapsOps
      (.remEntry false 2) _ _ hruns (.remEntry (a := []) (b := [1]) rfl)
  exact ⟨m₁, m₂, hrun, hlast, hbefore false _ rfl, hafter false _ rfl⟩

end CheviotBoot.Lists
