import CheviotBoot.Lib.Chain

namespace CheviotBoot.Lists
open Lib

/-- The headers of some doubly linked lists and the links of all entries. None is NULL. -/
structure ListHeap (κ α : Type) where
  head : κ → Option α
  tail : κ → Option α
  next : α → Option α
  prev : α → Option α

variable {κ α : Type} [DecidableEq κ] [DecidableEq α]

namespace ListHeap

def setHead (m : ListHeap κ α) (header : κ) (v : Option α) : ListHeap κ α :=
  { m with head := Function.update m.head header v }

def setTail (m : ListHeap κ α) (header : κ) (v : Option α) : ListHeap κ α :=
  { m with tail := Function.update m.tail header v }

def setNext (m : ListHeap κ α) (entry : α) (v : Option α) : ListHeap κ α :=
  { m with next := Function.update m.next entry v }

def setPrev (m : ListHeap κ α) (entry : α) (v : Option α) : ListHeap κ α :=
  { m with prev := Function.update m.prev entry v }

end ListHeap

def listInit (header : κ) (m : ListHeap κ α) : ListHeap κ α :=
  let m := m.setHead header none
  m.setTail header none

/-- `LIST_CONCAT`; like the other macros it fails where it would follow NULL. -/
def listConcat (dest src : κ) (m : ListHeap κ α) : Option (ListHeap κ α) :=
  match m.head src with
  | some srcHead =>
    match m.head dest with
    | some _ => do
      let destTail ← m.tail dest
      let m := m.setNext destTail (m.head src)
      let m := m.setPrev srcHead (m.tail dest)
      return m.setTail dest (m.tail src)
    | none =>
      let m := m.setPrev srcHead none
      let m := m.setHead dest (m.head src)
      some (m.setTail dest (m.tail src))
  | none => some m

def listAddHead (header : κ) (newHead : α) (m : ListHeap κ α) : ListHeap κ α :=
  let m := m.setNext newHead (m.head header)
  let m := m.setPrev newHead none
  let m :=
    match m.head header with
    | some head => m.setPrev head (some newHead)
    | none => m.setTail header (some newHead)
  m.setHead header (some newHead)

def listAddTail (header : κ) (newTail : α) (m : ListHeap κ α) : ListHeap κ α :=
  let m := m.setNext newTail none
  let m := m.setPrev newTail (m.tail header)
  let m :=
    match m.tail header with
    | some tail => m.setNext tail (some newTail)
    | none => m.setHead header (some newTail)
  m.setTail header (some newTail)

def listRemHead (header : κ) (m : ListHeap κ α) : Option (ListHeap κ α) := do
  let head ← m.head header
  let m := m.setHead header (m.next head)
  match m.head header with
  | some head => return m.setPrev head none
  | none => return m.setTail header none

def listRemTail (header : κ) (m : ListHeap κ α) : Option (ListHeap κ α) := do
  let tail ← m.tail header
  let m := m.setTail header (m.prev tail)
  match m.tail header with
  | some tail => return m.setNext tail none
  | none => return m.setHead header none

def listInsertAfter (header : κ) (prevEntry newEntry : α) (m : ListHeap κ α) : ListHeap κ α :=
  let m := m.setNext newEntry (m.next prevEntry)
  let m := m.setPrev newEntry (some prevEntry)
  let m := m.setNext prevEntry (some newEntry)
  match m.next newEntry with
  | some next => m.setPrev next (some newEntry)
  | none => m.setTail header (some newEntry)

def listInsertBefore (header : κ) (nextEntry newEntry : α) (m : ListHeap κ α) : ListHeap κ α :=
  let m := m.setPrev newEntry (m.prev nextEntry)
  let m := m.setNext newEntry (some nextEntry)
  let m := m.setPrev nextEntry (some newEntry)
  match m.prev newEntry with
  | some prev => m.setNext prev (some newEntry)
  | none => m.setHead header (some newEntry)

def listRemEntry (header : κ) (entry : α) (m : ListHeap κ α) : ListHeap κ α :=
  let m :=
    match m.prev entry with
    | some prev => m.setNext prev (m.next entry)
    | none => m.setHead header (m.next entry)
  match m.next entry with
  | some next => m.setPrev next (m.prev entry)
  | none => m.setTail header (m.prev entry)

/-- A header and the links read the same sequence from both ends. -/
structure ListHeap.Holds (m : ListHeap κ α) (header : κ) (l : List α) : Prop where
  nodup : l.Nodup
  forward : Leads m.next (m.head header) l none
  backward : Leads m.prev (m.tail header) l.reverse none
  headNull : m.head header = none ↔ l = []
  tailNull : m.tail header = none ↔ l = []

namespace ListHeap

variable {m : ListHeap κ α} {header : κ} {l a b : List α} {e : α}

/-- The chain of `next` links from the head, and that of `prev` links from the tail. -/
def ahead (m : ListHeap κ α) (header : κ) : Chain α := ⟨m.head header, m.next⟩
def back (m : ListHeap κ α) (header : κ) : Chain α := ⟨m.tail header, m.prev⟩

/-- The pointer to what is behind an entry of a list, or to its head. -/
def setAfter (m : ListHeap κ α) (header : κ) (i v : Option α) : ListHeap κ α :=
  match i with
  | some x => m.setNext x v
  | none => m.setHead header v

/-- The pointer to what is before an entry, or to the tail. -/
def setBefore (m : ListHeap κ α) (header : κ) (i v : Option α) : ListHeap κ α :=
  match i with
  | some x => m.setPrev x v
  | none => m.setTail header v

@[simp] theorem ahead_setAfter (m : ListHeap κ α) (header : κ) (i v : Option α) :
    (m.setAfter header i v).ahead header = (m.ahead header).set i v := by
  cases i <;> simp [setAfter, ahead, setNext, setHead]

@[simp] theorem back_setAfter (m : ListHeap κ α) (header : κ) (i v : Option α) :
    (m.setAfter header i v).back header = m.back header := by
  cases i <;> rfl

@[simp] theorem ahead_setBefore (m : ListHeap κ α) (header : κ) (i v : Option α) :
    (m.setBefore header i v).ahead header = m.ahead header := by
  cases i <;> rfl

@[simp] theorem back_setBefore (m : ListHeap κ α) (header : κ) (i v : Option α) :
    (m.setBefore header i v).back header = (m.back header).set i v := by
  cases i <;> simp [setBefore, back, setPrev, setTail]

/-- An entry between two neighbours, none for an end of the list. -/
def link (m : ListHeap κ α) (header : κ) (i j : Option α) (e : α) : ListHeap κ α :=
  let m := (m.setAfter header (some e) j).setBefore header (some e) i
  (m.setAfter header i (some e)).setBefore header j (some e)

/-- Two neighbours without what was between them. -/
def unlink (m : ListHeap κ α) (header : κ) (i j : Option α) : ListHeap κ α :=
  (m.setAfter header i j).setBefore header j i

omit [DecidableEq κ] [DecidableEq α] in
/-- The ends need not be looked at separately. -/
theorem holds_of_reaches (hn : l.Nodup) (hahead : (m.ahead header).Reaches l none)
    (hback : (m.back header).Reaches l.reverse none) : m.Holds header l := by
  have hhead := hahead.start
  have htail := hback.start
  rw [Option.or_none] at hhead htail
  refine ⟨hn, hahead, hback, ?_, ?_⟩
  · exact (Eq.congr_left hhead).trans List.head?_eq_none_iff
  · exact (Eq.congr_left htail).trans (List.head?_eq_none_iff.trans List.reverse_eq_nil_iff)

theorem Holds.link (h : m.Holds header (a ++ b)) (he : e ∉ a ++ b) :
    (m.link header a.getLast? b.head? e).Holds header (a ++ e :: b) := by
  have hn : (a ++ e :: b).Nodup := List.nodup_middle.mpr (List.nodup_cons.mpr ⟨he, h.nodup⟩)
  refine holds_of_reaches hn ?_ ?_
  · have hinsert := Chain.Reaches.insert (c := m.ahead header) h.forward h.nodup he
    simpa [ListHeap.link] using hinsert
  · have hback := h.backward
    rw [List.reverse_append] at hback
    have hinsert := Chain.Reaches.insert (c := m.back header) (e := e) hback
      (by rw [← List.reverse_append]; exact List.nodup_reverse.mpr h.nodup)
      (by rw [← List.reverse_append, List.mem_reverse]; exact he)
    simpa [ListHeap.link] using hinsert

theorem Holds.unlink (h : m.Holds header (a ++ e :: b)) :
    (m.unlink header a.getLast? b.head?).Holds header (a ++ b) := by
  have hn : (a ++ b).Nodup := (List.nodup_cons.mp (List.nodup_middle.mp h.nodup)).2
  refine holds_of_reaches hn ?_ ?_
  · have hremove := Chain.Reaches.remove (c := m.ahead header) h.forward h.nodup
    simpa [ListHeap.unlink] using hremove
  · have hback := h.backward
    have hrev : (a ++ e :: b).reverse = b.reverse ++ e :: a.reverse := by simp
    rw [hrev] at hback
    have hremove := Chain.Reaches.remove (c := m.back header) hback (hrev ▸ List.nodup_reverse.mpr h.nodup)
    simpa [ListHeap.unlink] using hremove

omit [DecidableEq κ] [DecidableEq α] in
theorem Holds.head_eq (h : m.Holds header l) : m.head header = l.head? := by
  rw [h.forward.start, Option.or_none]

omit [DecidableEq κ] [DecidableEq α] in
theorem Holds.tail_eq (h : m.Holds header l) : m.tail header = l.getLast? := by
  rw [h.backward.start, Option.or_none, List.head?_reverse]

omit [DecidableEq κ] [DecidableEq α] in
theorem Holds.next_eq (h : m.Holds header (a ++ e :: b)) : m.next e = b.head? := by
  have hnext := Chain.Reaches.next_entry (c := m.ahead header) h.forward
  rwa [Option.or_none] at hnext

omit [DecidableEq κ] [DecidableEq α] in
theorem Holds.prev_eq (h : m.Holds header (a ++ e :: b)) : m.prev e = a.getLast? := by
  have hback := h.backward
  rw [List.reverse_append, List.reverse_cons, List.append_assoc, List.singleton_append] at hback
  have hprev := Chain.Reaches.next_entry (c := m.back header) hback
  rwa [Option.or_none, List.head?_reverse] at hprev

end ListHeap

section
variable {header : κ} {m : ListHeap κ α} {e : α}

theorem listAddHead_eq (header : κ) (e : α) (m : ListHeap κ α) :
    listAddHead header e m = m.link header none (m.head header) e := by
  cases h : m.head header <;>
    simp [listAddHead, ListHeap.link, ListHeap.setAfter, ListHeap.setBefore, ListHeap.setNext, ListHeap.setPrev,
      ListHeap.setHead, ListHeap.setTail, h]

theorem listAddTail_eq (header : κ) (e : α) (m : ListHeap κ α) :
    listAddTail header e m = m.link header (m.tail header) none e := by
  cases h : m.tail header <;>
    simp [listAddTail, ListHeap.link, ListHeap.setAfter, ListHeap.setBefore, ListHeap.setNext, ListHeap.setPrev,
      ListHeap.setHead, ListHeap.setTail, h]

theorem listInsertAfter_eq (header : κ) {p e : α} (hne : e ≠ p) (m : ListHeap κ α) :
    listInsertAfter header p e m = m.link header (some p) (m.next p) e := by
  cases h : m.next p <;>
    simp [listInsertAfter, ListHeap.link, ListHeap.setAfter, ListHeap.setBefore, ListHeap.setNext, ListHeap.setPrev,
      ListHeap.setTail, h, hne]

theorem listInsertBefore_eq (header : κ) {n e : α} (hne : e ≠ n) (m : ListHeap κ α) :
    listInsertBefore header n e m = m.link header (m.prev n) (some n) e := by
  cases h : m.prev n <;>
    simp [listInsertBefore, ListHeap.link, ListHeap.setAfter, ListHeap.setBefore, ListHeap.setNext,
      ListHeap.setPrev, ListHeap.setHead, h, hne]

theorem listRemHead_eq {x : α} (h : m.head header = some x) :
    listRemHead header m = some (m.unlink header none (m.next x)) := by
  cases hx : m.next x <;>
    simp [listRemHead, ListHeap.unlink, ListHeap.setAfter, ListHeap.setBefore, ListHeap.setPrev, ListHeap.setHead,
      ListHeap.setTail, h, hx]

theorem listRemTail_eq {x : α} (h : m.tail header = some x) :
    listRemTail header m = some (m.unlink header (m.prev x) none) := by
  cases hx : m.prev x <;>
    simp [listRemTail, ListHeap.unlink, ListHeap.setAfter, ListHeap.setBefore, ListHeap.setNext, ListHeap.setHead,
      ListHeap.setTail, h, hx]

theorem listRemEntry_eq (header : κ) (hne : m.prev e ≠ some e) :
    listRemEntry header e m = m.unlink header (m.prev e) (m.next e) := by
  cases hp : m.prev e with
  | none =>
    cases hn : m.next e <;>
      simp [listRemEntry, ListHeap.unlink, ListHeap.setAfter, ListHeap.setBefore, ListHeap.setPrev,
        ListHeap.setHead, ListHeap.setTail, hp, hn]
  | some p =>
    have hpe : e ≠ p := by
      rintro rfl
      exact hne hp
    cases hn : m.next e <;>
      simp [listRemEntry, ListHeap.unlink, ListHeap.setAfter, ListHeap.setBefore, ListHeap.setNext,
        ListHeap.setPrev, ListHeap.setTail, hp, hn, hpe]

end

namespace ListHeap

variable {m m' m'' : ListHeap κ α} {header : κ} {xs l l' : List α} {e : α}

/-- Only one list's header and some entries' links are written. -/
structure Alters (m m' : ListHeap κ α) (header : κ) (xs : List α) : Prop where
  headers : ∀ k, k ≠ header → m'.head k = m.head k ∧ m'.tail k = m.tail k
  links : ∀ x, x ∉ xs → m'.next x = m.next x ∧ m'.prev x = m.prev x

omit [DecidableEq κ] [DecidableEq α] in
theorem Alters.trans (h : m.Alters m' header xs) (h' : m'.Alters m'' header xs) : m.Alters m'' header xs := by
  refine ⟨fun k hk => ?_, fun x hx => ?_⟩
  · rw [(h'.headers k hk).1, (h'.headers k hk).2]
    exact h.headers k hk
  · rw [(h'.links x hx).1, (h'.links x hx).2]
    exact h.links x hx

theorem alters_setAfter {i : Option α} (hi : ∀ x ∈ i, x ∈ xs) (v : Option α) :
    m.Alters (m.setAfter header i v) header xs := by
  cases i with
  | none =>
    refine ⟨fun k hk => ⟨?_, rfl⟩, fun x _ => ⟨rfl, rfl⟩⟩
    exact Function.update_of_ne hk v m.head
  | some y =>
    refine ⟨fun k _ => ⟨rfl, rfl⟩, fun x hx => ⟨?_, rfl⟩⟩
    have hne : x ≠ y := fun hxy => hx (hxy ▸ hi y rfl)
    exact Function.update_of_ne hne v m.next

theorem alters_setBefore {i : Option α} (hi : ∀ x ∈ i, x ∈ xs) (v : Option α) :
    m.Alters (m.setBefore header i v) header xs := by
  cases i with
  | none =>
    refine ⟨fun k hk => ⟨rfl, ?_⟩, fun x _ => ⟨rfl, rfl⟩⟩
    exact Function.update_of_ne hk v m.tail
  | some y =>
    refine ⟨fun k _ => ⟨rfl, rfl⟩, fun x hx => ⟨rfl, ?_⟩⟩
    have hne : x ≠ y := fun hxy => hx (hxy ▸ hi y rfl)
    exact Function.update_of_ne hne v m.prev

theorem alters_link {i j : Option α} (hi : ∀ x ∈ i, x ∈ xs) (hj : ∀ x ∈ j, x ∈ xs) (he : e ∈ xs) :
    m.Alters (m.link header i j e) header xs := by
  have hself : ∀ x ∈ some e, x ∈ xs := fun x hx => Option.some.inj hx ▸ he
  exact (((alters_setAfter hself j).trans (alters_setBefore hself i)).trans (alters_setAfter hi (some e))).trans
    (alters_setBefore hj (some e))

theorem alters_unlink {i j : Option α} (hi : ∀ x ∈ i, x ∈ xs) (hj : ∀ x ∈ j, x ∈ xs) :
    m.Alters (m.unlink header i j) header xs :=
  (alters_setAfter hi j).trans (alters_setBefore hj i)

omit [DecidableEq κ] [DecidableEq α] in
/-- A list whose header and links are as they were is still held. -/
theorem Holds.kept (h : m.Holds header l) (hhead : m'.head header = m.head header)
    (htail : m'.tail header = m.tail header) (hlinks : ∀ x ∈ l, m'.next x = m.next x ∧ m'.prev x = m.prev x) :
    m'.Holds header l := by
  refine holds_of_reaches h.nodup ?_ ?_
  · rw [Chain.Reaches, ahead, hhead]
    exact h.forward.congr fun x hx => (hlinks x hx).1
  · rw [Chain.Reaches, back, htail]
    exact h.backward.congr fun x hx => (hlinks x (List.mem_reverse.mp hx)).2

/-- The first entry of one list behind the last of another. -/
def join (m : ListHeap κ α) (dest src : κ) (x : α) : ListHeap κ α :=
  let m' := (m.setAfter dest (m.tail dest) (some x)).setPrev x (m.tail dest)
  m'.setTail dest (m.tail src)

theorem Holds.join {dest src : κ} {x : α} (h : m.Holds dest l) (h' : m.Holds src (x :: l'))
    (hdis : l.Disjoint (x :: l')) : (m.join dest src x).Holds dest (l ++ x :: l') := by
  have hn : (l ++ x :: l').Nodup := List.nodup_append'.mpr ⟨h.nodup, h'.nodup, hdis⟩
  have hahead : (m.join dest src x).ahead dest = (m.ahead dest).set l.getLast? (some x) := by
    rw [← h.tail_eq]
    exact ahead_setAfter m dest (m.tail dest) (some x)
  have hback : (m.join dest src x).back dest = (m.back src).set (some x) (m.tail dest) := by
    cases ht : m.tail dest <;> simp [ListHeap.join, back, setAfter, setPrev, setTail, setNext, setHead, ht]
  refine holds_of_reaches hn ?_ ?_
  · rw [hahead]
    have hx : Leads m.next (some x) (x :: l') none := ⟨rfl, h'.forward.2⟩
    exact Chain.Reaches.redirect (c := m.ahead dest) h.forward h.nodup hx hdis
  · rw [hback, List.reverse_append]
    have hlast : (x :: l').reverse.getLast? = some x := by rw [List.getLast?_reverse, List.head?_cons]
    rw [← hlast]
    refine Chain.Reaches.redirect (c := m.back src) h'.backward (List.nodup_reverse.mpr h'.nodup) h.backward ?_
    intro y hy hy'
    exact hdis (List.mem_reverse.mp hy') (List.mem_reverse.mp hy)

end ListHeap

/-- With a member to take over, concatenation joins the lists, also where the first is empty. -/
theorem listConcat_eq {dest src : κ} {m : ListHeap κ α} {x : α} (hsrc : m.head src = some x)
    (hdest : m.tail dest = none ↔ m.head dest = none) :
    listConcat dest src m = some (m.join dest src x) := by
  cases hh : m.head dest with
  | none =>
    have ht : m.tail dest = none := hdest.mpr hh
    simp [listConcat, ListHeap.join, ListHeap.setAfter, ListHeap.setHead, ListHeap.setPrev, ListHeap.setTail, hsrc,
      hh, ht]
  | some y =>
    obtain ⟨z, ht⟩ : ∃ z, m.tail dest = some z := by
      rw [← Option.isSome_iff_exists, Option.isSome_iff_ne_none]
      intro hn
      rw [hdest.mp hn] at hh
      cases hh
    simp [listConcat, ListHeap.join, ListHeap.setAfter, ListHeap.setNext, ListHeap.setPrev, ListHeap.setTail, hsrc,
      hh, ht]

end CheviotBoot.Lists
