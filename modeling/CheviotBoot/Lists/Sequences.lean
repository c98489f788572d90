import CheviotBoot.Lib.Conforms
import CheviotBoot.Lists.Linked

namespace CheviotBoot.Lists
open Lib

variable {κ α : Type} [DecidableEq κ] [DecidableEq α]

/-- A use of one of the macros. -/
inductive ListOp (κ α : Type)
  | init (header : κ)
  | concat (dest src : κ)
  | addHead (header : κ) (newHead : α)
  | addTail (header : κ) (newTail : α)
  | remHead (header : κ)
  | remTail (header : κ)
  | insertAfter (header : κ) (prevEntry newEntry : α)
  | insertBefore (header : κ) (nextEntry newEntry : α)
  | remEntry (header : κ) (entry : α)

def ListOp.run : ListOp κ α → ListHeap κ α → Option (ListHeap κ α)
  | init header, m => some (listInit header m)
  | concat dest src, m => listConcat dest src m
  | addHead header newHead, m => some (listAddHead header newHead m)
  | addTail header newTail, m => some (listAddTail header newTail m)
  | remHead header, m => listRemHead header m
  | remTail header, m => listRemTail header m
  | insertAfter header prevEntry newEntry, m => some (listInsertAfter header prevEntry newEntry m)
  | insertBefore header nextEntry newEntry, m => some (listInsertBefore header nextEntry newEntry m)
  | remEntry header entry, m => some (listRemEntry header entry m)

/-- The members of each list in use, in order. -/
abbrev Sequences (κ α : Type) := κ → Option (List α)

/-- An entry of none of the lists. -/
def Sequences.Fresh (s : Sequences κ α) (e : α) : Prop := ∀ header l, s header = some l → e ∉ l

def Sequences.put (s : Sequences κ α) (header : κ) (l : List α) : Sequences κ α :=
  Function.update s header (some l)

omit [DecidableEq α] in
theorem Sequences.Fresh.put {s : Sequences κ α} {e : α} (h : s.Fresh e) (header : κ) {l : List α} (he : e ∉ l) :
    (s.put header l).Fresh e := by
  intro k lk hk
  by_cases hkh : k = header
  · rw [hkh, Sequences.put, Function.update_self] at hk
    exact Option.some.inj hk ▸ he
  · rw [Sequences.put, Function.update_of_ne hkh] at hk
    exact h k lk hk

/-- What each operation is for, and where it may be used. The source of a concatenation is out of
use until it is initialised again. -/
inductive ListStep (s : Sequences κ α) : ListOp κ α → Sequences κ α → Prop
  | init (header : κ) : ListStep s (.init header) (s.put header [])
  | concat {dest src : κ} {l l' : List α} (hdest : s dest = some l) (hsrc : s src = some l') (hne : dest ≠ src) :
      ListStep s (.concat dest src) (Sequences.put (Function.update s src none) dest (l ++ l'))
  | addHead {header : κ} {l : List α} {e : α} (h : s header = some l) (he : s.Fresh e) :
      ListStep s (.addHead header e) (s.put header (e :: l))
  | addTail {header : κ} {l : List α} {e : α} (h : s header = some l) (he : s.Fresh e) :
      ListStep s (.addTail header e) (s.put header (l ++ [e]))
  | remHead {header : κ} {l : List α} {x : α} (h : s header = some (x :: l)) :
      ListStep s (.remHead header) (s.put header l)
  | remTail {header : κ} {l : List α} {x : α} (h : s header = some (l ++ [x])) :
      ListStep s (.remTail header) (s.put header l)
  | insertAfter {header : κ} {a b : List α} {p e : α} (h : s header = some (a ++ p :: b)) (he : s.Fresh e) :
      ListStep s (.insertAfter header p e) (s.put header (a ++ p :: e :: b))
  | insertBefore {header : κ} {a b : List α} {n e : α} (h : s header = some (a ++ n :: b)) (he : s.Fresh e) :
      ListStep s (.insertBefore header n e) (s.put header (a ++ e :: n :: b))
  | remEntry {header : κ} {a b : List α} {e : α} (h : s header = some (a ++ e :: b)) :
      ListStep s (.remEntry header e) (s.put header (a ++ b))

/-- Every list in use is held, and no entry is in two of them. -/
structure ListHeap.Represents (m : ListHeap κ α) (s : Sequences κ α) : Prop where
  holds : ∀ header l, s header = some l → m.Holds header l
  apart : ∀ j k l l', s j = some l → s k = some l' → j ≠ k → l.Disjoint l'

/-- The lists that an operation names. -/
def ListOp.headers : ListOp κ α → List κ
  | concat dest src => [dest, src]
  | init header | addHead header _ | addTail header _ | remHead header | remTail header | insertAfter header _ _
  | insertBefore header _ _ | remEntry header _ => [header]

/-- The headers of other lists and the links of their entries are as they were. -/
def OthersKept (s : Sequences κ α) (op : ListOp κ α) (m m' : ListHeap κ α) : Prop :=
  ∀ header l, s header = some l → header ∉ op.headers →
    m'.head header = m.head header ∧ m'.tail header = m.tail header ∧
      ∀ x ∈ l, m'.next x = m.next x ∧ m'.prev x = m.prev x

namespace ListHeap

variable {m m' : ListHeap κ α} {s : Sequences κ α} {op : ListOp κ α} {header : κ} {xs l' a b : List α} {e : α}

omit [DecidableEq κ] [DecidableEq α] in
theorem Alters.others (h : m.Alters m' header xs) (hxs : ∀ k l, s k = some l → k ∉ op.headers → xs.Disjoint l)
    (hop : header ∈ op.headers) : OthersKept s op m m' := by
  intro k l hk hnot
  have hne : k ≠ header := by
    rintro rfl
    exact hnot hop
  obtain ⟨hhead, htail⟩ := h.headers k hne
  exact ⟨hhead, htail, fun x hx => h.links x fun hx' => hxs k l hk hnot hx' hx⟩

omit [DecidableEq α] in
/-- One list is changed into another, and entries of that are all that is written. -/
theorem Represents.put (h : m.Represents s) (hl : m'.Holds header l') (halters : m.Alters m' header l')
    (hdis : ∀ k l, s k = some l → k ≠ header → l'.Disjoint l) : m'.Represents (s.put header l') := by
  have hput : ∀ k l, s.put header l' k = some l → k = header ∧ l = l' ∨ k ≠ header ∧ s k = some l := by
    intro k l hk
    by_cases hkh : k = header
    · subst hkh
      rw [Sequences.put, Function.update_self] at hk
      exact Or.inl ⟨rfl, (Option.some.inj hk).symm⟩
    · rw [Sequences.put, Function.update_of_ne hkh] at hk
      exact Or.inr ⟨hkh, hk⟩
  constructor
  · intro k l hk
    rcases hput k l hk with ⟨rfl, rfl⟩ | ⟨hne, hk⟩
    · exact hl
    · obtain ⟨hhead, htail⟩ := halters.headers k hne
      exact (h.holds k l hk).kept hhead htail fun x hx => halters.links x fun hx' => hdis k l hk hne hx' hx
  · intro j k lj lk hj hk hne
    rcases hput j lj hj with ⟨rfl, rfl⟩ | ⟨hnj, hsj⟩
    · rcases hput k lk hk with ⟨rfl, -⟩ | ⟨hnk, hsk⟩
      · exact absurd rfl hne
      · exact hdis k lk hsk hnk
    · rcases hput k lk hk with ⟨rfl, rfl⟩ | ⟨hnk, hsk⟩
      · exact List.disjoint_symm (hdis j lj hsj hnj)
      · exact h.apart j k lj lk hsj hsk hne

omit [DecidableEq α] in
/-- The same where the operation is on that list alone. -/
theorem Represents.change (h : m.Represents s) (hl : m'.Holds header l') (halters : m.Alters m' header l')
    (hdis : ∀ k l, s k = some l → k ≠ header → l'.Disjoint l) (hop : op.headers = [header]) :
    m'.Represents (s.put header l') ∧ OthersKept s op m m' := by
  have hmem : ∀ k, k ∈ op.headers ↔ k = header := by
    intro k
    rw [hop, List.mem_singleton]
  refine ⟨h.put hl halters hdis, halters.others (fun k l hk hnot => ?_) ((hmem header).mpr rfl)⟩
  exact hdis k l hk fun hkh => hnot ((hmem k).mpr hkh)

omit [DecidableEq α] in
/-- A list that is given up no longer counts. -/
theorem Represents.drop (h : m.Represents s) (src : κ) : m.Represents (Function.update s src none) := by
  have hold : ∀ k l, Function.update s src none k = some l → s k = some l := by
    intro k l hk
    by_cases hsrc : k = src
    · rw [hsrc, Function.update_self] at hk
      cases hk
    · rwa [Function.update_of_ne hsrc] at hk
  exact ⟨fun k l hk => h.holds k l (hold k l hk),
    fun j k l l' hj hk hne => h.apart j k l l' (hold j l hj) (hold k l' hk) hne⟩

/-- A fresh entry is put between two parts of a list. -/
theorem Represents.link (h : m.Represents s) (hs : s header = some (a ++ b)) (he : s.Fresh e)
    (hop : op.headers = [header]) : (m.link header a.getLast? b.head? e).Represents (s.put header (a ++ e :: b)) ∧
      OthersKept s op m (m.link header a.getLast? b.head? e) := by
  have halters : m.Alters (m.link header a.getLast? b.head? e) header (a ++ e :: b) := by
    refine alters_link ?_ ?_ ?_
    · exact fun x hx => List.mem_append_left _ (List.mem_of_getLast? hx)
    · exact fun x hx => List.mem_append_right a (List.mem_cons_of_mem e (List.mem_of_mem_head? hx))
    · exact List.mem_append_right a List.mem_cons_self
  have hdis : ∀ k l, s k = some l → k ≠ header → (a ++ e :: b).Disjoint l := by
    intro k l hk hne
    have hold := h.apart header k _ l hs hk hne.symm
    obtain ⟨ha, hb⟩ := List.disjoint_append_left.mp hold
    exact List.disjoint_append_left.mpr ⟨ha, List.disjoint_cons_left.mpr ⟨he k l hk, hb⟩⟩
  exact h.change ((h.holds header _ hs).link (he header _ hs)) halters hdis hop

/-- An entry is taken out of a list. -/
theorem Represents.unlink (h : m.Represents s) (hs : s header = some (a ++ e :: b)) (hop : op.headers = [header]) :
    (m.unlink header a.getLast? b.head?).Represents (s.put header (a ++ b)) ∧
      OthersKept s op m (m.unlink header a.getLast? b.head?) := by
  have halters : m.Alters (m.unlink header a.getLast? b.head?) header (a ++ b) := by
    refine alters_unlink ?_ ?_
    · exact fun x hx => List.mem_append_left _ (List.mem_of_getLast? hx)
    · exact fun x hx => List.mem_append_right a (List.mem_of_mem_head? hx)
  have hdis : ∀ k l, s k = some l → k ≠ header → (a ++ b).Disjoint l := by
    intro k l hk hne
    have hold := h.apart header k _ l hs hk hne.symm
    obtain ⟨ha, hb⟩ := List.disjoint_append_left.mp hold
    exact List.disjoint_append_left.mpr ⟨ha, (List.disjoint_cons_left.mp hb).2⟩
  exact h.change (h.holds header _ hs).unlink halters hdis hop

end ListHeap

section
variable {m : ListHeap κ α} {s t : Sequences κ α} {op : ListOp κ α}

theorem listInit_represents (h : m.Represents s) (header : κ) :
    (listInit header m).Represents (s.put header []) ∧ OthersKept s (.init header) m (listInit header m) := by
  have hhead : (listInit header m).head header = none := by
    simp [listInit, ListHeap.setHead, ListHeap.setTail]
  have htail : (listInit header m).tail header = none := by
    simp [listInit, ListHeap.setTail]
  have hholds : (listInit header m).Holds header [] :=
    ListHeap.holds_of_reaches List.nodup_nil hhead htail
  have halters : m.Alters (listInit header m) header [] := by
    refine (ListHeap.alters_setAfter (i := none) ?_ none).trans (ListHeap.alters_setBefore (i := none) ?_ none)
    all_goals
      intro x hx
      cases hx
  exact h.change hholds halters (fun k l _ _ => List.disjoint_nil_left l) rfl

theorem listConcat_represents (h : m.Represents s) {dest src : κ} {l l' : List α} (hdest : s dest = some l)
    (hsrc : s src = some l') (hne : dest ≠ src) :
    ∃ m', listConcat dest src m = some m' ∧
      m'.Represents (Sequences.put (Function.update s src none) dest (l ++ l')) ∧
      OthersKept s (.concat dest src) m m' := by
  have hl := h.holds dest l hdest
  have hl' := h.holds src l' hsrc
  have hdis := h.apart dest src l l' hdest hsrc hne
  have hothers : ∀ k lk, s k = some lk → k ≠ dest → k ≠ src → (l ++ l').Disjoint lk := by
    intro k lk hk hkd hks
    exact List.disjoint_append_left.mpr
      ⟨h.apart dest k l lk hdest hk hkd.symm, h.apart src k l' lk hsrc hk hks.symm⟩
  have hrest : ∀ k lk, Function.update s src none k = some lk → k ≠ dest → (l ++ l').Disjoint lk := by
    intro k lk hk hkd
    by_cases hks : k = src
    · rw [hks, Function.update_self] at hk
      cases hk
    · rw [Function.update_of_ne hks] at hk
      exact hothers k lk hk hkd hks
  cases l' with
  | nil =>
    refine ⟨m, ?_, ?_, fun k lk _ _ => ⟨rfl, rfl, fun x _ => ⟨rfl, rfl⟩⟩⟩
    · rw [listConcat, hl'.headNull.mpr rfl]
    · have halters : m.Alters m dest (l ++ []) := ⟨fun k _ => ⟨rfl, rfl⟩, fun x _ => ⟨rfl, rfl⟩⟩
      refine (h.drop src).put ?_ halters hrest
      rw [List.append_nil]
      exact hl
  | cons x l' =>
    have hnull : m.tail dest = none ↔ m.head dest = none := hl.tailNull.trans hl.headNull.symm
    have halters : m.Alters (m.join dest src x) dest (l ++ x :: l') := by
      have hlast : ∀ y ∈ m.tail dest, y ∈ l ++ x :: l' := by
        intro y hy
        rw [hl.tail_eq] at hy
        exact List.mem_append_left _ (List.mem_of_getLast? hy)
      have hx : ∀ y ∈ some x, y ∈ l ++ x :: l' :=
        fun y hy => List.mem_append_right l (Option.some.inj hy ▸ List.mem_cons_self)
      have hnone : ∀ y ∈ (none : Option α), y ∈ l ++ x :: l' := fun y hy => (by cases hy)
      exact ((ListHeap.alters_setAfter hlast (some x)).trans (ListHeap.alters_setBefore hx (m.tail dest))).trans
        (ListHeap.alters_setBefore hnone (m.tail src))
    refine ⟨m.join dest src x, listConcat_eq hl'.head_eq hnull, ?_, ?_⟩
    · exact (h.drop src).put (hl.join hl' hdis) halters hrest
    · refine halters.others (fun k lk hk hnot => ?_) List.mem_cons_self
      refine hothers k lk hk ?_ ?_
      · rintro rfl
        exact hnot List.mem_cons_self
      · rintro rfl
        exact hnot (List.mem_cons_of_mem dest List.mem_cons_self)

/-- Each operation does to the heap what it is for, where it may be used. -/
theorem ListStep.simulated (h : m.Represents s) (hstep : ListStep s op t) :
    ∃ m', op.run m = some m' ∧ m'.Represents t ∧ OthersKept s op m m' := by
  cases hstep with
  | init header => exact ⟨_, rfl, listInit_represents h header⟩
  | concat hdest hsrc hne => exact listConcat_represents h hdest hsrc hne
  | @addHead header l e hs he =>
    have hrun : ListOp.run (.addHead header e) m = some (m.link header none l.head? e) := by
      rw [ListOp.run, listAddHead_eq, (h.holds header l hs).head_eq]
    exact ⟨_, hrun, h.link (a := []) hs he rfl⟩
  | @addTail header l e hs he =>
    have hrun : ListOp.run (.addTail header e) m = some (m.link header l.getLast? none e) := by
      rw [ListOp.run, listAddTail_eq, (h.holds header l hs).tail_eq]
    exact ⟨_, hrun, h.link (b := []) (by rw [List.append_nil]; exact hs) he rfl⟩
  | @remHead header l x hs =>
    have hl := h.holds header (x :: l) hs
    have hrun : ListOp.run (.remHead header) m = some (m.unlink header none l.head?) := by
      rw [ListOp.run, listRemHead_eq hl.head_eq, ListHeap.Holds.next_eq (a := []) hl]
    exact ⟨_, hrun, h.unlink (a := []) hs rfl⟩
  | @remTail header l x hs =>
    have hl := h.holds header (l ++ [x]) hs
    have htail : m.tail header = some x := by rw [hl.tail_eq, List.getLast?_concat]
    have hrun : ListOp.run (.remTail header) m = some (m.unlink header l.getLast? none) := by
      rw [ListOp.run, listRemTail_eq htail, hl.prev_eq]
    have hop : (ListOp.remTail header : ListOp κ α).headers = [header] := rfl
    obtain ⟨hrep, hkept⟩ := h.unlink (b := []) hs hop
    rw [List.append_nil] at hrep
    exact ⟨_, hrun, hrep, hkept⟩
  | @insertAfter header a b p e hs he =>
    have hne : e ≠ p := by
      rintro rfl
      exact he header _ hs (List.mem_append_right a List.mem_cons_self)
    have hrun : ListOp.run (.insertAfter header p e) m = some (m.link header (some p) b.head? e) := by
      rw [ListOp.run, listInsertAfter_eq header hne, (h.holds header _ hs).next_eq]
    have hsplit : ∀ b, a ++ p :: b = (a ++ [p]) ++ b := fun b => List.append_cons a p b
    rw [hsplit] at hs
    have hop : (ListOp.insertAfter header p e).headers = [header] := rfl
    have hlink := h.link hs he hop
    rw [List.getLast?_concat, ← hsplit] at hlink
    exact ⟨_, hrun, hlink⟩
  | @insertBefore header a b n e hs he =>
    have hne : e ≠ n := by
      rintro rfl
      exact he header _ hs (List.mem_append_right a List.mem_cons_self)
    have hrun : ListOp.run (.insertBefore header n e) m = some (m.link header a.getLast? (some n) e) := by
      rw [ListOp.run, listInsertBefore_eq header hne, (h.holds header _ hs).prev_eq]
    exact ⟨_, hrun, h.link (b := n :: b) hs he rfl⟩
  | @remEntry header a b e hs =>
    have hl := h.holds header _ hs
    have hne : m.prev e ≠ some e := by
      rw [hl.prev_eq]
      intro hlast
      exact (List.nodup_append'.mp hl.nodup).2.2 (List.mem_of_getLast? hlast) List.mem_cons_self
    have hrun : ListOp.run (.remEntry header e) m = some (m.unlink header a.getLast? b.head?) := by
      rw [ListOp.run, listRemEntry_eq header hne, hl.prev_eq, hl.next_eq]
    exact ⟨_, hrun, h.unlink hs rfl⟩

/-- A run of operations does not fail, and every list in use is held afterwards. -/
theorem represents_run {s₀ : Sequences κ α} (h : m.Represents s₀) {ops : List (ListOp κ α)}
    (hops : Runs ListStep s₀ ops s) : ∃ m', execute ListOp.run ops m = some m' ∧ m'.Represents s := by
  refine hops.simulated (fun m s op t hrep hop => ?_) h
  obtain ⟨m', hrun, hrep', -⟩ := hop.simulated hrep
  exact ⟨m', hrun, hrep'⟩

omit [DecidableEq κ] [DecidableEq α] in
theorem represents_none (m : ListHeap κ α) : m.Represents (fun _ => none) :=
  ⟨fun k l hk => (by cases hk), fun j k l l' hj => (by cases hj)⟩

/-- Whatever memory holds before, after any run of operations from lists that were initialised every
list reads as its sequence from both ends, and the next operation does to it what it is for and
nothing to the others. -/
theorem lists_sequences (m : ListHeap κ α) {ops : List (ListOp κ α)} (h : Runs ListStep (fun _ => none) ops s)
    (hop : ListStep s op t) :
    ∃ m₁ m₂, execute ListOp.run ops m = some m₁ ∧ op.run m₁ = some m₂ ∧
      m₁.Represents s ∧ m₂.Represents t ∧ OthersKept s op m₁ m₂ := by
  obtain ⟨m₁, hrun, hrep⟩ := represents_run (represents_none m) h
  obtain ⟨m₂, hlast, hrep₂, hkept⟩ := hop.simulated hrep
  exact ⟨m₁, m₂, hrun, hlast, hrep, hrep₂, hkept⟩

end

/-- Two lists, of which the first is given an entry behind its only one. -/
def twoLists : Sequences Bool Nat :=
  ((((Sequences.put (fun _ => none) false []).put true []).put false [1]).put true [2]).put false [1, 3]

def twoListsOps : List (ListOp Bool Nat) :=
  [.init false, .init true, .addTail false 1, .addHead true 2, .insertAfter false 1 3]

theorem twoLists_runs : Runs ListStep (fun _ => none) twoListsOps twoLists := by
  have hnone : ∀ e : Nat, Sequences.Fresh (fun _ : Bool => none) e := fun e k l hk => (by cases hk)
  have hfresh : ∀ e : Nat, ((Sequences.put (fun _ => none) false []).put true []).Fresh e :=
    fun e => ((hnone e).put false List.not_mem_nil).put true List.not_mem_nil
  have hone := (hfresh 2).put false (l := [1]) (by decide)
  have htwo := ((hfresh 3).put false (l := [1]) (by decide)).put true (l := [2]) (by decide)
  exact ((((Runs.nil.snoc (.init false)).snoc (.init true)).snoc (.addTail (l := []) rfl (hfresh 1))).snoc
    (.addHead (l := []) rfl hone)).snoc (.insertAfter (a := []) (b := []) rfl htwo)

/-- They are joined, in memory that holds anything. -/
theorem twoLists_joined : ∃ m₁ m₂ : ListHeap Bool Nat,
    execute ListOp.run twoListsOps ⟨fun _ => some 7, fun _ => none, fun _ => some 8, fun _ => some 9⟩ = some m₁ ∧
      (ListOp.concat false true).run m₁ = some m₂ ∧ m₁.Represents twoLists ∧
      m₂.Represents (Sequences.put (Function.update twoLists true none) false [1, 3, 2]) ∧
      OthersKept twoLists (.concat false true) m₁ m₂ :=
  lists_sequences ⟨fun _ => some 7, fun _ => none, fun _ => some 8, fun _ => some 9⟩ twoLists_runs
    (.concat (l := [1, 3]) rfl (rfl : twoLists true = some [2]) (by decide))

end CheviotBoot.Lists
