import CheviotBoot.Lib.Loop
import Mathlib.Data.List.Induction
import Mathlib.Data.List.Nodup
import Mathlib.Logic.Function.Basic
import Mathlib.Tactic.Common

namespace CheviotBoot.Lib

variable {α σ : Type} {next next' : α → Option α} {p q r : Option α} {a b l : List α} {e : α}

/-- Starting from `p`, the pointers of some entries lead through a list and then to `q`. -/
def Leads (next : α → Option α) : Option α → List α → Option α → Prop
  | p, [], q => p = q
  | p, x :: l, q => p = some x ∧ Leads next (next x) l q

theorem leads_append : Leads next p (a ++ b) q ↔ ∃ r, Leads next p a r ∧ Leads next r b q := by
  induction a generalizing p with
  | nil => simp [Leads]
  | cons x a ih => simp [Leads, ih, and_assoc]

/-- Only the pointers of the entries passed matter. -/
theorem Leads.congr (h : Leads next p l q) (hsame : ∀ x ∈ l, next' x = next x) : Leads next' p l q := by
  induction l generalizing p with
  | nil => exact h
  | cons x l ih =>
    obtain ⟨hp, hrest⟩ := h
    refine ⟨hp, ?_⟩
    rw [hsame x List.mem_cons_self]
    exact ih hrest fun y hy => hsame y (List.mem_cons_of_mem x hy)

/-- What points to the first entry, or past all of them. -/
theorem Leads.start (h : Leads next p l q) : p = l.head?.or q := by
  cases l with
  | nil => exact h
  | cons x l => exact h.1

/-- `for (entry = p; entry != NULL; entry = entry->next)`, with a bound on its rounds. -/
def walk (next : α → Option α) (body : α → σ → σ) (fuel : Nat) (p : Option α) (s : σ) : Option σ :=
  forLoop Option.isSome (fun p => p.bind next) (fun p s => p.map fun x => body x s) fuel p s

/-- Pointers that lead to NULL are followed to the end, one entry after the other. -/
theorem Leads.walk (h : Leads next p l none) (body : α → σ → σ) {fuel : Nat} (hfuel : l.length < fuel) (s : σ) :
    walk next body fuel p s = some (l.foldl (fun s x => body x s) s) := by
  induction l generalizing p s fuel with
  | nil =>
    cases fuel with
    | zero => exact absurd hfuel (Nat.not_lt_zero 0)
    | succ fuel =>
      obtain rfl : p = none := h
      rfl
  | cons x l ih =>
    cases fuel with
    | zero => exact absurd hfuel (Nat.not_lt_zero _)
    | succ fuel =>
      obtain ⟨rfl, hrest⟩ := h
      exact ih hrest (Nat.lt_of_succ_lt_succ hfuel) (body x s)

variable [DecidableEq α]

theorem Leads.update_other (h : Leads next p l q) (he : e ∉ l) (v : Option α) :
    Leads (Function.update next e v) p l q := by
  refine h.congr fun x hx => ?_
  have hne : x ≠ e := by
    rintro rfl
    exact he hx
  exact Function.update_of_ne hne v next

/-- The pointer of the last entry says where they lead. -/
theorem Leads.update_last {x : α} (h : Leads next p (a ++ [x]) q) (hx : x ∉ a) (v : Option α) :
    Leads (Function.update next x v) p (a ++ [x]) v := by
  obtain ⟨r, ha, hr, -⟩ := leads_append.mp h
  refine leads_append.mpr ⟨r, ha.update_other hx v, hr, ?_⟩
  exact Function.update_self x v next

/-- A pointer to a first entry, and the pointers in the entries. -/
structure Chain (α : Type) where
  start : Option α
  next : α → Option α

namespace Chain

/-- Its pointers lead through the list, from the first to `q`. -/
def Reaches (c : Chain α) (l : List α) (q : Option α) : Prop := Leads c.next c.start l q

/-- The pointer behind an entry, or behind none the first. -/
def set (c : Chain α) (i v : Option α) : Chain α :=
  match i with
  | none => { c with start := v }
  | some x => { c with next := Function.update c.next x v }

@[simp] theorem set_none (c : Chain α) (v : Option α) : c.set none v = ⟨v, c.next⟩ := rfl

@[simp] theorem set_some (c : Chain α) (x : α) (v : Option α) :
    c.set (some x) v = ⟨c.start, Function.update c.next x v⟩ := rfl

variable {c : Chain α}

omit [DecidableEq α] in
/-- The pointer of an entry leads to what follows it. -/
theorem Reaches.next_entry {x : α} (h : c.Reaches (a ++ x :: b) q) : c.next x = b.head?.or q := by
  obtain ⟨r, -, -, hb⟩ := leads_append.mp h
  exact hb.start

/-- Redirected behind some entries, the pointers lead through those and on from the new place. -/
theorem Reaches.redirect (h : c.Reaches a r) (ha : a.Nodup) {v : Option α} (hb : Leads c.next v b q)
    (hdis : a.Disjoint b) : (c.set a.getLast? v).Reaches (a ++ b) q := by
  cases a using List.reverseRecOn with
  | nil => exact hb
  | append_singleton a x =>
    rw [List.getLast?_concat, set_some]
    have hx : x ∉ a := fun hx => (List.nodup_append.mp ha).2.2 x hx x (List.mem_singleton.mpr rfl) rfl
    have hxb : x ∉ b := fun hb => hdis (List.mem_append_right a (List.mem_singleton.mpr rfl)) hb
    exact leads_append.mpr ⟨v, h.update_last hx v, hb.update_other hxb v⟩

/-- An entry that is put between others points to those behind it, and those before it to it. -/
theorem Reaches.insert (h : c.Reaches (a ++ b) q) (hn : (a ++ b).Nodup) (he : e ∉ a ++ b) :
    ((c.set (some e) (b.head?.or q)).set a.getLast? (some e)).Reaches (a ++ e :: b) q := by
  obtain ⟨r, ha, hb⟩ := leads_append.mp h
  obtain ⟨hna, -, hdis⟩ := List.nodup_append'.mp hn
  rw [List.mem_append, not_or] at he
  have hfront : (c.set (some e) (b.head?.or q)).Reaches a r := ha.update_other he.1 _
  have hback : Leads (c.set (some e) (b.head?.or q)).next (some e) (e :: b) q := by
    refine ⟨rfl, ?_⟩
    have hset : (c.set (some e) (b.head?.or q)).next e = r := by
      rw [← hb.start]
      exact Function.update_self e r c.next
    rw [hset]
    exact hb.update_other he.2 _
  exact hfront.redirect hna hback (List.disjoint_cons_right.mpr ⟨he.1, hdis⟩)

/-- An entry is taken out by pointing past it. -/
theorem Reaches.remove (h : c.Reaches (a ++ e :: b) q) (hn : (a ++ e :: b).Nodup) :
    (c.set a.getLast? (b.head?.or q)).Reaches (a ++ b) q := by
  obtain ⟨r, ha, -, hb⟩ := leads_append.mp h
  obtain ⟨hna, -, hdis⟩ := List.nodup_append'.mp hn
  rw [← hb.start]
  exact Reaches.redirect ha hna hb (List.disjoint_cons_right.mp hdis).2

end Chain

end CheviotBoot.Lib
