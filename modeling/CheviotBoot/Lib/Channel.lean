import Mathlib.Data.List.Basic
import CheviotBoot.Lib.Steps

namespace CheviotBoot.Lib

/-- A queue of bounded length, and what has come out of it. -/
structure Channel (α : Type) (depth : Nat) where
  queue : List α
  out : List α
  bounded : queue.length ≤ depth

namespace Channel

variable {α : Type} {depth : Nat} {c c' : Channel α depth}

def empty (α : Type) (depth : Nat) : Channel α depth := ⟨[], [], Nat.zero_le depth⟩

theorem append_bounded {queue : List α} (h : queue.length < depth) (a : α) : (queue ++ [a]).length ≤ depth := by
  rw [List.length_append]
  exact h

/-- One more goes in. What finds the queue full is lost. -/
def push (c : Channel α depth) (a : α) : Channel α depth :=
  if h : c.queue.length < depth then ⟨c.queue ++ [a], c.out, append_bounded h a⟩ else c

/-- The first comes out. -/
def pop : Channel α depth → Option (Channel α depth)
  | ⟨[], _, _⟩ => none
  | ⟨a :: queue, out, h⟩ => some ⟨queue, out ++ [a], Nat.le_of_succ_le h⟩

/-- All that got in. -/
def text (c : Channel α depth) : List α := c.out ++ c.queue

theorem push_free (h : c.queue.length < depth) (a : α) :
    (c.push a).queue = c.queue ++ [a] ∧ (c.push a).text = c.text ++ [a] := by
  rw [push, dif_pos h]
  exact ⟨rfl, (List.append_assoc c.out c.queue [a]).symm⟩

theorem push_out (c : Channel α depth) (a : α) : (c.push a).out = c.out := by
  unfold push
  split_ifs <;> rfl

theorem push_full (h : depth ≤ c.queue.length) (a : α) : c.push a = c := dif_neg (Nat.not_lt.mpr h)

theorem push_length_le (c : Channel α depth) (a : α) : (c.push a).queue.length ≤ c.queue.length + 1 := by
  by_cases h : c.queue.length < depth
  · rw [(push_free h a).1, List.length_append]
    exact Nat.le_refl _
  · rw [push_full (Nat.le_of_not_lt h)]
    exact Nat.le_succ _

theorem push_sublist (c : Channel α depth) (a : α) : (c.push a).text.Sublist (c.text ++ [a]) := by
  by_cases h : c.queue.length < depth
  · rw [(push_free h a).2]
  · rw [push_full (Nat.le_of_not_lt h)]
    exact List.sublist_append_left c.text [a]

theorem push_ne_nil (h : c.queue ≠ []) (a : α) : (c.push a).queue ≠ [] := by
  by_cases hfree : c.queue.length < depth
  · rw [(push_free hfree a).1]
    exact List.append_ne_nil_of_left_ne_nil h [a]
  · rw [push_full (Nat.le_of_not_lt hfree)]
    exact h

theorem pop_some (h : c.pop = some c') : c.queue.length = c'.queue.length + 1 ∧ c'.text = c.text := by
  rcases c with ⟨_ | ⟨a, queue⟩, out, hb⟩
  · cases h
  · cases h
    exact ⟨rfl, List.append_assoc out [a] queue⟩

theorem pop_isSome (h : c.queue ≠ []) : ∃ c', c.pop = some c' := by
  rcases c with ⟨_ | ⟨a, queue⟩, out, hb⟩
  · contradiction
  · exact ⟨_, rfl⟩

end Channel

end CheviotBoot.Lib
