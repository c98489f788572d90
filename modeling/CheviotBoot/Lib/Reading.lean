import CheviotBoot.Lib.Memory

namespace CheviotBoot.Lib

/-- A computation that reads bytes of memory, each at an address that may depend on those read
before it. -/
inductive Reading (α : Type) where
  | done (value : α)
  | byte (a : Word) (next : Byte → Reading α)

theorem offset_add (a : Word) (k i : Nat) :
    a + BitVec.ofNat 32 k + BitVec.ofNat 32 i = a + BitVec.ofNat 32 (k + i) := by
  rw [BitVec.add_assoc, ← BitVec.ofNat_add]

/-- A search in rounds comes to round `t`: it is one of them, and none before it succeeds. -/
def Comes (succeeds : Nat → Prop) (cnt t : Nat) : Prop := t < cnt ∧ ∀ u < t, ¬ succeeds u

/-- The round the search ends with. -/
def First (succeeds : Nat → Prop) (cnt t : Nat) : Prop := Comes succeeds cnt t ∧ succeeds t

theorem First.unique {succeeds : Nat → Prop} {cnt t u : Nat} (ht : First succeeds cnt t)
    (hu : First succeeds cnt u) : t = u := by
  rcases Nat.lt_trichotomy t u with h | h | h
  · exact absurd ht.2 (hu.1.2 t h)
  · exact h
  · exact absurd hu.2 (ht.1.2 u h)

theorem forall_comes_succ {succeeds P : Nat → Prop} {cnt : Nat} :
    (∀ t, Comes succeeds (cnt + 1) t → P t) ↔
      P 0 ∧ (¬ succeeds 0 → ∀ t, Comes (fun u => succeeds (u + 1)) cnt t → P (t + 1)) := by
  constructor
  · intro h
    refine ⟨h 0 ⟨Nat.zero_lt_succ cnt, fun u hu => absurd hu (Nat.not_lt_zero u)⟩, ?_⟩
    rintro hzero t ⟨ht, hbefore⟩
    refine h (t + 1) ⟨Nat.succ_lt_succ ht, ?_⟩
    intro u hu
    cases u with
    | zero => exact hzero
    | succ u => exact hbefore u (Nat.lt_of_succ_lt_succ hu)
  · rintro ⟨hzero, hrest⟩ t ⟨ht, hbefore⟩
    cases t with
    | zero => exact hzero
    | succ t =>
      refine hrest (hbefore 0 (Nat.zero_lt_succ t)) t ⟨Nat.lt_of_succ_lt_succ ht, ?_⟩
      exact fun u hu => hbefore (u + 1) (Nat.succ_lt_succ hu)

theorem exists_first_succ {succeeds P : Nat → Prop} {cnt : Nat} :
    (∃ t, First succeeds (cnt + 1) t ∧ P t) ↔
      succeeds 0 ∧ P 0 ∨
        ¬ succeeds 0 ∧ ∃ t, First (fun u => succeeds (u + 1)) cnt t ∧ P (t + 1) := by
  have hall := @forall_comes_succ succeeds (fun t => ¬ (succeeds t ∧ P t)) cnt
  rw [← not_iff_not]
  simp only [First, not_exists, not_and, not_or, and_imp] at hall ⊢
  rw [hall]

section
variable {succeeds succeeds' holds : Nat → Prop} {cnt : Nat}
    (hsame : ∀ t, holds t → (succeeds t ↔ succeeds' t))
include hsame

/-- Where two searches agree on the rounds the one comes to, the other comes to no more. -/
theorem Comes.transfer (hcomes : ∀ t, Comes succeeds cnt t → holds t) {t : Nat}
    (h : Comes succeeds' cnt t) : Comes succeeds cnt t := by
  induction t using Nat.strongRecOn with
  | ind t ih =>
    refine ⟨h.1, ?_⟩
    intro u hu hsucceeds
    have hu' := ih u hu ⟨Nat.lt_trans hu h.1, fun v hv => h.2 v (Nat.lt_trans hv hu)⟩
    exact h.2 u hu ((hsame u (hcomes u hu')).mp hsucceeds)

theorem comes_congr :
    (∀ t, Comes succeeds cnt t → holds t) ↔ ∀ t, Comes succeeds' cnt t → holds t := by
  constructor
  · exact fun h t ht => h t (ht.transfer hsame h)
  · exact fun h t ht => h t (ht.transfer (fun u hu => (hsame u hu).symm) h)

theorem first_congr (hcomes : ∀ t, Comes succeeds cnt t → holds t) (t : Nat) :
    First succeeds cnt t ↔ First succeeds' cnt t := by
  have hcomes' := (comes_congr hsame).mp hcomes
  constructor
  · rintro ⟨ht, hs⟩
    exact ⟨ht.transfer (fun u hu => (hsame u hu).symm) hcomes', (hsame t (hcomes t ht)).mp hs⟩
  · rintro ⟨ht, hs⟩
    exact ⟨ht.transfer hsame hcomes, (hsame t (hcomes' t ht)).mpr hs⟩

end

namespace Reading
variable {α β : Type}

def bind (p : Reading α) (f : α → Reading β) : Reading β :=
  match p with
  | done v => f v
  | byte a next => byte a (fun b => (next b).bind f)

instance : Monad Reading where
  pure := done
  bind := bind

/-- The value it comes to in a memory. -/
def run (m : Mem) : Reading α → α
  | done v => v
  | byte a next => (next (m a)).run m

/-- The addresses it reads there, in order. -/
def reads (m : Mem) : Reading α → List Word
  | done _ => []
  | byte a next => a :: (next (m a)).reads m

/-- It reads nowhere but at these addresses. -/
def StaysIn (m : Mem) (allowed : Word → Prop) (p : Reading α) : Prop := ∀ a ∈ p.reads m, allowed a

def read (a : Word) : Reading Byte := byte a done

def readBytes : Nat → Word → Reading (List Byte)
  | 0, _ => pure []
  | n + 1, a => do
    let b ← read a
    let bs ← readBytes n (a + 1#32)
    pure (b :: bs)

def readWord (a : Word) : Reading Word := do
  let bs ← readBytes 4 a
  pure (word32 bs)

/-- The first of `cnt` places, `step` bytes apart, that passes a test. -/
def scan (test : Word → Reading Bool) (step : Nat) : Nat → Word → Reading (Option Word)
  | 0, _ => pure none
  | cnt + 1, a => do
    let passed ← test a
    if passed then pure (some a) else scan test step cnt (a + BitVec.ofNat 32 step)

variable {m : Mem} {allowed : Word → Prop}

@[simp] theorem run_pure (v : α) : (pure v : Reading α).run m = v := rfl

@[simp] theorem run_read (a : Word) : (read a).run m = m a := rfl

@[simp] theorem run_bind (p : Reading α) (f : α → Reading β) :
    (p >>= f).run m = (f (p.run m)).run m := by
  induction p with
  | done v => rfl
  | byte a next ih => exact ih (m a)

theorem reads_bind (p : Reading α) (f : α → Reading β) :
    (p >>= f).reads m = p.reads m ++ (f (p.run m)).reads m := by
  induction p with
  | done v => rfl
  | byte a next ih => exact congrArg (a :: ·) (ih (m a))

@[simp] theorem staysIn_pure (v : α) : StaysIn m allowed (pure v : Reading α) :=
  fun _ ha => absurd ha List.not_mem_nil

@[simp] theorem staysIn_read (a : Word) : StaysIn m allowed (read a) ↔ allowed a :=
  List.forall_mem_singleton

/-- One computation after another stays in as both do. -/
@[simp] theorem staysIn_bind (p : Reading α) (f : α → Reading β) :
    StaysIn m allowed (p >>= f) ↔ StaysIn m allowed p ∧ StaysIn m allowed (f (p.run m)) := by
  rw [StaysIn, reads_bind]
  exact List.forall_mem_append

theorem run_ite (c : Prop) [Decidable c] (p q : Reading α) :
    (if c then p else q).run m = if c then p.run m else q.run m := by
  split <;> rfl

@[simp] theorem run_readBytes (n : Nat) (a : Word) : (readBytes n a).run m = m.bytes a n := by
  induction n generalizing a with
  | zero => rfl
  | succ n ih =>
    have hzero : a + BitVec.ofNat 32 0 = a := BitVec.add_zero a
    rw [readBytes, run_bind, run_bind, run_pure, run_read, ih, Mem.bytes, Mem.bytes,
      List.range_succ_eq_map, List.map_cons, List.map_map, hzero]
    refine congrArg (m a :: ·) (List.map_congr_left ?_)
    intro i _
    rw [offset_add, Nat.add_comm]
    rfl

@[simp] theorem run_readWord (a : Word) : (readWord a).run m = m.word a := by
  rw [readWord, run_bind, run_readBytes]
  rfl

theorem staysIn_readBytes (n : Nat) (a : Word) :
    StaysIn m allowed (readBytes n a) ↔ ∀ i, i < n → allowed (a + BitVec.ofNat 32 i) := by
  induction n generalizing a with
  | zero => exact iff_of_true (staysIn_pure []) (fun i hi => absurd hi (Nat.not_lt_zero i))
  | succ n ih =>
    have hzero : a + BitVec.ofNat 32 0 = a := BitVec.add_zero a
    rw [readBytes, staysIn_bind, staysIn_bind, staysIn_read, ih]
    constructor
    · rintro ⟨hfirst, hrest, _⟩ i hi
      cases i with
      | zero => rwa [hzero]
      | succ i =>
        rw [Nat.add_comm, ← offset_add]
        exact hrest i (Nat.lt_of_succ_lt_succ hi)
    · intro h
      refine ⟨hzero ▸ h 0 (Nat.zero_lt_succ n), ?_, staysIn_pure _⟩
      intro i hi
      rw [offset_add, Nat.add_comm]
      exact h (i + 1) (Nat.succ_lt_succ hi)

theorem staysIn_readWord (a : Word) :
    StaysIn m allowed (readWord a) ↔ ∀ i, i < 4 → allowed (a + BitVec.ofNat 32 i) := by
  rw [readWord, staysIn_bind, staysIn_readBytes]
  exact and_iff_left (staysIn_pure _)

section
variable (test : Word → Reading Bool) (step : Nat)

/-- A scan stays in as the test of every place it comes to does. -/
theorem staysIn_scan (cnt : Nat) (a : Word) : StaysIn m allowed (scan test step cnt a) ↔
    ∀ t, Comes (fun u => (test (a + BitVec.ofNat 32 (step * u))).run m = true) cnt t →
      StaysIn m allowed (test (a + BitVec.ofNat 32 (step * t))) := by
  induction cnt generalizing a with
  | zero => exact iff_of_true (staysIn_pure _) (fun t ht => absurd ht.1 (Nat.not_lt_zero t))
  | succ cnt ih =>
    have hzero : a + BitVec.ofNat 32 (step * 0) = a := BitVec.add_zero a
    rw [scan, staysIn_bind, forall_comes_succ, hzero]
    refine and_congr_right fun _ => ?_
    cases (test a).run m with
    | true =>
      rw [if_pos rfl]
      exact iff_of_true (staysIn_pure _) (fun h => absurd rfl h)
    | false =>
      rw [if_neg Bool.false_ne_true, ih, forall_prop_of_true Bool.false_ne_true]
      simp only [offset_add, Nat.mul_succ, Nat.add_comm]

/-- It ends with the first place that passes. -/
theorem scan_some (cnt : Nat) (a b : Word) : (scan test step cnt a).run m = some b ↔
    ∃ t, First (fun u => (test (a + BitVec.ofNat 32 (step * u))).run m = true) cnt t ∧
      a + BitVec.ofNat 32 (step * t) = b := by
  induction cnt generalizing a with
  | zero =>
    refine iff_of_false (fun h => nomatch h) ?_
    rintro ⟨t, ht, _⟩
    exact Nat.not_lt_zero t ht.1.1
  | succ cnt ih =>
    have hzero : a + BitVec.ofNat 32 (step * 0) = a := BitVec.add_zero a
    rw [scan, run_bind, exists_first_succ, hzero]
    cases (test a).run m with
    | true => simp
    | false =>
      rw [if_neg Bool.false_ne_true, ih]
      simp [offset_add, Nat.mul_succ, Nat.add_comm]

end

end Reading
end CheviotBoot.Lib
