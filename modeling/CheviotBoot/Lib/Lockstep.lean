import Mathlib.Data.List.Forall2

namespace CheviotBoot.Lib

/-- Two runs that fail alike, or both succeed with results in a relation. -/
inductive Lockstep {ε α β : Type} (R : α → β → Prop) : Except ε α → Except ε β → Prop
  | ok {a : α} {b : β} (h : R a b) : Lockstep R (.ok a) (.ok b)
  | error (e : ε) : Lockstep R (.error e) (.error e)

variable {ε α β γ δ : Type}

theorem lockstep_refl (x : Except ε α) : Lockstep (fun a b => a = b) x x := by
  cases x with
  | error e => exact .error e
  | ok a => exact .ok rfl

theorem Lockstep.bind {R : α → β → Prop} {S : γ → δ → Prop} {x : Except ε α} {y : Except ε β}
    {f : α → Except ε γ} {g : β → Except ε δ} (h : Lockstep R x y)
    (hfg : ∀ a b, R a b → Lockstep S (f a) (g b)) : Lockstep S (x >>= f) (y >>= g) := by
  cases h with
  | error e => exact .error e
  | ok hab => exact hfg _ _ hab

/-- A step the two runs share. -/
theorem lockstep_bind_same {S : γ → δ → Prop} (x : Except ε α) {f : α → Except ε γ}
    {g : α → Except ε δ} (hfg : ∀ a, Lockstep S (f a) (g a)) : Lockstep S (x >>= f) (x >>= g) := by
  refine (lockstep_refl x).bind ?_
  rintro a b rfl
  exact hfg a

/-- Both runs take the same branch, whichever way each decides it. -/
theorem Lockstep.ite {R : α → β → Prop} {p : Prop} {i j : Decidable p} {x x' : Except ε α}
    {y y' : Except ε β} (ht : Lockstep R x y) (hf : Lockstep R x' y') :
    Lockstep R (@ite _ p i x x') (@ite _ p j y y') := by
  by_cases h : p
  · rw [if_pos h, if_pos h]
    exact ht
  · rw [if_neg h, if_neg h]
    exact hf

/-- Where the first run succeeds so does the second. -/
theorem Lockstep.succeeds {R : α → β → Prop} {a : α} {y : Except ε β} (h : Lockstep R (.ok a) y) :
    ∃ b, y = .ok b ∧ R a b := by
  cases h with
  | ok hab => exact ⟨_, rfl, hab⟩

/-- Folding over lists of matching elements keeps the runs in step. -/
theorem lockstep_foldlM {R : α → β → Prop} {f : α → γ → Except ε α} {g : β → δ → Except ε β}
    (φ : γ → δ) (hfg : ∀ a b x, R a b →
      Lockstep R (f a x) (g b (φ x))) (xs : List γ) {a : α} {b : β}
    (h : R a b) : Lockstep R (xs.foldlM f a) ((xs.map φ).foldlM g b) := by
  induction xs generalizing a b with
  | nil => exact .ok h
  | cons x xs ih =>
    rw [List.map_cons, List.foldlM_cons, List.foldlM_cons]
    exact (hfg a b x h).bind (fun _ _ hab => ih hab)

section
variable {R : α → β → Prop} {as : List α} {bs : List β}

/-- What stands at a position of one list has its partner there in the other. -/
theorem forall₂_getElem? (h : List.Forall₂ R as bs) {i : Nat} {a : α} (ha : as[i]? = some a) :
    ∃ b, bs[i]? = some b ∧ R a b := by
  induction h generalizing i with
  | nil => simp at ha
  | cons hab _ ih =>
    cases i with
    | zero =>
      obtain rfl := Option.some.inj ha
      exact ⟨_, rfl, hab⟩
    | succ i => exact ih (by simpa using ha)

theorem forall₂_getElem?_right (h : List.Forall₂ R as bs) {i : Nat} {b : β} (hb : bs[i]? = some b) :
    ∃ a, as[i]? = some a ∧ R a b :=
  forall₂_getElem? (R := fun b a => R a b) h.flip hb

theorem forall₂_mem (h : List.Forall₂ R as bs) {a : α} (ha : a ∈ as) : ∃ b ∈ bs, R a b := by
  obtain ⟨i, hi⟩ := List.mem_iff_getElem?.mp ha
  obtain ⟨b, hb, hab⟩ := forall₂_getElem? h hi
  exact ⟨b, List.mem_of_getElem? hb, hab⟩

theorem forall₂_mem_right (h : List.Forall₂ R as bs) {b : β} (hb : b ∈ bs) : ∃ a ∈ as, R a b :=
  forall₂_mem (R := fun b a => R a b) h.flip hb

end

/-- Lists side by side are one if partners are. -/
theorem eq_of_forall₂ {R : α → α → Prop} {as bs : List α} (h : List.Forall₂ R as bs)
    (heq : ∀ a ∈ as, ∀ b ∈ bs, R a b → a = b) : as = bs := by
  induction h with
  | nil => rfl
  | cons hab _ ih =>
    rw [heq _ List.mem_cons_self _ List.mem_cons_self hab,
      ih fun a ha b hb => heq a (List.mem_cons_of_mem _ ha) b (List.mem_cons_of_mem _ hb)]

end CheviotBoot.Lib
