import Mathlib.Logic.Function.Iterate
import Mathlib.Tactic.Common

namespace CheviotBoot.Lib

variable {σ : Type} {step : σ → σ}

/-- One state of a machine comes to another. -/
def StepsTo (step : σ → σ) (s t : σ) : Prop := ∃ k, step^[k] s = t

theorem StepsTo.refl (s : σ) : StepsTo step s s := ⟨0, rfl⟩

theorem StepsTo.trans {s t u : σ} (hst : StepsTo step s t) (htu : StepsTo step t u) : StepsTo step s u := by
  obtain ⟨j, rfl⟩ := hst
  obtain ⟨k, rfl⟩ := htu
  exact ⟨k + j, Function.iterate_add_apply step k j s⟩

/-- After one step. -/
theorem StepsTo.head {s t u : σ} (hs : step s = t) (h : StepsTo step t u) : StepsTo step s u := by
  obtain ⟨k, rfl⟩ := h
  subst hs
  exact ⟨k + 1, Function.iterate_succ_apply step k s⟩

/-- A machine that uses something up with every step halts before it is used up. -/
theorem halts_of_measure {P halted : σ → Prop} (μ : σ → Nat) (hstep : ∀ s, P s → P (step s))
    (hless : ∀ s, P s → ¬ halted s → μ (step s) < μ s) {s : σ} (hs : P s) :
    ∃ k, k ≤ μ s ∧ halted (step^[k] s) := by
  obtain ⟨n, hn⟩ : ∃ n, μ s = n := ⟨_, rfl⟩
  induction n using Nat.strongRecOn generalizing s with
  | ind n ih =>
    by_cases hhalted : halted s
    · exact ⟨0, Nat.zero_le _, hhalted⟩
    · have hlt := hless s hs hhalted
      obtain ⟨k, hk, hend⟩ := ih (μ (step s)) (hn ▸ hlt) (hstep s hs) rfl
      refine ⟨k + 1, by omega, ?_⟩
      rwa [Function.iterate_succ_apply]

/-- A run whose measure never grows before it is done, and always comes to shrink, gets done. -/
theorem eventually_of_measure {run : Nat → σ} {done : σ → Prop} (μ : σ → Nat)
    (hle : ∀ n, ¬ done (run n) → μ (run (n + 1)) ≤ μ (run n))
    (hless : ∀ n, ¬ done (run n) → ∃ m, n ≤ m ∧ (¬ done (run m) → μ (run (m + 1)) < μ (run m))) :
    ∀ n, ∃ m, n ≤ m ∧ done (run m) := by
  have hmono : ∀ n j, (∃ m, n ≤ m ∧ done (run m)) ∨ μ (run (n + j)) ≤ μ (run n) := by
    intro n j
    induction j with
    | zero => exact Or.inr (Nat.le_refl _)
    | succ j ih =>
      rcases ih with hdone | hj
      · exact Or.inl hdone
      · by_cases hd : done (run (n + j))
        · exact Or.inl ⟨n + j, Nat.le_add_right n j, hd⟩
        · exact Or.inr (Nat.le_trans (hle (n + j) hd) hj)
  intro n
  obtain ⟨k, hk⟩ : ∃ k, μ (run n) = k := ⟨_, rfl⟩
  induction k using Nat.strongRecOn generalizing n with
  | ind k ih =>
    by_cases hdone : done (run n)
    · exact ⟨n, Nat.le_refl n, hdone⟩
    · obtain ⟨m, hm, hshrinks⟩ := hless n hdone
      obtain ⟨j, rfl⟩ := Nat.exists_eq_add_of_le hm
      rcases hmono n j with hdone | hj
      · exact hdone
      · by_cases hd : done (run (n + j))
        · exact ⟨n + j, hm, hd⟩
        · have hlt := hshrinks hd
          obtain ⟨m, hm', hend⟩ := ih (μ (run (n + j + 1))) (by omega) (n + j + 1) rfl
          exact ⟨m, by omega, hend⟩

end CheviotBoot.Lib
