import Mathlib.Order.Bounds.Basic
import Mathlib.Order.MinMax

namespace CheviotBoot.Lib

variable {ι σ : Type}

/-- A `for` loop with a bound on its rounds: `none` where the bound, or a round, fails. -/
def forLoop (cond : ι → Bool) (next : ι → ι) (body : ι → σ → Option σ) : Nat → ι → σ → Option σ
  | 0, _, _ => none
  | fuel + 1, i, s => if cond i then (body i s).bind (forLoop cond next body fuel (next i)) else some s

/-- A loop that counts through `n` indices ends, and keeps what each of its rounds keeps. -/
theorem forLoop_counts {cond : ι → Bool} {next : ι → ι} {body : ι → σ → Option σ}
    (index : Nat → ι) {n : Nat}
    (hgo : ∀ k, k < n → cond (index k) = true) (hstop : cond (index n) = false)
    (hnext : ∀ k, k < n → next (index k) = index (k + 1)) (Inv : Nat → σ → Prop)
    (hround : ∀ k s, k < n → Inv k s → ∃ s', body (index k) s = some s' ∧ Inv (k + 1) s')
    {fuel : Nat} (hfuel : n < fuel) {s : σ} (hs : Inv 0 s) :
    ∃ s', forLoop cond next body fuel (index 0) s = some s' ∧ Inv n s' := by
  have hrest : ∀ rounds fuel k s, k + rounds = n → rounds < fuel → Inv k s →
      ∃ s', forLoop cond next body fuel (index k) s = some s' ∧ Inv n s' := by
    intro rounds
    induction rounds with
    | zero =>
      intro fuel k s hk hfuel hs
      obtain rfl : k = n := hk
      cases fuel with
      | zero => exact absurd hfuel (Nat.not_lt_zero 0)
      | succ fuel =>
        unfold forLoop
        rw [hstop]
        exact ⟨s, rfl, hs⟩
    | succ rounds ih =>
      intro fuel k s hk hfuel hs
      cases fuel with
      | zero => exact absurd hfuel (Nat.not_lt_zero _)
      | succ fuel =>
        have hlt : k < n := by omega
        obtain ⟨s₁, hbody, hs₁⟩ := hround k s hlt hs
        unfold forLoop
        rw [hgo k hlt, if_pos rfl, hbody, hnext k hlt]
        exact ih fuel (k + 1) s₁ (by omega) (by omega) hs₁
  exact hrest n fuel 0 s (Nat.zero_add n) hfuel hs

/-- `for (i = 0; i < n; i++)`. -/
def forUpTo (n fuel : Nat) (body : Nat → σ → Option σ) (s : σ) : Option σ :=
  forLoop (fun i => decide (i < n)) (· + 1) body fuel 0 s

theorem forUpTo_counts {n fuel : Nat} {body : Nat → σ → Option σ} (Inv : Nat → σ → Prop)
    (hround : ∀ k s, k < n → Inv k s → ∃ s', body k s = some s' ∧
      Inv (k + 1) s') (hfuel : n < fuel) {s : σ}
    (hs : Inv 0 s) : ∃ s', forUpTo n fuel body s = some s' ∧ Inv n s' :=
  forLoop_counts id (fun _ hk => decide_eq_true hk) (decide_eq_false (Nat.lt_irrefl n)) (fun _ _ => rfl) Inv hround
    hfuel hs

theorem forUpTo_one {fuel : Nat} (hfuel : 1 < fuel) (body : Nat → σ → Option σ) (s : σ) :
    forUpTo 1 fuel body s = body 0 s := by
  obtain ⟨fuel, rfl⟩ : ∃ k, fuel = k + 2 := ⟨fuel - 2, by omega⟩
  simp [forUpTo, forLoop]

/-- A counted loop that its body may leave early. -/
def forBreak (body : σ → ForInStep σ) : Nat → σ → σ
  | 0, s => s
  | cnt + 1, s =>
    match body s with
    | .done s => s
    | .yield s => forBreak body cnt s

/-- A loop that keeps the greater of a running value and that of each chosen element ends with
the greatest of them. -/
theorem isGreatest_foldl {β : Type} [LinearOrder β] {value : σ → β} {f : ι → β} {p : ι → Prop}
    {step : σ → ι → σ} {l : List ι} (htake : ∀ s, ∀ i ∈ l, p i → value (step s i) = max (value s) (f i))
    (hskip : ∀ s, ∀ i ∈ l, ¬ p i → value (step s i) = value s) (s : σ) :
    IsGreatest {y | y = value s ∨ ∃ i ∈ l, p i ∧ y = f i} (value (l.foldl step s)) := by
  induction l generalizing s with
  | nil => simp [IsGreatest, upperBounds]
  | cons i l ih =>
    obtain ⟨hmem, hupper⟩ := ih (fun s j hj => htake s j (List.mem_cons_of_mem i hj))
      (fun s j hj => hskip s j (List.mem_cons_of_mem i hj)) (step s i)
    have hstep : value s ≤ value (step s i) ∧ (p i → f i ≤ value (step s i)) ∧
        (value (step s i) = value s ∨ p i ∧ value (step s i) = f i) := by
      by_cases hp : p i
      · rw [htake s i List.mem_cons_self hp]
        refine ⟨le_max_left _ _, fun _ => le_max_right _ _, ?_⟩
        exact (max_choice (value s) (f i)).imp id fun hmax => ⟨hp, hmax⟩
      · rw [hskip s i List.mem_cons_self hp]
        exact ⟨le_refl _, fun hn => absurd hn hp, Or.inl rfl⟩
    have hrest := hupper (Or.inl rfl)
    constructor
    · rcases hmem with hsame | ⟨j, hj, hpj, hfj⟩
      · rw [List.foldl_cons, hsame]
        exact hstep.2.2.imp id fun hi => ⟨i, List.mem_cons_self, hi⟩
      · exact Or.inr ⟨j, List.mem_cons_of_mem i hj, hpj, hfj⟩
    · rintro y (rfl | ⟨j, hj, hpj, rfl⟩)
      · exact le_trans hstep.1 hrest
      · rcases List.mem_cons.mp hj with rfl | hj
        · exact le_trans (hstep.2.1 hpj) hrest
        · exact hupper (Or.inr ⟨j, hj, hpj, rfl⟩)

end CheviotBoot.Lib
