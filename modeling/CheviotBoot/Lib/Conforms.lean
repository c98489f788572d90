import Mathlib.Tactic.Common

namespace CheviotBoot.Lib

variable {ι σ μ : Type}

/-- The operations may take one state to the other. -/
inductive Runs (spec : σ → ι → σ → Prop) (s : σ) : List ι → σ → Prop
  | nil : Runs spec s [] s
  | snoc {ops : List ι} {op : ι} {t u : σ} (before : Runs spec s ops t) (last : spec t op u) :
      Runs spec s (ops ++ [op]) u

/-- The operations one after the other, as long as none of them fails. -/
def execute (run : ι → μ → Option μ) (ops : List ι) (m : μ) : Option μ := ops.foldlM (fun m op => run op m) m

theorem execute_concat (run : ι → μ → Option μ) (ops : List ι) (op : ι) (m : μ) :
    execute run (ops ++ [op]) m = (execute run ops m).bind (run op) := by
  simp [execute, List.foldlM_append]

/-- Operations that each do what they may come to what they may. -/
theorem Runs.simulated {spec : σ → ι → σ → Prop} {run : ι → μ → Option μ} {R : μ → σ → Prop} {ops : List ι}
    {m : μ} {s t : σ}
    (hstep : ∀ m s op t, R m s → spec s op t → ∃ m', run op m = some m' ∧ R m' t)
    (h : Runs spec s ops t) (hR : R m s) : ∃ m', execute run ops m = some m' ∧ R m' t := by
  induction h with
  | nil => exact ⟨m, rfl, hR⟩
  | snoc _ hlast ih =>
    obtain ⟨m₁, hrun, hR₁⟩ := ih
    obtain ⟨m₂, hop, hR₂⟩ := hstep m₁ _ _ _ hR₁ hlast
    refine ⟨m₂, ?_, hR₂⟩
    rw [execute_concat, hrun]
    exact hop

/-- Operations that do to a part of the state what others do to the whole. -/
theorem execute_view {ι' μ' : Type} {run : ι → μ → Option μ} {run' : ι' → μ' → Option μ'} {view : μ → μ'}
    {as : ι' → ι} (h : ∀ op m, run' op (view m) = (run (as op) m).map view) (ops : List ι') (m : μ) :
    execute run' ops (view m) = (execute run (ops.map as) m).map view := by
  induction ops generalizing m with
  | nil => rfl
  | cons op ops ih =>
    rw [execute, execute, List.map_cons, List.foldlM_cons, List.foldlM_cons, h]
    cases run (as op) m with
    | none => rfl
    | some m' => exact ih m'

/-- In every state that allowed operations come to, what was run is as it should be. -/
def Conforms (spec : σ → ι → σ → Prop) (run : ι → μ → Option μ) (R : μ → σ → Prop) :
    List ι → μ → σ → Prop
  | [], m, s => R m s
  | op :: ops, m, s => R m s ∧ ∀ t, spec s op t → ∃ m', run op m = some m' ∧ Conforms spec run R ops m' t

/-- Every operation is done in a state that meets its condition, as long as they are allowed. -/
def Meets (spec : σ → ι → σ → Prop) (cond : σ → ι → Prop) : List ι → σ → Prop
  | [], _ => True
  | op :: ops, s => ∀ t, spec s op t → cond s op ∧ Meets spec cond ops t

variable {spec : σ → ι → σ → Prop} {run : ι → μ → Option μ} {R : μ → σ → Prop} {cond : σ → ι → Prop}
  {ops : List ι} {m : μ} {s : σ}

theorem Conforms.here (h : Conforms spec run R ops m s) : R m s := by
  cases ops with
  | nil => exact h
  | cons op ops => exact h.1

/-- If an operation does what it may exactly under a condition, a run conforms as long as all meet it. -/
theorem conforms_iff (hstep : ∀ m s op t, R m s → spec s op t → (cond s op ↔ ∃ m', run op m = some m' ∧ R m' t))
    (hR : R m s) : Conforms spec run R ops m s ↔ Meets spec cond ops s := by
  induction ops generalizing m s with
  | nil => exact iff_of_true hR trivial
  | cons op ops ih =>
    constructor
    · rintro ⟨-, hnext⟩ t ht
      obtain ⟨m', hrun, hconf⟩ := hnext t ht
      exact ⟨(hstep m s op t hR ht).mpr ⟨m', hrun, hconf.here⟩, (ih hconf.here).mp hconf⟩
    · intro hmeets
      refine ⟨hR, fun t ht => ?_⟩
      obtain ⟨hcond, hrest⟩ := hmeets t ht
      obtain ⟨m', hrun, hR'⟩ := (hstep m s op t hR ht).mp hcond
      exact ⟨m', hrun, (ih hR').mpr hrest⟩

end CheviotBoot.Lib
