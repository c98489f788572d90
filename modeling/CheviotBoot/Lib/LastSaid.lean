import Mathlib.Data.List.Basic

namespace CheviotBoot.Lib

variable {σ ε ι β : Type}

/-- What the last of some events to say anything of a key says, or what held before them. -/
def lastSaid (tells : ε → ι → Option β) (before : ι → β) (events : List ε) (q : ι) : β :=
  (events.reverse.findSome? (tells · q)).getD (before q)

/-- Where a step changes of each key what its event says, a run leaves what was said last. -/
theorem view_foldl {step : σ → ε → σ} (view : σ → ι → β) {tells : ε → ι → Option β}
    (h : ∀ s e q, view (step s e) q = (tells e q).getD (view s q)) (s : σ) (events : List ε) (q : ι) :
    view (events.foldl step s) q = lastSaid tells (view s) events q := by
  induction events generalizing s with
  | nil => rfl
  | cons e events ih =>
    rw [List.foldl_cons, ih, lastSaid, lastSaid, List.reverse_cons, List.findSome?_append, h]
    cases events.reverse.findSome? (tells · q) with
    | some b => rfl
    | none => cases htold : tells e q <;> simp [htold]

end CheviotBoot.Lib
