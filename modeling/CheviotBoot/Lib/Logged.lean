import CheviotBoot.Lib.Outcome
import CheviotBoot.Lib.Lockstep

namespace CheviotBoot.Lib

/-- A run with what it has logged by the time it ends or fails. -/
structure Logged (ν ε α : Type) where
  log : List ν
  result : Except ε α

variable {μ ν ε α β γ δ : Type}

namespace Logged

/-- A step that logs nothing. -/
def silent (x : Except ε α) : Logged ν ε α := ⟨[], x⟩

def andThen (x : Logged ν ε α) (f : α → Logged ν ε β) : Logged ν ε β :=
  match x.result with
  | .ok a => ⟨x.log ++ (f a).log, (f a).result⟩
  | .error e => ⟨x.log, .error e⟩

@[simp] theorem silent_result (x : Except ε α) : (silent x : Logged ν ε α).result = x := rfl

@[simp] theorem andThen_result (x : Logged ν ε α) (f : α → Logged ν ε β) :
    (x.andThen f).result = x.result >>= fun a => (f a).result := by
  rcases x with ⟨log, e | a⟩
  · rfl
  · rfl

@[simp] theorem silent_ok_andThen (a : α) (f : α → Logged ν ε β) : (silent (.ok a)).andThen f = f a := rfl

@[simp] theorem silent_error_andThen (e : ε) (f : α → Logged ν ε β) :
    (silent (.error e)).andThen f = silent (.error e) := rfl

/-- What follows in silence adds nothing to the log. -/
@[simp] theorem andThen_silent_log (x : Logged ν ε α) (f : α → Except ε β) :
    (x.andThen fun a => silent (f a)).log = x.log := by
  rcases x with ⟨log, e | a⟩
  · rfl
  · exact List.append_nil log

end Logged

/-- Two runs of which the second watches what the first logs: while all of that is allowed they are
in lockstep and their logs agree, and at the first event that is not the second stops as `bad`. -/
structure Tracks (allowed : μ → Prop) (bad : ε) (agree : μ → ν → Prop) (R : α → β → Prop)
    (x : Logged μ ε α) (y : Logged ν ε β) : Prop where
  logs : (∀ e ∈ x.log, allowed e) → List.Forall₂ agree x.log y.log
  results : (∀ e ∈ x.log, allowed e) → x.result ≠ .error bad ∧ Lockstep R x.result y.result
  stops : (∃ e ∈ x.log, ¬ allowed e) → y.result = .error bad

section
variable {allowed : μ → Prop} {bad : ε} {agree : μ → ν → Prop} {R : α → β → Prop} {S : γ → δ → Prop}

/-- Steps that log nothing. -/
theorem tracks_silent {x : Except ε α} {y : Except ε β} (hne : x ≠ .error bad) (h : Lockstep R x y) :
    Tracks allowed bad agree R (.silent x) (.silent y) where
  logs := fun _ => .nil
  results := fun _ => ⟨hne, h⟩
  stops := by
    rintro ⟨e, he, _⟩
    cases he

theorem tracks_ok {a : α} {b : β} (h : R a b) :
    Tracks allowed bad agree R (.silent (.ok a)) (.silent (.ok b)) := by
  refine tracks_silent ?_ (.ok h)
  intro he
  cases he

/-- A stop for another reason. -/
theorem tracks_error {e : ε} (he : e ≠ bad) :
    Tracks allowed bad agree R (.silent (.error e)) (.silent (.error e)) :=
  tracks_silent (fun h => he (Except.error.inj h)) (.error e)

/-- An event that is not allowed. -/
theorem tracks_stop {e : μ} {rest : List μ} {x : Except ε α} {y : Logged ν ε β}
    (he : ¬ allowed e) (hy : y.result = .error bad) : Tracks allowed bad agree R ⟨e :: rest, x⟩ y where
  logs := fun hall => absurd (hall e List.mem_cons_self) he
  results := fun hall => absurd (hall e List.mem_cons_self) he
  stops := fun _ => hy

/-- An event that is allowed, before two runs. -/
theorem Tracks.cons {e : μ} {v : ν} {x : Logged μ ε α} {y : Logged ν ε β}
    (h : Tracks allowed bad agree R x y) (hv : agree e v) (he : allowed e) :
    Tracks allowed bad agree R ⟨e :: x.log, x.result⟩ ⟨v :: y.log, y.result⟩ where
  logs := fun hall => .cons hv (h.logs fun d hd => hall d (List.mem_cons_of_mem e hd))
  results := fun hall => h.results fun d hd => hall d (List.mem_cons_of_mem e hd)
  stops := by
    rintro ⟨d, hd, hn⟩
    rcases List.mem_cons.mp hd with rfl | hd
    · exact absurd he hn
    · exact h.stops ⟨d, hd, hn⟩

/-- Runs one after the other. -/
theorem Tracks.andThen {x : Logged μ ε α} {y : Logged ν ε β} {f : α → Logged μ ε γ} {g : β → Logged ν ε δ}
    (h : Tracks allowed bad agree R x y)
    (hfg : ∀ a b, R a b → Tracks allowed bad agree S (f a) (g b)) :
    Tracks allowed bad agree S (x.andThen f) (y.andThen g) := by
  obtain ⟨hlogs, hresults, hstops⟩ := h
  rcases x with ⟨xlog, xres⟩
  rcases y with ⟨ylog, yres⟩
  by_cases hall : ∀ e ∈ xlog, allowed e
  · obtain ⟨hne, hres⟩ := hresults hall
    cases hres with
    | error e =>
      refine ⟨hlogs, fun _ => ⟨fun he => hne (congrArg _ (Except.error.inj he)), .error e⟩, ?_⟩
      rintro ⟨d, hd, hn⟩
      exact absurd (hall d hd) hn
    | ok hab =>
      obtain ⟨hlogs', hresults', hstops'⟩ := hfg _ _ hab
      refine ⟨fun hboth => ?_, fun hboth => ?_, ?_⟩
      · exact List.rel_append (hlogs hall) (hlogs' fun d hd => hboth d (List.mem_append_right _ hd))
      · exact hresults' fun d hd => hboth d (List.mem_append_right _ hd)
      · rintro ⟨d, hd, hn⟩
        rcases List.mem_append.mp hd with hd | hd
        · exact absurd (hall d hd) hn
        · exact hstops' ⟨d, hd, hn⟩
  · obtain ⟨d, hd, hn⟩ : ∃ d ∈ xlog, ¬ allowed d := by simpa using hall
    have hy := hstops ⟨d, hd, hn⟩
    have hmem : d ∈ (Logged.andThen ⟨xlog, xres⟩ f).log := by
      cases xres with
      | error e => exact hd
      | ok a => exact List.mem_append_left _ hd
    refine ⟨fun hboth => absurd (hboth d hmem) hn, fun hboth => absurd (hboth d hmem) hn, fun _ => ?_⟩
    rw [Logged.andThen_result, hy]
    rfl

end

end CheviotBoot.Lib
