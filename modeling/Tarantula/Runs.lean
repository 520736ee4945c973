import Mathlib.Logic.Relation

/-! Runs of a partial step function under a condition on each step. A step that
fails has no successor, so a run ends where the program would crash. -/

namespace Tarantula

variable {σ ε : Type*}

def StepBy (step : σ → ε → Option σ) (ok : σ → ε → Prop) (s t : σ) : Prop :=
  ∃ e, ok s e ∧ step s e = some t

/-- The states of the runs whose steps all meet `ok` in the state they are taken in. -/
abbrev Reaches (step : σ → ε → Option σ) (ok : σ → ε → Prop) : σ → σ → Prop :=
  Relation.ReflTransGen (StepBy step ok)

theorem Reaches.invariant {step : σ → ε → Option σ} {ok : σ → ε → Prop} {I : σ → Prop} {s t : σ}
    (h : Reaches step ok s t) (hs : I s)
    (hstep : ∀ s e t, I s → ok s e → step s e = some t → I t) : I t := by
  induction h with
  | refl => exact hs
  | tail _ hst ih =>
    obtain ⟨e, hok, he⟩ := hst
    exact hstep _ e _ ih hok he

theorem Reaches.weaken {step : σ → ε → Option σ} {ok ok' : σ → ε → Prop} {s t : σ}
    (h : Reaches step ok s t) (hok : ∀ s e, ok s e → ok' s e) : Reaches step ok' s t := by
  induction h with
  | refl => exact .refl
  | tail _ hst ih =>
    obtain ⟨e, he, hs⟩ := hst
    exact ih.tail ⟨e, hok _ e he, hs⟩

/-- A run given by its events, each checked before it is taken. -/
def checkedRun (step : σ → ε → Option σ) (ok : σ → ε → Prop) [∀ s e, Decidable (ok s e)] :
    σ → List ε → Option σ
  | s, [] => some s
  | s, e :: es => if ok s e then (step s e).bind (fun t => checkedRun step ok t es) else none

theorem reaches_of_checkedRun {step : σ → ε → Option σ} {ok : σ → ε → Prop}
    [∀ s e, Decidable (ok s e)] {es : List ε} {s t : σ}
    (h : checkedRun step ok s es = some t) : Reaches step ok s t := by
  induction es generalizing s with
  | nil =>
    simp only [checkedRun, Option.some.injEq] at h
    exact h ▸ .refl
  | cons e es ih =>
    simp only [checkedRun] at h
    split at h
    · next hok =>
      obtain ⟨u, hu, hrest⟩ := Option.bind_eq_some_iff.mp h
      exact .head ⟨e, hok, hu⟩ (ih hrest)
    · cases h

/-- A property found at the end of a checked run is found in a reached state. -/
theorem exists_reaches_of_checkedRun (step : σ → ε → Option σ) (ok : σ → ε → Prop)
    [∀ s e, Decidable (ok s e)] (P : σ → Prop) [DecidablePred P] (s : σ) (es : List ε)
    (h : (checkedRun step ok s es).any (fun t => decide (P t)) = true) :
    ∃ t, Reaches step ok s t ∧ P t := by
  cases hr : checkedRun step ok s es with
  | none => simp [hr] at h
  | some t => exact ⟨t, reaches_of_checkedRun hr, by simpa [hr] using h⟩

/-- The same for a checked run, one step, and another checked run, with a property of the states
before the step and at the end. -/
theorem exists_reaches_of_checkedRuns (step : σ → ε → Option σ) (ok ok' : σ → ε → Prop)
    [∀ s e, Decidable (ok s e)] [∀ s e, Decidable (ok' s e)] (P : σ → σ → Prop)
    [∀ s t, Decidable (P s t)] (s : σ) (es : List ε) (e : ε) (es' : List ε)
    (h : (checkedRun step ok s es).any (fun s₀ => ((step s₀ e).bind fun s₁ =>
      checkedRun step ok' s₁ es').any fun t => decide (P s₀ t)) = true) :
    ∃ s₀ s₁ t, Reaches step ok s s₀ ∧ step s₀ e = some s₁ ∧ Reaches step ok' s₁ t ∧ P s₀ t := by
  obtain ⟨s₀, hs₀, h⟩ := (Option.any_eq_true _ _).mp h
  obtain ⟨t, ht, hP⟩ := (Option.any_eq_true _ _).mp h
  obtain ⟨s₁, hs₁, ht⟩ := Option.bind_eq_some_iff.mp ht
  exact ⟨s₀, s₁, t, reaches_of_checkedRun hs₀, hs₁, reaches_of_checkedRun ht, of_decide_eq_true hP⟩

end Tarantula
