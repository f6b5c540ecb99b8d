import Mathlib

/-! # Runs of a transition system

A system is a step function on states and actions that does not apply to every pair. A run takes actions in a
sequence, each in a state where it is allowed; what every allowed step keeps holds at the end of every run. -/

/-- From `s` the actions lead to a state, each taken in a state that allows it. -/
inductive Run {σ α : Type} (step : σ → α → Option σ) (allowed : σ → α → Prop) (s : σ) : List α → σ → Prop
  | start : Run step allowed s [] s
  | next {as : List α} {a : α} {t u : σ} :
    Run step allowed s as t → allowed t a → step t a = some u → Run step allowed s (as ++ [a]) u

namespace Run
variable {σ α : Type} {step : σ → α → Option σ} {allowed allowed' : σ → α → Prop} {s t : σ} {as : List α} {P : σ → Prop}

theorem invariant (h : Run step allowed s as t) (init : P s)
    (keep : ∀ {t a u}, P t → allowed t a → step t a = some u → P u) : P t := by
  induction h with
  | start => exact init
  | next _ hallowed hstep ih => exact keep ih hallowed hstep

/-- A run under a condition that implies another, where an invariant helps, is a run under the other. -/
theorem weaken (h : Run step allowed s as t) (init : P s)
    (keep : ∀ {t a u}, P t → allowed t a → step t a = some u → P u)
    (imp : ∀ {t a}, P t → allowed t a → allowed' t a) : Run step allowed' s as t := by
  induction h with
  | start => exact .start
  | next hrun hallowed hstep ih => exact .next ih (imp (hrun.invariant init keep) hallowed) hstep

/-- The actions one after the other. -/
def exec (step : σ → α → Option σ) (s : σ) (as : List α) : Option σ := as.foldlM step s

/-- Actions that run, each where a check for its condition succeeds, are a run. -/
theorem of_exec {check : σ → α → Bool} (hcheck : ∀ t a, check t a = true → allowed t a)
    (h : exec (fun s a => if check s a then step s a else none) s as = some t) : Run step allowed s as t := by
  induction as using List.reverseRecOn generalizing t with
  | nil =>
    cases h
    exact .start
  | append_singleton as a ih =>
    rw [exec, List.foldlM_append] at h
    obtain ⟨u, hu, hlast⟩ := Option.bind_eq_some_iff.mp h
    rw [List.foldlM_cons] at hlast
    obtain ⟨v, hv, hend⟩ := Option.bind_eq_some_iff.mp hlast
    cases hend
    split at hv
    · rename_i hok
      exact .next (ih hu) (hcheck u a hok) hv
    · cases hv

end Run
