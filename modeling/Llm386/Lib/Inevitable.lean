import Mathlib

/-! # What every schedule comes to

A system whose steps are taken in any order, as long as there are some, comes to a state of a kind. -/

/-- Whichever working steps are taken, one after the other, a state that is done comes. -/
inductive Inevitably {σ α : Type} (step : σ → α → Option σ) (works : σ → α → Prop) (done : σ → Prop) : σ → Prop
  | now {s : σ} (h : done s) : Inevitably step works done s
  | later {s : σ} (moves : ∃ a t, works s a ∧ step s a = some t)
    (each : ∀ {a t}, works s a → step s a = some t → Inevitably step works done t) : Inevitably step works done s

namespace Inevitably
variable {σ α μ : Type} {step : σ → α → Option σ} {works : σ → α → Prop} {done : σ → Prop} {s : σ}

/-- Working steps that descend, and that there are until the state is done. -/
theorem of_descent [LT μ] [WellFoundedLT μ] (measure : σ → μ) {I : σ → Prop}
    (keep : ∀ {s a t}, I s → works s a → step s a = some t → I t)
    (descends : ∀ {s a t}, I s → works s a → step s a = some t → measure t < measure s)
    (moves : ∀ {s}, I s → ¬done s → ∃ a t, works s a ∧ step s a = some t) (h : I s) : Inevitably step works done s := by
  induction hm : measure s using WellFoundedLT.induction generalizing s with
  | ind m ih =>
    subst hm
    by_cases hdone : done s
    · exact .now hdone
    · exact .later (moves h hdone) fun hworks hstep => ih _ (descends h hworks hstep) (keep h hworks hstep) rfl

end Inevitably

/-- In a finite set in which everyone has somebody to follow, somebody follows itself through others. -/
theorem exists_circle {ι : Type} {r : ι → ι → Prop} {s : Set ι} (hs : s.Finite) (hne : s.Nonempty)
    (h : ∀ i ∈ s, ∃ j ∈ s, r i j) : ∃ i, Relation.TransGen r i i := by
  by_contra hnone
  push Not at hnone
  have : Finite s := hs
  let above : s → s → Prop := fun i j => Relation.TransGen r j i
  have : IsTrans s above := ⟨fun _ _ _ hij hjk => hjk.trans hij⟩
  have : Std.Irrefl above := ⟨fun i => hnone i⟩
  have : Nonempty s := hne.to_subtype
  obtain ⟨i, -, hlast⟩ := (Finite.wellFounded_of_trans_of_irrefl above).has_min Set.univ Set.univ_nonempty
  obtain ⟨j, hj, hij⟩ := h i i.2
  exact hlast ⟨j, hj⟩ trivial (.single hij)
