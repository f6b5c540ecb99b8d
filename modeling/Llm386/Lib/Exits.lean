import Mathlib

/-! # Walks that end

In a relation with finitely many successors, every element reaches one without successors exactly when every cycle
has a way out. -/

namespace Exits
open Relation
variable {α : Type} {r : α → α → Prop}

/-- Nothing follows `x`. -/
def IsEnd (r : α → α → Prop) (x : α) : Prop := ∀ y, ¬r x y

/-- From every element on a cycle some element is reached that does not lead back. -/
def HasExits (r : α → α → Prop) : Prop := ∀ x, TransGen r x x → ∃ y, ReflTransGen r x y ∧ ¬ReflTransGen r y x

/-- What can be reached from `x`. -/
def reach (r : α → α → Prop) (x : α) : Set α := {y | ReflTransGen r x y}

theorem reach_finite {s : Set α} (hs : s.Finite) (hr : ∀ x y, r x y → y ∈ s) (x : α) : (reach r x).Finite := by
  refine (hs.insert x).subset fun y hy => ?_
  rcases ReflTransGen.cases_tail hy with rfl | ⟨z, -, hzy⟩
  · exact Set.mem_insert _ _
  · exact Set.mem_insert_of_mem _ (hr z y hzy)

theorem reach_ssubset {x y : α} (hxy : ReflTransGen r x y) (hyx : ¬ReflTransGen r y x) : reach r y ⊂ reach r x := by
  refine ⟨fun z hz => hxy.trans hz, fun hsub => hyx (hsub ReflTransGen.refl)⟩

/-- With exits, every element reaches an end: what can be reached shrinks at each exit. -/
theorem HasExits.reaches {s : Set α} (hs : s.Finite) (hr : ∀ x y, r x y → y ∈ s) (h : HasExits r) (x : α) :
    ∃ y, ReflTransGen r x y ∧ IsEnd r y := by
  induction hn : (reach r x).ncard using Nat.strong_induction_on generalizing x with
  | _ n ih =>
    subst hn
    have further : ∀ y, ReflTransGen r x y → ¬ReflTransGen r y x → ∃ z, ReflTransGen r x z ∧ IsEnd r z := by
      intro y hxy hyx
      have hless := Set.ncard_lt_ncard (reach_ssubset hxy hyx) (reach_finite hs hr x)
      obtain ⟨z, hyz, hz⟩ := ih _ hless y rfl
      exact ⟨z, hxy.trans hyz, hz⟩
    by_cases hend : IsEnd r x
    · exact ⟨x, ReflTransGen.refl, hend⟩
    · obtain ⟨y, hxy⟩ : ∃ y, r x y := by simpa [IsEnd] using hend
      by_cases hyx : ReflTransGen r y x
      · obtain ⟨z, hxz, hzx⟩ := h x (TransGen.head' hxy hyx)
        exact further z hxz hzx
      · exact further y (ReflTransGen.single hxy) hyx

theorem hasExits_iff {s : Set α} (hs : s.Finite) (hr : ∀ x y, r x y → y ∈ s) :
    HasExits r ↔ ∀ x, ∃ y, ReflTransGen r x y ∧ IsEnd r y := by
  refine ⟨fun h x => h.reaches hs hr x, fun h x hcycle => ?_⟩
  obtain ⟨y, hxy, hy⟩ := h x
  refine ⟨y, hxy, fun hyx => ?_⟩
  -- An end that leads back to `x` is `x`, which has a successor.
  rcases ReflTransGen.cases_head hyx with rfl | ⟨z, hyz, -⟩
  · obtain ⟨z, hz, -⟩ := TransGen.head'_iff.mp hcycle
    exact hy z hz
  · exact hy z hyz

end Exits
