import Mathlib

/-! # Greedy filling

A greedy pass goes over a list once and takes each element that a test admits beside those taken before it. -/

namespace Filling
variable {α β : Type}

/-- What was taken so far, and what was refused, each with what was taken before it. -/
structure Pass (α : Type) where
  taken : List α
  refused : List (List α × α)

variable (admits : List α → α → Prop) [∀ taken a, Decidable (admits taken a)]

def visit (pass : Pass α) (a : α) : Pass α :=
  if admits pass.taken a then { pass with taken := pass.taken ++ [a] }
  else { pass with refused := pass.refused ++ [(pass.taken, a)] }

def run (l : List α) : Pass α := l.foldl (visit admits) ⟨[], []⟩

/-- What a pass over a list takes. -/
def fill (l : List α) : List α := (run admits l).taken

/-- What a pass over a list refuses. -/
def refused (l : List α) : List (List α × α) := (run admits l).refused

variable {admits} {l l' : List α} {a : α} {taken : List α}

@[simp] theorem fill_nil : fill admits [] = [] := rfl

@[simp] theorem refused_nil : refused admits [] = [] := rfl

theorem run_concat (l : List α) (a : α) : run admits (l ++ [a]) = visit admits (run admits l) a := by
  rw [run, List.foldl_concat, run]

theorem fill_concat (l : List α) (a : α) :
    fill admits (l ++ [a]) = if admits (fill admits l) a then fill admits l ++ [a] else fill admits l := by
  rw [fill, run_concat, visit, fill]
  split <;> rfl

theorem refused_concat (l : List α) (a : α) : refused admits (l ++ [a]) =
    if admits (fill admits l) a then refused admits l else refused admits l ++ [(fill admits l, a)] := by
  rw [refused, run_concat, visit, fill, refused]
  split <;> rfl

/-- What is taken stays taken. -/
theorem fill_prefix (admits : List α → α → Prop) [∀ taken a, Decidable (admits taken a)] (l l' : List α) : fill admits l <+: fill admits (l ++ l') := by
  induction l' using List.reverseRecOn with
  | nil => rw [List.append_nil]
  | append_singleton l' a ih =>
    rw [← List.append_assoc, fill_concat]
    split
    · exact ih.trans (List.prefix_append _ _)
    · exact ih

/-- What is refused is not admitted beside what was taken before it. -/
theorem refused_inv (h : (taken, a) ∈ refused admits l) :
    ∃ before after, l = before ++ a :: after ∧ taken = fill admits before ∧ ¬admits taken a := by
  induction l using List.reverseRecOn with
  | nil => cases h
  | append_singleton l b ih =>
    have hearlier : (taken, a) ∈ refused admits l →
        ∃ before after, l ++ [b] = before ++ a :: after ∧ taken = fill admits before ∧ ¬admits taken a := by
      intro h
      obtain ⟨before, after, rfl, htaken, hnot⟩ := ih h
      exact ⟨before, after ++ [b], by simp, htaken, hnot⟩
    rw [refused_concat] at h
    split at h
    · exact hearlier h
    · rename_i hnot
      rcases List.mem_append.mp h with h | h
      · exact hearlier h
      · cases List.mem_singleton.mp h
        exact ⟨l, [], rfl, rfl, hnot⟩

/-- A pass over the images of a list takes and refuses the images, where the test sees no more of them. -/
theorem run_map (admits : List α → α → Prop) [∀ taken a, Decidable (admits taken a)] (admits' : List β → β → Prop)
    [∀ taken b, Decidable (admits' taken b)] (f : α → β)
    (h : ∀ taken a, admits' (taken.map f) (f a) ↔ admits taken a) (l : List α) :
    fill admits' (l.map f) = (fill admits l).map f ∧
      refused admits' (l.map f) = (refused admits l).map fun x => (x.1.map f, f x.2) := by
  induction l using List.reverseRecOn with
  | nil => exact ⟨rfl, rfl⟩
  | append_singleton l a ih =>
    obtain ⟨hfill, hrefused⟩ := ih
    rw [List.map_append, List.map_singleton, fill_concat, fill_concat, refused_concat, refused_concat, hfill, hrefused]
    simp only [h]
    split
    · exact ⟨by rw [List.map_append, List.map_singleton], rfl⟩
    · exact ⟨rfl, by rw [List.map_append, List.map_singleton]⟩

end Filling
