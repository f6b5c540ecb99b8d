import Mathlib

/-! # Parties in a list

The parties of a system as a list, of which a step replaces one or adds one at the end. -/

namespace Parties
variable {α : Type} {l : List α} {i j : Nat} {a b c : α}

theorem getElem?_set_iff (h : l[i]? = some a) : (l.set i b)[j]? = some c ↔ j = i ∧ c = b ∨ j ≠ i ∧ l[j]? = some c := by
  have hi : i < l.length := (List.getElem?_eq_some_iff.mp h).1
  rw [List.getElem?_set]
  by_cases hj : i = j
  · simp [hj, hj ▸ hi, eq_comm]
  · simp [hj, Ne.symm hj]

/-- The last of the parties is the new one. -/
theorem getElem?_append_iff : (l ++ [b])[j]? = some c ↔ l[j]? = some c ∨ j = l.length ∧ c = b := by
  rw [List.getElem?_append]
  split
  · rename_i hj
    simp [hj.ne]
  · rename_i hj
    have hnone : l[j]? = none := List.getElem?_eq_none (by omega)
    rw [hnone, List.getElem?_singleton]
    constructor
    · intro h
      split at h
      · cases h
        exact .inr ⟨by omega, rfl⟩
      · cases h
    · rintro (h | ⟨rfl, rfl⟩)
      · cases h
      · simp

/-- No party but `i` has the property. -/
theorem any_others_eq_false {p : α → Bool} :
    (l.zipIdx.any fun x => x.2 ≠ i && p x.1) = false ↔ ∀ j b, j ≠ i → l[j]? = some b → p b = false := by
  rw [List.any_eq_false]
  constructor
  · intro h j b hj hb
    have hno := h (b, j) (List.mem_zipIdx_iff_getElem?.mpr hb)
    simpa [hj] using hno
  · rintro h ⟨b, j⟩ hb
    have hb := List.mem_zipIdx_iff_getElem?.mp hb
    by_cases hj : j = i
    · simp [hj]
    · simp [h j b hj hb]

/-- The sum over a list in which one entry is replaced. -/
theorem sum_map_set (h : l[i]? = some a) (f : α → Nat) :
    ((l.set i b).map f).sum + f a = (l.map f).sum + f b := by
  induction l generalizing i with
  | nil => simp at h
  | cons x l ih =>
    cases i with
    | zero =>
      simp only [List.getElem?_cons_zero, Option.some.injEq] at h
      simp [h]
      omega
    | succ i =>
      have hset := ih (by simpa using h)
      simp only [List.set_cons_succ, List.map_cons, List.sum_cons]
      omega

end Parties
