import Mathlib

/-! # Numbers in a radix

The value of a list of digits, most significant first, and the digits that `Nat.toDigits` writes. -/

namespace Radix
variable {radix : ℕ} {ds es : List ℕ} {d n v w : ℕ}

/-- The value of the digits after a prefix of value `v`. -/
def valueAfter (radix v : ℕ) (ds : List ℕ) : ℕ := ds.foldl (fun v d => v * radix + d) v

/-- The value of a list of digits. -/
def value (radix : ℕ) (ds : List ℕ) : ℕ := valueAfter radix 0 ds

@[simp] theorem valueAfter_nil : valueAfter radix v [] = v := rfl

@[simp] theorem valueAfter_cons : valueAfter radix v (d :: ds) = valueAfter radix (v * radix + d) ds := rfl

theorem valueAfter_eq : valueAfter radix v ds = v * radix ^ ds.length + value radix ds := by
  induction ds generalizing v with
  | nil => simp [value]
  | cons d ds ih =>
    rw [value, valueAfter_cons, valueAfter_cons, ih, ih (v := 0 * radix + d), List.length_cons]
    ring

theorem value_cons : value radix (d :: ds) = d * radix ^ ds.length + value radix ds := by
  rw [value, valueAfter_cons, valueAfter_eq, Nat.zero_mul, Nat.zero_add]

/-- More digits never lower the value. -/
theorem le_valueAfter (h : 0 < radix) : v ≤ valueAfter radix v ds := by
  rw [valueAfter_eq]
  exact (Nat.le_mul_of_pos_right v (Nat.pow_pos h)).trans (Nat.le_add_right _ _)

theorem value_eq_ofDigits (ds : List ℕ) : value radix ds = Nat.ofDigits radix ds.reverse := by
  induction ds with
  | nil => rfl
  | cons d ds ih =>
    rw [value_cons, ih, List.reverse_cons, Nat.ofDigits_append, Nat.ofDigits_singleton, List.length_reverse]
    ring

theorem value_lt (h : 1 < radix) (hds : ∀ d ∈ ds, d < radix) : value radix ds < radix ^ ds.length := by
  rw [value_eq_ofDigits, ← List.length_reverse]
  exact Nat.ofDigits_lt_base_pow_length h fun d hd => hds d (List.mem_reverse.mp hd)

/-- Digits of one length are determined by their value. -/
theorem value_inj (h : 1 < radix) (hlen : ds.length = es.length) (hds : ∀ d ∈ ds, d < radix)
    (hes : ∀ d ∈ es, d < radix) (heq : value radix ds = value radix es) : ds = es := by
  rw [value_eq_ofDigits, value_eq_ofDigits] at heq
  refine List.reverse_injective (Nat.ofDigits_inj_of_len_eq h (by simpa using hlen) ?_ ?_ heq)
  · exact fun d hd => hds d (List.mem_reverse.mp hd)
  · exact fun d hd => hes d (List.mem_reverse.mp hd)

/-- The digits that `Nat.toDigits` writes. -/
theorem exists_toDigits (h : 1 < radix) (n : ℕ) :
    ∃ ds : List ℕ, Nat.toDigits radix n = ds.map Nat.digitChar ∧ ds ≠ [] ∧ (∀ d ∈ ds, d < radix) ∧
      value radix ds = n := by
  induction n using Nat.strongRecOn with
  | _ n ih =>
    by_cases hn : n < radix
    · exact ⟨[n], by rw [Nat.toDigits_of_lt_base hn]; rfl, by simp, by simpa using hn, by simp [value]⟩
    · rw [not_lt] at hn
      obtain ⟨ds, hds, -, hlt, hval⟩ := ih (n / radix) (Nat.div_lt_self (by omega) h)
      refine ⟨ds ++ [n % radix], ?_, by simp, ?_, ?_⟩
      · rw [Nat.toDigits_of_base_le h hn, hds, List.map_append]
        rfl
      · intro d hd
        rcases List.mem_append.mp hd with hd | hd
        · exact hlt d hd
        · rw [List.mem_singleton.mp hd]
          exact Nat.mod_lt _ (by omega)
      · have hstep : value radix (ds ++ [n % radix]) = value radix ds * radix + n % radix := by
          rw [value, valueAfter, List.foldl_append]
          rfl
        rw [hstep, hval]
        exact Nat.div_add_mod' n radix

end Radix
