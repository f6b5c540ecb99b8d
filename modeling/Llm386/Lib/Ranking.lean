import Mathlib

/-! # Rankings by a partial key

Elements are compared by a tie class, then by a key that some of them lack, then by an id; where a key is missing the
comparison falls through to the id. This orders a set unless an element without a key stands between two that their
keys rank against their ids. -/

/-- What a ranking compares: the tie class, the key if there is one, and the id. -/
structure Ranking (α τ κ ι : Type) where
  tie : α → τ
  key : α → Option κ
  ident : α → ι

namespace Ranking
variable {α τ κ ι : Type} [LinearOrder τ] [LinearOrder κ] [LinearOrder ι] {R : Ranking α τ κ ι} {s : Set α} {a b c : α}

/-- Missing keys are equal to every key. -/
def keyCmp : Option κ → Option κ → Ordering
  | some k, some l => compare k l
  | _, _ => .eq

def cmp (R : Ranking α τ κ ι) (a b : α) : Ordering :=
  (compare (R.tie a) (R.tie b)).then ((keyCmp (R.key a) (R.key b)).then (compare (R.ident a) (R.ident b)))

/-- `a` ranks above `b`. -/
def Above (R : Ranking α τ κ ι) (a b : α) : Prop := R.cmp a b = .gt

/-- An element without a key whose id lies between those of two elements that their keys rank the other way. -/
def Gap (R : Ranking α τ κ ι) (s : Set α) : Prop :=
  ∃ a ∈ s, ∃ b ∈ s, ∃ c ∈ s, R.tie a = R.tie b ∧ R.tie b = R.tie c ∧ R.key b = none ∧
    (∃ k l, R.key a = some k ∧ R.key c = some l ∧ l < k) ∧ R.ident a < R.ident b ∧ R.ident b < R.ident c

/-! ### One comparison -/

@[simp] theorem keyCmp_none_left (k : Option κ) : keyCmp none k = .eq := rfl

@[simp] theorem keyCmp_none_right (k : Option κ) : keyCmp k none = .eq := by
  cases k <;> rfl

theorem keyCmp_swap (k l : Option κ) : keyCmp l k = (keyCmp k l).swap := by
  cases k <;> cases l
  · rfl
  · rfl
  · rfl
  · exact Std.OrientedOrd.eq_swap

theorem cmp_swap (R : Ranking α τ κ ι) (a b : α) : R.cmp b a = (R.cmp a b).swap := by
  have htie : compare (R.tie b) (R.tie a) = (compare (R.tie a) (R.tie b)).swap := Std.OrientedOrd.eq_swap
  have hident : compare (R.ident b) (R.ident a) = (compare (R.ident a) (R.ident b)).swap := Std.OrientedOrd.eq_swap
  rw [cmp, cmp, Ordering.swap_then, Ordering.swap_then, htie, hident, keyCmp_swap]

theorem ident_eq_of_cmp (h : R.cmp a b = .eq) : R.ident a = R.ident b := by
  rw [cmp, Ordering.then_eq_eq, Ordering.then_eq_eq] at h
  exact compare_eq_iff_eq.mp h.2.2

/-- Of two elements with different ids one ranks above the other. -/
theorem above_or_above (hne : R.ident a ≠ R.ident b) : R.Above a b ∨ R.Above b a := by
  rw [Above, Above, R.cmp_swap a b]
  cases hcmp : R.cmp a b with
  | lt => exact Or.inr rfl
  | eq => exact absurd (ident_eq_of_cmp hcmp) hne
  | gt => exact Or.inl rfl

theorem Above.asymm (h : R.Above a b) : ¬R.Above b a := by
  rw [Above] at h ⊢
  rw [R.cmp_swap a b, h]
  decide

theorem above_iff : R.Above a b ↔ R.tie b < R.tie a ∨ R.tie a = R.tie b ∧
    (keyCmp (R.key a) (R.key b) = .gt ∨ keyCmp (R.key a) (R.key b) = .eq ∧ R.ident b < R.ident a) := by
  rw [Above, cmp, Ordering.then_eq_gt, Ordering.then_eq_gt, compare_gt_iff_gt, compare_gt_iff_gt, compare_eq_iff_eq]

theorem above_of_keys {k l : κ} (htie : R.tie a = R.tie b) (ha : R.key a = some k) (hb : R.key b = some l) :
    R.Above a b ↔ l < k ∨ k = l ∧ R.ident b < R.ident a := by
  rw [above_iff, ha, hb, keyCmp, compare_gt_iff_gt, compare_eq_iff_eq]
  simp [htie]

theorem above_of_missing (htie : R.tie a = R.tie b) (h : R.key a = none ∨ R.key b = none) :
    R.Above a b ↔ R.ident b < R.ident a := by
  have hkey : keyCmp (R.key a) (R.key b) = .eq := by
    rcases h with h | h
    · rw [h, keyCmp_none_left]
    · rw [h, keyCmp_none_right]
  rw [above_iff, hkey]
  simp [htie]

/-! ### Three comparisons -/

/-- Within one tie class two comparisons chain where no gap stands in the way. -/
theorem Above.trans_of_tie (hinj : Set.InjOn R.ident s) (hgap : ¬R.Gap s) (ha : a ∈ s) (hb : b ∈ s) (hc : c ∈ s)
    (htie : R.tie a = R.tie b) (htie' : R.tie b = R.tie c) (h : R.Above a b) (h' : R.Above b c) : R.Above a c := by
  have htie'' := htie.trans htie'
  cases hka : R.key a with
  | none =>
    rw [above_of_missing htie (Or.inl hka)] at h
    rw [above_of_missing htie'' (Or.inl hka)]
    cases hkb : R.key b with
    | none => exact ((above_of_missing htie' (Or.inl hkb)).mp h').trans h
    | some k =>
      cases hkc : R.key c with
      | none => exact ((above_of_missing htie' (Or.inr hkc)).mp h').trans h
      | some l =>
        rcases (above_of_keys htie' hkb hkc).mp h' with hlt | ⟨-, hid⟩
        · -- The id of `a` below that of `c` would be a gap.
          refine lt_of_not_ge fun hle => hgap ⟨b, hb, a, ha, c, hc, htie.symm, htie'', hka, ⟨k, l, hkb, hkc, hlt⟩, h, ?_⟩
          refine hle.lt_of_ne fun heq => ?_
          rw [hinj ha hc heq, hkc] at hka
          cases hka
        · exact hid.trans h
  | some k =>
    cases hkb : R.key b with
    | none =>
      rw [above_of_missing htie (Or.inr hkb)] at h
      rw [above_of_missing htie' (Or.inl hkb)] at h'
      cases hkc : R.key c with
      | none => exact (above_of_missing htie'' (Or.inr hkc)).mpr (h'.trans h)
      | some l =>
        refine (above_of_keys htie'' hka hkc).mpr ?_
        rcases lt_trichotomy l k with hlt | rfl | hgt
        · exact Or.inl hlt
        · exact Or.inr ⟨rfl, h'.trans h⟩
        · exact absurd ⟨c, hc, b, hb, a, ha, htie'.symm, htie.symm, hkb, ⟨l, k, hkc, hka, hgt⟩, h', h⟩ hgap
    | some l =>
      cases hkc : R.key c with
      | none =>
        rw [above_of_missing htie' (Or.inr hkc)] at h'
        rw [above_of_missing htie'' (Or.inr hkc)]
        rcases (above_of_keys htie hka hkb).mp h with hlt | ⟨-, hid⟩
        · refine lt_of_not_ge fun hle => hgap ⟨a, ha, c, hc, b, hb, htie'', htie'.symm, hkc, ⟨k, l, hka, hkb, hlt⟩, ?_, h'⟩
          refine hle.lt_of_ne fun heq => ?_
          rw [hinj ha hc heq, hkc] at hka
          cases hka
        · exact h'.trans hid
      | some m =>
        refine (above_of_keys htie'' hka hkc).mpr ?_
        rcases (above_of_keys htie hka hkb).mp h with hlt | ⟨rfl, hid⟩ <;>
          rcases (above_of_keys htie' hkb hkc).mp h' with hlt' | ⟨rfl, hid'⟩
        · exact Or.inl (hlt'.trans hlt)
        · exact Or.inl hlt
        · exact Or.inl hlt'
        · exact Or.inr ⟨rfl, hid'.trans hid⟩

theorem Above.trans (hinj : Set.InjOn R.ident s) (hgap : ¬R.Gap s) (ha : a ∈ s) (hb : b ∈ s) (hc : c ∈ s)
    (h : R.Above a b) (h' : R.Above b c) : R.Above a c := by
  rcases above_iff.mp h with hlt | ⟨htie, hab⟩ <;> rcases above_iff.mp h' with hlt' | ⟨htie', hbc⟩
  · exact above_iff.mpr (Or.inl (hlt'.trans hlt))
  · exact above_iff.mpr (Or.inl (htie' ▸ hlt))
  · exact above_iff.mpr (Or.inl (htie ▸ hlt'))
  · exact h.trans_of_tie hinj hgap ha hb hc htie htie' h'

/-- The ranking is transitive exactly where there is no gap. -/
theorem transitive_iff (hinj : Set.InjOn R.ident s) :
    (∀ a ∈ s, ∀ b ∈ s, ∀ c ∈ s, R.Above a b → R.Above b c → R.Above a c) ↔ ¬R.Gap s := by
  constructor
  · rintro htrans ⟨a, ha, b, hb, c, hc, htie, htie', hkey, ⟨k, l, hka, hkc, hlt⟩, hid, hid'⟩
    have hac : R.Above a c := (above_of_keys (htie.trans htie') hka hkc).mpr (Or.inl hlt)
    have hcb : R.Above c b := (above_of_missing htie'.symm (Or.inr hkey)).mpr hid'
    have hab := (above_of_missing htie (Or.inr hkey)).mp (htrans a ha c hc b hb hac hcb)
    exact hid.asymm hab
  · exact fun hgap a ha b hb c hc h h' => h.trans hinj hgap ha hb hc h'

/-- Where the ranking is transitive, some element of a list has none above it. -/
theorem exists_top {l : List α} (hl : l ≠ [])
    (htrans : ∀ a ∈ l, ∀ b ∈ l, ∀ c ∈ l, R.Above a b → R.Above b c → R.Above a c) :
    ∃ t ∈ l, ∀ x ∈ l, ¬R.Above x t := by
  induction l with
  | nil => exact absurd rfl hl
  | cons a l ih =>
    by_cases hnil : l = []
    · subst hnil
      exact ⟨a, List.mem_singleton_self a, fun x hx => List.mem_singleton.mp hx ▸ fun h => h.asymm h⟩
    · obtain ⟨t, ht, htop⟩ := ih hnil fun x hx y hy z hz =>
        htrans x (List.mem_cons_of_mem _ hx) y (List.mem_cons_of_mem _ hy) z (List.mem_cons_of_mem _ hz)
      by_cases hat : R.Above a t
      · refine ⟨a, List.mem_cons_self, fun x hx hxa => ?_⟩
        have hxt := htrans x hx a List.mem_cons_self t (List.mem_cons_of_mem _ ht) hxa hat
        rcases List.mem_cons.mp hx with rfl | hx
        · exact hxa.asymm hxa
        · exact htop x hx hxt
      · exact ⟨t, List.mem_cons_of_mem _ ht, List.forall_mem_cons.mpr ⟨hat, htop⟩⟩

end Ranking
