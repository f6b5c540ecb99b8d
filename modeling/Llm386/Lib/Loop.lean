import Mathlib

/-! # Fallible loops

Rules for `for` loops whose body may fail: a loop over a list is `List.foldlM` in `Except`, a fallible map is
`List.mapM`. -/

namespace Loop
variable {ε α β σ τ : Type}

/-- A sequence of two fallible steps succeeds when both do. -/
theorem bind_eq_ok {x : Except ε α} {f : α → Except ε β} {b : β} :
    (x >>= f) = .ok b ↔ ∃ a, x = .ok a ∧ f a = .ok b := by
  cases x with
  | error e => simp [bind, Except.bind]
  | ok a => simp [bind, Except.bind]

theorem ok_bind {a : α} {f : α → Except ε β} : (Except.ok a >>= f) = f a := rfl

theorem mapError_eq_ok {ε' : Type} {f : ε → ε'} {x : Except ε α} {a : α} : x.mapError f = .ok a ↔ x = .ok a := by
  cases x <;> simp [Except.mapError]

theorem toOption_eq_some {x : Except ε α} {a : α} : x.toOption = some a ↔ x = .ok a := by
  cases x <;> simp [Except.toOption]

/-- A fallible map whose body succeeds on every element is the plain map. -/
theorem mapM_eq_ok {f : α → Except ε β} {g : α → β} {l : List α} (h : ∀ x ∈ l, f x = .ok (g x)) :
    l.mapM f = .ok (l.map g) := by
  induction l with
  | nil => rfl
  | cons x xs ih =>
    rw [List.mapM_cons, h x List.mem_cons_self, ih fun y hy => h y (List.mem_cons_of_mem _ hy)]
    rfl

theorem mapM_congr {f g : α → Except ε β} {l : List α} (h : ∀ x ∈ l, f x = g x) : l.mapM f = l.mapM g := by
  induction l with
  | nil => rfl
  | cons x xs ih =>
    rw [List.mapM_cons, List.mapM_cons, h x List.mem_cons_self, ih fun y hy => h y (List.mem_cons_of_mem _ hy)]

/-- A fallible map that reads each element through `proj`, over a list whose projections are known. -/
theorem mapM_proj_eq_ok {f : σ → Except ε β} {g : τ → β} {proj : α → σ} {key : τ → σ} {l : List α} {l' : List τ}
    (hl : l.map proj = l'.map key) (h : ∀ b ∈ l', f (key b) = .ok (g b)) :
    l.mapM (fun a => f (proj a)) = .ok (l'.map g) := by
  rw [← Function.comp_def, ← List.mapM_map, hl, List.mapM_map]
  exact mapM_eq_ok h

/-- A fallible map succeeds when its body does on every element. -/
theorem mapM_eq_ok_iff {f : α → Except ε β} {l : List α} {r : List β} :
    l.mapM f = .ok r ↔ List.Forall₂ (fun a b => f a = .ok b) l r := by
  induction l generalizing r with
  | nil =>
    rw [List.forall₂_nil_left_iff]
    exact ⟨fun h => by cases h; rfl, fun h => h ▸ rfl⟩
  | cons x xs ih =>
    rw [List.mapM_cons, bind_eq_ok, List.forall₂_cons_left_iff]
    simp only [bind_eq_ok, ih]
    constructor
    · rintro ⟨b, hb, bs, hbs, h⟩
      cases h
      exact ⟨b, bs, hb, hbs, rfl⟩
    · rintro ⟨b, bs, hb, hbs, rfl⟩
      exact ⟨b, hb, bs, hbs, rfl⟩

theorem exists_of_mem_mapM {f : α → Except ε β} {l : List α} {r : List β} (h : l.mapM f = .ok r) {b : β}
    (hb : b ∈ r) : ∃ a ∈ l, f a = .ok b := by
  have hall := mapM_eq_ok_iff.mp h
  clear h
  induction hall with
  | nil => cases hb
  | @cons a b' l r hab _ ih =>
    rcases List.mem_cons.mp hb with rfl | hb
    · exact ⟨a, List.mem_cons_self, hab⟩
    · obtain ⟨a', ha', hb'⟩ := ih hb
      exact ⟨a', List.mem_cons_of_mem _ ha', hb'⟩

/-- A fallible map succeeds where its body does. -/
theorem exists_mapM {f : α → Except ε β} {l : List α} (h : ∀ a ∈ l, ∃ b, f a = .ok b) : ∃ r, l.mapM f = .ok r := by
  induction l with
  | nil => exact ⟨[], rfl⟩
  | cons a l ih =>
    obtain ⟨b, hb⟩ := h a List.mem_cons_self
    obtain ⟨r, hr⟩ := ih fun x hx => h x (List.mem_cons_of_mem _ hx)
    exact ⟨b :: r, by rw [List.mapM_cons, hb, hr]; rfl⟩

theorem exists_of_mapM {f : α → Except ε β} {l : List α} {r : List β} (h : l.mapM f = .ok r) {a : α} (ha : a ∈ l) :
    ∃ b, f a = .ok b := by
  have hall := mapM_eq_ok_iff.mp h
  clear h
  induction hall with
  | nil => cases ha
  | @cons a' b l r hab _ ih =>
    rcases List.mem_cons.mp ha with rfl | ha
    · exact ⟨b, hab⟩
    · exact ih ha

theorem mem_mapM_iff {f : α → Except ε β} {l : List α} {r : List β} (h : l.mapM f = .ok r) {b : β} :
    b ∈ r ↔ ∃ a ∈ l, f a = .ok b := by
  refine ⟨exists_of_mem_mapM h, ?_⟩
  have hall := mapM_eq_ok_iff.mp h
  clear h
  rintro ⟨a, ha, hb⟩
  induction hall with
  | nil => cases ha
  | @cons a' b' l r hab _ ih =>
    rcases List.mem_cons.mp ha with rfl | ha
    · rw [hb] at hab
      cases hab
      exact List.mem_cons_self
    · exact List.mem_cons_of_mem _ (ih ha)

/-- Where every success of the body is known, so is that of the map. -/
theorem eq_map_of_mapM {f : α → Except ε β} {g : α → β} (hf : ∀ a b, f a = .ok b → b = g a) {l : List α} {r : List β}
    (h : l.mapM f = .ok r) : r = l.map g := by
  have hall := mapM_eq_ok_iff.mp h
  clear h
  induction hall with
  | nil => rfl
  | @cons a b l r hab _ ih => rw [List.map_cons, hf a b hab, ih]

/-- A fallible map over a permutation succeeds likewise, with the results permuted. -/
theorem mapM_perm {f : α → Except ε β} {l l' : List α} {r : List β} (hperm : l.Perm l') (h : l.mapM f = .ok r) :
    ∃ r', l'.mapM f = .ok r' ∧ r.Perm r' := by
  obtain ⟨r', hall, hr⟩ := List.perm_comp_forall₂ hperm.symm (mapM_eq_ok_iff.mp h)
  exact ⟨r', mapM_eq_ok_iff.mpr hall, hr.symm⟩

section Fold
variable {f : σ → α → Except ε σ} {l : List α} {s t : σ}

theorem foldlM_cons_eq_ok {x : α} {xs : List α} :
    (x :: xs).foldlM f s = .ok t ↔ ∃ u, f s x = .ok u ∧ xs.foldlM f u = .ok t := by
  rw [List.foldlM_cons, bind_eq_ok]

/-- A loop whose body reads an element by itself and then updates the state: read all, then update. -/
theorem foldlM_map_eq {f : α → Except ε β} {g : σ → β → σ} :
    l.foldlM (fun s x => g s <$> f x) s = (fun ys => ys.foldl g s) <$> l.mapM f := by
  induction l generalizing s with
  | nil => rfl
  | cons x xs ih =>
    rw [List.foldlM_cons, List.mapM_cons]
    cases f x with
    | error e => rfl
    | ok y =>
      show xs.foldlM (fun s x => g s <$> f x) (g s y) = _
      rw [ih]
      cases xs.mapM f <;> rfl

theorem map_eq_ok {f : α → β} {x : Except ε α} {b : β} : f <$> x = .ok b ↔ ∃ a, x = .ok a ∧ f a = b := by
  cases x <;> simp

/-- The invariant rule: what every pass keeps holds after the loop. -/
theorem foldlM_inv {P : σ → Prop} (step : ∀ x ∈ l, ∀ s t, P s → f s x = .ok t → P t) (h0 : P s)
    (h : l.foldlM f s = .ok t) : P t := by
  induction l generalizing s with
  | nil =>
    cases h
    exact h0
  | cons x xs ih =>
    obtain ⟨u, hu, hrest⟩ := foldlM_cons_eq_ok.mp h
    exact ih (fun y hy => step y (List.mem_cons_of_mem _ hy)) (step x List.mem_cons_self s u h0 hu) hrest

/-- The invariant rule with the elements still to come in view. -/
theorem foldlM_inv_rest {P : σ → List α → Prop}
    (step : ∀ x xs s t, P s (x :: xs) → f s x = .ok t → P t xs) (h0 : P s l) (h : l.foldlM f s = .ok t) :
    P t [] := by
  induction l generalizing s with
  | nil =>
    cases h
    exact h0
  | cons x xs ih =>
    obtain ⟨u, hu, hrest⟩ := foldlM_cons_eq_ok.mp h
    exact ih (step x xs s u h0 hu) hrest

/-- The total rule: where every pass succeeds and keeps the invariant, the loop succeeds. -/
theorem foldlM_total {P : σ → List α → Prop} (step : ∀ x xs s, P s (x :: xs) → ∃ t, f s x = .ok t ∧ P t xs)
    (h0 : P s l) : ∃ t, l.foldlM f s = .ok t ∧ P t [] := by
  induction l generalizing s with
  | nil => exact ⟨s, rfl, h0⟩
  | cons x xs ih =>
    obtain ⟨u, hu, hP⟩ := step x xs s h0
    obtain ⟨t, ht, hPt⟩ := ih hP
    exact ⟨t, foldlM_cons_eq_ok.mpr ⟨u, hu, ht⟩, hPt⟩

/-- The passes of a loop: each element with the state before it, as far as the loop gets. -/
def visited (f : σ → α → Except ε σ) : σ → List α → List (σ × α)
  | _, [] => []
  | s, x :: xs => (s, x) :: match f s x with
    | .ok t => visited f t xs
    | .error _ => []

theorem visited_cons_of_ok {x : α} {xs : List α} {u : σ} (h : f s x = .ok u) :
    visited f s (x :: xs) = (s, x) :: visited f u xs := by
  simp [visited, h]

/-- The invariant rule at the start of each pass. -/
theorem inv_of_visited {P : σ → List α → Prop} (step : ∀ x xs s t, P s (x :: xs) → f s x = .ok t → P t xs) (h0 : P s l)
    {x : α} {u : σ} (hx : (u, x) ∈ visited f s l) : ∃ xs, P u (x :: xs) := by
  induction l generalizing s with
  | nil => cases hx
  | cons y ys ih =>
    cases hstep : f s y with
    | error e =>
      simp only [visited, hstep, List.mem_singleton, Prod.mk.injEq] at hx
      obtain ⟨rfl, rfl⟩ := hx
      exact ⟨ys, h0⟩
    | ok t =>
      rw [visited_cons_of_ok hstep] at hx
      rcases List.mem_cons.mp hx with heq | hx
      · cases heq
        exact ⟨ys, h0⟩
      · exact ih (step y ys s t h0 hstep) hx

/-- The collecting rule: a property that each pass keeps or adds holds after the loop when it held before or some
pass adds it. -/
theorem foldlM_collects {I : σ → List α → Prop} {P : σ → Prop} {Adds : σ → α → Prop}
    (step : ∀ x xs u t, I u (x :: xs) → f u x = .ok t → I t xs ∧ (P t ↔ P u ∨ Adds u x)) (h0 : I s l)
    (h : l.foldlM f s = .ok t) : I t [] ∧ (P t ↔ P s ∨ ∃ y ∈ visited f s l, Adds y.1 y.2) := by
  induction l generalizing s with
  | nil =>
    cases h
    exact ⟨h0, by simp [visited]⟩
  | cons x xs ih =>
    obtain ⟨u, hu, hrest⟩ := foldlM_cons_eq_ok.mp h
    obtain ⟨hI, hP⟩ := step x xs s u h0 hu
    obtain ⟨hdone, hcollect⟩ := ih hI hrest
    refine ⟨hdone, ?_⟩
    rw [hcollect, hP, visited_cons_of_ok hu, List.exists_mem_cons_iff, or_assoc]

/-- A loop that gets through splits at each of its elements. -/
theorem split_of_mem {x : α} (h : l.foldlM f s = .ok t) (hx : x ∈ l) :
    ∃ before after u v, l = before ++ x :: after ∧ before.foldlM f s = .ok u ∧ f u x = .ok v ∧
      after.foldlM f v = .ok t := by
  obtain ⟨before, after, rfl⟩ := List.append_of_mem hx
  rw [List.foldlM_append, bind_eq_ok] at h
  obtain ⟨u, hu, h⟩ := h
  obtain ⟨v, hv, h⟩ := foldlM_cons_eq_ok.mp h
  exact ⟨before, after, u, v, rfl, hu, hv, h⟩

end Fold

/-! ### Assignments -/

/-- A loop of assignments sets a key to what every assignment of it writes, and keeps the others. -/
theorem lookup_foldl {σ α κ ν : Type} [DecidableEq κ] {g : σ → κ → ν} {assign : σ → α → σ} {k : α → κ} {v : α → ν}
    (hassign : ∀ m x a, g (assign m x) a = if k x = a then v x else g m a) {l : List α} {m : σ} {a : κ} {b : ν}
    (h : ∀ x ∈ l, k x = a → v x = b) : g (l.foldl assign m) a = if a ∈ l.map k then b else g m a := by
  induction l generalizing m with
  | nil => simp
  | cons x l ih =>
    rw [List.foldl_cons, ih fun y hy => h y (List.mem_cons_of_mem _ hy), hassign, List.map_cons]
    by_cases hlater : a ∈ l.map k
    · simp [hlater]
    · by_cases hx : k x = a
      · simp [hlater, hx, h x List.mem_cons_self hx]
      · simp [hlater, hx, Ne.symm hx]

end Loop
