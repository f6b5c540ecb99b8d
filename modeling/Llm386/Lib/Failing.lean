import Mathlib

/-! # Failing and keeping the state

Computations over a state that may fail half-way and leave behind what they have written so far, with rules of pre-
and postconditions: what holds of the state and the result at the end, and what holds of the state at a failure. -/

/-- A computation over a state, which a failure keeps. -/
abbrev Failing (ε σ α : Type) := ExceptT ε (StateM σ) α

namespace Failing
variable {ε σ α β : Type}

/-- The result and the state after it. -/
def exec (x : Failing ε σ α) (s : σ) : Except ε α × σ := Id.run (StateT.run (ExceptT.run x) s)

/-- A result that neither reads nor writes the state. -/
def lift (r : Except ε α) : Failing ε σ α := ExceptT.mk (pure r)

variable {x : Failing ε σ α} {f : α → Failing ε σ β} {s : σ}

@[simp] theorem exec_pure (a : α) : exec (pure a : Failing ε σ α) s = (.ok a, s) := rfl

@[simp] theorem exec_lift (r : Except ε α) : exec (lift r : Failing ε σ α) s = (r, s) := rfl

@[simp] theorem exec_get : exec (get : Failing ε σ σ) s = (.ok s, s) := rfl

@[simp] theorem exec_modify (g : σ → σ) : exec (modify g : Failing ε σ PUnit) s = (.ok ⟨⟩, g s) := rfl

theorem exec_bind : exec (x >>= f) s =
    match exec x s with
    | (.ok a, s') => exec (f a) s'
    | (.error e, s') => (.error e, s') := by
  change (match (x s : Except ε α × σ) with
    | (r, s') => ExceptT.bindCont f r s') = match (x s : Except ε α × σ) with
    | (.ok a, s') => f a s'
    | (.error e, s') => (.error e, s')
  cases (x s : Except ε α × σ) with
  | mk r s' => cases r <;> rfl

/-! ### Pre- and postconditions -/

/-- From a state with `P` the computation ends in one with `Q` of its result, or fails in one with `E`. -/
def Meets (P : σ → Prop) (x : Failing ε σ α) (Q : α → σ → Prop) (E : σ → Prop) : Prop :=
  ∀ s, P s →
    match exec x s with
    | (.ok a, s') => Q a s'
    | (.error _, s') => E s'

variable {P P' : σ → Prop} {Q Q' : α → σ → Prop} {R : β → σ → Prop} {E : σ → Prop}

theorem Meets.pure {a : α} (h : ∀ s, P s → Q a s) : Meets P (pure a : Failing ε σ α) Q E := h

theorem Meets.get {Q : σ → σ → Prop} (h : ∀ s, P s → Q s s) : Meets P (get : Failing ε σ σ) Q E := h

theorem Meets.modify {g : σ → σ} {Q : PUnit → σ → Prop} (h : ∀ s, P s → Q ⟨⟩ (g s)) :
    Meets P (modify g : Failing ε σ PUnit) Q E := h

theorem Meets.lift {r : Except ε α} (hok : ∀ a, r = .ok a → ∀ s, P s → Q a s) (herror : ∀ s, P s → E s) :
    Meets P (lift r) Q E := by
  intro s hs
  rw [exec_lift]
  cases r with
  | ok a => exact hok a rfl s hs
  | error e => exact herror s hs

theorem Meets.lift_ok {a : α} {r : Except ε α} (hr : r = .ok a) (h : ∀ s, P s → Q a s) : Meets P (Failing.lift r) Q E := by
  rw [hr]
  exact h

theorem Meets.bind (hx : Meets P x Q E) (hf : ∀ a, Meets (Q a) (f a) R E) : Meets P (x >>= f) R E := by
  intro s hs
  have hmid := hx s hs
  rw [exec_bind]
  cases hexec : exec x s with
  | mk r s' =>
    rw [hexec] at hmid
    cases r with
    | ok a => exact hf a s' hmid
    | error e => exact hmid

theorem Meets.conseq (h : Meets P x Q E) (hpre : ∀ s, P' s → P s) (hpost : ∀ a s, Q a s → Q' a s) : Meets P' x Q' E := by
  intro s hs
  have hend := h s (hpre s hs)
  cases hexec : exec x s with
  | mk r s' =>
    rw [hexec] at hend
    cases r with
    | ok a => exact hpost a s' hend
    | error e => exact hend

/-- A loop with an invariant that knows which elements are still to come. -/
theorem Meets.foldlM {l : List α} {step : β → α → Failing ε σ β} {I : List α → β → σ → Prop} {b : β}
    (hstep : ∀ a rest b, a ∈ l → Meets (I (a :: rest) b) (step b a) (I rest) E) : Meets (I l b) (l.foldlM step b) (I []) E := by
  induction l generalizing b with
  | nil => exact .pure fun s hs => hs
  | cons a l ih =>
    rw [List.foldlM_cons]
    exact (hstep a l b List.mem_cons_self).bind fun b' => ih fun a' rest b ha' => hstep a' rest b (List.mem_cons_of_mem _ ha')

end Failing
