import Mathlib

/-! # Machines that answer requests

A machine takes a request to its answer and the state after it. Two machines answer alike along every run on which each
step keeps a relation between their states. -/

/-- A request is answered and moves the state. -/
abbrev Machine (σ α β : Type) := σ → α → β × σ

namespace Machine
variable {σ τ α β γ : Type}

/-- The answers to requests in their order. -/
def answers (m : Machine σ α β) : σ → List α → List β
  | _, [] => []
  | s, a :: as => (m s a).1 :: answers m (m s a).2 as

/-- The state after requests in their order. -/
def after (m : Machine σ α β) : σ → List α → σ
  | s, [] => s
  | s, a :: as => after m (m s a).2 as

/-- Every request meets a condition in the state it finds. -/
def Along (m : Machine σ α β) (ok : σ → α → Prop) : σ → List α → Prop
  | _, [] => True
  | s, a :: as => ok s a ∧ Along m ok (m s a).2 as

variable {m : Machine σ α β} {m' : Machine τ α γ} {ok ok' : σ → α → Prop} {R : σ → τ → Prop} {agree : β → γ → Prop} {s : σ} {t : τ}
  {as bs : List α}

theorem length_answers : (m.answers s as).length = as.length := by
  induction as generalizing s with
  | nil => rfl
  | cons a as ih => exact congrArg Nat.succ ih

theorem answers_append : m.answers s (as ++ bs) = m.answers s as ++ m.answers (m.after s as) bs := by
  induction as generalizing s with
  | nil => rfl
  | cons a as ih => simp [answers, after, ih]

theorem after_append : m.after s (as ++ bs) = m.after (m.after s as) bs := by
  induction as generalizing s with
  | nil => rfl
  | cons a as ih => exact ih

theorem along_append : m.Along ok s (as ++ bs) ↔ m.Along ok s as ∧ m.Along ok (m.after s as) bs := by
  induction as generalizing s with
  | nil => simp [Along, after]
  | cons a as ih => simp [Along, after, ih, and_assoc]

theorem Along.mono (h : m.Along ok s as) (imp : ∀ {s a}, ok s a → ok' s a) : m.Along ok' s as := by
  induction as generalizing s with
  | nil => trivial
  | cons a as ih => exact ⟨imp h.1, ih h.2⟩

theorem Along.and (h : m.Along ok s as) (h' : m.Along ok' s as) : m.Along (fun s a => ok s a ∧ ok' s a) s as := by
  induction as generalizing s with
  | nil => trivial
  | cons a as ih => exact ⟨⟨h.1, h'.1⟩, ih h.2 h'.2⟩

theorem along_of_forall {p : α → Prop} (h : ∀ a ∈ as, p a) : m.Along (fun _ a => p a) s as := by
  induction as generalizing s with
  | nil => trivial
  | cons a as ih => exact ⟨h a List.mem_cons_self, ih fun x hx => h x (List.mem_cons_of_mem _ hx)⟩

/-- Where one request keeps the relation and is answered alike, all requests are. -/
theorem Along.simulate (h : m.Along ok s as) (hR : R s t)
    (step : ∀ {s t a}, R s t → ok s a → agree (m s a).1 (m' t a).1 ∧ R (m s a).2 (m' t a).2) :
    List.Forall₂ agree (m.answers s as) (m'.answers t as) ∧ R (m.after s as) (m'.after t as) := by
  induction as generalizing s t with
  | nil => exact ⟨.nil, hR⟩
  | cons a as ih =>
    obtain ⟨hans, hR'⟩ := step hR h.1
    obtain ⟨hrest, hend⟩ := ih h.2 hR'
    exact ⟨.cons hans hrest, hend⟩

/-- Requests that do not all meet the condition have a first one that does not. -/
theorem exists_first (h : ¬m.Along ok s as) :
    ∃ before a rest, as = before ++ a :: rest ∧ m.Along ok s before ∧ ¬ok (m.after s before) a := by
  induction as generalizing s with
  | nil => exact absurd trivial h
  | cons a as ih =>
    by_cases ha : ok s a
    · obtain ⟨before, b, rest, rfl, hbefore, hb⟩ := ih fun has => h ⟨ha, has⟩
      exact ⟨a :: before, b, rest, rfl, ⟨ha, hbefore⟩, hb⟩
    · exact ⟨[], a, as, rfl, trivial, ha⟩

end Machine
