import Llm386.Lib.Runs

/-! # Programs that read

A program asks one query at a time and goes on with the answer, until it returns or fails. Run on its own, all its
queries are answered alike. Run among writers, each query is answered as the store is when it is asked. -/

/-- A program with queries of `Q`, answered in `A`, that returns an `α` or fails with an `ε`. -/
inductive Reads (Q : Type) (A : Q → Type) (ε α : Type)
  | done (r : Except ε α)
  | ask (q : Q) (k : A q → Reads Q A ε α)

namespace Reads
variable {Q : Type} {A : Q → Type} {ε ε' α β σ : Type}

protected def bind (f : α → Reads Q A ε β) : Reads Q A ε α → Reads Q A ε β
  | done (.ok a) => f a
  | done (.error e) => done (.error e)
  | ask q k => ask q fun a => (k a).bind f

instance : Monad (Reads Q A ε) where
  pure a := done (.ok a)
  bind x f := Reads.bind f x

instance : LawfulMonad (Reads Q A ε) := LawfulMonad.mk' _
  (fun x => by
    show Reads.bind _ x = x
    induction x with
    | done r => cases r <;> rfl
    | ask q k ih => exact congrArg (ask q) (funext ih))
  (fun _ _ => rfl)
  (fun x f g => by
    show Reads.bind g (Reads.bind f x) = Reads.bind _ x
    induction x with
    | done r => cases r <;> rfl
    | ask q k ih => exact congrArg (ask q) (funext ih))

/-- The same program with other errors. -/
def mapError (f : ε → ε') : Reads Q A ε α → Reads Q A ε' α
  | done r => done (r.mapError f)
  | ask q k => ask q fun a => (k a).mapError f

/-- The outcome where every query is answered by `o`. -/
def answered (o : ∀ q, A q) : Reads Q A ε α → Except ε α
  | done r => r
  | ask q k => (k (o q)).answered o

/-- The queries asked where every query is answered by `o`. -/
def asked (o : ∀ q, A q) : Reads Q A ε α → List Q
  | done _ => []
  | ask q k => q :: (k (o q)).asked o

variable {o o' : ∀ q, A q}

/-- Only the answers to what it asks matter to a program. -/
theorem answered_congr {x : Reads Q A ε α} (h : ∀ q ∈ x.asked o, o' q = o q) : x.answered o' = x.answered o := by
  induction x with
  | done r => rfl
  | ask q k ih =>
    have hhere : o' q = o q := h q List.mem_cons_self
    show (k (o' q)).answered o' = (k (o q)).answered o
    rw [hhere]
    exact ih (o q) fun q' hq' => h q' (List.mem_cons_of_mem q hq')

@[simp] theorem answered_done (r : Except ε α) : (done r : Reads Q A ε α).answered o = r := rfl

@[simp] theorem answered_ask (q : Q) (k : A q → Reads Q A ε α) : (ask q k).answered o = (k (o q)).answered o := rfl

@[simp] theorem answered_pure (a : α) : (pure a : Reads Q A ε α).answered o = pure a := rfl

@[simp] theorem answered_bind (x : Reads Q A ε α) (f : α → Reads Q A ε β) :
    (x >>= f).answered o = x.answered o >>= fun a => (f a).answered o := by
  show (Reads.bind f x).answered o = _
  induction x with
  | done r => cases r <;> rfl
  | ask q k ih => exact ih (o q)

@[simp] theorem answered_map (f : α → β) (x : Reads Q A ε α) : (f <$> x).answered o = f <$> x.answered o := by
  rw [map_eq_pure_bind, map_eq_pure_bind, answered_bind]
  rfl

@[simp] theorem answered_mapError (f : ε → ε') (x : Reads Q A ε α) :
    (x.mapError f).answered o = (x.answered o).mapError f := by
  induction x with
  | done r => rfl
  | ask q k ih => exact ih (o q)

@[simp] theorem answered_ite (c : Prop) [Decidable c] (x y : Reads Q A ε α) :
    (if c then x else y).answered o = if c then x.answered o else y.answered o :=
  apply_ite _ c x y

theorem answered_foldlM {f : σ → α → Reads Q A ε σ} {g : σ → α → Except ε σ} (h : ∀ s a, (f s a).answered o = g s a)
    (l : List α) (s : σ) : (l.foldlM f s).answered o = l.foldlM g s := by
  induction l generalizing s with
  | nil => rfl
  | cons a l ih => simp only [List.foldlM_cons, answered_bind, h, ih]

theorem answered_mapM {f : α → Reads Q A ε β} {g : α → Except ε β} (h : ∀ a, (f a).answered o = g a) (l : List α) :
    (l.mapM f).answered o = l.mapM g := by
  induction l with
  | nil => rfl
  | cons a l ih => simp only [List.mapM_cons, answered_bind, answered_pure, h, ih]

/-! ### Among writers -/

section
variable {S W : Type} (answer : S → ∀ q, A q) (write : S → W → Option S)

/-- The program asks its next query, or somebody writes. -/
def step : S × Reads Q A ε α → Option W → Option (S × Reads Q A ε α)
  | (s, ask q k), none => some (s, k (answer s q))
  | (_, done _), none => none
  | (s, x), some w => (write s w).map (·, x)

/-- A write touches no query that the program has still to ask. -/
def Untouched (touches : S → W → Q → Prop) : S × Reads Q A ε α → Option W → Prop
  | (s, x), some w => ∀ q ∈ x.asked (answer s), ¬touches s w q
  | _, none => True

instance (touches : S → W → Q → Prop) [∀ s w, DecidablePred (touches s w)] (t : S × Reads Q A ε α) :
    DecidablePred (Untouched answer touches t)
  | some w => inferInstanceAs (Decidable (∀ q ∈ t.2.asked (answer t.1), ¬touches t.1 w q))
  | none => isTrue (by cases t; trivial)

variable {answer write} {touches : S → W → Q → Prop} {s₀ s : S} {x : Reads Q A ε α} {r : Except ε α}
  {acts : List (Option W)}

/-- Where a write leaves the answers to all that it does not touch, a program has the outcome it has alone among
writes that touch nothing it has still to ask. -/
theorem answered_of_untouched (h : Run (step answer write) (Untouched answer touches) (s₀, x) acts (s, done r))
    (frame : ∀ {s w s' q}, write s w = some s' → ¬touches s w q → answer s' q = answer s q) :
    x.answered (answer s₀) = r := by
  have hkeep : (s, (done r : Reads Q A ε α)).2.answered (answer s) = x.answered (answer s₀) := by
    refine h.invariant (P := fun t => t.2.answered (answer t.1) = x.answered (answer s₀)) rfl ?_
    rintro ⟨t, y⟩ act ⟨t', y'⟩ hy hallowed hstep
    cases act with
    | none =>
      cases y with
      | done _ => cases hstep
      | ask q k =>
        cases hstep
        exact hy
    | some w =>
      obtain ⟨t'', hwrite, heq⟩ := Option.map_eq_some_iff.mp (show (write t w).map (·, y) = some (t', y') by
        cases y <;> exact hstep)
      cases heq
      have huntouched : ∀ q ∈ y.asked (answer t), ¬touches t w q := by
        cases y <;> exact hallowed
      exact (answered_congr fun q hq => frame hwrite (huntouched q hq)).trans hy
  exact hkeep.symm

end
end Reads
