import Mathlib

/-! # Bounded breadth-first walks

A queue of nodes with their depths; the node at the head is expanded unless it is as deep as the bound, and the
nodes it adds go to the back. Whatever a walk sees is within the bound, and a walk that never passes a node over
sees everything that is. -/

namespace BreadthFirst
variable {α : Type} {next : α → Set α} {start : Set α} {bound d : ℕ}

/-- What is within `n` hops of `start`. -/
def ball (next : α → Set α) (start : Set α) : ℕ → Set α
  | 0 => start
  | n + 1 => ball next start n ∪ {y | ∃ x ∈ ball next start n, y ∈ next x}

theorem ball_subset_succ (n : ℕ) : ball next start n ⊆ ball next start (n + 1) := Set.subset_union_left

theorem ball_mono {m n : ℕ} (h : m ≤ n) : ball next start m ⊆ ball next start n := by
  induction h with
  | refl => exact subset_rfl
  | step _ ih => exact ih.trans (ball_subset_succ _)

theorem mem_ball_succ_of_next {n : ℕ} {x y : α} (hx : x ∈ ball next start n) (hy : y ∈ next x) :
    y ∈ ball next start (n + 1) := Or.inr ⟨x, hx, hy⟩

/-- A set that `next` does not leave contains every ball around its subsets. -/
theorem ball_subset_of_closed {s : Set α} (hstart : start ⊆ s) (closed : ∀ x ∈ s, next x ⊆ s) (n : ℕ) :
    ball next start n ⊆ s := by
  induction n with
  | zero => exact hstart
  | succ n ih =>
    rintro y (hy | ⟨x, hx, hy⟩)
    · exact ih hy
    · exact closed x (ih hx) hy

/-! ### Paths -/

/-- `y` is reached from `start` by at most `n` hops over nodes of `via`. -/
def ReachedWithin (hop : α → α → Prop) (start via : Set α) (n : ℕ) (y : α) : Prop :=
  ∃ x ∈ start, ∃ path : List α, path.length ≤ n ∧ (x :: path).IsChain hop ∧ (∀ z ∈ path, z ∈ via) ∧
    (x :: path).getLast (List.cons_ne_nil x path) = y

theorem mem_ball_of_chain {hop : α → α → Prop} {via : Set α} {path : List α} {x : α} {m : ℕ}
    (hx : x ∈ ball (fun a => {b | hop a b ∧ b ∈ via}) start m) (hchain : (x :: path).IsChain hop)
    (hvia : ∀ z ∈ path, z ∈ via) : (x :: path).getLast (List.cons_ne_nil x path) ∈
      ball (fun a => {b | hop a b ∧ b ∈ via}) start (m + path.length) := by
  induction path generalizing x m with
  | nil => exact hx
  | cons z path ih =>
    obtain ⟨hhop, hchain⟩ := List.isChain_cons_cons.mp hchain
    have hz : z ∈ ball (fun a => {b | hop a b ∧ b ∈ via}) start (m + 1) :=
      mem_ball_succ_of_next hx ⟨hhop, hvia z List.mem_cons_self⟩
    have hlast := ih hz hchain fun y hy => hvia y (List.mem_cons_of_mem _ hy)
    rw [List.getLast_cons (List.cons_ne_nil z path), List.length_cons, ← Nat.add_assoc, Nat.add_right_comm]
    exact hlast

/-- The ball of the hops into `via` is what paths over `via` reach. -/
theorem mem_ball_iff_reachedWithin {hop : α → α → Prop} {via : Set α} {n : ℕ} {y : α} :
    y ∈ ball (fun a => {b | hop a b ∧ b ∈ via}) start n ↔ ReachedWithin hop start via n y := by
  constructor
  · intro hy
    induction n generalizing y with
    | zero => exact ⟨y, hy, [], Nat.le_refl 0, List.isChain_singleton y, fun z hz => (List.not_mem_nil hz).elim, rfl⟩
    | succ n ih =>
      rcases hy with hy | ⟨x, hx, hhop, hvia⟩
      · obtain ⟨seed, hseed, path, hlen, hrest⟩ := ih hy
        exact ⟨seed, hseed, path, hlen.trans (Nat.le_succ n), hrest⟩
      · obtain ⟨seed, hseed, path, hlen, hchain, hpath, hlast⟩ := ih hx
        refine ⟨seed, hseed, path ++ [y], by simpa using hlen, ?_, ?_, by simp⟩
        · rw [← List.cons_append, List.isChain_append]
          refine ⟨hchain, List.isChain_singleton y, fun a ha b hb => ?_⟩
          rw [List.getLast?_eq_some_getLast (List.cons_ne_nil seed path), hlast] at ha
          cases ha
          cases hb
          exact hhop
        · exact List.forall_mem_append.mpr ⟨hpath, List.forall_mem_singleton.mpr hvia⟩
  · rintro ⟨x, hx, path, hlen, hchain, hvia, rfl⟩
    have hlast := mem_ball_of_chain (m := 0) hx hchain hvia
    rw [Nat.zero_add] at hlast
    exact ball_mono hlen hlast

/-! ### Walks -/

/-- The state of a walk: what it has seen, what it has expanded and what it still has to visit. -/
structure Walk (α : Type) where
  seen : Set α
  opened : Set α
  queue : List (α × ℕ)

/-- One visit. A node below the bound adds some of its neighbours that are not seen; the walk is thorough when it
adds them all. -/
inductive Visit (next : α → Set α) (bound : ℕ) (thorough : Prop) : Walk α → Walk α → Prop
  | deep {w : Walk α} {x : α} {k : ℕ} {q : List (α × ℕ)} : w.queue = (x, k) :: q → bound ≤ k →
      Visit next bound thorough w ⟨w.seen, w.opened, q⟩
  | expand {w : Walk α} {x : α} {k : ℕ} {q : List (α × ℕ)} {new : List α} : w.queue = (x, k) :: q → k < bound →
      (∀ y ∈ new, y ∈ next x ∧ y ∉ w.seen) → (thorough → ∀ y ∈ next x, y ∈ w.seen ∨ y ∈ new) →
      Visit next bound thorough w ⟨w.seen ∪ {y | y ∈ new}, insert x w.opened, q ++ new.map (·, k + 1)⟩

/-! ### What a walk sees -/

/-- Every node seen is within the bound, and every node queued at depth `k` within `k` hops. -/
structure Near (next : α → Set α) (start : Set α) (bound : ℕ) (w : Walk α) : Prop where
  seen : w.seen ⊆ ball next start bound
  queued : ∀ e ∈ w.queue, e.1 ∈ ball next start e.2

theorem Near.visit {thorough : Prop} {w w' : Walk α} (h : Near next start bound w)
    (hvisit : Visit next bound thorough w w') : Near next start bound w' := by
  cases hvisit with
  | deep hq hdeep => exact ⟨h.seen, fun e he => h.queued e (hq ▸ List.mem_cons_of_mem _ he)⟩
  | @expand x k q new hq hk hnew =>
    have hx : x ∈ ball next start k := h.queued (x, k) (hq ▸ List.mem_cons_self)
    have hball : ∀ y ∈ new, y ∈ ball next start (k + 1) := fun y hy => mem_ball_succ_of_next hx (hnew y hy).1
    refine ⟨?_, fun e he => ?_⟩
    · rintro y (hy | hy)
      · exact h.seen hy
      · exact ball_mono hk (hball y hy)
    · rcases List.mem_append.mp he with he | he
      · exact h.queued e (hq ▸ List.mem_cons_of_mem _ he)
      · obtain ⟨y, hy, rfl⟩ := List.mem_map.mp he
        exact hball y hy

/-! ### What a thorough walk sees -/

/-- The walk at level `d`, with `now` left to visit on this level and `later` found for the next one: everything
within `d` hops is seen, what is closer is expanded, and so is what is not queued. -/
structure Level (next : α → Set α) (start : Set α) (bound d : ℕ) (now later : List α) (seen opened : Set α) : Prop where
  within : d ≤ bound
  last : d = bound → later = []
  covers : ball next start d ⊆ seen
  near : seen ⊆ ball next start (min (d + 1) bound)
  now_near : ∀ x ∈ now, x ∈ ball next start d
  later_new : ∀ x ∈ later, x ∈ seen ∧ x ∉ ball next start d
  closer : ∀ n < d, ball next start n ⊆ opened
  expanded : d < bound → ∀ x ∈ seen, x ∈ now ∨ x ∈ later ∨ x ∈ opened ∧ next x ⊆ seen

/-- With nothing left on a level, its nodes are expanded. -/
theorem Level.finished {later : List α} {seen opened : Set α} (h : Level next start bound d [] later seen opened)
    (hd : d < bound) {x : α} (hx : x ∈ ball next start d) : x ∈ opened ∧ next x ⊆ seen := by
  rcases h.expanded hd x (h.covers hx) with hnow | hlater | hopened
  · exact absurd hnow List.not_mem_nil
  · exact absurd hx (h.later_new x hlater).2
  · exact hopened

/-- With nothing left on a level, the walk is at the next one. -/
theorem Level.up {later : List α} {seen opened : Set α} (h : Level next start bound d [] later seen opened)
    (hd : d < bound) : Level next start bound (d + 1) later [] seen opened where
  within := hd
  last _ := rfl
  covers := by
    rintro y (hy | ⟨x, hx, hy⟩)
    · exact h.covers hy
    · exact (h.finished hd hx).2 hy
  near := h.near.trans (ball_mono (by omega))
  now_near x hx := ball_mono (Nat.min_le_left _ _) (h.near (h.later_new x hx).1)
  later_new x hx := absurd hx List.not_mem_nil
  closer n hn x hx := by
    rcases Nat.lt_succ_iff_lt_or_eq.mp hn with hn | rfl
    · exact h.closer n hn hx
    · exact (h.finished hd hx).1
  expanded _ x hx := by
    rcases h.expanded hd x hx with hnow | hlater | hsub
    · exact absurd hnow List.not_mem_nil
    · exact Or.inl hlater
    · exact Or.inr (Or.inr hsub)

/-- A node of the last level adds nothing. -/
theorem Level.skip {x : α} {now later : List α} {seen opened : Set α}
    (h : Level next start bound d (x :: now) later seen opened) (hd : bound ≤ d) :
    Level next start bound d now later seen opened where
  within := h.within
  last := h.last
  covers := h.covers
  near := h.near
  now_near y hy := h.now_near y (List.mem_cons_of_mem _ hy)
  later_new := h.later_new
  closer := h.closer
  expanded hlt := absurd hlt (Nat.not_lt.mpr hd)

/-- A node below the last level adds its neighbours to the next one. -/
theorem Level.expand {x : α} {now later new : List α} {seen opened : Set α}
    (h : Level next start bound d (x :: now) later seen opened) (hd : d < bound)
    (hnew : ∀ y ∈ new, y ∈ next x ∧ y ∉ seen) (hall : ∀ y ∈ next x, y ∈ seen ∨ y ∈ new) :
    Level next start bound d now (later ++ new) (seen ∪ {y | y ∈ new}) (insert x opened) where
  within := h.within
  last heq := absurd hd (heq ▸ lt_irrefl _)
  covers := h.covers.trans Set.subset_union_left
  near := by
    rintro y (hy | hy)
    · exact h.near hy
    · rw [Nat.min_eq_left hd]
      exact mem_ball_succ_of_next (h.now_near x List.mem_cons_self) (hnew y hy).1
  now_near y hy := h.now_near y (List.mem_cons_of_mem _ hy)
  later_new y hy := by
    rcases List.mem_append.mp hy with hy | hy
    · exact ⟨Or.inl (h.later_new y hy).1, (h.later_new y hy).2⟩
    · exact ⟨Or.inr hy, fun hball => (hnew y hy).2 (h.covers hball)⟩
  closer n hn y hy := Set.mem_insert_of_mem x (h.closer n hn hy)
  expanded _ y hy := by
    rcases hy with hy | hy
    · rcases h.expanded hd y hy with hnow | hlater | hopened
      · rcases List.mem_cons.mp hnow with rfl | hnow
        · exact Or.inr (Or.inr ⟨Set.mem_insert _ _, hall⟩)
        · exact Or.inl hnow
      · exact Or.inr (Or.inl (List.mem_append_left _ hlater))
      · exact Or.inr (Or.inr ⟨Set.mem_insert_of_mem x hopened.1, hopened.2.trans Set.subset_union_left⟩)
    · exact Or.inr (Or.inl (List.mem_append_right _ hy))

/-- The walk is at some level. -/
def OnLevel (next : α → Set α) (start : Set α) (bound : ℕ) (w : Walk α) : Prop :=
  ∃ d now later, w.queue = now.map (·, d) ++ later.map (·, d + 1) ∧ Level next start bound d now later w.seen w.opened

theorem OnLevel.visit {w w' : Walk α} (h : OnLevel next start bound w) (hvisit : Visit next bound True w w') :
    OnLevel next start bound w' := by
  obtain ⟨d, now, later, hqueue, hlevel⟩ := h
  -- Where the level is done, the walk goes on at the next one.
  obtain ⟨d, x, now, later, hqueue, hlevel⟩ : ∃ d x now later, w.queue = (x, d) :: (now.map (·, d) ++ later.map (·, d + 1)) ∧
      Level next start bound d (x :: now) later w.seen w.opened := by
    cases now with
    | cons x now => exact ⟨d, x, now, later, hqueue, hlevel⟩
    | nil =>
      cases later with
      | nil => cases hvisit <;> simp_all
      | cons x later =>
        have hd : d < bound := lt_of_le_of_ne hlevel.within fun heq => by simpa using hlevel.last heq
        exact ⟨d + 1, x, later, [], by simpa using hqueue, hlevel.up hd⟩
  cases hvisit with
  | deep hq hdeep =>
    rw [hqueue] at hq
    cases hq
    exact ⟨d, now, later, rfl, hlevel.skip hdeep⟩
  | @expand y k q new hq hk hnew hall =>
    rw [hqueue] at hq
    cases hq
    exact ⟨d, now, later ++ new, by simp, hlevel.expand hk hnew (hall trivial)⟩

theorem OnLevel.initial {nodes : List α} : OnLevel next {x | x ∈ nodes} bound ⟨{x | x ∈ nodes}, ∅, nodes.map (·, 0)⟩ :=
  ⟨0, nodes, [], by simp, {
    within := Nat.zero_le _
    last := fun _ => rfl
    covers := subset_rfl
    near := ball_mono (Nat.zero_le _)
    now_near := fun _ hx => hx
    later_new := fun _ hx => absurd hx List.not_mem_nil
    closer := fun n hn => absurd hn (Nat.not_lt_zero n)
    expanded := fun _ _ hx => Or.inl hx }⟩

/-- A thorough walk that is done has seen what is within the bound and expanded what is closer. -/
theorem OnLevel.done {w : Walk α} (h : OnLevel next start bound w) (hdone : w.queue = []) :
    w.seen = ball next start bound ∧ ∀ n < bound, ball next start n ⊆ w.opened := by
  obtain ⟨d, now, later, hqueue, hlevel⟩ := h
  obtain ⟨rfl, rfl⟩ : now = [] ∧ later = [] := by simpa [hdone] using hqueue
  rcases Nat.lt_or_ge d bound with hd | hd
  · have hopened : ∀ x ∈ w.seen, x ∈ w.opened ∧ next x ⊆ w.seen := by
      intro x hx
      rcases hlevel.expanded hd x hx with hnow | hlater | hopened
      · exact absurd hnow List.not_mem_nil
      · exact absurd hlater List.not_mem_nil
      · exact hopened
    have hball : ∀ n, ball next start n ⊆ w.seen :=
      ball_subset_of_closed ((ball_mono (Nat.zero_le d)).trans hlevel.covers) fun x hx => (hopened x hx).2
    exact ⟨Set.Subset.antisymm (hlevel.near.trans (ball_mono (Nat.min_le_right _ _))) (hball bound),
      fun n _ x hx => (hopened x (hball n hx)).1⟩
  · obtain rfl : d = bound := le_antisymm hlevel.within hd
    exact ⟨Set.Subset.antisymm (hlevel.near.trans (ball_mono (Nat.min_le_right _ _))) hlevel.covers, hlevel.closer⟩

end BreadthFirst
