import Llm386.Lib.BreadthFirst
import Llm386.Pager.Passes

/-! # The expansion walk

The expansion pass is a bounded breadth-first walk over the dependencies of stored blocks. It empties its queue
within its fuel, it selects only blocks within the depth of the policy, and when it refuses no block it selects all
of them, in whatever order the edge kinds are iterated. -/

namespace Llm386.GreedyPager
open PageState BreadthFirst

variable {p : GreedyPager} {budget : TokenCount} {order : HashOrder} {depth : Nat}

/-! ### Dependencies -/

/-- The kinds are iterated in some order, so the targets come in some order. -/
theorem collectOutgoing_perm (policy : EdgePolicy) {f g : List EdgeKind → List EdgeKind} (hf : ∀ l, (f l).Perm l)
    (hg : ∀ l, (g l).Perm l) (edges : List Edge) :
    (collectOutgoing policy f edges).Perm (collectOutgoing policy g edges) :=
  ((hf _).trans (hg _).symm).flatMap_right _

theorem dependencies_perm (order' : HashOrder) (reads' : Nat) {reads : Nat} {block : ContextBlock} {id : BlockId} {deps : List BlockId}
    (h : p.dependencies order reads block id = .ok deps) :
    ∃ deps', p.dependencies order' reads' block id = .ok deps' ∧ deps.Perm deps' := by
  obtain ⟨out, hout, h⟩ := Loop.bind_eq_ok.mp h
  have hperm := collectOutgoing_perm p.scoring.edgePolicy (order.kinds_perm reads) (order'.kinds_perm reads') out
  simp only [dependencies, hout, Loop.ok_bind]
  split at h
  · rename_i hchildren
    obtain ⟨inEdges, hin, h⟩ := Loop.bind_eq_ok.mp h
    cases h
    rw [if_pos hchildren, hin]
    exact ⟨_, rfl, (hperm.append_left _).append_right _⟩
  · rename_i hchildren
    cases h
    rw [if_neg hchildren]
    exact ⟨_, rfl, hperm.append_left _⟩

/-- The stored blocks that the stored block `a` depends on under the policy. -/
def pulls (p : GreedyPager) (a : BlockId) : Set BlockId :=
  {b | (∃ n, p.Costs b n) ∧ ∃ block deps, p.getBlock a = .ok (some block) ∧
    p.dependencies .canonical 0 block a = .ok deps ∧ b ∈ deps}

/-! ### One block -/

/-- What the dependencies of one block add to the walk. -/
structure Pulled (p : GreedyPager) (depth : Nat) (deps new : List BlockId) (st st' : ExpandState) : Prop where
  selected : st'.selected = st.selected ++ new
  frontier : st'.frontier = st.frontier ++ new.map (·, depth + 1)
  visited : ∀ id, id ∈ st'.visited ↔ id ∈ st.visited ∨ id ∈ deps
  fresh : ∀ id ∈ new, id ∈ deps ∧ id ∉ st.visited ∧ ∃ n, p.Costs id n
  nodup : new.Nodup

theorem Pulled.refl (st : ExpandState) : Pulled p depth [] [] st st :=
  ⟨by simp, by simp, by simp, by simp, List.nodup_nil⟩

/-- A dependency that is stored and not seen yet does not fit. -/
def Refuses (p : GreedyPager) (budget : TokenCount) (st : ExpandState) (depId : BlockId) : Prop :=
  depId ∉ st.visited ∧ ∃ n, p.Costs depId n ∧ ¬st.Fits budget n

/-- No dependency of one block is refused. -/
def RoomyBlock (p : GreedyPager) (budget : TokenCount) (depth : Nat) (st : ExpandState) (deps : List BlockId) : Prop :=
  ∀ x ∈ Loop.visited (p.pullDep budget depth) st deps, ¬p.Refuses budget x.1 x.2

theorem Costs.not_missing {id : BlockId} {n : TokenCount} (h : p.Costs id n) : p.getBlock id ≠ .ok none := by
  obtain ⟨b, hb, -⟩ := h
  simp [hb]

/-- The dependencies of one block add new stored blocks. When none is refused, each dependency is seen before,
missing or added. -/
theorem pullDeps_inv {deps : List BlockId} {st st' : ExpandState}
    (h : deps.foldlM (p.pullDep budget depth) st = .ok st') : ∃ new, Pulled p depth deps new st st' ∧
      (p.RoomyBlock budget depth st deps → ∀ id ∈ deps,
        id ∈ st.visited ∨ p.getBlock id = .ok none ∨ (∃ n, p.Costs id n) ∧ id ∈ new) := by
  induction deps generalizing st with
  | nil =>
    cases h
    exact ⟨[], .refl _, by simp⟩
  | cons dep deps ih =>
    obtain ⟨u, hu, hrest⟩ := Loop.foldlM_cons_eq_ok.mp h
    obtain ⟨new, hpulled, hall⟩ := ih hrest
    simp only [RoomyBlock, Loop.visited_cons_of_ok hu, List.forall_mem_cons]
    rcases pullDep_inv hu with ⟨hseen, rfl⟩ | ⟨hnew, ⟨hleft, rfl⟩ | ⟨n, hcost, hfits, rfl⟩⟩
    · refine ⟨new, ⟨hpulled.selected, hpulled.frontier, fun id => ?_, fun id hid => ?_, hpulled.nodup⟩,
        fun hroom => ⟨Or.inl hseen, hall hroom.2⟩⟩
      · rw [hpulled.visited id, List.mem_cons]
        by_cases heq : id = dep <;> simp [heq, hseen]
      · obtain ⟨hdep, hfresh⟩ := hpulled.fresh id hid
        exact ⟨List.mem_cons_of_mem _ hdep, hfresh⟩
    · have hmissing : ¬p.Refuses budget st dep → p.getBlock dep = .ok none := fun hroom =>
        hleft.resolve_right fun hrefused => hroom ⟨hnew, hrefused⟩
      refine ⟨new, ⟨hpulled.selected, hpulled.frontier, fun id => ?_, fun id hid => ?_, hpulled.nodup⟩,
        fun hroom => ⟨Or.inr (Or.inl (hmissing hroom.1)), fun id hid => ?_⟩⟩
      · rw [hpulled.visited id, List.mem_cons, List.mem_cons]
        tauto
      · obtain ⟨hdep, hfresh, hn⟩ := hpulled.fresh id hid
        exact ⟨List.mem_cons_of_mem _ hdep, fun hseen => hfresh (List.mem_cons_of_mem _ hseen), hn⟩
      · rcases hall hroom.2 id hid with hseen | hrest
        · rcases List.mem_cons.mp hseen with rfl | hseen
          · exact Or.inr (Or.inl (hmissing hroom.1))
          · exact Or.inl hseen
        · exact Or.inr hrest
    · refine ⟨dep :: new, ⟨?_, ?_, fun id => ?_, ?_, ?_⟩,
        fun hroom => ⟨Or.inr (Or.inr ⟨⟨n, hcost⟩, List.mem_cons_self⟩), fun id hid => ?_⟩⟩
      · simp [hpulled.selected, PageState.push]
      · simp [hpulled.frontier]
      · rw [hpulled.visited id, List.mem_cons, List.mem_cons]
        tauto
      · intro id hid
        rcases List.mem_cons.mp hid with rfl | hid
        · exact ⟨List.mem_cons_self, hnew, n, hcost⟩
        · obtain ⟨hdep, hfresh, hn⟩ := hpulled.fresh id hid
          exact ⟨List.mem_cons_of_mem _ hdep, fun hseen => hfresh (List.mem_cons_of_mem _ hseen), hn⟩
      · exact List.nodup_cons.mpr ⟨fun hmem => (hpulled.fresh dep hmem).2.1 List.mem_cons_self, hpulled.nodup⟩
      · rcases hall hroom.2 id hid with hseen | hnone | ⟨hn, hid⟩
        · rcases List.mem_cons.mp hseen with rfl | hseen
          · exact Or.inr (Or.inr ⟨⟨n, hcost⟩, List.mem_cons_self⟩)
          · exact Or.inl hseen
        · exact Or.inr (Or.inl hnone)
        · exact Or.inr (Or.inr ⟨hn, List.mem_cons_of_mem _ hid⟩)

theorem expandBlock_pulled {st st' : ExpandState} {entry : BlockId × Nat}
    (h : p.expandBlock order budget st entry = .ok st') : ∃ deps new, Pulled p entry.2 deps new st st' := by
  rcases expandBlock_inv h with ⟨-, rfl⟩ | ⟨block, deps, -, -, -, hpull⟩
  · exact ⟨[], [], .refl _⟩
  · obtain ⟨new, hpulled, -⟩ := pullDeps_inv hpull
    exact ⟨deps, new, { hpulled with }⟩

/-! ### The walk -/

/-- What the walk has selected and expanded and still has to visit. -/
def walkOf (opened : Set BlockId) (st : ExpandState) : Walk BlockId := ⟨{id | id ∈ st.selected}, opened, st.frontier⟩

/-- The block and its dependencies can be read. -/
def Readable (p : GreedyPager) (id : BlockId) : Prop :=
  p.getBlock id = .ok none ∨ ∃ block deps, p.getBlock id = .ok (some block) ∧
    p.dependencies .canonical 0 block id = .ok deps ∧ ∀ dep ∈ deps, p.getBlock dep = .ok none ∨ ∃ n, p.Costs dep n

/-- No dependency of the block at the head of the queue is refused. -/
def RoomyVisit (p : GreedyPager) (order : HashOrder) (budget : TokenCount) (st : ExpandState)
    (entry : BlockId × Nat) : Prop :=
  ∀ block deps, p.getBlock entry.1 = .ok (some block) → entry.2 < p.scoring.edgePolicy.effectiveDepth →
    p.dependencies order st.reads block entry.1 = .ok deps →
    p.RoomyBlock budget entry.2 { st with reads := st.reads + 1 } deps

/-- What is selected is visited; what is visited is missing or selected, as long as nothing is refused. -/
structure Settled (p : GreedyPager) (roomy : Prop) (st : ExpandState) : Prop where
  seen : ∀ id ∈ st.selected, id ∈ st.visited
  settled : roomy → ∀ id ∈ st.visited, p.getBlock id = .ok none ∨ (∃ n, p.Costs id n) ∧ id ∈ st.selected

theorem Settled.pulled {roomy : Prop} {st st' : ExpandState} {deps new : List BlockId} (h : Settled p roomy st)
    (hpulled : Pulled p depth deps new st st')
    (hall : roomy → ∀ id ∈ deps, id ∈ st.visited ∨ p.getBlock id = .ok none ∨ (∃ n, p.Costs id n) ∧ id ∈ new) :
    Settled p roomy st' where
  seen id hid := by
    rw [hpulled.selected, List.mem_append] at hid
    rw [hpulled.visited]
    rcases hid with hid | hid
    · exact Or.inl (h.seen id hid)
    · exact Or.inr (hpulled.fresh id hid).1
  settled hroomy id hid := by
    have hold : id ∈ st.visited → p.getBlock id = .ok none ∨ (∃ n, p.Costs id n) ∧ id ∈ st'.selected := fun hseen =>
      (h.settled hroomy id hseen).imp_right fun hsel => ⟨hsel.1, hpulled.selected ▸ List.mem_append_left _ hsel.2⟩
    rcases (hpulled.visited id).mp hid with hid | hid
    · exact hold hid
    · rcases hall hroomy id hid with hseen | hnone | ⟨hn, hnew⟩
      · exact hold hseen
      · exact Or.inl hnone
      · exact Or.inr ⟨hn, hpulled.selected ▸ List.mem_append_right _ hnew⟩

/-- One pass of the walk visits the block at the head of the queue. When nothing is refused the visit is thorough,
and the block it expands can be read. -/
theorem expandBlock_visit {roomy : Prop} {st st' : ExpandState} {entry : BlockId × Nat} {rest : List (BlockId × Nat)}
    {opened : Set BlockId} (hqueue : st.frontier = entry :: rest) (h : Settled p roomy st)
    (hroomy : roomy → p.RoomyVisit order budget { st with frontier := rest } entry)
    (hstep : p.expandBlock order budget { st with frontier := rest } entry = .ok st') :
    Settled p roomy st' ∧ ∃ opened',
      Visit p.pulls p.scoring.edgePolicy.effectiveDepth roomy (walkOf opened st) (walkOf opened' st') ∧
      (roomy → ∀ id ∈ opened', id ∈ opened ∨ p.Readable id) := by
  obtain ⟨id, k⟩ := entry
  rcases expandBlock_inv hstep with ⟨hstop, rfl⟩ | ⟨block, deps, hget, hdepth, hdeps, hpull⟩
  · refine ⟨⟨h.seen, h.settled⟩, ?_⟩
    by_cases hdeep : p.scoring.edgePolicy.effectiveDepth ≤ k
    · exact ⟨opened, .deep (w := walkOf opened st) hqueue hdeep, fun _ _ => Or.inl⟩
    · -- A block that is gone depends on nothing.
      have hgone := hstop.resolve_left hdeep
      have hnone : p.pulls id = ∅ := by
        refine Set.eq_empty_of_forall_notMem fun y hy => ?_
        obtain ⟨-, block, deps, hget, -⟩ := hy
        simp [hgone] at hget
      refine ⟨insert id opened, ?_, fun _ x hx => ?_⟩
      · simpa [walkOf] using @Visit.expand _ p.pulls _ roomy (walkOf opened st) id k rest [] hqueue
          (Nat.lt_of_not_le hdeep) (by simp) (by simp [hnone])
      · rcases hx with rfl | hx
        · exact Or.inr (Or.inl hgone)
        · exact Or.inl hx
  · obtain ⟨new, hpulled, hall⟩ := pullDeps_inv hpull
    have hall' := fun hr => hall (hroomy hr block deps hget hdepth hdeps)
    obtain ⟨deps', hdeps', hperm⟩ := dependencies_perm .canonical 0 hdeps
    have hpulls : ∀ y, y ∈ p.pulls id ↔ (∃ n, p.Costs y n) ∧ y ∈ deps := by
      intro y
      rw [hperm.mem_iff]
      constructor
      · rintro ⟨hn, block', deps'', hget', hdeps'', hy⟩
        rw [hget] at hget'
        cases hget'
        rw [hdeps'] at hdeps''
        cases hdeps''
        exact ⟨hn, hy⟩
      · exact fun hy => ⟨hy.1, block, deps', hget, hdeps', hy.2⟩
    have hsettled := (⟨h.seen, h.settled⟩ : Settled p roomy
      { st with frontier := rest, reads := st.reads + 1 }).pulled hpulled hall'
    have hwalk : walkOf (insert id opened) st' =
        ⟨(walkOf opened st).seen ∪ {y | y ∈ new}, insert id opened, rest ++ new.map (·, k + 1)⟩ := by
      rw [walkOf, hpulled.selected, hpulled.frontier]
      congr 1
      ext y
      simp [walkOf]
    refine ⟨hsettled, insert id opened, ?_, fun hr x hx => ?_⟩
    · rw [hwalk]
      refine .expand (w := walkOf opened st) hqueue hdepth (fun y hy => ?_) (fun hr y hy => ?_)
      · obtain ⟨hdep, hfresh, hn⟩ := hpulled.fresh y hy
        exact ⟨(hpulls y).mpr ⟨hn, hdep⟩, fun hsel => hfresh (h.seen y hsel)⟩
      · obtain ⟨⟨n, hn⟩, hdep⟩ := (hpulls y).mp hy
        rcases hall' hr y hdep with hseen | hnone | ⟨-, hnew⟩
        · rcases h.settled hr y hseen with hnone | ⟨-, hsel⟩
          · exact absurd hnone hn.not_missing
          · exact Or.inl hsel
        · exact absurd hnone hn.not_missing
        · exact Or.inr hnew
    · rcases hx with rfl | hx
      · refine Or.inr (Or.inr ⟨block, deps', hget, hdeps', fun dep hdep => ?_⟩)
        rcases hall' hr dep (hperm.mem_iff.mpr hdep) with hseen | hnone | ⟨hn, -⟩
        · exact (h.settled hr dep hseen).imp_right And.left
        · exact Or.inl hnone
        · exact Or.inr hn
      · exact Or.inl hx

/-- `Q` holds at each pass of the walk. -/
def WalkAll (p : GreedyPager) (order : HashOrder) (budget : TokenCount) (Q : ExpandState → BlockId × Nat → Prop) :
    Nat → ExpandState → Prop
  | 0, _ => True
  | fuel + 1, st => ∀ entry rest, st.frontier = entry :: rest → Q { st with frontier := rest } entry ∧
      ∀ st', p.expandBlock order budget { st with frontier := rest } entry = .ok st' →
        WalkAll p order budget Q fuel st'

/-- The blocks visited at most once each bound the walk. -/
def stepsLeft (st : ExpandState) : Nat := st.frontier.length + (2 ^ 128 - st.visited.toFinset.card)

theorem card_ids_le (ids : Finset BlockId) : ids.card ≤ 2 ^ 128 := by
  have hinj : Set.InjOn (fun id : BlockId => id.raw.val) ids := fun a _ b _ h =>
    BlockId.raw_injective (U128.val_injective h)
  have hle := Finset.card_le_card_of_injOn (t := Finset.range (2 ^ 128)) (fun id : BlockId => id.raw.val)
    (fun id _ => Finset.mem_range.mpr id.raw.isLt) hinj
  rwa [Finset.card_range] at hle

theorem Pulled.stepsLeft_le {deps new : List BlockId} {st st' : ExpandState} (h : Pulled p depth deps new st st') :
    stepsLeft st' ≤ stepsLeft st := by
  have hsub : st.visited.toFinset ∪ new.toFinset ⊆ st'.visited.toFinset := by
    intro id hid
    simp only [Finset.mem_union, List.mem_toFinset] at hid ⊢
    exact (h.visited id).mpr (hid.imp_right fun hnew => (h.fresh id hnew).1)
  have hdisjoint : Disjoint st.visited.toFinset new.toFinset := by
    refine Finset.disjoint_right.mpr fun id hid hseen => ?_
    exact (h.fresh id (List.mem_toFinset.mp hid)).2.1 (List.mem_toFinset.mp hseen)
  have hcard := Finset.card_le_card hsub
  rw [Finset.card_union_of_disjoint hdisjoint, List.toFinset_card_of_nodup h.nodup] at hcard
  have hbound := card_ids_le st'.visited.toFinset
  simp only [stepsLeft, h.frontier, List.length_append, List.length_map]
  omega

/-- Each pass shortens what is left of the walk. -/
theorem expandBlock_stepsLeft {st st' : ExpandState} {entry : BlockId × Nat} {rest : List (BlockId × Nat)}
    (hqueue : st.frontier = entry :: rest)
    (hstep : p.expandBlock order budget { st with frontier := rest } entry = .ok st') :
    stepsLeft st' < stepsLeft st := by
  have hpop : stepsLeft { st with frontier := rest } < stepsLeft st := by
    simp [stepsLeft, hqueue]
  obtain ⟨deps, new, hpulled⟩ := expandBlock_pulled hstep
  exact hpulled.stepsLeft_le.trans_lt hpop

/-- The walk ends with nothing left in its queue. -/
theorem expandLoop_drains {fuel : Nat} {st st' : ExpandState} (hfuel : stepsLeft st ≤ fuel)
    (h : p.expandLoop order budget fuel st = .ok st') : st'.frontier = [] := by
  induction fuel generalizing st with
  | zero =>
    have hlen : st.frontier.length = 0 := by
      unfold stepsLeft at hfuel
      omega
    cases h
    exact List.length_eq_zero_iff.mp hlen
  | succ fuel ih =>
    rw [GreedyPager.expandLoop] at h
    split at h
    · cases h
      assumption
    · rename_i entry rest hqueue
      obtain ⟨st₁, hstep, h⟩ := Loop.bind_eq_ok.mp h
      have hless := expandBlock_stepsLeft hqueue hstep
      exact ih (by omega) h

/-- The walk selects only blocks within the depth. -/
theorem expandLoop_near {start : Set BlockId} {fuel : Nat} {st st' : ExpandState} {opened : Set BlockId}
    (h : Settled p False st) (hnear : Near p.pulls start p.scoring.edgePolicy.effectiveDepth (walkOf opened st))
    (hrun : p.expandLoop order budget fuel st = .ok st') :
    ∃ opened', Near p.pulls start p.scoring.edgePolicy.effectiveDepth (walkOf opened' st') := by
  induction fuel generalizing st opened with
  | zero =>
    cases hrun
    exact ⟨opened, hnear⟩
  | succ fuel ih =>
    rw [GreedyPager.expandLoop] at hrun
    split at hrun
    · cases hrun
      exact ⟨opened, hnear⟩
    · rename_i entry rest hqueue
      obtain ⟨st₁, hstep, hrun⟩ := Loop.bind_eq_ok.mp hrun
      obtain ⟨hsettled, opened', hvisit, -⟩ := expandBlock_visit hqueue h False.elim hstep
      exact ih hsettled (hnear.visit hvisit) hrun

/-- A walk that refuses nothing is thorough, and what it expands can be read. -/
theorem expandLoop_thorough {start : Set BlockId} {fuel : Nat} {st st' : ExpandState} {opened : Set BlockId}
    (h : Settled p True st) (hlevel : OnLevel p.pulls start p.scoring.edgePolicy.effectiveDepth (walkOf opened st))
    (hopened : ∀ id ∈ opened, p.Readable id)
    (hroomy : p.WalkAll order budget (p.RoomyVisit order budget) fuel st)
    (hrun : p.expandLoop order budget fuel st = .ok st') : ∃ opened',
      OnLevel p.pulls start p.scoring.edgePolicy.effectiveDepth (walkOf opened' st') ∧
      ∀ id ∈ opened', p.Readable id := by
  induction fuel generalizing st opened with
  | zero =>
    cases hrun
    exact ⟨opened, hlevel, hopened⟩
  | succ fuel ih =>
    rw [GreedyPager.expandLoop] at hrun
    split at hrun
    · cases hrun
      exact ⟨opened, hlevel, hopened⟩
    · rename_i entry rest hqueue
      obtain ⟨st₁, hstep, hrun⟩ := Loop.bind_eq_ok.mp hrun
      obtain ⟨hsettled, opened', hvisit, hopened'⟩ :=
        expandBlock_visit hqueue h (fun _ => (hroomy entry rest hqueue).1) hstep
      exact ih hsettled (hlevel.visit hvisit) (fun id hid => (hopened' trivial id hid).elim (hopened id) fun hr => hr)
        ((hroomy entry rest hqueue).2 _ hstep) hrun

/-- The walk only appends to the selection: each block once, and none that is selected. -/
theorem expandLoop_appends {fuel : Nat} {st st' : ExpandState} (h : ∀ id ∈ st.selected, id ∈ st.visited)
    (hrun : p.expandLoop order budget fuel st = .ok st') :
    ∃ new, st'.selected = st.selected ++ new ∧ new.Nodup ∧ ∀ id ∈ new, id ∉ st.selected := by
  induction fuel generalizing st with
  | zero =>
    cases hrun
    exact ⟨[], by simp⟩
  | succ fuel ih =>
    rw [GreedyPager.expandLoop] at hrun
    split at hrun
    · cases hrun
      exact ⟨[], by simp⟩
    · rename_i entry rest hqueue
      obtain ⟨st₁, hstep, hrun⟩ := Loop.bind_eq_ok.mp hrun
      obtain ⟨deps, new, hpulled⟩ := expandBlock_pulled hstep
      have hold : ∀ id ∈ new, id ∉ st.selected := fun id hid hsel => (hpulled.fresh id hid).2.1 (h id hsel)
      have hsettled := (⟨h, False.elim⟩ : Settled p False { st with frontier := rest }).pulled hpulled False.elim
      obtain ⟨later, hlater, hnodup, hfresh⟩ := ih hsettled.seen hrun
      rw [hpulled.selected] at hlater hfresh
      refine ⟨new ++ later, by rw [hlater, List.append_assoc], List.nodup_append.mpr ⟨hpulled.nodup, hnodup, ?_⟩, ?_⟩
      · rintro id hid _ hid' rfl
        exact hfresh id hid' (List.mem_append_right _ hid)
      · intro id hid
        rcases List.mem_append.mp hid with hid | hid
        · exact hold id hid
        · exact fun hsel => hfresh id hid (List.mem_append_left _ hsel)

/-! ### The pass -/

/-- The walk starts with the selection, all of it visited and queued. -/
def expandStart (st : PageState) : ExpandState :=
  { st with visited := st.selected, frontier := st.selected.map fun id => (id, 0), reads := 0 }

theorem expandEdges_cases {st st' : PageState} (h : p.expandEdges order budget st = .ok st') :
    p.scoring.edgePolicy.effectiveDepth = 0 ∧ st' = st ∨ p.scoring.edgePolicy.effectiveDepth ≠ 0 ∧ ∃ done,
      p.expandLoop order budget (expandFuel st) (expandStart st) = .ok done ∧ st' = done.toPageState := by
  unfold GreedyPager.expandEdges at h
  split at h
  · rename_i hdepth
    cases h
    exact Or.inl ⟨hdepth, rfl⟩
  · rename_i hdepth
    obtain ⟨done, hdone, h⟩ := Loop.bind_eq_ok.mp h
    cases h
    exact Or.inr ⟨hdepth, done, hdone, rfl⟩

/-- The pass appends blocks within the depth of the policy, each once and none that is selected. -/
theorem expandEdges_inv {st st' : PageState} (h : p.expandEdges order budget st = .ok st') :
    ∃ new, st'.selected = st.selected ++ new ∧ new.Nodup ∧ (∀ id ∈ new, id ∉ st.selected) ∧
      ∀ id ∈ st'.selected, id ∈ ball p.pulls {id | id ∈ st.selected} p.scoring.edgePolicy.effectiveDepth := by
  rcases expandEdges_cases h with ⟨hdepth, rfl⟩ | ⟨-, done, hdone, rfl⟩
  · rw [hdepth]
    exact ⟨[], by simp, List.nodup_nil, by simp, fun _ hid => hid⟩
  · have hseen : ∀ id ∈ (expandStart st).selected, id ∈ (expandStart st).visited := fun _ hid => hid
    obtain ⟨new, hnew, hnodup, hfresh⟩ := expandLoop_appends hseen hdone
    have hstart : Near p.pulls {id | id ∈ st.selected} p.scoring.edgePolicy.effectiveDepth (walkOf ∅ (expandStart st)) := by
      refine ⟨ball_mono (Nat.zero_le _), fun e he => ?_⟩
      obtain ⟨id, hid, rfl⟩ := List.mem_map.mp he
      exact hid
    obtain ⟨opened, hnear⟩ := expandLoop_near ⟨hseen, False.elim⟩ hstart hdone
    exact ⟨new, hnew, hnodup, hfresh, fun id hid => hnear.seen hid⟩

/-- The pass refuses no block. -/
def RoomyExpansion (p : GreedyPager) (order : HashOrder) (budget : TokenCount) (st : PageState) : Prop :=
  p.scoring.edgePolicy.effectiveDepth ≠ 0 →
    p.WalkAll order budget (p.RoomyVisit order budget) (expandFuel st) (expandStart st)

/-- A pass that refuses nothing selects all blocks within the depth, and all that are closer can be read. -/
theorem expandEdges_roomy {st st' : PageState} (hcosts : ∀ id ∈ st.selected, ∃ n, p.Costs id n)
    (hroomy : p.RoomyExpansion order budget st) (h : p.expandEdges order budget st = .ok st') :
    (∀ id, id ∈ st'.selected ↔ id ∈ ball p.pulls {id | id ∈ st.selected} p.scoring.edgePolicy.effectiveDepth) ∧
      ∀ n < p.scoring.edgePolicy.effectiveDepth, ∀ id ∈ ball p.pulls {id | id ∈ st.selected} n, p.Readable id := by
  rcases expandEdges_cases h with ⟨hdepth, rfl⟩ | ⟨hdepth, done, hdone, rfl⟩
  · rw [hdepth]
    exact ⟨fun _ => Iff.rfl, fun n hn => absurd hn (Nat.not_lt_zero n)⟩
  · have hsettled : Settled p True (expandStart st) :=
      ⟨fun _ hid => hid, fun _ id hid => Or.inr ⟨hcosts id hid, hid⟩⟩
    have hstart : OnLevel p.pulls {id | id ∈ st.selected} p.scoring.edgePolicy.effectiveDepth
      (walkOf ∅ (expandStart st)) := OnLevel.initial
    obtain ⟨opened, hlevel, hreadable⟩ :=
      expandLoop_thorough hsettled hstart (fun _ hid => hid.elim) (hroomy hdepth) hdone
    have hdrained : done.frontier = [] := by
      refine expandLoop_drains ?_ hdone
      simp only [stepsLeft, expandStart, expandFuel, List.length_map]
      omega
    obtain ⟨hall, hopened⟩ := hlevel.done hdrained
    exact ⟨fun id => Set.ext_iff.mp hall id, fun n hn id hid => hreadable id (hopened n hn hid)⟩

end Llm386.GreedyPager
