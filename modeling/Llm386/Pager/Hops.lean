import Llm386.Lib.Sorting
import Llm386.Pager.Expansion

/-! # Edge expansion as bounded reachability

The policy hops from a stored block to its lineage, to the newest targets of each edge kind it pulls, and to the
newest children. The expansion ends, adds only blocks that hops reach within the depth over blocks it selects, and
where it refuses none it adds all that hops over stored blocks reach. -/

namespace Llm386.GreedyPager
open PageState BreadthFirst

variable {p : GreedyPager} {budget : TokenCount} {order : HashOrder} {depth : Nat} {a b : BlockId}

/-! ### Hops -/

/-- The `n` newest ids of a list. -/
def newest (n : Nat) (ids : List BlockId) : List BlockId := Sorting.greatest n ids

/-- The targets of the edges of one kind. -/
def targetsOf (edges : List Edge) (k : EdgeKind) : List BlockId := (edges.filter (·.kind = k)).map (·.toId)

/-- The children in a container. -/
def childrenOf (inEdges : List Edge) : List BlockId := (inEdges.filter (·.kind = .parent)).map (·.fromId)

/-- A hop of the policy from the stored block `a` to `b`. -/
inductive Hop (p : GreedyPager) (a b : BlockId) : Prop
  | lineage {block : ContextBlock} : p.getBlock a = .ok (some block) →
      p.scoring.edgePolicy.followProvenanceParents = true → b ∈ block.provenance.parents → Hop p a b
  | outgoing {block : ContextBlock} {edges : List Edge} {k : EdgeKind} : p.getBlock a = .ok (some block) →
      p.store.edgesFrom a = .ok edges → p.scoring.edgePolicy.pullsOutgoing k = true →
      b ∈ newest p.scoring.edgePolicy.maxFanout (targetsOf edges k) → Hop p a b
  | child {block : ContextBlock} {inEdges : List Edge} : p.getBlock a = .ok (some block) →
      p.store.edgesTo a = .ok inEdges → p.scoring.edgePolicy.parent = .bidirectional →
      b ∈ newest p.scoring.edgePolicy.maxFanout (childrenOf inEdges) → Hop p a b

/-- The block is in the store. -/
def Stored (p : GreedyPager) (id : BlockId) : Prop := ∃ b, p.getBlock id = .ok (some b)

theorem Costs.stored {n : TokenCount} (h : p.Costs a n) : p.Stored a := by
  obtain ⟨b, hb, -⟩ := h
  exact ⟨b, hb⟩

theorem Stored.not_missing (h : p.Stored a) : p.getBlock a ≠ .ok none := by
  obtain ⟨b, hb⟩ := h
  simp [hb]

theorem targets_eq (policy : EdgePolicy) (edges : List Edge) (k : EdgeKind) :
    targets policy edges k = if policy.pullsOutgoing k then targetsOf edges k else [] := by
  unfold targets targetsOf
  cases policy.pullsOutgoing k <;> simp

theorem mem_collectOutgoing (policy : EdgePolicy) {f : List EdgeKind → List EdgeKind} (hf : ∀ l, (f l).Perm l)
    (edges : List Edge) : b ∈ collectOutgoing policy f edges ↔
      ∃ k, policy.pullsOutgoing k = true ∧ b ∈ newest policy.maxFanout (targetsOf edges k) := by
  rw [collectOutgoing, List.mem_flatMap]
  constructor
  · rintro ⟨k, hk, hb⟩
    have hnil := (List.mem_filter.mp ((hf _).mem_iff.mp hk)).2
    rw [targets_eq] at hb hnil
    cases hpull : policy.pullsOutgoing k with
    | false => simp [hpull] at hnil
    | true =>
      rw [hpull, if_pos rfl] at hb
      exact ⟨k, hpull, hb⟩
  · rintro ⟨k, hpull, hb⟩
    have heq := targets_eq policy edges k
    rw [hpull, if_pos rfl] at heq
    refine ⟨k, (hf _).mem_iff.mpr (List.mem_filter.mpr ⟨by cases k <;> decide, ?_⟩), heq ▸ hb⟩
    rw [heq]
    simpa using List.ne_nil_of_mem (Sorting.mem_of_mem_greatest hb)

/-- The dependencies of a stored block are its hops. -/
theorem mem_dependencies {reads : Nat} {block : ContextBlock} {deps : List BlockId}
    (hget : p.getBlock a = .ok (some block)) (h : p.dependencies order reads block a = .ok deps) :
    b ∈ deps ↔ p.Hop a b := by
  obtain ⟨out, hout, h⟩ := Loop.bind_eq_ok.mp h
  have hout := Loop.mapError_eq_ok.mp hout
  have houtgoing := mem_collectOutgoing (b := b) p.scoring.edgePolicy (order.kinds_perm reads) out
  have hlineage : b ∈ (if p.scoring.edgePolicy.followProvenanceParents then block.provenance.parents else []) ↔
      p.scoring.edgePolicy.followProvenanceParents = true ∧ b ∈ block.provenance.parents := by
    cases p.scoring.edgePolicy.followProvenanceParents <;> simp
  -- What a hop reads is what the pass has read.
  have hop : p.Hop a b → (p.scoring.edgePolicy.followProvenanceParents = true ∧ b ∈ block.provenance.parents) ∨
      (∃ k, p.scoring.edgePolicy.pullsOutgoing k = true ∧ b ∈ newest p.scoring.edgePolicy.maxFanout (targetsOf out k)) ∨
      p.scoring.edgePolicy.parent = .bidirectional ∧ ∃ inEdges, p.store.edgesTo a = .ok inEdges ∧
        b ∈ newest p.scoring.edgePolicy.maxFanout (childrenOf inEdges) := by
    rintro (⟨hget', hfollow, hb⟩ | ⟨-, hout', hpull, hb⟩ | ⟨-, hin, hparent, hb⟩)
    · cases hget.symm.trans hget'
      exact Or.inl ⟨hfollow, hb⟩
    · cases hout.symm.trans hout'
      exact Or.inr (Or.inl ⟨_, hpull, hb⟩)
    · exact Or.inr (Or.inr ⟨hparent, _, hin, hb⟩)
  have back : (p.scoring.edgePolicy.followProvenanceParents = true ∧ b ∈ block.provenance.parents) ∨
      (∃ k, p.scoring.edgePolicy.pullsOutgoing k = true ∧ b ∈ newest p.scoring.edgePolicy.maxFanout (targetsOf out k)) →
      p.Hop a b := by
    rintro (⟨hfollow, hb⟩ | ⟨k, hpull, hb⟩)
    · exact .lineage hget hfollow hb
    · exact .outgoing hget hout hpull hb
  split at h
  · rename_i hchildren
    have hparent : p.scoring.edgePolicy.parent = .bidirectional := by simpa [EdgePolicy.pullsChildren] using hchildren
    obtain ⟨inEdges, hin, h⟩ := Loop.bind_eq_ok.mp h
    have hin := Loop.mapError_eq_ok.mp hin
    cases h
    rw [List.mem_append, List.mem_append, hlineage, houtgoing]
    constructor
    · rintro (hb | hb)
      · exact back hb
      · exact .child hget hin hparent hb
    · intro hb
      rcases hop hb with hb | hb | ⟨-, inEdges', hin', hb⟩
      · exact Or.inl (Or.inl hb)
      · exact Or.inl (Or.inr hb)
      · cases hin.symm.trans hin'
        exact Or.inr hb
  · rename_i hchildren
    cases h
    rw [List.mem_append, hlineage, houtgoing]
    refine ⟨back, fun hb => ?_⟩
    rcases hop hb with hb | hb | ⟨hparent, -⟩
    · exact Or.inl hb
    · exact Or.inr hb
    · exact absurd (by rw [EdgePolicy.pullsChildren, hparent]; rfl) hchildren

/-! ### The walk -/

/-- One pass of the walk: the block is too deep, or its hops are pulled. -/
theorem expandBlock_hops {st st' : ExpandState} {entry : BlockId × Nat}
    (h : p.expandBlock order budget st entry = .ok st') :
    p.scoring.edgePolicy.effectiveDepth ≤ entry.2 ∧ st' = st ∨
    entry.2 < p.scoring.edgePolicy.effectiveDepth ∧ ∃ deps new, Pulled p entry.2 deps new st st' ∧
      (∀ b, b ∈ deps ↔ p.Hop entry.1 b) ∧ (p.RoomyVisit order budget st entry → ∀ b ∈ deps,
        b ∈ st.visited ∨ p.getBlock b = .ok none ∨ b ∈ new) := by
  rcases expandBlock_inv h with ⟨hstop, rfl⟩ | ⟨block, deps, hget, hdepth, hdeps, hpull⟩
  · by_cases hdeep : p.scoring.edgePolicy.effectiveDepth ≤ entry.2
    · exact Or.inl ⟨hdeep, rfl⟩
    · -- A block that is gone has no hops.
      have hgone := hstop.resolve_left hdeep
      refine Or.inr ⟨Nat.lt_of_not_le hdeep, [], [], .refl _, fun b => ?_, fun _ b hb => (List.not_mem_nil hb).elim⟩
      refine ⟨fun hb => (List.not_mem_nil hb).elim, fun hhop => ?_⟩
      cases hhop with
      | lineage hget => simp [hget] at hgone
      | outgoing hget => simp [hget] at hgone
      | child hget => simp [hget] at hgone
  · obtain ⟨new, hpulled, hall⟩ := pullDeps_inv hpull
    refine Or.inr ⟨hdepth, deps, new, { hpulled with }, fun b => mem_dependencies hget hdeps, fun hroomy b hb => ?_⟩
    exact (hall (hroomy block deps hget hdepth hdeps) b hb).imp_right (Or.imp_right And.right)

/-- What is selected is visited; where nothing is refused, what is visited is missing or selected. -/
structure Visited (p : GreedyPager) (roomy : Prop) (st : ExpandState) : Prop where
  seen : ∀ id ∈ st.selected, id ∈ st.visited
  settled : roomy → ∀ id ∈ st.visited, p.getBlock id = .ok none ∨ id ∈ st.selected

theorem Visited.pulled {roomy : Prop} {st st' : ExpandState} {deps new : List BlockId} (h : Visited p roomy st)
    (hpulled : Pulled p depth deps new st st')
    (hall : roomy → ∀ b ∈ deps, b ∈ st.visited ∨ p.getBlock b = .ok none ∨ b ∈ new) : Visited p roomy st' where
  seen id hid := by
    rw [hpulled.selected, List.mem_append] at hid
    rw [hpulled.visited]
    exact hid.imp (h.seen id) fun hnew => (hpulled.fresh id hnew).1
  settled hroomy id hid := by
    rw [hpulled.selected, List.mem_append]
    rcases (hpulled.visited id).mp hid with hid | hid
    · exact (h.settled hroomy id hid).imp_right Or.inl
    · rcases hall hroomy id hid with hseen | hnone | hnew
      · exact (h.settled hroomy id hseen).imp_right Or.inl
      · exact Or.inl hnone
      · exact Or.inr (Or.inr hnew)

/-- A pass visits the head of the queue: what it adds are hops into `via`, and all hops to stored blocks where nothing
is refused. -/
theorem expandBlock_walk {roomy : Prop} (via opened : Set BlockId) {st st' : ExpandState} {entry : BlockId × Nat}
    {rest : List (BlockId × Nat)} (hqueue : st.frontier = entry :: rest) (h : Visited p roomy st)
    (hroomy : roomy → p.RoomyVisit order budget { st with frontier := rest } entry)
    (hvia : ∀ id ∈ st'.selected, id ∉ st.selected → p.Stored id → id ∈ via) (hstored : roomy → ∀ id ∈ via, p.Stored id)
    (hstep : p.expandBlock order budget { st with frontier := rest } entry = .ok st') :
    Visited p roomy st' ∧ ∃ opened', Visit (fun a => {b | p.Hop a b ∧ b ∈ via}) p.scoring.edgePolicy.effectiveDepth roomy
      (walkOf opened st) (walkOf opened' st') := by
  rcases expandBlock_hops hstep with ⟨hdeep, rfl⟩ | ⟨hdepth, deps, new, hpulled, hdeps, hall⟩
  · exact ⟨⟨h.seen, h.settled⟩, opened, .deep (w := walkOf opened st) hqueue hdeep⟩
  · have hvisited := (⟨h.seen, h.settled⟩ : Visited p roomy { st with frontier := rest }).pulled hpulled
      fun hr => hall (hroomy hr)
    have hwalk : walkOf (insert entry.1 opened) st' =
        ⟨(walkOf opened st).seen ∪ {y | y ∈ new}, insert entry.1 opened, rest ++ new.map (·, entry.2 + 1)⟩ := by
      rw [walkOf, hpulled.selected, hpulled.frontier]
      congr 1
      ext y
      simp [walkOf]
    refine ⟨hvisited, insert entry.1 opened, ?_⟩
    rw [hwalk]
    refine .expand (w := walkOf opened st) hqueue hdepth (fun y hy => ?_) (fun hr y hy => ?_)
    · obtain ⟨hdep, hfresh, n, hn⟩ := hpulled.fresh y hy
      have hold : y ∉ st.selected := fun hsel => hfresh (h.seen y hsel)
      exact ⟨⟨(hdeps y).mp hdep, hvia y (hpulled.selected ▸ List.mem_append_right _ hy) hold hn.stored⟩, hold⟩
    · have hnone := (hstored hr y hy.2).not_missing
      rcases hall (hroomy hr) y ((hdeps y).mpr hy.1) with hseen | hgone | hnew
      · exact Or.inl ((h.settled hr y hseen).resolve_left hnone)
      · exact absurd hgone hnone
      · exact Or.inr hnew

/-- The walk reaches what it selects over blocks it selects. -/
theorem expandLoop_reaches {start : Set BlockId} {fuel : Nat} {st st' : ExpandState} {opened : Set BlockId}
    (h : Visited p False st) (hrun : p.expandLoop order budget fuel st = .ok st')
    (hnear : Near (fun a => {b | p.Hop a b ∧ b ∈ {x | x ∈ st'.selected}}) start p.scoring.edgePolicy.effectiveDepth
      (walkOf opened st)) : ∃ opened', Near (fun a => {b | p.Hop a b ∧ b ∈ {x | x ∈ st'.selected}}) start
        p.scoring.edgePolicy.effectiveDepth (walkOf opened' st') := by
  induction fuel generalizing st opened with
  | zero =>
    cases hrun
    exact ⟨opened, hnear⟩
  | succ fuel ih =>
    rw [GreedyPager.expandLoop] at hrun
    split at hrun
    · cases hrun
      exact ⟨opened, hnear⟩
    · rename_i entry rest hqueue
      obtain ⟨st₁, hstep, hrun⟩ := Loop.bind_eq_ok.mp hrun
      obtain ⟨later, hlater, -⟩ := expandLoop_appends (expandBlock_walk Set.univ opened hqueue h
        False.elim (fun _ _ _ _ => trivial) False.elim hstep).1.seen hrun
      obtain ⟨hvisited, opened', hvisit⟩ := expandBlock_walk {x | x ∈ st'.selected} opened hqueue h
        False.elim (fun id hid _ _ => by rw [hlater]; exact List.mem_append_left _ hid) False.elim hstep
      exact ih hvisited hrun (hnear.visit hvisit)

/-- A walk that refuses nothing goes on level by level over the stored blocks. -/
theorem expandLoop_levels {start : Set BlockId} {fuel : Nat} {st st' : ExpandState} {opened : Set BlockId}
    (h : Visited p True st) (hroomy : p.WalkAll order budget (p.RoomyVisit order budget) fuel st)
    (hrun : p.expandLoop order budget fuel st = .ok st')
    (hlevel : OnLevel (fun a => {b | p.Hop a b ∧ b ∈ {x | p.Stored x}}) start p.scoring.edgePolicy.effectiveDepth
      (walkOf opened st)) : ∃ opened', OnLevel (fun a => {b | p.Hop a b ∧ b ∈ {x | p.Stored x}}) start
        p.scoring.edgePolicy.effectiveDepth (walkOf opened' st') := by
  induction fuel generalizing st opened with
  | zero =>
    cases hrun
    exact ⟨opened, hlevel⟩
  | succ fuel ih =>
    rw [GreedyPager.expandLoop] at hrun
    split at hrun
    · cases hrun
      exact ⟨opened, hlevel⟩
    · rename_i entry rest hqueue
      obtain ⟨st₁, hstep, hrun⟩ := Loop.bind_eq_ok.mp hrun
      obtain ⟨hvisited, opened', hvisit⟩ := expandBlock_walk {x | p.Stored x} opened hqueue h
        (fun _ => (hroomy entry rest hqueue).1) (fun _ _ _ hid => hid) (fun _ _ hid => hid) hstep
      exact ih hvisited ((hroomy entry rest hqueue).2 _ hstep) hrun (hlevel.visit hvisit)

/-- The expansion adds stored blocks. -/
theorem stored_pulls {old : List BlockId} :
    PullKept p budget fun st => ∀ id ∈ st.selected, id ∈ old ∨ p.Stored id where
  pull h hcost _ id hid := by
    rcases List.mem_append.mp hid with hid | hid
    · exact h id hid
    · exact Or.inr (List.mem_singleton.mp hid ▸ hcost.stored)

/-- More fuel than the walk has steps changes nothing. -/
theorem expandLoop_fuel {fuel more : Nat} {st : ExpandState} (hfuel : stepsLeft st ≤ fuel) (hmore : fuel ≤ more) :
    p.expandLoop order budget more st = p.expandLoop order budget fuel st := by
  induction fuel generalizing st more with
  | zero =>
    have hempty : st.frontier = [] := by
      unfold stepsLeft at hfuel
      exact List.length_eq_zero_iff.mp (by omega)
    cases more with
    | zero => rfl
    | succ more => simp only [GreedyPager.expandLoop, hempty]
  | succ fuel ih =>
    obtain ⟨more, rfl⟩ : ∃ m, more = m + 1 := ⟨more - 1, by omega⟩
    rw [GreedyPager.expandLoop, GreedyPager.expandLoop]
    split
    · rfl
    · rename_i entry rest hqueue
      cases hstep : p.expandBlock order budget { st with frontier := rest } entry with
      | error e => rfl
      | ok st₁ =>
        have hless := expandBlock_stepsLeft hqueue hstep
        exact ih (by omega) (by omega)

/-! ### The pass -/

/-- What the expansion adds is stored, new and reached within the depth over selected blocks. -/
theorem expandEdges_adds {st st' : PageState} (h : p.expandEdges order budget st = .ok st') :
    ∃ new, st'.selected = st.selected ++ new ∧ new.Nodup ∧ ∀ id ∈ new, id ∉ st.selected ∧ p.Stored id ∧
      ReachedWithin p.Hop {x | x ∈ st.selected} {x | x ∈ st'.selected} p.scoring.edgePolicy.effectiveDepth id := by
  rcases expandEdges_cases h with ⟨hdepth, rfl⟩ | ⟨hdepth, done, hdone, rfl⟩
  · exact ⟨[], by simp, List.nodup_nil, by simp⟩
  · obtain ⟨new, hselected, hnodup, hfresh⟩ := expandLoop_appends (fun _ hid => hid) hdone
    have hold : (expandStart st).selected = st.selected := rfl
    rw [hold] at hselected hfresh
    have hstored : ∀ id ∈ new, p.Stored id := fun id hid =>
      (stored_pulls.expandLoop (fun id' hid' => Or.inl hid') hdone id (hselected ▸ List.mem_append_right _ hid)).resolve_left
        (hfresh id hid)
    refine ⟨new, hselected, hnodup, fun id hid => ⟨hfresh id hid, hstored id hid, ?_⟩⟩
    have hnear : Near (fun a => {b | p.Hop a b ∧ b ∈ {x | x ∈ done.selected}}) {x | x ∈ st.selected}
        p.scoring.edgePolicy.effectiveDepth (walkOf ∅ (expandStart st)) := by
      refine ⟨fun x hx => ball_mono (Nat.zero_le _) hx, fun e he => ?_⟩
      obtain ⟨x, hx, rfl⟩ := List.mem_map.mp he
      exact hx
    obtain ⟨opened, hdoneNear⟩ := expandLoop_reaches ⟨fun _ hid => hid, False.elim⟩ hdone hnear
    rw [← mem_ball_iff_reachedWithin]
    exact hdoneNear.seen (show id ∈ done.selected from hselected ▸ List.mem_append_right _ hid)

/-- The expansion is bounded reachability: the walk empties its queue and more steps would change nothing; what it adds
is stored, new and reached within the depth over selected blocks; and where no pull is refused, it adds exactly the
stored blocks that are reached within the depth over stored blocks. -/
theorem expandEdges_reaches (p : GreedyPager) (order : HashOrder) (budget : TokenCount) (st : PageState) :
    (∀ fuel, expandFuel st ≤ fuel → p.expandLoop order budget fuel (expandStart st) =
      p.expandLoop order budget (expandFuel st) (expandStart st)) ∧
    (∀ done, p.expandLoop order budget (expandFuel st) (expandStart st) = .ok done → done.frontier = []) ∧
    ∀ st', p.expandEdges order budget st = .ok st' → ∃ new, st'.selected = st.selected ++ new ∧ new.Nodup ∧
      (∀ id ∈ new, id ∉ st.selected ∧ p.Stored id ∧ ReachedWithin p.Hop {x | x ∈ st.selected} {x | x ∈ st'.selected}
        (min p.scoring.edgePolicy.maxDepth 5) id) ∧
      (p.RoomyExpansion order budget st → ∀ id, id ∈ new ↔ id ∉ st.selected ∧ p.Stored id ∧
        ReachedWithin p.Hop {x | x ∈ st.selected} {x | p.Stored x} (min p.scoring.edgePolicy.maxDepth 5) id) := by
  have hsteps : stepsLeft (expandStart st) ≤ expandFuel st := by
    simp only [stepsLeft, expandStart, expandFuel, List.length_map]
    omega
  refine ⟨fun fuel hfuel => expandLoop_fuel hsteps hfuel, fun done hdone => expandLoop_drains hsteps hdone,
    fun st' h => ?_⟩
  show ∃ new, st'.selected = st.selected ++ new ∧ new.Nodup ∧ (∀ id ∈ new, id ∉ st.selected ∧ p.Stored id ∧
    ReachedWithin p.Hop {x | x ∈ st.selected} {x | x ∈ st'.selected} p.scoring.edgePolicy.effectiveDepth id) ∧
    (p.RoomyExpansion order budget st → ∀ id, id ∈ new ↔ id ∉ st.selected ∧ p.Stored id ∧
      ReachedWithin p.Hop {x | x ∈ st.selected} {x | p.Stored x} p.scoring.edgePolicy.effectiveDepth id)
  obtain ⟨new, hselected, hnodup, hadds⟩ := expandEdges_adds h
  refine ⟨new, hselected, hnodup, hadds, fun hroomy id => ?_⟩
  rcases expandEdges_cases h with ⟨hdepth, rfl⟩ | ⟨hdepth, done, hdone, rfl⟩
  · obtain rfl : new = [] := by simpa using hselected
    rw [hdepth, ← mem_ball_iff_reachedWithin]
    exact ⟨fun hid => (List.not_mem_nil hid).elim, fun hid => absurd hid.2.2 hid.1⟩
  · have hlevel : OnLevel (fun a => {b | p.Hop a b ∧ b ∈ {x | p.Stored x}}) {x | x ∈ st.selected}
        p.scoring.edgePolicy.effectiveDepth (walkOf ∅ (expandStart st)) := OnLevel.initial
    obtain ⟨opened, hdoneLevel⟩ := expandLoop_levels ⟨fun _ hid => hid, fun _ _ hid => Or.inr hid⟩ (hroomy hdepth) hdone hlevel
    obtain ⟨hall, -⟩ := hdoneLevel.done (expandLoop_drains hsteps hdone)
    rw [← mem_ball_iff_reachedWithin, ← hall]
    show _ ↔ _ ∧ _ ∧ id ∈ done.selected
    rw [hselected, List.mem_append]
    constructor
    · exact fun hid => ⟨(hadds id hid).1, (hadds id hid).2.1, Or.inr hid⟩
    · exact fun hid => hid.2.2.resolve_left hid.1

/-- Blocks 1 and 2 support each other, and 2 is supported by 3, which has no room, and by 5; behind 3 stands 4. -/
def cyclicPager : GreedyPager :=
  { GreedyPager.new (.ofLists [sampleBlock ⟨1⟩ .fact [0x61] [], sampleBlock ⟨2⟩ .fact [0x62] [],
      sampleBlock ⟨3⟩ .fact (List.replicate 50 0x61) [], sampleBlock ⟨4⟩ .fact [0x63] [], sampleBlock ⟨5⟩ .fact [0x64] []]
      [(⟨1⟩, ⟨1⟩)] [⟨⟨1⟩, ⟨2⟩, .supports⟩, ⟨⟨2⟩, ⟨1⟩, .supports⟩, ⟨⟨2⟩, ⟨3⟩, .supports⟩, ⟨⟨3⟩, ⟨4⟩, .supports⟩,
        ⟨⟨2⟩, ⟨5⟩, .supports⟩]) byteTokenizer (fun s => s) .insertion with
    scoring := { ScoringPolicy.default with edgePolicy := { EdgePolicy.default with maxDepth := 4 } } }

/-- The walk ends on the cycle, and does not go on through the block it refuses. -/
example : ((cyclicPager.expandEdges .canonical (.saturate 20) (PageState.empty.push ⟨1⟩ (.saturate 1) 1 .pinned)).toOption.map
    (·.selected)) = some [⟨1⟩, ⟨2⟩, ⟨5⟩] := by decide +kernel

end Llm386.GreedyPager
