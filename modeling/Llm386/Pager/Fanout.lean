import Llm386.Lmdb.Recorded
import Llm386.Pager.Hops

/-! # The fan-out of the expansion

The policy promises to expand at most `maxFanout` neighbours of a block for each kind, the newest. The code caps the
targets of each kind and the children of a container, each list by itself; containers and children together and the
lineage of a block may be more. -/

namespace Llm386.GreedyPager
open PageState

variable {p : GreedyPager} {order : HashOrder} {reads : Nat} {id : BlockId} {block : ContextBlock} {deps : List BlockId}

/-- How a neighbour is related to a block. -/
inductive Relation
  | lineage
  | typed (k : EdgeKind)
deriving DecidableEq

def relations : List Relation :=
  [.lineage, .typed .parent, .typed .derivedFrom, .typed .supports, .typed .contradicts, .typed .toolInvocation]

/-- The neighbours of one relation that the policy follows. -/
def neighbours (policy : EdgePolicy) (block : ContextBlock) (out inEdges : List Edge) : Relation → List BlockId
  | .lineage => if policy.followProvenanceParents then block.provenance.parents else []
  | .typed k => (if policy.pullsOutgoing k then targetsOf out k else []) ++
      if k = .parent && policy.pullsChildren then childrenOf inEdges else []

/-- The neighbours of one relation that the code goes through. -/
def considered (policy : EdgePolicy) (block : ContextBlock) (out inEdges : List Edge) : Relation → List BlockId
  | .lineage => if policy.followProvenanceParents then block.provenance.parents else []
  | .typed k => (if policy.pullsOutgoing k then newest policy.maxFanout (targetsOf out k) else []) ++
      if k = .parent && policy.pullsChildren then newest policy.maxFanout (childrenOf inEdges) else []

/-- At most `maxFanout` neighbours of the relation are gone through, and these are the newest. -/
def Capped (policy : EdgePolicy) (block : ContextBlock) (out inEdges : List Edge) (r : Relation) : Prop :=
  (considered policy block out inEdges r).toFinset.card ≤ policy.maxFanout ∧
    ∀ x ∈ considered policy block out inEdges r, ∀ y ∈ neighbours policy block out inEdges r, x < y →
      y ∈ considered policy block out inEdges r

/-- An edge is stored once, and listed at its ends. -/
structure EdgesOnce (store : BlockStore) : Prop where
  out : ∀ {id es}, store.edgesFrom id = .ok es → es.Nodup ∧ ∀ e ∈ es, e.fromId = id
  into : ∀ {id es}, store.edgesTo id = .ok es → es.Nodup ∧ ∀ e ∈ es, e.toId = id

/-- So it is on every store that writes reach. -/
theorem edgesOnce {st : LmdbStore} (h : LmdbStore.Ran st) : EdgesOnce (st.blockStore h) := by
  obtain ⟨c, hc⟩ := h.recorded
  have hlistings := hc.tracks.indexed.listings
  refine ⟨fun {id es} hes => ?_, fun {id es} hes => ?_⟩
  · obtain ⟨es', hes', hnodup, hmem⟩ := hlistings.edgesFrom id
    cases hes.symm.trans hes'
    exact ⟨hnodup, fun e he => ((hmem e).mp he).2⟩
  · obtain ⟨es', hes', hnodup, hmem⟩ := hlistings.edgesTo id
    cases hes.symm.trans hes'
    exact ⟨hnodup, fun e he => ((hmem e).mp he).2⟩

theorem edgesOnce_ofLists {blocks : List ContextBlock} {sessions : List (SessionId × BlockId)} {edges : List Edge}
    (h : edges.Nodup) : EdgesOnce (.ofLists blocks sessions edges) where
  out hes := by
    cases hes
    exact ⟨h.filter _, fun e he => of_decide_eq_true (List.mem_filter.mp he).2⟩
  into hes := by
    cases hes
    exact ⟨h.filter _, fun e he => of_decide_eq_true (List.mem_filter.mp he).2⟩

theorem nodup_targetsOf {es : List Edge} (h : es.Nodup ∧ ∀ e ∈ es, e.fromId = id) (k : EdgeKind) :
    (targetsOf es k).Nodup := by
  refine (h.1.filter _).map_on fun e he e' he' heq => ?_
  obtain ⟨hmem, hkind⟩ := List.mem_filter.mp he
  obtain ⟨hmem', hkind'⟩ := List.mem_filter.mp he'
  have hends := (h.2 e hmem).trans (h.2 e' hmem').symm
  have hkinds := (of_decide_eq_true hkind).trans (of_decide_eq_true hkind').symm
  cases e
  cases e'
  simp_all

theorem nodup_childrenOf {es : List Edge} (h : es.Nodup ∧ ∀ e ∈ es, e.toId = id) : (childrenOf es).Nodup := by
  refine (h.1.filter _).map_on fun e he e' he' heq => ?_
  obtain ⟨hmem, hkind⟩ := List.mem_filter.mp he
  obtain ⟨hmem', hkind'⟩ := List.mem_filter.mp he'
  have hends := (h.2 e hmem).trans (h.2 e' hmem').symm
  have hkinds := (of_decide_eq_true hkind).trans (of_decide_eq_true hkind').symm
  cases e
  cases e'
  simp_all

theorem collectOutgoing_kinds (policy : EdgePolicy) {f : List EdgeKind → List EdgeKind} (hf : ∀ l, (f l).Perm l)
    (edges : List Edge) : (collectOutgoing policy f edges).Perm
      ([EdgeKind.parent, .derivedFrom, .supports, .contradicts, .toolInvocation].flatMap fun k =>
        if policy.pullsOutgoing k then newest policy.maxFanout (targetsOf edges k) else []) := by
  have hkind : ∀ k, ((targets policy edges k).insertionSort (· ≥ ·)).take policy.maxFanout =
      if policy.pullsOutgoing k then newest policy.maxFanout (targetsOf edges k) else [] := by
    intro k
    rw [targets_eq]
    cases policy.pullsOutgoing k
    · simp
    · rfl
  -- A kind without targets adds nothing.
  have hkinds : ∀ l : List EdgeKind, (l.filter fun k => !(targets policy edges k).isEmpty).flatMap
      (fun k => ((targets policy edges k).insertionSort (· ≥ ·)).take policy.maxFanout) =
      l.flatMap fun k => ((targets policy edges k).insertionSort (· ≥ ·)).take policy.maxFanout := by
    intro l
    induction l with
    | nil => rfl
    | cons k l ih =>
      cases hnil : targets policy edges k with
      | nil => simp [hnil, ih]
      | cons x xs => simp [hnil, ih]
  refine ((hf _).flatMap_right _).trans ?_
  rw [pulledKinds, hkinds]
  simp only [hkind]
  exact .refl _

/-- What the code goes through for a block is what it considers of each relation. -/
theorem dependencies_considered (h : p.dependencies order reads block id = .ok deps) :
    ∃ out inEdges, p.store.edgesFrom id = .ok out ∧
      (p.scoring.edgePolicy.pullsChildren = true → p.store.edgesTo id = .ok inEdges) ∧
      deps.Perm (relations.flatMap (considered p.scoring.edgePolicy block out inEdges)) := by
  obtain ⟨out, hout, h⟩ := Loop.bind_eq_ok.mp h
  have hperm := collectOutgoing_kinds p.scoring.edgePolicy (order.kinds_perm reads) out
  split at h
  · rename_i hchildren
    obtain ⟨inEdges, hin, h⟩ := Loop.bind_eq_ok.mp h
    cases h
    refine ⟨out, inEdges, Loop.mapError_eq_ok.mp hout, fun _ => Loop.mapError_eq_ok.mp hin, ?_⟩
    refine ((hperm.append_left _).append_right _).trans (List.perm_iff_count.mpr fun x => ?_)
    simp [relations, considered, collectChildren, newest, Sorting.greatest, childrenOf, hchildren]
    omega
  · rename_i hchildren
    cases h
    refine ⟨out, [], Loop.mapError_eq_ok.mp hout, fun habs => absurd habs hchildren, ?_⟩
    refine (hperm.append_left _).trans (List.perm_iff_count.mpr fun x => ?_)
    simp [relations, considered, hchildren]

/-! ### What is capped -/

/-- A list that the code cuts to the newest is capped. -/
theorem greatest_capped (n : Nat) (l : List BlockId) : (newest n l).toFinset.card ≤ n ∧
    ∀ x ∈ newest n l, ∀ y ∈ l, x < y → y ∈ newest n l :=
  ⟨Sorting.card_greatest_le, fun _ hx _ hy hxy => Sorting.mem_greatest_of_lt hx hy hxy⟩

theorem capped_lineage {policy : EdgePolicy} {out inEdges : List Edge} : Capped policy block out inEdges .lineage ↔
    (policy.followProvenanceParents = true → block.provenance.parents.toFinset.card ≤ policy.maxFanout) := by
  unfold Capped
  cases hfollow : policy.followProvenanceParents with
  | false => simp [considered, hfollow]
  | true =>
    simp only [considered, neighbours, hfollow, if_true, forall_true_left]
    exact and_iff_left fun _ _ _ hy _ => hy

theorem capped_typed {policy : EdgePolicy} {out inEdges : List Edge} {k : EdgeKind} (hk : k ≠ .parent) :
    Capped policy block out inEdges (.typed k) := by
  unfold Capped
  simp only [considered, neighbours, hk, decide_false, Bool.false_and, Bool.false_eq_true, if_false, List.append_nil]
  cases policy.pullsOutgoing k with
  | false => simp
  | true => exact greatest_capped _ _

/-- Containers and children are capped together. -/
def ParentsCapped (policy : EdgePolicy) (out inEdges : List Edge) : Prop :=
  let containers := targetsOf out .parent
  let children := childrenOf inEdges
  (containers ++ children).toFinset.card ≤ policy.maxFanout ∨
    (∀ x ∈ newest policy.maxFanout children, x ∈ newest policy.maxFanout containers) ∨
    ∀ x ∈ newest policy.maxFanout containers, x ∈ newest policy.maxFanout children

theorem capped_parent {policy : EdgePolicy} {out inEdges : List Edge} (hout : (targetsOf out .parent).Nodup)
    (hin : policy.pullsChildren = true → (childrenOf inEdges).Nodup) : Capped policy block out inEdges (.typed .parent) ↔
      (policy.parent = .bidirectional → ParentsCapped policy out inEdges) := by
  unfold Capped
  cases hparent : policy.parent with
  | off => simp [considered, EdgePolicy.pullsOutgoing, EdgePolicy.pullsChildren, hparent]
  | containerOnly =>
    have hpulls : policy.pullsOutgoing .parent = true := by simp [EdgePolicy.pullsOutgoing, hparent]
    have hkids : policy.pullsChildren = false := by simp [EdgePolicy.pullsChildren, hparent]
    simp only [considered, neighbours, hpulls, hkids, if_true, Bool.and_false, Bool.false_eq_true, if_false,
      List.append_nil, reduceCtorEq, false_imp_iff, iff_true]
    exact greatest_capped _ _
  | bidirectional =>
    have hpulls : policy.pullsOutgoing .parent = true := by simp [EdgePolicy.pullsOutgoing, hparent]
    have hkids : policy.pullsChildren = true := by simp [EdgePolicy.pullsChildren, hparent]
    simp only [considered, neighbours, hpulls, hkids, decide_true, Bool.and_true, if_true, forall_true_left]
    exact Sorting.greatest_union hout (hin hkids)

/-- What the code goes through for a block is at most `maxFanout` of each relation, the newest, exactly when a lineage
that is followed is no longer than that, and containers and children that are both pulled are no more together or the
newest of the ones are among the newest of the others. -/
theorem dependencies_capped (order : HashOrder) (reads : Nat) (hedges : EdgesOnce p.store)
    (h : p.dependencies order reads block id = .ok deps) :
    ∃ out inEdges, p.store.edgesFrom id = .ok out ∧
      (p.scoring.edgePolicy.pullsChildren = true → p.store.edgesTo id = .ok inEdges) ∧
      deps.Perm (relations.flatMap (considered p.scoring.edgePolicy block out inEdges)) ∧
      ((∀ r, Capped p.scoring.edgePolicy block out inEdges r) ↔
        (p.scoring.edgePolicy.followProvenanceParents = true →
          block.provenance.parents.toFinset.card ≤ p.scoring.edgePolicy.maxFanout) ∧
        (p.scoring.edgePolicy.parent = .bidirectional → ParentsCapped p.scoring.edgePolicy out inEdges)) := by
  obtain ⟨out, inEdges, hout, hin, hperm⟩ := dependencies_considered h
  have hparent := @capped_parent block _ out inEdges (nodup_targetsOf (hedges.out hout) _) fun hchildren =>
    nodup_childrenOf (hedges.into (hin hchildren))
  refine ⟨out, inEdges, hout, hin, hperm, ?_, ?_⟩
  · exact fun hall => ⟨capped_lineage.mp (hall .lineage), hparent.mp (hall (.typed .parent))⟩
  · rintro ⟨hlineage, hparents⟩ (_ | k)
    · exact capped_lineage.mpr hlineage
    · by_cases hk : k = .parent
      · exact hk ▸ hparent.mpr hparents
      · exact capped_typed hk

/-! ### A block with two parents, a container and a child

With a fan-out of one, both parents are pulled in for the lineage, the container and the child for the `parent`
edges. -/

def hubBlock : ContextBlock := sampleBlock ⟨5⟩ .fact [0x61] [⟨1⟩, ⟨2⟩]

def hubEdges : List Edge := [⟨⟨5⟩, ⟨4⟩, .parent⟩, ⟨⟨3⟩, ⟨5⟩, .parent⟩]

def hubPager : GreedyPager :=
  { GreedyPager.new (.ofLists [hubBlock, sampleBlock ⟨1⟩ .fact [0x62] [], sampleBlock ⟨2⟩ .fact [0x63] [],
      sampleBlock ⟨3⟩ .fact [0x64] [], sampleBlock ⟨4⟩ .fact [0x65] []] [(⟨1⟩, ⟨5⟩)] hubEdges)
      byteTokenizer (fun s => s) .insertion with
    scoring := { ScoringPolicy.default with
      edgePolicy := { EdgePolicy.default with maxFanout := 1, followProvenanceParents := true, parent := .bidirectional } } }

def hubRequest : PageRequest := ⟨⟨1⟩, "", ⟨"model", .saturate 100, .zero, .zero, "bytes", true⟩, [⟨5⟩]⟩

theorem page_exceeds_fanout : (∃ plan, hubPager.page .canonical hubRequest = .ok plan ∧
      plan.selected = [⟨5⟩, ⟨1⟩, ⟨2⟩, ⟨4⟩, ⟨3⟩]) ∧
    ∃ out inEdges, hubPager.getBlock ⟨5⟩ = .ok (some hubBlock) ∧ hubPager.store.edgesFrom ⟨5⟩ = .ok out ∧
      hubPager.store.edgesTo ⟨5⟩ = .ok inEdges ∧
      ¬Capped hubPager.scoring.edgePolicy hubBlock out inEdges .lineage ∧
      ¬Capped hubPager.scoring.edgePolicy hubBlock out inEdges (.typed .parent) := by
  refine ⟨exists_plan hubPager .canonical hubRequest _ (by decide +kernel),
    [⟨⟨5⟩, ⟨4⟩, .parent⟩], [⟨⟨3⟩, ⟨5⟩, .parent⟩], rfl, by decide, by decide, fun hcap => ?_, fun hcap => ?_⟩
  · exact absurd hcap.1 (by decide)
  · exact absurd hcap.1 (by decide)

theorem dependencies_capped_sample : ∃ out inEdges, hubPager.store.edgesFrom ⟨5⟩ = .ok out ∧
    (hubPager.scoring.edgePolicy.pullsChildren = true → hubPager.store.edgesTo ⟨5⟩ = .ok inEdges) ∧
    [⟨1⟩, ⟨2⟩, ⟨4⟩, ⟨3⟩].Perm (relations.flatMap (considered hubPager.scoring.edgePolicy hubBlock out inEdges)) ∧
    ((∀ r, Capped hubPager.scoring.edgePolicy hubBlock out inEdges r) ↔
      (hubPager.scoring.edgePolicy.followProvenanceParents = true →
        hubBlock.provenance.parents.toFinset.card ≤ hubPager.scoring.edgePolicy.maxFanout) ∧
      (hubPager.scoring.edgePolicy.parent = .bidirectional →
        ParentsCapped hubPager.scoring.edgePolicy out inEdges)) :=
  dependencies_capped .canonical 0 (edgesOnce_ofLists (by decide)) (by decide +kernel)

end Llm386.GreedyPager
