import Llm386.Pager.Retrievers

/-! # What one step of each pass can do

For each step of the pager that may fail, the states it can lead to when it succeeds. The invariants of the passes
read these lemmas and never the definitions. -/

namespace Llm386.GreedyPager
open PageState

variable {p : GreedyPager}

/-- The stored block `id` costs `n` tokens. -/
def Costs (p : GreedyPager) (id : BlockId) (n : TokenCount) : Prop :=
  ∃ b, p.getBlock id = .ok (some b) ∧ p.tokensFor b = .ok n

theorem Costs.unique {id : BlockId} {m n : TokenCount} (hm : p.Costs id m) (hn : p.Costs id n) : m = n := by
  obtain ⟨a, ha, hm⟩ := hm
  obtain ⟨b, hb, hn⟩ := hn
  rw [ha] at hb
  cases hb
  rw [hm] at hn
  cases hn
  rfl

theorem getBlock_id {id : BlockId} {b : ContextBlock} (h : p.getBlock id = .ok (some b)) : b.id = id :=
  p.store.get_id (Loop.mapError_eq_ok.mp h)

theorem selectRequired_inv {budget : TokenCount} {st st' : PageState} {id : BlockId}
    (h : p.selectRequired budget st id = .ok st') :
    ∃ n, p.Costs id n ∧ st.Fits budget n ∧ st' = st.push id n 1 .pinned := by
  obtain ⟨found, hget, h⟩ := Loop.bind_eq_ok.mp h
  cases found with
  | none => cases h
  | some block =>
    obtain ⟨n, hn, h⟩ := Loop.bind_eq_ok.mp h
    split at h
    · rename_i hfits
      cases h
      exact ⟨n, ⟨block, hget, hn⟩, hfits, rfl⟩
    · cases h

theorem loadCandidate_inv {entry : BlockId × Float32} {x : SectionKind × Candidate}
    (h : p.loadCandidate entry = .ok (some x)) : ∃ b, p.getBlock entry.1 = .ok (some b) ∧
      p.tokensFor b = .ok x.2.tokens ∧ x.1 = b.kind.defaultSection ∧ x.2.id = entry.1 ∧
      x.2.score = entry.2 + p.scoring.priorityWeight * clamp b.priority 0 1 := by
  obtain ⟨found, hget, h⟩ := Loop.bind_eq_ok.mp h
  cases found with
  | none => cases h
  | some block =>
    obtain ⟨n, hn, h⟩ := Loop.bind_eq_ok.mp h
    cases h
    exact ⟨block, hget, hn, rfl, getBlock_id hget, rfl⟩

/-- The candidate of a section comes from a merged score, and its block is stored. -/
theorem loadSections_inv {scores : List (BlockId × Float32)} {bySection : SectionKind → List Candidate}
    (h : p.loadSections scores = .ok bySection) : ∃ loaded : List (Option (SectionKind × Candidate)),
      scores.mapM p.loadCandidate = .ok loaded ∧
      ∀ s, (bySection s).Perm (((loaded.filterMap id).filter (·.1 = s)).map (·.2)) := by
  obtain ⟨loaded, hloaded, h⟩ := Loop.bind_eq_ok.mp h
  cases h
  exact ⟨loaded, hloaded, fun s => p.sort.perm _ _⟩

/-! ### The summary index -/

/-- `summaryId` is a stored summary that names `id` as a source. -/
def SummaryOf (p : GreedyPager) (summaryId id : BlockId) : Prop :=
  ∃ b, p.getBlock summaryId = .ok (some b) ∧ b.kind = .summary ∧ id ∈ b.provenance.parents

theorem orInserts_entries {Q : BlockId × BlockId → Prop} {parents : List BlockId} {id : BlockId}
    {index : List (BlockId × BlockId)} (h : ∀ e ∈ index, Q e) (hnew : ∀ parent ∈ parents, Q (parent, id)) :
    ∀ e ∈ parents.foldl (fun m parent => orInsert m parent id) index, Q e := by
  induction parents generalizing index with
  | nil => exact h
  | cons parent parents ih =>
    refine ih (fun e he => ?_) fun x hx => hnew x (List.mem_cons_of_mem _ hx)
    simp only [orInsert] at he
    split at he
    · exact h e he
    · rcases List.mem_append.mp he with he | he
      · exact h e he
      · obtain rfl := List.mem_singleton.mp he
        exact hnew parent List.mem_cons_self

/-- The index names summaries that the session lists. -/
theorem summaryIndex_inv {session : SessionId} {index : List (BlockId × BlockId)}
    (h : p.summaryIndex session = .ok index) : ∀ e ∈ index,
      (∃ ids, p.store.listSession session = .ok ids ∧ e.2 ∈ ids) ∧ p.SummaryOf e.2 e.1 := by
  unfold summaryIndex at h
  split at h
  · obtain ⟨ids, hids, h⟩ := Loop.bind_eq_ok.mp h
    refine Loop.foldlM_inv (P := fun index => ∀ e ∈ index,
      (∃ ids, p.store.listSession session = .ok ids ∧ e.2 ∈ ids) ∧ p.SummaryOf e.2 e.1)
      (fun id hid s t hs ht => ?_) (s := []) (fun e he => absurd he List.not_mem_nil) h
    obtain ⟨found, hget, ht⟩ := Loop.bind_eq_ok.mp ht
    cases found with
    | none =>
      cases ht
      exact hs
    | some block =>
      simp only at ht
      split at ht
      · cases ht
        exact hs
      · rename_i hkind
        cases ht
        refine orInserts_entries hs fun parent hparent => ⟨⟨ids, Loop.mapError_eq_ok.mp hids, hid⟩, block, hget, ?_, hparent⟩
        simpa using hkind
  · cases h
    exact fun e he => absurd he List.not_mem_nil

theorem fillSystem_cases (budget : TokenCount) (st : PageState) (cand : Candidate) :
    st.Fits budget cand.tokens ∧ fillSystem budget st cand = st.push cand.id cand.tokens cand.score .highRelevance ∨
      fillSystem budget st cand = st.omit_ cand.id .budget cand.score := by
  unfold fillSystem
  split
  · rename_i hfits
    exact Or.inl ⟨hfits, rfl⟩
  · exact Or.inr rfl

/-- What the section fill does with one candidate. -/
inductive FillStep (p : GreedyPager) (env : FillEnv) (st : FillState) (cand : Candidate) : FillState → Prop
  | redundant : p.isRedundant st cand = true → FillStep p env st cand (st.leave cand .redundant)
  | taken : p.isRedundant st cand = false → st.Admits env cand.tokens →
      FillStep p env st cand { st.take cand.id cand.tokens cand.score with
        sectionWordSets := st.sectionWordSets ++ cand.wordSet.toList }
  | refused : p.isRedundant st cand = false → ¬st.Admits env cand.tokens → p.summaryOf env cand = none →
      FillStep p env st cand (st.leave cand .budget)
  /-- Its summary stands in for another candidate already. -/
  | covered {summaryId : BlockId} : p.isRedundant st cand = false → ¬st.Admits env cand.tokens →
      p.summaryOf env cand = some summaryId → summaryId ∈ st.compressedInto →
      FillStep p env st cand (st.leave cand .compressed)
  /-- Its summary is gone or does not fit either. -/
  | unfit {summaryId : BlockId} : p.isRedundant st cand = false → ¬st.Admits env cand.tokens →
      p.summaryOf env cand = some summaryId → summaryId ∉ st.compressedInto →
      (p.getBlock summaryId = .ok none ∨ ∃ n, p.Costs summaryId n ∧ ¬st.Admits env n) →
      FillStep p env st cand (st.leave cand .budget)
  | replaced {summaryId : BlockId} {n : TokenCount} : p.isRedundant st cand = false → ¬st.Admits env cand.tokens →
      p.summaryOf env cand = some summaryId → summaryId ∉ st.compressedInto → p.Costs summaryId n → st.Admits env n →
      FillStep p env st cand ({ st.take summaryId n cand.score with
        compressedInto := summaryId :: st.compressedInto }.leave cand .compressed)

theorem fillCandidate_step {env : FillEnv} {st st' : FillState} {cand : Candidate}
    (h : p.fillCandidate env st cand = .ok st') : FillStep p env st cand st' := by
  unfold fillCandidate at h
  split at h
  · rename_i hred
    cases h
    exact .redundant hred
  · rename_i hred
    simp only [Bool.not_eq_true] at hred
    split at h
    · rename_i hadmits
      cases h
      exact .taken hred hadmits
    · rename_i hadmits
      split at h
      · rename_i summaryId hsummary
        unfold substitute at h
        split at h
        · rename_i hold
          cases h
          exact .covered hred hadmits hsummary hold
        · rename_i hnew
          obtain ⟨found, hget, h⟩ := Loop.bind_eq_ok.mp h
          cases found with
          | none =>
            cases h
            exact .unfit hred hadmits hsummary hnew (Or.inl hget)
          | some sBlock =>
            obtain ⟨n, hn, h⟩ := Loop.bind_eq_ok.mp h
            split at h
            · rename_i hfits
              cases h
              exact .replaced hred hadmits hsummary hnew ⟨sBlock, hget, hn⟩ hfits
            · rename_i hfits
              cases h
              exact .unfit hred hadmits hsummary hnew (Or.inr ⟨n, ⟨sBlock, hget, hn⟩, hfits⟩)
      · rename_i hsummary
        cases h
        exact .refused hred hadmits hsummary

/-- One candidate of a section: left out, taken, or replaced by its summary. -/
theorem fillCandidate_inv {env : FillEnv} {st st' : FillState} {cand : Candidate}
    (h : p.fillCandidate env st cand = .ok st') :
    (∃ reason, st' = st.leave cand reason) ∨
      (p.isRedundant st cand = false ∧ st.Admits env cand.tokens ∧
        st' = { st.take cand.id cand.tokens cand.score with
          sectionWordSets := st.sectionWordSets ++ cand.wordSet.toList }) ∨
      ∃ summaryId n, p.isRedundant st cand = false ∧ ¬st.Admits env cand.tokens ∧
        p.summaryOf env cand = some summaryId ∧ summaryId ∉ st.compressedInto ∧ p.Costs summaryId n ∧
        st.Admits env n ∧
        st' = { st.take summaryId n cand.score with compressedInto := summaryId :: st.compressedInto }.leave cand
          .compressed := by
  cases fillCandidate_step h with
  | redundant | refused | covered | unfit => exact Or.inl ⟨_, rfl⟩
  | taken hred hadmits => exact Or.inr (Or.inl ⟨hred, hadmits, rfl⟩)
  | replaced hred hadmits hsummary hnew hcost hfits =>
    exact Or.inr (Or.inr ⟨_, _, hred, hadmits, hsummary, hnew, hcost, hfits, rfl⟩)

/-- One dependency: seen before, missing or refused, or pulled in and queued. -/
theorem pullDep_inv {budget : TokenCount} {depth : Nat} {st st' : ExpandState} {depId : BlockId}
    (h : p.pullDep budget depth st depId = .ok st') :
    depId ∈ st.visited ∧ st' = st ∨
      depId ∉ st.visited ∧ ((p.getBlock depId = .ok none ∨ ∃ n, p.Costs depId n ∧ ¬st.Fits budget n) ∧
          st' = { st with visited := depId :: st.visited } ∨
        ∃ n, p.Costs depId n ∧ st.Fits budget n ∧
          st' = { st with
            toPageState := st.push depId n 0 .dependency
            visited := depId :: st.visited
            frontier := st.frontier ++ [(depId, depth + 1)] }) := by
  unfold pullDep at h
  split at h
  · rename_i hseen
    cases h
    exact Or.inl ⟨hseen, rfl⟩
  · rename_i hseen
    refine Or.inr ⟨hseen, ?_⟩
    obtain ⟨found, hget, h⟩ := Loop.bind_eq_ok.mp h
    cases found with
    | none =>
      cases h
      exact Or.inl ⟨Or.inl hget, rfl⟩
    | some dep =>
      obtain ⟨n, hn, h⟩ := Loop.bind_eq_ok.mp h
      split at h
      · rename_i hfits
        cases h
        exact Or.inr ⟨n, ⟨dep, hget, hn⟩, hfits, rfl⟩
      · rename_i hfits
        cases h
        exact Or.inl ⟨Or.inr ⟨n, ⟨dep, hget, hn⟩, hfits⟩, rfl⟩

/-- One pass of the walk: the block is too deep or gone, or its dependencies are pulled in order. -/
theorem expandBlock_inv {order : HashOrder} {budget : TokenCount} {st st' : ExpandState} {entry : BlockId × Nat}
    (h : p.expandBlock order budget st entry = .ok st') :
    (p.scoring.edgePolicy.effectiveDepth ≤ entry.2 ∨ p.getBlock entry.1 = .ok none) ∧ st' = st ∨
      ∃ block deps, p.getBlock entry.1 = .ok (some block) ∧ entry.2 < p.scoring.edgePolicy.effectiveDepth ∧
        p.dependencies order st.reads block entry.1 = .ok deps ∧
        deps.foldlM (p.pullDep budget entry.2) { st with reads := st.reads + 1 } = .ok st' := by
  obtain ⟨id, depth⟩ := entry
  simp only [expandBlock] at h
  split at h
  · rename_i hdeep
    cases h
    exact Or.inl ⟨Or.inl hdeep, rfl⟩
  · rename_i hdepth
    obtain ⟨found, hget, h⟩ := Loop.bind_eq_ok.mp h
    cases found with
    | none =>
      cases h
      exact Or.inl ⟨Or.inr hget, rfl⟩
    | some block =>
      obtain ⟨deps, hdeps, h⟩ := Loop.bind_eq_ok.mp h
      exact Or.inr ⟨block, deps, hget, Nat.lt_of_not_le hdepth, hdeps, h⟩

/-- One pass of the rebuild: the block is dropped with its charge, or kept. -/
theorem rebuild_inv {v : Verdicts} {st st' : PageState} {x : BlockId × Selection} (h : p.rebuild v st x = .ok st') :
    (∃ reason, v.toRemove.lookup x.1 = some reason ∧
      (st' = st.omit_ x.1 reason x.2.score ∧ p.getBlock x.1 = .ok none ∨
        ∃ n, p.Costs x.1 n ∧
          st' = { st.omit_ x.1 reason x.2.score with blockTokens := st.blockTokens.saturatingSub n })) ∨
      v.toRemove.lookup x.1 = none ∧ ∃ note,
        st' = { st with selected := st.selected ++ [x.1], selections := st.selections ++ [{ x.2 with note }] } := by
  obtain ⟨id, sel⟩ := x
  simp only [rebuild] at h
  split at h
  · rename_i reason hlost
    obtain ⟨found, hget, h⟩ := Loop.bind_eq_ok.mp h
    cases found with
    | none =>
      cases h
      exact Or.inl ⟨reason, hlost, Or.inl ⟨rfl, hget⟩⟩
    | some block =>
      obtain ⟨n, hn, h⟩ := Loop.bind_eq_ok.mp h
      cases h
      exact Or.inl ⟨reason, hlost, Or.inr ⟨n, ⟨block, hget, hn⟩, rfl⟩⟩
  · rename_i hkept
    cases h
    exact Or.inr ⟨hkept, _, rfl⟩

/-- The verdict of one edge: none, a removal of a selected block that is not pinned, or a note. -/
theorem judgeEdge_inv {selectedSet pinned : List BlockId} {id : BlockId} {v v' : Verdicts} {e : Edge}
    (h : p.judgeEdge selectedSet pinned id v e = .ok v') :
    v' = v ∨ (∃ lost reason, lost ∉ pinned ∧ (reason = .supersededByDerived ∧
          p.scoring.edgePolicy.derivedFrom = .suppressSource ∨
          reason = .contradicted ∧ p.scoring.edgePolicy.contradicts = .preferNewer) ∧
        v' = { v with toRemove := orInsert v.toRemove lost reason }) ∨
      ∃ loser note, v' = { v with notes := orInsert v.notes loser note } := by
  unfold judgeEdge at h
  simp only at h
  split at h
  · rename_i hsource
    cases h
    exact Or.inr (Or.inl ⟨e.toId, _, hsource.2.2.2.2, Or.inl ⟨rfl, hsource.2.1⟩, rfl⟩)
  · split at h
    · obtain ⟨⟨loser, winner⟩, hresolve, h⟩ := Loop.bind_eq_ok.mp h
      split at h
      · rename_i hlost
        cases h
        exact Or.inr (Or.inl ⟨loser, _, hlost.2, Or.inr ⟨rfl, hlost.1⟩, rfl⟩)
      · cases h
        exact Or.inr (Or.inr ⟨loser, _, rfl⟩)
    · cases h
      exact Or.inl rfl

end Llm386.GreedyPager
