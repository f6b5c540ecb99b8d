import Llm386.Pager.Candidates
import Llm386.Pager.Hops
import Llm386.Pager.Reconcile

/-! # What becomes of each block

The required blocks come first and stay. Every candidate ends selected or omitted, through the fill, the expansion
and the reconciliation, and what is selected was required, surfaced, indexed as a summary or reached by the walk. -/

namespace Llm386

/-- The plan so far says what became of `id`. -/
def PageState.Holds (st : PageState) (id : BlockId) : Prop := id ∈ st.selected ∨ id ∈ st.omitted.map (·.blockId)

namespace GreedyPager
open PageState BreadthFirst

variable {p : GreedyPager} {budget : TokenCount} {order : HashOrder} {request : PageRequest}
  {summaryFor : List (BlockId × BlockId)} {C : Candidate → Prop}

/-- A retriever surfaces the block for the request. -/
def Surfaced (p : GreedyPager) (request : PageRequest) (id : BlockId) : Prop :=
  ∃ retriever ∈ p.retrievers, ∃ cands, retriever request.sessionId request.task RETRIEVAL_LIMIT = .ok cands ∧
    id ∈ cands.map (·.blockId)

/-- The block is indexed as the summary of a surfaced candidate that is omitted as compressed. -/
def StandsIn (p : GreedyPager) (request : PageRequest) (omitted : List OmittedBlock) (id : BlockId) : Prop :=
  ∃ index, p.summaryIndex request.sessionId = .ok index ∧
    ∃ o ∈ omitted, o.reason = .compressed ∧ p.Surfaced request o.blockId ∧ index.lookup o.blockId = some id

/-- What steps 1 to 5 leave. -/
def Filled (p : GreedyPager) (order : HashOrder) (request : PageRequest) (st : PageState) : Prop :=
  ∃ fixed scores bySection filled, p.pageFixed request = .ok fixed ∧ p.gather request = .ok scores ∧
    p.loadSections (order.scores scores) = .ok bySection ∧
    p.pageFill order request bySection (pageSystem request bySection fixed) = .ok filled ∧ st = filled.toPageState

/-! ### Candidates are what the retrievers surface -/

theorem mem_mergeScore_iff {required : List BlockId} {scores : List (BlockId × Float32)} {cand : RetrievalCandidate}
    {id : BlockId} : id ∈ (mergeScore required scores cand).map (·.1) ↔
      id ∈ scores.map (·.1) ∨ id = cand.blockId ∧ id ∉ required := by
  unfold mergeScore
  split
  · rename_i hreq
    refine ⟨Or.inl, fun h => h.elim (fun h => h) ?_⟩
    rintro ⟨rfl, hnot⟩
    exact absurd hreq hnot
  · rename_i hreq
    split
    · rename_i hold
      have hkeys : (scores.map fun (e : BlockId × Float32) =>
          if e.1 = cand.blockId ∧ e.2 < cand.score then (e.1, cand.score) else e).map (·.1) = scores.map (·.1) := by
        rw [List.map_map]
        refine List.map_congr_left fun e _ => ?_
        rw [Function.comp_apply]
        split <;> rfl
      rw [hkeys]
      refine ⟨Or.inl, fun h => h.elim (fun h => h) ?_⟩
      rintro ⟨rfl, -⟩
      exact hold
    · rw [List.map_append, List.mem_append, List.map_singleton, List.mem_singleton]
      refine or_congr Iff.rfl ⟨fun h => ⟨h, h ▸ hreq⟩, And.left⟩

theorem mem_mergeScores_iff {required : List BlockId} {cands : List RetrievalCandidate}
    {scores : List (BlockId × Float32)} {id : BlockId} :
    id ∈ (cands.foldl (mergeScore required) scores).map (·.1) ↔
      id ∈ scores.map (·.1) ∨ id ∈ cands.map (·.blockId) ∧ id ∉ required := by
  induction cands generalizing scores with
  | nil => simp
  | cons cand cands ih =>
    rw [List.foldl_cons, ih, mem_mergeScore_iff, List.map_cons, List.mem_cons]
    tauto

/-- The merged scores name exactly the surfaced blocks that are not required. -/
theorem gather_surfaced {scores : List (BlockId × Float32)} (h : p.gather request = .ok scores) {id : BlockId} :
    id ∈ scores.map (·.1) ↔ p.Surfaced request id ∧ id ∉ request.requiredBlocks := by
  have hrun : ∀ {retrievers : List Retriever} start, retrievers.foldlM (fun scores retriever => do
      let cands ← (retriever request.sessionId request.task RETRIEVAL_LIMIT).mapError PagerError.retrieval
      pure (cands.foldl (mergeScore request.requiredBlocks) scores)) start = .ok scores →
      (id ∈ scores.map (·.1) ↔ id ∈ start.map (·.1) ∨ (∃ retriever ∈ retrievers, ∃ cands,
        retriever request.sessionId request.task RETRIEVAL_LIMIT = .ok cands ∧ id ∈ cands.map (·.blockId)) ∧
        id ∉ request.requiredBlocks) := by
    intro retrievers
    induction retrievers with
    | nil =>
      intro start h
      cases h
      simp
    | cons retriever retrievers ih =>
      intro start h
      obtain ⟨next, hnext, h⟩ := Loop.foldlM_cons_eq_ok.mp h
      obtain ⟨cands, hcands, hnext⟩ := Loop.bind_eq_ok.mp hnext
      cases hnext
      rw [ih _ h, mem_mergeScores_iff, List.exists_mem_cons_iff, Loop.mapError_eq_ok.mp hcands]
      simp only [Except.ok.injEq, exists_eq_left']
      tauto
  simpa [Surfaced] using hrun [] h

/-- The candidates of all sections are the surfaced blocks that are stored and not required. -/
theorem exists_candidate {scores : List (BlockId × Float32)} {bySection : SectionKind → List Candidate}
    (hscores : p.gather request = .ok scores) (hsections : p.loadSections (order.scores scores) = .ok bySection)
    {id : BlockId} (hsurfaced : p.Surfaced request id) (hrequired : id ∉ request.requiredBlocks)
    (hstored : p.getBlock id ≠ .ok none) : ∃ s, ∃ cand ∈ bySection s, cand.id = id := by
  obtain ⟨entry, hentry, rfl⟩ := List.mem_map.mp ((gather_surfaced hscores).mpr ⟨hsurfaced, hrequired⟩)
  have hentry : entry ∈ order.scores scores := (order.scores_perm scores).mem_iff.mpr hentry
  obtain ⟨loaded, hloaded, -⟩ := loadSections_inv hsections
  obtain ⟨found, hload⟩ : ∃ found, p.loadCandidate entry = .ok found := by
    obtain ⟨before, after, hlist⟩ := List.append_of_mem hentry
    have hall := Loop.mapM_eq_ok_iff.mp hloaded
    obtain ⟨i, hi, hget⟩ := List.getElem_of_mem hentry
    have hlen := hall.length_eq
    exact ⟨loaded.get ⟨i, hlen ▸ hi⟩, hget ▸ hall.get hi (hlen ▸ hi)⟩
  cases found with
  | none =>
    obtain ⟨found, hget, hload⟩ := Loop.bind_eq_ok.mp hload
    cases found with
    | none => exact absurd hget hstored
    | some b =>
      obtain ⟨n, -, hload⟩ := Loop.bind_eq_ok.mp hload
      cases hload
  | some x =>
    obtain ⟨-, -, -, -, hid, -⟩ := loadCandidate_inv hload
    exact ⟨x.1, x.2, (mem_section_iff hsections).mpr ⟨entry, hentry, hload⟩, hid⟩

theorem candidate_surfaced {scores : List (BlockId × Float32)} {bySection : SectionKind → List Candidate}
    (hscores : p.gather request = .ok scores) (hsections : p.loadSections (order.scores scores) = .ok bySection)
    {s : SectionKind} {cand : Candidate} (hc : cand ∈ bySection s) :
    p.Surfaced request cand.id ∧ cand.id ∉ request.requiredBlocks := by
  obtain ⟨entry, hentry, hload⟩ := (mem_section_iff hsections).mp hc
  obtain ⟨-, -, -, -, hid, -⟩ := loadCandidate_inv hload
  rw [hid]
  exact (gather_surfaced hscores).mp (List.mem_map_of_mem ((order.scores_perm scores).mem_iff.mp hentry))

/-! ### The fill -/

theorem holds_push {st : PageState} {id x : BlockId} {n : TokenCount} {score : Float32} {reason : SelectionReason} :
    (st.push x n score reason).Holds id ↔ id = x ∨ st.Holds id := by
  simp only [PageState.Holds, PageState.push, List.mem_append, List.mem_singleton]
  tauto

theorem holds_omit {st : PageState} {id x : BlockId} {reason : OmissionReason} {score : Float32} :
    (st.omit_ x reason score).Holds id ↔ id = x ∨ st.Holds id := by
  simp only [PageState.Holds, PageState.omit_, List.map_append, List.mem_append, List.map_singleton, List.mem_singleton]
  tauto

theorem holds_fill (p : GreedyPager) (budget : TokenCount) (summaryFor : List (BlockId × BlockId)) (id : BlockId) :
    FillKept p budget (fun _ => True) summaryFor fun st => st.Holds id where
  leave _ h := holds_omit.mpr (Or.inr h)
  take _ h _ := holds_push.mpr (Or.inr h)
  replace _ h _ _ _ := holds_omit.mpr (Or.inr (holds_push.mpr (Or.inr h)))

theorem fillCandidate_holds {env : FillEnv} {st st' : FillState} {cand : Candidate}
    (h : p.fillCandidate env st cand = .ok st') : st'.Holds cand.id := by
  rcases fillCandidate_inv h with ⟨reason, rfl⟩ | ⟨-, -, rfl⟩ | ⟨S, n, -, -, -, -, -, -, rfl⟩
  · exact holds_omit.mpr (Or.inl rfl)
  · exact holds_push.mpr (Or.inl rfl)
  · exact holds_omit.mpr (Or.inl rfl)

theorem fillSystem_holds (p : GreedyPager) {cands : List Candidate} {st : PageState} {cand : Candidate}
    (hc : cand ∈ cands) : (cands.foldl (fillSystem budget) st).Holds cand.id := by
  obtain ⟨before, after, rfl⟩ := List.append_of_mem hc
  rw [List.foldl_append, List.foldl_cons]
  refine (holds_fill p budget [] cand.id).fillSystem (fun _ _ => trivial) ?_
  rcases fillSystem_cases budget (before.foldl (fillSystem budget) st) cand with ⟨-, heq⟩ | heq
  · rw [heq]
    exact holds_push.mpr (Or.inl rfl)
  · rw [heq]
    exact holds_omit.mpr (Or.inl rfl)

theorem fillSection_holds {allocation : SectionAllocation} {bySection : SectionKind → List Candidate}
    {st st' : FillState} {s : SectionKind} {cand : Candidate} (hc : cand ∈ bySection s)
    (h : p.fillSection budget allocation summaryFor bySection st s = .ok st') : st'.Holds cand.id := by
  have K := holds_fill p budget summaryFor cand.id
  unfold GreedyPager.fillSection at h
  split at h
  · cases h
    obtain ⟨before, after, hlist⟩ := List.append_of_mem hc
    rw [hlist, List.foldl_append, List.foldl_cons]
    exact K.slack (fun _ _ => trivial) (holds_omit.mpr (Or.inl rfl))
  · obtain ⟨before, after, u, v, -, -, hv, hafter⟩ := Loop.split_of_mem h hc
    exact Loop.foldlM_inv (P := fun (st : FillState) => st.Holds cand.id)
      (fun _ _ _ _ hI h => K.fillCandidate rfl rfl trivial hI h) (fillCandidate_holds hv) hafter

/-- After the fill every candidate of every section is selected or omitted. -/
theorem pageFill_holds {bySection : SectionKind → List Candidate} {st : PageState} {filled : FillState}
    (h : p.pageFill order request bySection (pageSystem request bySection st) = .ok filled) {s : SectionKind}
    {cand : Candidate} (hc : cand ∈ bySection s) : filled.Holds cand.id := by
  obtain ⟨index, -, hfill⟩ := Loop.bind_eq_ok.mp h
  have K := holds_fill p request.model.inputBudget index cand.id
  by_cases hs : s = .system
  · subst hs
    exact Loop.foldlM_inv (P := fun (st : FillState) => st.Holds cand.id)
      (fun _ _ _ _ hI h => K.fillSection (fun _ _ _ => trivial) hI h) (fillSystem_holds p hc) hfill
  · have hmem : s ∈ order.sections (variableSections bySection) := by
      rw [(order.sections_perm _).mem_iff]
      refine List.mem_filter.mpr ⟨by cases s <;> decide, ?_⟩
      simpa [hs] using List.ne_nil_of_mem hc
    obtain ⟨before, after, u, v, -, -, hv, hafter⟩ := Loop.split_of_mem hfill hmem
    exact Loop.foldlM_inv (P := fun (st : FillState) => st.Holds cand.id)
      (fun _ _ _ _ hI h => K.fillSection (fun _ _ _ => trivial) hI h) (fillSection_holds hc hv) hafter

/-- What the fill selects: required blocks, surfaced ones, and indexed summaries of what it leaves out. -/
theorem filled_sources {scores : List (BlockId × Float32)} {bySection : SectionKind → List Candidate}
    {fixed : PageState} {filled : FillState} (hfixed : p.pageFixed request = .ok fixed)
    (hscores : p.gather request = .ok scores) (hsections : p.loadSections (order.scores scores) = .ok bySection)
    (hfilled : p.pageFill order request bySection (pageSystem request bySection fixed) = .ok filled) :
    ∀ id ∈ filled.selected, id ∈ request.requiredBlocks ∨ p.Surfaced request id ∨
      p.StandsIn request filled.omitted id := by
  let I : PageState → Prop := fun st => ∀ id ∈ st.selected, id ∈ request.requiredBlocks ∨ p.Surfaced request id ∨
    p.StandsIn request st.omitted id
  have grow : ∀ {st : PageState} {cand : Candidate} {reason : OmissionReason}, I st →
      I (st.omit_ cand.id reason cand.score) := by
    intro st cand reason h id hid
    refine (h id hid).imp_right (Or.imp_right ?_)
    rintro ⟨index, hindex, o, ho, hrest⟩
    exact ⟨index, hindex, o, List.mem_append_left _ ho, hrest⟩
  have K : ∀ index, p.summaryIndex request.sessionId = .ok index →
      FillKept p request.model.inputBudget (fun cand => p.Surfaced request cand.id) index I := by
    intro index hindex
    refine ⟨fun _ h => grow h, fun hc h _ => ?_, fun {st cand summaryId n} hc h hS _ _ => ?_⟩
    · exact List.forall_mem_append.mpr ⟨h, List.forall_mem_singleton.mpr (Or.inr (Or.inl hc))⟩
    · intro id hid
      rcases List.mem_append.mp hid with hid | hid
      · exact grow h id hid
      · obtain rfl := List.mem_singleton.mp hid
        exact Or.inr (Or.inr ⟨index, hindex, ⟨cand.id, .compressed, cand.score⟩,
          List.mem_append_right _ (List.mem_singleton_self _), rfl, hc, hS⟩)
  refine FillKept.filled (I := I) K (fun _ _ hc => (candidate_surfaced hscores hsections hc).1) ?_ hfilled
  intro id hid
  exact Or.inl ((pageFixed_inv hfixed).1 ▸ hid)

/-! ### The expansion -/

theorem holds_pulls (p : GreedyPager) (budget : TokenCount) (id : BlockId) :
    PullKept p budget fun st => st.Holds id where
  pull h _ _ := holds_push.mpr (Or.inr h)

/-- The expansion omits nothing. -/
theorem omitted_pulls (p : GreedyPager) (budget : TokenCount) (omitted : List OmittedBlock) :
    PullKept p budget fun st => st.omitted = omitted where
  pull h _ _ := h

/-! ### Reconciliation -/

theorem Reconciled.holds {vs : List EdgeVerdict} {st st' : PageState} (h : Reconciled p vs st st') {id : BlockId}
    (hid : st.Holds id) : st'.Holds id := by
  obtain ⟨gone, homitted, hgone⟩ := h.omitted
  unfold PageState.Holds
  rw [h.selected, homitted, List.map_append, hgone]
  rcases hid with hid | hid
  · cases hdropped : EdgeVerdict.dropped vs id with
    | false => exact Or.inl (List.mem_filter.mpr ⟨hid, by simp [hdropped]⟩)
    | true => exact Or.inr (List.mem_append_right _ (List.mem_filter.mpr ⟨hid, hdropped⟩))
  · exact Or.inr (List.mem_append_left _ hid)

/-- Step 6 in its two stages. -/
theorem pageEdges_stages {st final : PageState} (hplain : Plain p st) (h : p.pageEdges order request st = .ok final) :
    ∃ expanded, (expanded = st ∨ p.scoring.edgePolicy.enabled = true ∧
        p.expandEdges order request.model.inputBudget st = .ok expanded) ∧ Plain p expanded ∧
      (final = expanded ∨ ∃ vs, p.allVerdicts expanded.selected (pinnedOf expanded) expanded.selected = .ok vs ∧
        Reconciled p vs expanded final) := by
  rcases pageEdges_inv h with ⟨-, rfl⟩ | ⟨henabled, expanded, hexpand, hrest⟩
  · exact ⟨final, Or.inl rfl, hplain, Or.inl rfl⟩
  · have hexpanded : Plain p expanded := plain_kept.pulls.expandEdges hplain hexpand
    refine ⟨expanded, Or.inr ⟨henabled, hexpand⟩, hexpanded, ?_⟩
    rcases hrest with ⟨-, rfl⟩ | ⟨-, hrec⟩
    · exact Or.inl rfl
    · exact Or.inr (reconcile_inv hexpanded hrec)

theorem pageEdges_holds {st final : PageState} (hplain : Plain p st) (h : p.pageEdges order request st = .ok final)
    {id : BlockId} (hid : st.Holds id) : final.Holds id := by
  obtain ⟨expanded, hexpand, -, hrec⟩ := pageEdges_stages hplain h
  have hexpanded : expanded.Holds id := by
    rcases hexpand with rfl | ⟨-, hexpand⟩
    · exact hid
    · exact (holds_pulls p _ id).expandEdges hid hexpand
  rcases hrec with rfl | ⟨vs, -, hrec⟩
  · exact hexpanded
  · exact hrec.holds hexpanded

/-! ### Required blocks -/

/-- The required blocks come first, each with its pin, and none is left out. -/
structure Pinned (required : List BlockId) (st : PageState) : Prop where
  first : (required.map fun id => (id, SelectionReason.pinned)) <+: st.selections.map fun sel => (sel.blockId, sel.reason)
  kept : ∀ o ∈ st.omitted, o.blockId ∉ required

theorem Pinned.push {required : List BlockId} {st : PageState} (h : Pinned required st) {id : BlockId} {n : TokenCount}
    {score : Float32} {reason : SelectionReason} : Pinned required (st.push id n score reason) where
  first := by
    rw [PageState.push, List.map_append]
    exact h.first.trans (List.prefix_append _ _)
  kept := h.kept

theorem Pinned.omit_ {required : List BlockId} {st : PageState} (h : Pinned required st) {id : BlockId}
    (hid : id ∉ required) {reason : OmissionReason} {score : Float32} :
    Pinned required (st.omit_ id reason score) where
  first := h.first
  kept := List.forall_mem_append.mpr ⟨h.kept, List.forall_mem_singleton.mpr hid⟩

theorem pinned_fill (p : GreedyPager) (budget : TokenCount) (required : List BlockId) :
    FillKept p budget (fun cand => cand.id ∉ required) summaryFor (Pinned required) where
  leave hc h := h.omit_ hc
  take _ h _ := h.push
  replace hc h _ _ _ := h.push.omit_ hc

theorem pinned_pulls (p : GreedyPager) (budget : TokenCount) (required : List BlockId) :
    PullKept p budget (Pinned required) where
  pull h _ _ := h.push

theorem pageFixed_pinned {st : PageState} (h : p.pageFixed request = .ok st) : Pinned request.requiredBlocks st := by
  obtain ⟨-, hnone, -⟩ := pageFixed_inv h
  obtain ⟨st₁, hrequired, h⟩ := Loop.bind_eq_ok.mp h
  obtain ⟨task, -, h⟩ := Loop.bind_eq_ok.mp h
  cases h
  let P : PageState → List BlockId → Prop := fun st rest =>
    (st.selections.map fun sel => (sel.blockId, sel.reason)) ++ rest.map (fun id => (id, SelectionReason.pinned)) =
      request.requiredBlocks.map fun id => (id, SelectionReason.pinned)
  have pass : ∀ id rest st st', P st (id :: rest) →
      p.selectRequired request.model.inputBudget st id = .ok st' → P st' rest := by
    intro id rest st st' hlist hstep
    obtain ⟨n, -, -, rfl⟩ := selectRequired_inv hstep
    simpa [P, PageState.push] using hlist
  have hlist := Loop.foldlM_inv_rest (P := P) pass (by simp [P, PageState.empty]) hrequired
  simp only [P] at hlist
  rw [List.map_nil, List.append_nil] at hlist
  exact ⟨hlist ▸ List.prefix_refl _, fun o ho => absurd (hnone ▸ ho) List.not_mem_nil⟩

/-- A required block is pinned, so no verdict drops it. -/
theorem Pinned.reconciled {required : List BlockId} {st st' : PageState} (h : Pinned required st)
    {vs : List EdgeVerdict} (hvs : p.allVerdicts st.selected (pinnedOf st) st.selected = .ok vs)
    (hrec : Reconciled p vs st st') : Pinned required st' := by
  have hpinned : ∀ id ∈ required, EdgeVerdict.dropped vs id = false := by
    intro id hid
    obtain ⟨sel, hsel, heq⟩ := List.mem_map.mp (h.first.subset (List.mem_map_of_mem hid))
    obtain ⟨rfl, hreason⟩ := Prod.mk.inj heq
    have hmem : sel.blockId ∈ pinnedOf st :=
      List.mem_map_of_mem (List.mem_filter.mpr ⟨hsel, by simpa using hreason⟩)
    by_contra hdropped
    exact not_pinned_of_dropped hvs (by simpa using hdropped) hmem
  constructor
  · have hfilter := h.first.filter fun x => !EdgeVerdict.dropped vs x.1
    have hall : (required.map fun id => (id, SelectionReason.pinned)).filter (fun x => !EdgeVerdict.dropped vs x.1) =
        required.map fun id => (id, SelectionReason.pinned) :=
      List.filter_eq_self.mpr fun x hx => by
        obtain ⟨id, hid, rfl⟩ := List.mem_map.mp hx
        simp [hpinned id hid]
    rw [hall, List.filter_map] at hfilter
    rw [hrec.selections, List.map_map]
    exact hfilter
  · obtain ⟨gone, homitted, hgone⟩ := hrec.omitted
    rw [homitted]
    refine List.forall_mem_append.mpr ⟨h.kept, fun o ho hid => ?_⟩
    have hdropped := (List.mem_filter.mp (hgone ▸ List.mem_map_of_mem ho : o.blockId ∈ _)).2
    rw [hpinned _ hid] at hdropped
    cases hdropped

/-! ### Plans -/

theorem plan_lockstep {st final : PageState} (hplain : Plain p st) (h : p.pageEdges order request st = .ok final) :
    final.selections.map (·.blockId) = final.selected := by
  obtain ⟨expanded, -, hexpanded, rfl | ⟨vs, -, hrec⟩⟩ := pageEdges_stages hplain h
  · exact hexpanded.lockstep
  · exact hrec.lockstep hexpanded.lockstep

/-- The required blocks open the selection in the order of the request, pinned, and none is omitted. -/
theorem page_keeps_required {plan : PagePlan} (h : p.page order request = .ok plan) :
    request.requiredBlocks <+: plan.selected ∧ ∀ id ∈ request.requiredBlocks, id ∈ plan.selected ∧
      (∃ sel ∈ plan.selections, sel.blockId = id ∧ sel.reason = .pinned) ∧
      id ∉ plan.omitted.map (·.blockId) := by
  obtain ⟨fixed, scores, bySection, filled, final, hfixed, hscores, hsections, hfilled, hfinal, rfl⟩ := page_inv h
  have hplain := filled_plain hfixed hsections hfilled
  have hfill : Pinned request.requiredBlocks filled.toPageState :=
    FillKept.filled (fun _ _ => pinned_fill p _ _) (fun _ _ hc => (candidate_surfaced hscores hsections hc).2)
      (pageFixed_pinned hfixed) hfilled
  obtain ⟨expanded, hexpand, -, hrec⟩ := pageEdges_stages hplain hfinal
  have hexpanded : Pinned request.requiredBlocks expanded := by
    rcases hexpand with rfl | ⟨-, hexpand⟩
    · exact hfill
    · exact (pinned_pulls p _ _).expandEdges hfill hexpand
  have hdone : Pinned request.requiredBlocks final := by
    rcases hrec with rfl | ⟨vs, hvs, hrec⟩
    · exact hexpanded
    · exact hexpanded.reconciled hvs hrec
  have hfirst : request.requiredBlocks <+: final.selected := by
    have hids := hdone.first.map Prod.fst
    rw [List.map_map, List.map_map] at hids
    rw [← plan_lockstep hplain hfinal]
    simpa [Function.comp_def] using hids
  refine ⟨hfirst, fun id hid => ⟨hfirst.subset hid, ?_, fun homitted => ?_⟩⟩
  · obtain ⟨sel, hsel, heq⟩ := List.mem_map.mp (hdone.first.subset (List.mem_map_of_mem hid))
    obtain ⟨hsame, hreason⟩ := Prod.mk.inj heq
    exact ⟨sel, hsel, hsame, hreason⟩
  · obtain ⟨o, ho, rfl⟩ := List.mem_map.mp homitted
    exact hdone.kept o ho hid

/-- Two required facts that contradict each other, the second also a source of the first, beside a third source. -/
def contestedPager : GreedyPager :=
  { GreedyPager.new (.ofLists [sampleBlock ⟨1⟩ .fact [0x61] [], sampleBlock ⟨2⟩ .fact [0x62] [], sampleBlock ⟨3⟩ .fact [0x63] []]
      [(⟨1⟩, ⟨1⟩), (⟨1⟩, ⟨2⟩), (⟨1⟩, ⟨3⟩)]
      [⟨⟨1⟩, ⟨2⟩, .contradicts⟩, ⟨⟨2⟩, ⟨1⟩, .derivedFrom⟩, ⟨⟨2⟩, ⟨3⟩, .derivedFrom⟩]) byteTokenizer (fun s => s) .insertion with
    scoring := { ScoringPolicy.default with
      edgePolicy := { EdgePolicy.default with derivedFrom := .suppressSource, contradicts := .preferNewer } } }

def contestedRequest : PageRequest := ⟨⟨1⟩, "", ⟨"model", ⟨100, by decide⟩, .zero, .zero, "bytes", true⟩, [⟨2⟩, ⟨1⟩]⟩

theorem page_keeps_required_sample : ∃ plan, contestedPager.page .canonical contestedRequest = .ok plan ∧
    plan.selected = [⟨2⟩, ⟨1⟩] ∧ (∃ sel ∈ plan.selections, sel.blockId = ⟨1⟩ ∧ sel.reason = .pinned) ∧
    ⟨1⟩ ∉ plan.omitted.map (·.blockId) := by
  obtain ⟨plan, hplan, hselected⟩ := exists_plan contestedPager .canonical contestedRequest [⟨2⟩, ⟨1⟩]
    (by decide +kernel)
  obtain ⟨-, hpinned, hkept⟩ := (page_keeps_required hplan).2 ⟨1⟩ (by decide)
  exact ⟨plan, hplan, hselected, hpinned, hkept⟩

/-- The fill does not select the block, and the walk of step 6 hops to it from what the fill selects, over blocks that it
selects itself. -/
def Reached (p : GreedyPager) (order : HashOrder) (request : PageRequest) (id : BlockId) : Prop :=
  p.scoring.edgePolicy.enabled = true ∧ ∃ filled expanded, p.Filled order request filled ∧
    p.expandEdges order request.model.inputBudget filled = .ok expanded ∧ id ∉ filled.selected ∧
    ReachedWithin p.Hop {x | x ∈ filled.selected} {x | x ∈ expanded.selected} p.scoring.edgePolicy.effectiveDepth id

/-- Every stored block that a retriever surfaces and the request does not require ends selected or omitted; what is
selected was required, surfaced, indexed as the summary of a compressed candidate, or reached; and the selections
keep step with the ids. -/
theorem page_conserves {plan : PagePlan} (h : p.page order request = .ok plan) :
    (∀ id, p.Surfaced request id → id ∉ request.requiredBlocks → (∃ b, p.store.get id = .ok (some b)) →
      id ∈ plan.selected ∨ id ∈ plan.omitted.map (·.blockId)) ∧
    (∀ id ∈ plan.selected, id ∈ request.requiredBlocks ∨ p.Surfaced request id ∨
      p.StandsIn request plan.omitted id ∨ p.Reached order request id) ∧
    plan.selections.map (·.blockId) = plan.selected := by
  obtain ⟨fixed, scores, bySection, filled, final, hfixed, hscores, hsections, hfilled, hfinal, rfl⟩ := page_inv h
  have hplain := filled_plain hfixed hsections hfilled
  refine ⟨fun id hsurfaced hrequired hstored => ?_, fun id hid => ?_, plan_lockstep hplain hfinal⟩
  · obtain ⟨b, hb⟩ := hstored
    obtain ⟨s, cand, hc, rfl⟩ := exists_candidate hscores hsections hsurfaced hrequired
      (by rw [getBlock, hb]; exact fun habs => by cases habs)
    exact pageEdges_holds hplain hfinal (pageFill_holds hfilled hc)
  · obtain ⟨expanded, hexpand, -, hrec⟩ := pageEdges_stages hplain hfinal
    obtain ⟨hselected, homitted⟩ : id ∈ expanded.selected ∧ ∀ o ∈ expanded.omitted, o ∈ final.omitted := by
      rcases hrec with rfl | ⟨vs, -, hrec⟩
      · exact ⟨hid, fun _ ho => ho⟩
      · obtain ⟨gone, homitted, -⟩ := hrec.omitted
        exact ⟨(List.mem_filter.mp (hrec.selected ▸ hid)).1, fun o ho => homitted ▸ List.mem_append_left _ ho⟩
    have source : ∀ o ∈ filled.omitted, o ∈ final.omitted := by
      rcases hexpand with rfl | ⟨-, hexpand⟩
      · exact homitted
      · have hsame : expanded.omitted = filled.omitted := (omitted_pulls p _ filled.omitted).expandEdges rfl hexpand
        exact hsame ▸ homitted
    have stands : id ∈ filled.selected → id ∈ request.requiredBlocks ∨ p.Surfaced request id ∨
        p.StandsIn request final.omitted id := by
      intro hid
      refine (filled_sources hfixed hscores hsections hfilled id hid).imp_right (Or.imp_right ?_)
      rintro ⟨index, hindex, o, ho, hrest⟩
      exact ⟨index, hindex, o, source o ho, hrest⟩
    rcases hexpand with rfl | ⟨henabled, hexpand⟩
    · exact (stands hselected).imp_right (Or.imp_right Or.inl)
    · obtain ⟨new, hadded, -, hnew⟩ := expandEdges_adds hexpand
      rcases List.mem_append.mp (hadded ▸ hselected) with hold | hid
      · exact (stands hold).imp_right (Or.imp_right Or.inl)
      · obtain ⟨hnot, -, hreached⟩ := hnew id hid
        exact Or.inr (Or.inr (Or.inr ⟨henabled, filled.toPageState, expanded,
          ⟨fixed, scores, bySection, filled, hfixed, hscores, hsections, hfilled, rfl⟩, hexpand, hnot, hreached⟩))

theorem page_conserves_sample : ∃ plan, contestedPager.page .canonical contestedRequest = .ok plan ∧
    plan.selected = [⟨2⟩, ⟨1⟩] ∧ ⟨3⟩ ∈ plan.omitted.map (·.blockId) ∧ plan.selections.map (·.blockId) = [⟨2⟩, ⟨1⟩] := by
  obtain ⟨plan, hplan, hselected⟩ := exists_plan contestedPager .canonical contestedRequest [⟨2⟩, ⟨1⟩]
    (by decide +kernel)
  obtain ⟨hlost, -, hlockstep⟩ := page_conserves hplan
  have hsurfaced : contestedPager.Surfaced contestedRequest ⟨3⟩ := by
    refine ⟨recencyRetriever contestedPager.store, List.mem_singleton_self _, ?_⟩
    have hrun : ((recencyRetriever contestedPager.store contestedRequest.sessionId contestedRequest.task
        RETRIEVAL_LIMIT).toOption.map fun cands => decide ((⟨3⟩ : BlockId) ∈ cands.map (·.blockId))) = some true := by
      decide +kernel
    obtain ⟨cands, hcands, hmem⟩ := Option.map_eq_some_iff.mp hrun
    exact ⟨cands, Loop.toOption_eq_some.mp hcands, of_decide_eq_true hmem⟩
  have hmem := hlost ⟨3⟩ hsurfaced (by decide) ⟨sampleBlock ⟨3⟩ .fact [0x63] [], rfl⟩
  rw [hselected] at hmem hlockstep
  exact ⟨plan, hplan, hselected, hmem.resolve_left (by decide), hlockstep⟩

end GreedyPager

end Llm386
