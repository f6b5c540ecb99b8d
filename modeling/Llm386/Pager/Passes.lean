import Llm386.Pager.Steps

/-! # Rules for the passes of the pager

The passes after the required blocks change the selection in three ways only: a candidate is recorded as omitted, a
stored block that fits is selected and charged, or both at once when a summary stands in for a candidate. What the
fill keeps (`FillKept`) and what the expansion keeps (`PullKept`) holds after every pass of theirs. -/

namespace Llm386.GreedyPager
open PageState

variable {p : GreedyPager} {budget : TokenCount} {order : HashOrder} {I : PageState → Prop}
  {C : Candidate → Prop} {summaryFor : List (BlockId × BlockId)}

/-- `I` survives what the fill does with a candidate of `C`: it is left out, selected, or replaced by the summary
that is indexed for it. -/
structure FillKept (p : GreedyPager) (budget : TokenCount) (C : Candidate → Prop)
    (summaryFor : List (BlockId × BlockId)) (I : PageState → Prop) : Prop where
  leave : ∀ {st cand reason}, C cand → I st → I (st.omit_ cand.id reason cand.score)
  take : ∀ {st cand}, C cand → I st → st.Fits budget cand.tokens →
    I (st.push cand.id cand.tokens cand.score .highRelevance)
  replace : ∀ {st cand summaryId n}, C cand → I st → summaryFor.lookup cand.id = some summaryId →
    p.Costs summaryId n → st.Fits budget n →
    I ((st.push summaryId n cand.score .highRelevance).omit_ cand.id .compressed cand.score)

/-- `I` survives the selection of a dependency that fits. -/
structure PullKept (p : GreedyPager) (budget : TokenCount) (I : PageState → Prop) : Prop where
  pull : ∀ {st id n}, I st → p.Costs id n → st.Fits budget n → I (st.push id n 0 .dependency)

/-- `I` survives an omission and the selection of a stored block that fits. -/
structure Kept (p : GreedyPager) (budget : TokenCount) (I : PageState → Prop) : Prop where
  omit_ : ∀ {st id reason score}, I st → I (st.omit_ id reason score)
  push : ∀ {st id n score reason}, I st → p.Costs id n → st.Fits budget n → reason ≠ .pinned →
    I (st.push id n score reason)

theorem Kept.fill (K : Kept p budget I) : FillKept p budget (fun cand => p.Costs cand.id cand.tokens) summaryFor I where
  leave _ h := K.omit_ h
  take hcost h hfits := K.push h hcost hfits (by decide)
  replace _ h _ hcost hfits := K.omit_ (K.push h hcost hfits (by decide))

theorem Kept.pulls (K : Kept p budget I) : PullKept p budget I where
  pull h hcost hfits := K.push h hcost hfits (by decide)

/-- A candidate of a section carries the cost of its stored block. -/
theorem costs_of_mem_section {scores : List (BlockId × Float32)} {bySection : SectionKind → List Candidate}
    (h : p.loadSections scores = .ok bySection) {s : SectionKind} {cand : Candidate} (hc : cand ∈ bySection s) :
    p.Costs cand.id cand.tokens := by
  obtain ⟨loaded, hloaded, hperm⟩ := loadSections_inv h
  obtain ⟨x, hx, rfl⟩ := List.mem_map.mp ((hperm s).mem_iff.mp hc)
  obtain ⟨o, ho, rfl⟩ := List.mem_filterMap.mp (List.mem_filter.mp hx).1
  obtain ⟨entry, -, hentry⟩ := Loop.exists_of_mem_mapM hloaded ho
  obtain ⟨b, hget, htokens, -, hid, -⟩ := loadCandidate_inv hentry
  exact ⟨b, by rw [hid]; exact hget, htokens⟩

theorem summaryOf_inv {env : FillEnv} {cand : Candidate} {summaryId : BlockId}
    (h : p.summaryOf env cand = some summaryId) : env.summaryFor.lookup cand.id = some summaryId := by
  unfold summaryOf at h
  split at h
  · exact h
  · cases h

section Fill
variable (K : FillKept p budget C summaryFor I)
include K

theorem FillKept.fillSystem {cands : List Candidate} (hc : ∀ cand ∈ cands, C cand) {st : PageState} (h : I st) :
    I (cands.foldl (fillSystem budget) st) := by
  induction cands generalizing st with
  | nil => exact h
  | cons cand cands ih =>
    refine ih (fun c hc' => hc c (List.mem_cons_of_mem _ hc')) ?_
    rcases fillSystem_cases budget st cand with ⟨hfits, heq⟩ | heq
    · rw [heq]
      exact K.take (hc cand List.mem_cons_self) h hfits
    · rw [heq]
      exact K.leave (hc cand List.mem_cons_self) h

theorem FillKept.fillCandidate {env : FillEnv} (henv : env.inputBudget = budget) (hindex : env.summaryFor = summaryFor)
    {st st' : FillState} {cand : Candidate} (hc : C cand) (hI : I st.toPageState)
    (h : p.fillCandidate env st cand = .ok st') : I st'.toPageState := by
  subst henv hindex
  rcases fillCandidate_inv h with ⟨reason, rfl⟩ | ⟨-, hadmits, rfl⟩ | ⟨S, n, -, -, hsummary, -, hS, hadmits, rfl⟩
  · exact K.leave hc hI
  · exact K.take hc hI hadmits.2
  · exact K.replace hc hI (summaryOf_inv hsummary) hS hadmits.2

theorem FillKept.slack {cands : List Candidate} (hc : ∀ cand ∈ cands, C cand) {st : FillState}
    (h : I st.toPageState) : I (cands.foldl (fun st cand => st.leave cand .budget) st).toPageState := by
  induction cands generalizing st with
  | nil => exact h
  | cons cand cands ih =>
    exact @ih (fun c hc' => hc c (List.mem_cons_of_mem _ hc')) (st.leave cand .budget) (K.leave (hc cand List.mem_cons_self) h)

theorem FillKept.fillSection {allocation : SectionAllocation} {bySection : SectionKind → List Candidate}
    (hc : ∀ s, ∀ cand ∈ bySection s, C cand) {st st' : FillState} {s : SectionKind} (hI : I st.toPageState)
    (h : p.fillSection budget allocation summaryFor bySection st s = .ok st') : I st'.toPageState := by
  unfold GreedyPager.fillSection at h
  split at h
  · cases h
    exact K.slack (hc s) hI
  · exact Loop.foldlM_inv (P := fun (st : FillState) => I st.toPageState)
      (fun cand hcand _ _ hI h => K.fillCandidate rfl rfl (hc s cand hcand) hI h) (by exact hI) h

end Fill

/-- Steps 4 and 5. -/
theorem FillKept.filled {request : PageRequest} {bySection : SectionKind → List Candidate}
    (K : ∀ summaryFor, p.summaryIndex request.sessionId = .ok summaryFor →
      FillKept p request.model.inputBudget C summaryFor I)
    (hc : ∀ s, ∀ cand ∈ bySection s, C cand) {st : PageState} {filled : FillState} (hI : I st)
    (h : p.pageFill order request bySection (pageSystem request bySection st) = .ok filled) :
    I filled.toPageState := by
  obtain ⟨summaryFor, hindex, h⟩ := Loop.bind_eq_ok.mp h
  have hsystem : I (pageSystem request bySection st) := (K summaryFor hindex).fillSystem (hc .system) hI
  exact Loop.foldlM_inv (P := fun (st : FillState) => I st.toPageState)
    (fun s _ _ _ hI h => (K summaryFor hindex).fillSection hc hI h) (by exact hsystem) h

theorem Kept.filled {request : PageRequest} {scores : List (BlockId × Float32)}
    {bySection : SectionKind → List Candidate} (K : Kept p request.model.inputBudget I)
    (hsections : p.loadSections scores = .ok bySection) {st : PageState} {filled : FillState} (hI : I st)
    (h : p.pageFill order request bySection (pageSystem request bySection st) = .ok filled) : I filled.toPageState :=
  FillKept.filled (fun _ _ => K.fill) (fun _ _ hc => costs_of_mem_section hsections hc) hI h

/-- Steps 4 and 5 for an invariant of the whole state of the section fill. -/
theorem filled_rule {request : PageRequest} {bySection : SectionKind → List Candidate} {I : FillState → Prop}
    (summaryFor : List (BlockId × BlockId)) (hindex : p.summaryIndex request.sessionId = .ok summaryFor)
    (enter : ∀ {st}, I st → I st.enter)
    (slack : ∀ {st cand}, cand ∈ bySection .slack → I st → I (st.leave cand .budget))
    (step : ∀ {st st' s cand env}, cand ∈ bySection s → env.summaryFor = summaryFor → I st → FillStep p env st cand st' →
      I st') {st : PageState} {filled : FillState} (h0 : I (fillStart (pageSystem request bySection st)))
    (h : p.pageFill order request bySection (pageSystem request bySection st) = .ok filled) : I filled := by
  obtain ⟨index, hindex', h⟩ := Loop.bind_eq_ok.mp h
  cases hindex.symm.trans hindex'
  refine Loop.foldlM_inv (P := I) (fun s _ u t hI hsection => ?_) h0 h
  unfold GreedyPager.fillSection at hsection
  split at hsection
  · rename_i hs
    cases hsection
    have hslack : ∀ (cands : List Candidate) (u : FillState), (∀ cand ∈ cands, cand ∈ bySection s) → I u →
        I (cands.foldl (fun st cand => st.leave cand .budget) u) := by
      intro cands
      induction cands with
      | nil => exact fun _ _ hu => hu
      | cons cand cands ih =>
        intro u hsub hu
        exact ih _ (fun c hc => hsub c (List.mem_cons_of_mem _ hc)) (slack (hs ▸ hsub cand List.mem_cons_self) hu)
    exact hslack _ u (fun _ hc => hc) hI
  · exact Loop.foldlM_inv (P := I) (fun cand hcand _ _ hI hfill => step hcand rfl hI (fillCandidate_step hfill))
      (enter hI) hsection

section Expand
variable (K : PullKept p budget I)
include K

theorem PullKept.pullDep {depth : Nat} {st st' : ExpandState} {depId : BlockId} (hI : I st.toPageState)
    (h : p.pullDep budget depth st depId = .ok st') : I st'.toPageState := by
  rcases pullDep_inv h with ⟨-, rfl⟩ | ⟨-, ⟨-, rfl⟩ | ⟨n, hcost, hfits, rfl⟩⟩
  · exact hI
  · exact hI
  · exact K.pull hI hcost hfits

theorem PullKept.expandBlock {st st' : ExpandState} {entry : BlockId × Nat} (hI : I st.toPageState)
    (h : p.expandBlock order budget st entry = .ok st') : I st'.toPageState := by
  rcases expandBlock_inv h with ⟨-, rfl⟩ | ⟨block, deps, -, -, -, h⟩
  · exact hI
  · exact Loop.foldlM_inv (P := fun (st : ExpandState) => I st.toPageState)
      (fun _ _ _ _ hI h => K.pullDep hI h) (by exact hI) h

theorem PullKept.expandLoop {fuel : Nat} {st st' : ExpandState} (hI : I st.toPageState)
    (h : p.expandLoop order budget fuel st = .ok st') : I st'.toPageState := by
  induction fuel generalizing st with
  | zero =>
    cases h
    exact hI
  | succ fuel ih =>
    rw [GreedyPager.expandLoop] at h
    split at h
    · cases h
      exact hI
    · obtain ⟨st₁, h₁, h⟩ := Loop.bind_eq_ok.mp h
      exact ih (K.expandBlock (by exact hI) h₁) h

theorem PullKept.expandEdges {st st' : PageState} (hI : I st) (h : p.expandEdges order budget st = .ok st') :
    I st' := by
  unfold GreedyPager.expandEdges at h
  split at h
  · cases h
    exact hI
  · obtain ⟨done, hdone, h⟩ := Loop.bind_eq_ok.mp h
    cases h
    exact K.expandLoop (by exact hI) hdone

end Expand

/-- The stages of a plan. -/
theorem page_inv {request : PageRequest} {plan : PagePlan} (h : p.page order request = .ok plan) :
    ∃ fixed scores bySection filled final, p.pageFixed request = .ok fixed ∧ p.gather request = .ok scores ∧
      p.loadSections (order.scores scores) = .ok bySection ∧
      p.pageFill order request bySection (pageSystem request bySection fixed) = .ok filled ∧
      p.pageEdges order request filled.toPageState = .ok final ∧
      plan = ⟨final.selected, final.selections, final.omitted, final.blockTokens⟩ := by
  unfold page at h
  split at h
  · cases h
  · obtain ⟨fixed, hfixed, h⟩ := Loop.bind_eq_ok.mp h
    obtain ⟨scores, hscores, h⟩ := Loop.bind_eq_ok.mp h
    obtain ⟨bySection, hsections, h⟩ := Loop.bind_eq_ok.mp h
    obtain ⟨filled, hfilled, h⟩ := Loop.bind_eq_ok.mp h
    obtain ⟨final, hfinal, h⟩ := Loop.bind_eq_ok.mp h
    cases h
    exact ⟨fixed, scores, bySection, filled, final, hfixed, hscores, hsections, hfilled, hfinal, rfl⟩

/-- A plan is known from its selection. -/
theorem exists_plan (p : GreedyPager) (order : HashOrder) (request : PageRequest) (selected : List BlockId)
    (h : (p.page order request).toOption.map (·.selected) = some selected) :
    ∃ plan, p.page order request = .ok plan ∧ plan.selected = selected := by
  cases hpage : p.page order request with
  | error e => simp [hpage, Except.toOption] at h
  | ok plan => exact ⟨plan, rfl, by simpa [hpage, Except.toOption] using h⟩

/-- Step 6: nothing, expansion, or expansion and reconciliation. -/
theorem pageEdges_inv {request : PageRequest} {st final : PageState}
    (h : p.pageEdges order request st = .ok final) :
    p.scoring.edgePolicy.enabled = false ∧ final = st ∨
      p.scoring.edgePolicy.enabled = true ∧ ∃ expanded,
        p.expandEdges order request.model.inputBudget st = .ok expanded ∧
        (p.scoring.edgePolicy.reconciles = false ∧ final = expanded ∨
          p.scoring.edgePolicy.reconciles = true ∧ p.reconcileEdges expanded = .ok final) := by
  unfold pageEdges at h
  split at h
  · rename_i henabled
    obtain ⟨expanded, hexpanded, h⟩ := Loop.bind_eq_ok.mp h
    refine Or.inr ⟨henabled, expanded, hexpanded, ?_⟩
    split at h
    · rename_i hrec
      exact Or.inr ⟨hrec, h⟩
    · rename_i hrec
      cases h
      exact Or.inl ⟨by simpa using hrec, rfl⟩
  · rename_i henabled
    cases h
    exact Or.inl ⟨by simpa using henabled, rfl⟩

/-! ### Selections without notes -/

/-- Before reconciliation: what is selected is stored, has its selection in lockstep, and carries no note. -/
structure Plain (p : GreedyPager) (st : PageState) : Prop where
  costed : ∀ id ∈ st.selected, ∃ n, p.Costs id n
  lockstep : st.selections.map (·.blockId) = st.selected
  unnoted : ∀ sel ∈ st.selections, sel.note = none

theorem Plain.push {st : PageState} (h : Plain p st) {id : BlockId} {n : TokenCount} (hcost : p.Costs id n)
    (score : Float32) (reason : SelectionReason) : Plain p (st.push id n score reason) where
  costed x hx := by
    rcases List.mem_append.mp hx with hx | hx
    · exact h.costed x hx
    · obtain rfl := List.mem_singleton.mp hx
      exact ⟨n, hcost⟩
  lockstep := by simp [PageState.push, h.lockstep]
  unnoted sel hsel := by
    rcases List.mem_append.mp hsel with hsel | hsel
    · exact h.unnoted sel hsel
    · obtain rfl := List.mem_singleton.mp hsel
      rfl

theorem plain_kept : Kept p budget (Plain p) where
  omit_ h := { h with }
  push h hcost _ _ := h.push hcost _ _

/-- The required blocks are selected in their order. -/
theorem pageFixed_inv {request : PageRequest} {st : PageState} (h : p.pageFixed request = .ok st) :
    st.selected = request.requiredBlocks ∧ st.omitted = [] ∧ Plain p st := by
  obtain ⟨st₁, hrequired, h⟩ := Loop.bind_eq_ok.mp h
  obtain ⟨task, -, h⟩ := Loop.bind_eq_ok.mp h
  cases h
  let P : PageState → List BlockId → Prop := fun st rest =>
    st.selected ++ rest = request.requiredBlocks ∧ st.omitted = [] ∧ Plain p st
  have start : P .empty request.requiredBlocks :=
    ⟨rfl, rfl, fun _ hid => absurd hid List.not_mem_nil, rfl, fun _ hsel => absurd hsel List.not_mem_nil⟩
  have pass : ∀ id rest st st', P st (id :: rest) →
      p.selectRequired request.model.inputBudget st id = .ok st' → P st' rest := by
    rintro id rest st st' ⟨hlist, hnone, hplain⟩ hstep
    obtain ⟨n, hcost, -, rfl⟩ := selectRequired_inv hstep
    exact ⟨by simpa [PageState.push] using hlist, hnone, hplain.push hcost _ _⟩
  obtain ⟨hlist, hnone, hplain⟩ := Loop.foldlM_inv_rest pass start hrequired
  exact ⟨by simpa using hlist, hnone, { hplain with }⟩

/-- The system section leaves blocks out for their size only. -/
theorem pageSystem_omitted {request : PageRequest} {bySection : SectionKind → List Candidate} {fixed : PageState}
    (h : p.pageFixed request = .ok fixed) :
    ∀ o ∈ (pageSystem request bySection fixed).omitted, o.reason = .budget := by
  have hfold : ∀ (cands : List Candidate) (st : PageState), (∀ o ∈ st.omitted, o.reason = .budget) →
      ∀ o ∈ (cands.foldl (fillSystem request.model.inputBudget) st).omitted, o.reason = .budget := by
    intro cands
    induction cands with
    | nil => exact fun _ hst => hst
    | cons cand cands ih =>
      intro st hst
      refine ih _ ?_
      rcases fillSystem_cases request.model.inputBudget st cand with ⟨-, heq⟩ | heq
      · rw [heq]
        exact hst
      · rw [heq]
        exact List.forall_mem_append.mpr ⟨hst, List.forall_mem_singleton.mpr rfl⟩
  refine hfold _ fixed fun o ho => ?_
  rw [(pageFixed_inv h).2.1] at ho
  cases ho

theorem filled_plain {request : PageRequest} {fixed : PageState} {scores : List (BlockId × Float32)}
    {bySection : SectionKind → List Candidate} {filled : FillState} (hfixed : p.pageFixed request = .ok fixed)
    (hsections : p.loadSections scores = .ok bySection)
    (hfilled : p.pageFill order request bySection (pageSystem request bySection fixed) = .ok filled) :
    Plain p filled.toPageState := by
  exact plain_kept.filled hsections (pageFixed_inv hfixed).2.2 hfilled

/-! ### Reconciliation -/

theorem map_fst_zip_sublist {α β : Type} (l : List α) (l' : List β) : ((l.zip l').map (·.1)).Sublist l := by
  induction l generalizing l' with
  | nil => simp
  | cons x l ih =>
    cases l' with
    | nil => simp
    | cons y l' => simpa using ih l'

/-- Reconciliation never pulls a block in. -/
theorem reconcile_sublist {st st' : PageState} (h : p.reconcileEdges st = .ok st') :
    st'.selected.Sublist st.selected := by
  obtain ⟨v, -, h⟩ := Loop.bind_eq_ok.mp h
  split at h
  · cases h
    exact List.Sublist.refl _
  · let P : PageState → List (BlockId × Selection) → Prop := fun st' rest =>
      (st'.selected ++ rest.map (·.1)).Sublist st.selected
    have pass : ∀ x rest st₁ st₂, P st₁ (x :: rest) → p.rebuild v st₁ x = .ok st₂ → P st₂ rest := by
      intro x rest st₁ st₂ hP hstep
      rcases rebuild_inv hstep with ⟨reason, -, ⟨rfl, -⟩ | ⟨n, -, rfl⟩⟩ | ⟨-, note, rfl⟩
      · exact (List.Sublist.append_left (List.sublist_cons_self ..) _).trans hP
      · exact (List.Sublist.append_left (List.sublist_cons_self ..) _).trans hP
      · simpa [P] using hP
    have start : P { st with selected := [], selections := [] } (st.selected.zip st.selections) := by
      simpa [P] using map_fst_zip_sublist st.selected st.selections
    have done := Loop.foldlM_inv_rest pass start h
    simpa [P] using done

/-- Under a policy that drops nothing, reconciliation only annotates. -/
theorem reconcile_selected {st st' : PageState} (hsource : p.scoring.edgePolicy.derivedFrom ≠ .suppressSource)
    (hnewer : p.scoring.edgePolicy.contradicts ≠ .preferNewer)
    (hlock : st.selections.map (·.blockId) = st.selected) (h : p.reconcileEdges st = .ok st') :
    st'.selected = st.selected := by
  obtain ⟨v, hv, h⟩ := Loop.bind_eq_ok.mp h
  have hnone : v.toRemove = [] := by
    refine Loop.foldlM_inv (P := fun (v : Verdicts) => v.toRemove = []) (fun id _ v₁ v₂ hP hblock => ?_) (by rfl) hv
    obtain ⟨edges, -, hedges⟩ := Loop.bind_eq_ok.mp hblock
    refine Loop.foldlM_inv (P := fun (v : Verdicts) => v.toRemove = []) (fun e _ v₁ v₂ hP hedge => ?_) hP hedges
    rcases judgeEdge_inv hedge with rfl | ⟨lost, reason, -, ⟨-, habs⟩ | ⟨-, habs⟩, -⟩ | ⟨loser, note, rfl⟩
    · exact hP
    · exact absurd habs hsource
    · exact absurd habs hnewer
    · exact hP
  split at h
  · cases h
    rfl
  · let P : PageState → List (BlockId × Selection) → Prop := fun st' rest =>
      st'.selected ++ rest.map (·.1) = st.selected
    have pass : ∀ x rest st₁ st₂, P st₁ (x :: rest) → p.rebuild v st₁ x = .ok st₂ → P st₂ rest := by
      intro x rest st₁ st₂ hP hstep
      rcases rebuild_inv hstep with ⟨reason, hlost, -⟩ | ⟨-, note, rfl⟩
      · simp [hnone] at hlost
      · simpa [P] using hP
    have start : P { st with selected := [], selections := [] } (st.selected.zip st.selections) := by
      have hlen : st.selected.length ≤ st.selections.length := by rw [← hlock, List.length_map]
      simp [P, List.map_fst_zip hlen]
    simpa [P] using Loop.foldlM_inv_rest pass start h

/-- Every block of a plan is stored and has a cost. -/
theorem page_costed {request : PageRequest} {plan : PagePlan} (h : p.page order request = .ok plan) :
    ∀ id ∈ plan.selected, ∃ n, p.Costs id n := by
  obtain ⟨fixed, scores, bySection, filled, final, hfixed, -, hsections, hfilled, hfinal, rfl⟩ := page_inv h
  have hplain := filled_plain hfixed hsections hfilled
  rcases pageEdges_inv hfinal with ⟨-, rfl⟩ | ⟨-, expanded, hexpand, ⟨-, rfl⟩ | ⟨-, hrec⟩⟩
  · exact hplain.costed
  · exact (plain_kept.pulls.expandEdges hplain hexpand).costed
  · exact fun id hid => (plain_kept.pulls.expandEdges hplain hexpand).costed id ((reconcile_sublist hrec).subset hid)

end Llm386.GreedyPager
