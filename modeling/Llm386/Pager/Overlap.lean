import Llm386.Pager.Superseded
import Llm386.Pager.Turns

/-! # Blocks both selected and omitted

What a pass omits is not looked at again when a later step selects: a summary may stand in although it was left out
as a candidate, a candidate may be left out although it stands in, and the walk may pull in what the fill left out.
Only reconciliation takes such a block out of the selection again. -/

namespace Llm386

/-- The block is both selected and omitted. -/
def PageState.Both (id : BlockId) (st : PageState) : Prop := id ∈ st.selected ∧ id ∈ st.omitted.map (·.blockId)

namespace GreedyPager
open PageState

variable {p : GreedyPager} {budget : TokenCount} {order : HashOrder} {id : BlockId} {request : PageRequest}

/-- The step of the section fill leaves the candidate out. -/
def LeavesOut (p : GreedyPager) (env : FillEnv) (st : FillState) (cand : Candidate) : Prop :=
  p.isRedundant st cand = true ∨ ¬st.Admits env cand.tokens

/-- The step of the section fill selects `id` as the summary of the candidate. -/
def Substitutes (p : GreedyPager) (env : FillEnv) (st : FillState) (cand : Candidate) (id : BlockId) : Prop :=
  p.isRedundant st cand = false ∧ ¬st.Admits env cand.tokens ∧ p.summaryOf env cand = some id ∧
    id ∉ st.compressedInto ∧ ∃ n, p.Costs id n ∧ st.Admits env n

/-- The step omits `id` though it stands in for another block, or selects `id` though it is omitted. -/
def Clashes (p : GreedyPager) (id : BlockId) (env : FillEnv) (st : FillState) (cand : Candidate) : Prop :=
  cand.id = id ∧ id ∈ st.compressedInto ∧ p.LeavesOut env st cand ∨
    p.Substitutes env st cand id ∧ id ∈ st.omitted.map (·.blockId)

/-- A clash in one section; what is routed to `Slack` is always left out. -/
def SectionClashes (p : GreedyPager) (id : BlockId) (budget : TokenCount) (allocation : SectionAllocation)
    (summaryFor : List (BlockId × BlockId)) (bySection : SectionKind → List Candidate) (st : FillState)
    (s : SectionKind) : Prop :=
  if s = .slack then id ∈ st.compressedInto ∧ ∃ cand ∈ bySection s, cand.id = id
  else ∃ x ∈ Loop.visited (p.fillCandidate (sectionEnv budget allocation summaryFor s)) st.enter (bySection s),
    p.Clashes id (sectionEnv budget allocation summaryFor s) x.1 x.2

/-- A clash in the section fill. -/
def FillClashes (p : GreedyPager) (order : HashOrder) (request : PageRequest) (id : BlockId) : Prop :=
  ∃ fixed scores bySection summaryFor, p.pageFixed request = .ok fixed ∧ p.gather request = .ok scores ∧
    p.loadSections (order.scores scores) = .ok bySection ∧ p.summaryIndex request.sessionId = .ok summaryFor ∧
    let st := pageSystem request bySection fixed
    let allocation := p.pageAllocation request st
    ∃ x ∈ Loop.visited (p.fillSection request.model.inputBudget allocation summaryFor bySection) (fillStart st)
      (order.sections (variableSections bySection)),
      p.SectionClashes id request.model.inputBudget allocation summaryFor bySection x.1 x.2

/-! ### The fill -/

theorem mem_omitted_leave {st : FillState} {cand : Candidate} {reason : OmissionReason} :
    id ∈ (st.leave cand reason).omitted.map (·.blockId) ↔ id ∈ st.omitted.map (·.blockId) ∨ id = cand.id := by
  simp [FillState.leave, PageState.omit_]

theorem mem_selected_take {st : FillState} {x : BlockId} {n : TokenCount} {score : Float32} :
    id ∈ (st.take x n score).selected ↔ id ∈ st.selected ∨ id = x := by
  simp [FillState.take, PageState.push]

/-- The substitution omits its candidate, and selects the summary when that is new, stored and fits. -/
theorem substitute_sets (id : BlockId) {env : FillEnv} {st st' : FillState} {cand : Candidate} {summaryId : BlockId}
    (h : p.substitute env st cand summaryId = .ok st') :
    (id ∈ st'.selected ↔ id ∈ st.selected ∨ id = summaryId ∧ summaryId ∉ st.compressedInto ∧
      ∃ n, p.Costs summaryId n ∧ st.Admits env n) ∧
    (id ∈ st'.omitted.map (·.blockId) ↔ id ∈ st.omitted.map (·.blockId) ∨ id = cand.id) := by
  unfold substitute at h
  split at h
  · rename_i hold
    cases h
    exact ⟨⟨Or.inl, fun h => h.resolve_right fun h => h.2.1 hold⟩, mem_omitted_leave⟩
  · rename_i hnew
    obtain ⟨found, hget, h⟩ := Loop.bind_eq_ok.mp h
    cases found with
    | none =>
      cases h
      refine ⟨⟨Or.inl, fun h => h.resolve_right ?_⟩, mem_omitted_leave⟩
      rintro ⟨-, -, n, hcost, -⟩
      exact hcost.not_missing hget
    | some sBlock =>
      obtain ⟨n, hn, h⟩ := Loop.bind_eq_ok.mp h
      have hcost : p.Costs summaryId n := ⟨sBlock, hget, hn⟩
      split at h
      · rename_i hadmits
        cases h
        have htake : id ∈ (st.take summaryId n cand.score).selected ↔ id ∈ st.selected ∨ id = summaryId :=
          mem_selected_take
        exact ⟨htake.trans (or_congr Iff.rfl ⟨fun heq => ⟨heq, hnew, n, hcost, hadmits⟩, And.left⟩),
          mem_omitted_leave⟩
      · rename_i hadmits
        cases h
        refine ⟨⟨Or.inl, fun h => h.resolve_right ?_⟩, mem_omitted_leave⟩
        rintro ⟨-, -, m, hm, hfits⟩
        exact hadmits (hcost.unique hm ▸ hfits)

/-- What one step of the section fill adds to either list. -/
theorem fillCandidate_sets (id : BlockId) {env : FillEnv} {st st' : FillState} {cand : Candidate}
    (h : p.fillCandidate env st cand = .ok st') :
    (id ∈ st'.selected ↔ id ∈ st.selected ∨ id = cand.id ∧ ¬p.LeavesOut env st cand ∨ p.Substitutes env st cand id) ∧
    (id ∈ st'.omitted.map (·.blockId) ↔ id ∈ st.omitted.map (·.blockId) ∨ id = cand.id ∧ p.LeavesOut env st cand) := by
  unfold fillCandidate at h
  split at h
  · rename_i hred
    cases h
    refine ⟨?_, ?_⟩
    · simp [LeavesOut, Substitutes, hred, FillState.leave, PageState.omit_]
    · simp [LeavesOut, hred, mem_omitted_leave]
  · rename_i hred
    simp only [Bool.not_eq_true] at hred
    split at h
    · rename_i hadmits
      cases h
      refine ⟨?_, ?_⟩
      · simp only [LeavesOut, Substitutes, hred, hadmits, mem_selected_take]
        simp
      · simp [LeavesOut, hred, hadmits, FillState.take, PageState.push]
    · rename_i hadmits
      split at h
      · rename_i summaryId hsummary
        obtain ⟨hselected, homitted⟩ := substitute_sets id h
        rw [hselected, homitted]
        simp only [LeavesOut, Substitutes, hred, hadmits, hsummary, Option.some.injEq]
        refine ⟨or_congr Iff.rfl ?_, by simp⟩
        constructor
        · rintro ⟨rfl, hrest⟩
          exact Or.inr ⟨trivial, not_false, rfl, hrest⟩
        · rintro (⟨-, habs⟩ | ⟨-, -, rfl, hrest⟩)
          · exact absurd (Or.inr not_false) habs
          · exact ⟨rfl, hrest⟩
      · rename_i hsummary
        cases h
        refine ⟨?_, ?_⟩
        · simp [LeavesOut, Substitutes, hadmits, hsummary, FillState.leave, PageState.omit_]
        · simp [LeavesOut, hadmits, mem_omitted_leave]

/-- No block stands in for itself: where the candidate does not fit, neither does it as its own summary. -/
theorem not_substitutes_self (env : FillEnv) (st : FillState) {cand : Candidate}
    (hcost : p.Costs cand.id cand.tokens) : ¬p.Substitutes env st cand cand.id := by
  rintro ⟨-, hadmits, -, -, n, hn, hfits⟩
  exact hadmits (hcost.unique hn ▸ hfits)

/-- A step of the section fill leaves a block in both lists when it was in both or the step clashes on it. -/
theorem fillCandidate_both {env : FillEnv} {st st' : FillState} {cand : Candidate} {rest : List Candidate}
    (hcost : p.Costs cand.id cand.tokens) (h : Coming st (cand :: rest))
    (hstep : p.fillCandidate env st cand = .ok st') :
    Both id st'.toPageState ↔ Both id st.toPageState ∨ p.Clashes id env st cand := by
  obtain ⟨hselected, homitted⟩ := fillCandidate_sets id hstep
  have hlater : cand.id ∉ st.omitted.map (·.blockId) := h.later cand List.mem_cons_self
  have hstands : cand.id ∈ st.selected ↔ cand.id ∈ st.compressedInto :=
    ⟨h.early cand List.mem_cons_self, h.compressed _⟩
  have hself := not_substitutes_self env st hcost
  unfold Both Clashes
  rw [hselected, homitted]
  by_cases hid : id = cand.id
  · subst hid
    simp only [hlater, hstands, hself]
    tauto
  · simp only [hid, Ne.symm hid, false_and, or_false, false_or]
    tauto

theorem slack_both {cands rest : List Candidate} {st : FillState} (h : Coming st (cands ++ rest)) :
    Both id (cands.foldl (fun st cand => st.leave cand .budget) st).toPageState ↔
      Both id st.toPageState ∨ id ∈ st.compressedInto ∧ ∃ cand ∈ cands, cand.id = id := by
  induction cands generalizing st with
  | nil => simp
  | cons cand cands ih =>
    have hstands : cand.id ∈ st.selected ↔ cand.id ∈ st.compressedInto :=
      ⟨h.early cand List.mem_cons_self, h.compressed _⟩
    have hleave : Both id (st.leave cand .budget).toPageState ↔
        Both id st.toPageState ∨ id ∈ st.compressedInto ∧ cand.id = id := by
      unfold Both
      rw [mem_omitted_leave, show (st.leave cand .budget).selected = st.selected from rfl]
      by_cases hid : id = cand.id
      · subst hid
        simp only [hstands]
        tauto
      · simp only [hid, Ne.symm hid]
        tauto
    rw [List.foldl_cons, ih (h.leave .budget), hleave, List.exists_mem_cons_iff, and_or_left, or_assoc]
    rfl

theorem fillSection_both {allocation : SectionAllocation} {summaryFor : List (BlockId × BlockId)}
    {bySection : SectionKind → List Candidate} (hcosts : ∀ s, ∀ cand ∈ bySection s, p.Costs cand.id cand.tokens)
    {st st' : FillState} {s : SectionKind} {rest : List Candidate} (h : Coming st (bySection s ++ rest))
    (hstep : p.fillSection budget allocation summaryFor bySection st s = .ok st') :
    Both id st'.toPageState ↔
      Both id st.toPageState ∨ p.SectionClashes id budget allocation summaryFor bySection st s := by
  unfold SectionClashes
  by_cases hs : s = .slack
  · rw [GreedyPager.fillSection, if_pos hs] at hstep
    cases hstep
    rw [if_pos hs]
    exact slack_both h
  · rw [GreedyPager.fillSection, if_neg hs] at hstep
    have turn : ∀ cand cands u t, Coming u (cand :: cands ++ rest) ∧ (∀ c ∈ cand :: cands, p.Costs c.id c.tokens) →
        p.fillCandidate (sectionEnv budget allocation summaryFor s) u cand = .ok t →
        (Coming t (cands ++ rest) ∧ ∀ c ∈ cands, p.Costs c.id c.tokens) ∧
          (Both id t.toPageState ↔ Both id u.toPageState ∨
            p.Clashes id (sectionEnv budget allocation summaryFor s) u cand) := by
      rintro cand cands u t ⟨hI, hc⟩ hfill
      exact ⟨⟨hI.fillCandidate hfill, fun c hc' => hc c (List.mem_cons_of_mem _ hc')⟩,
        fillCandidate_both (hc cand List.mem_cons_self) hI hfill⟩
    obtain ⟨-, hcollect⟩ := Loop.foldlM_collects
      (I := fun st cands => Coming st (cands ++ rest) ∧ ∀ c ∈ cands, p.Costs c.id c.tokens)
      (P := fun (st : FillState) => Both id st.toPageState) turn ⟨h.enter, hcosts s⟩ hstep
    rw [if_neg hs]
    exact hcollect

/-! ### The expansion -/

/-- The dependency comes up for the first time in the walk, is stored and fits. -/
def Takes (p : GreedyPager) (budget : TokenCount) (id : BlockId) (st : ExpandState) (depId : BlockId) : Prop :=
  depId = id ∧ depId ∉ st.visited ∧ ∃ n, p.Costs depId n ∧ st.Fits budget n

/-- The pass of the walk over the block at the head of the queue takes `id`. -/
def VisitTakes (p : GreedyPager) (order : HashOrder) (budget : TokenCount) (id : BlockId) (st : ExpandState)
    (entry : BlockId × Nat) : Prop :=
  ∃ block deps, p.getBlock entry.1 = .ok (some block) ∧ entry.2 < p.scoring.edgePolicy.effectiveDepth ∧
    p.dependencies order st.reads block entry.1 = .ok deps ∧
    ∃ x ∈ Loop.visited (p.pullDep budget entry.2) { st with reads := st.reads + 1 } deps, p.Takes budget id x.1 x.2

/-- Some pass of the walk takes `id`. -/
def WalkTakes (p : GreedyPager) (order : HashOrder) (budget : TokenCount) (id : BlockId) : Nat → ExpandState → Prop
  | 0, _ => False
  | fuel + 1, st => ∃ entry rest, st.frontier = entry :: rest ∧
      (p.VisitTakes order budget id { st with frontier := rest } entry ∨
        ∃ st', p.expandBlock order budget { st with frontier := rest } entry = .ok st' ∧
          WalkTakes p order budget id fuel st')

/-- The expansion of `st` pulls `id` in. -/
def PullsIn (p : GreedyPager) (order : HashOrder) (budget : TokenCount) (id : BlockId) (st : PageState) : Prop :=
  p.scoring.edgePolicy.enabled = true ∧ p.scoring.edgePolicy.effectiveDepth ≠ 0 ∧
    p.WalkTakes order budget id (expandFuel st) (expandStart st)

theorem pullDep_takes {depth : Nat} {st st' : ExpandState} {depId : BlockId}
    (h : p.pullDep budget depth st depId = .ok st') :
    id ∈ st'.selected ↔ id ∈ st.selected ∨ p.Takes budget id st depId := by
  rcases pullDep_inv h with ⟨hseen, rfl⟩ | ⟨hseen, ⟨hwhy, rfl⟩ | ⟨n, hcost, hfits, rfl⟩⟩
  · exact ⟨Or.inl, fun h => h.resolve_right fun h => h.2.1 hseen⟩
  · refine ⟨Or.inl, fun h => h.resolve_right ?_⟩
    rintro ⟨-, -, m, hm, hfits⟩
    rcases hwhy with hnone | ⟨n, hcost, hover⟩
    · exact hm.not_missing hnone
    · exact hover (hm.unique hcost ▸ hfits)
  · have hpush : id ∈ (st.push depId n 0 .dependency).selected ↔ id ∈ st.selected ∨ id = depId := by
      simp [PageState.push]
    exact hpush.trans (or_congr Iff.rfl ⟨fun heq => ⟨heq.symm, hseen, n, hcost, hfits⟩, fun h => h.1.symm⟩)

theorem expandBlock_takes {st st' : ExpandState} {entry : BlockId × Nat}
    (h : p.expandBlock order budget st entry = .ok st') :
    id ∈ st'.selected ↔ id ∈ st.selected ∨ p.VisitTakes order budget id st entry := by
  unfold VisitTakes
  rcases expandBlock_inv h with ⟨hwhy, rfl⟩ | ⟨block, deps, hget, hdepth, hdeps, hpull⟩
  · refine ⟨Or.inl, fun h => h.resolve_right ?_⟩
    rintro ⟨block, deps, hget, hdepth, -⟩
    rcases hwhy with hdeep | hnone
    · exact absurd hdepth (Nat.not_lt_of_le hdeep)
    · rw [hnone] at hget
      cases hget
  · obtain ⟨-, hcollect⟩ := Loop.foldlM_collects (I := fun _ _ => True)
      (P := fun (st : ExpandState) => id ∈ st.selected) (fun _ _ _ _ _ hs => ⟨trivial, pullDep_takes hs⟩) trivial hpull
    rw [hcollect]
    refine or_congr Iff.rfl ⟨fun h => ⟨block, deps, hget, hdepth, hdeps, h⟩, ?_⟩
    rintro ⟨block', deps', hget', -, hdeps', h⟩
    cases hget.symm.trans hget'
    cases hdeps.symm.trans hdeps'
    exact h

theorem expandLoop_takes {fuel : Nat} {st st' : ExpandState} (h : p.expandLoop order budget fuel st = .ok st') :
    id ∈ st'.selected ↔ id ∈ st.selected ∨ p.WalkTakes order budget id fuel st := by
  induction fuel generalizing st with
  | zero =>
    cases h
    simp [WalkTakes]
  | succ fuel ih =>
    rw [GreedyPager.expandLoop] at h
    split at h
    · rename_i hqueue
      cases h
      simp [WalkTakes, hqueue]
    · rename_i entry rest hqueue
      obtain ⟨st₁, hstep, h⟩ := Loop.bind_eq_ok.mp h
      rw [ih h, expandBlock_takes hstep, or_assoc]
      refine or_congr Iff.rfl ⟨?_, ?_⟩
      · rintro (hvisit | hwalk)
        · exact ⟨entry, rest, hqueue, Or.inl hvisit⟩
        · exact ⟨entry, rest, hqueue, Or.inr ⟨st₁, hstep, hwalk⟩⟩
      · rintro ⟨entry', rest', hqueue', hwalk⟩
        cases hqueue.symm.trans hqueue'
        refine hwalk.imp_right ?_
        rintro ⟨st₂, hstep', hwalk⟩
        cases hstep.symm.trans hstep'
        exact hwalk

/-- The expansion leaves in both lists what was there, and what it pulls in that was omitted. -/
theorem expandEdges_both {st st' : PageState} (henabled : p.scoring.edgePolicy.enabled = true)
    (h : p.expandEdges order budget st = .ok st') :
    Both id st' ↔ Both id st ∨ id ∈ st.omitted.map (·.blockId) ∧ p.PullsIn order budget id st := by
  have homitted : st'.omitted = st.omitted := (omitted_pulls p budget st.omitted).expandEdges rfl h
  have hselected : id ∈ st'.selected ↔ id ∈ st.selected ∨ p.PullsIn order budget id st := by
    unfold PullsIn
    rcases expandEdges_cases h with ⟨hdepth, rfl⟩ | ⟨hdepth, done, hdone, rfl⟩
    · simp [hdepth]
    · rw [expandLoop_takes hdone]
      simp [henabled, hdepth, expandStart]
  unfold Both
  rw [hselected, homitted]
  tauto

/-! ### Plans -/

theorem Filled.unique {st st' : PageState} (h : p.Filled order request st) (h' : p.Filled order request st') :
    st = st' := by
  obtain ⟨fixed, scores, bySection, filled, hfixed, hscores, hsections, hfilled, rfl⟩ := h
  obtain ⟨fixed', scores', bySection', filled', hfixed', hscores', hsections', hfilled', rfl⟩ := h'
  cases hfixed.symm.trans hfixed'
  cases hscores.symm.trans hscores'
  cases hsections.symm.trans hsections'
  cases hfilled.symm.trans hfilled'
  rfl

/-- A step of the fill clashes on the block, or the expansion pulls it in although the fill left it out. -/
def Doubles (p : GreedyPager) (order : HashOrder) (request : PageRequest) (id : BlockId) : Prop :=
  p.FillClashes order request id ∨ ∃ st, p.Filled order request st ∧ id ∈ st.omitted.map (·.blockId) ∧
    p.PullsIn order request.model.inputBudget id st

/-- Another block of the expanded selection supersedes the block, which is not pinned. -/
def Withdraws (p : GreedyPager) (order : HashOrder) (request : PageRequest) (id : BlockId) : Prop :=
  p.scoring.edgePolicy.enabled = true ∧ ∃ st expanded, p.Filled order request st ∧
    p.expandEdges order request.model.inputBudget st = .ok expanded ∧ id ∈ expanded.selected ∧ id ∉ pinnedOf expanded ∧
    p.Superseded expanded.selected id

/-- The fill leaves in both lists what some step clashes on. -/
theorem filled_both {fixed : PageState} {scores : List (BlockId × Float32)} {bySection : SectionKind → List Candidate}
    {filled : FillState} (hfixed : p.pageFixed request = .ok fixed) (hscores : p.gather request = .ok scores)
    (hsections : p.loadSections (order.scores scores) = .ok bySection)
    (hfilled : p.pageFill order request bySection (pageSystem request bySection fixed) = .ok filled) :
    Both id filled.toPageState ↔ p.FillClashes order request id := by
  obtain ⟨summaryFor, hsummary, hfill⟩ := Loop.bind_eq_ok.mp hfilled
  have hcosts : ∀ s, ∀ cand ∈ bySection s, p.Costs cand.id cand.tokens := fun _ _ => costs_of_mem_section hsections
  let allocation := p.pageAllocation request (pageSystem request bySection fixed)
  have step : ∀ s rest u t, Coming u (bySection s ++ rest) →
      p.fillSection request.model.inputBudget allocation summaryFor bySection u s = .ok t →
      (Both id t.toPageState ↔ Both id u.toPageState ∨
        p.SectionClashes id request.model.inputBudget allocation summaryFor bySection u s) :=
    fun s rest u t hI h => fillSection_both hcosts hI h
  have hcollect := fill_collects (P := Both id) ?_ step hfixed hscores hsections hfill
  · have hnone : ¬Both id fixed := fun h => by
      have hout := h.2
      rw [(pageFixed_inv hfixed).2.1] at hout
      cases hout
    rw [hcollect, or_iff_right hnone]
    constructor
    · exact fun h => ⟨fixed, scores, bySection, summaryFor, hfixed, hscores, hsections, hsummary, h⟩
    · rintro ⟨fixed', scores', bySection', summaryFor', hfixed', hscores', hsections', hsummary', h⟩
      cases hfixed.symm.trans hfixed'
      cases hscores.symm.trans hscores'
      cases hsections.symm.trans hsections'
      cases hsummary.symm.trans hsummary'
      exact h
  · -- A system candidate enters one list only, and was in neither.
    intro cand rest st hI
    obtain ⟨hselected, homitted, -⟩ := hI.fillSystem request.model.inputBudget
    unfold Both
    rcases fillSystem_cases request.model.inputBudget st cand with ⟨-, heq⟩ | heq
    · rw [heq]
      simp only [PageState.push, List.mem_append, List.mem_singleton]
      constructor
      · rintro ⟨hsel | rfl, hout⟩
        · exact ⟨hsel, hout⟩
        · exact absurd hout homitted
      · exact fun h => ⟨Or.inl h.1, h.2⟩
    · rw [heq]
      simp only [PageState.omit_, List.map_append, List.mem_append, List.map_singleton, List.mem_singleton]
      constructor
      · rintro ⟨hsel, hout | rfl⟩
        · exact ⟨hsel, hout⟩
        · exact absurd hsel hselected
      · exact fun h => ⟨h.1, Or.inl h.2⟩

/-- Reconciliation leaves in both lists what was there and is not dropped. -/
theorem Reconciled.both {vs : List EdgeVerdict} {st st' : PageState} (h : Reconciled p vs st st') :
    Both id st' ↔ Both id st ∧ ¬EdgeVerdict.dropped vs id = true := by
  obtain ⟨gone, homitted, hgone⟩ := h.omitted
  unfold Both
  rw [h.selected, homitted, List.map_append, hgone]
  simp only [List.mem_append, List.mem_filter, Bool.not_eq_true']
  cases EdgeVerdict.dropped vs id <;> simp

/-- A block ends in both lists when it is doubled and not withdrawn. -/
theorem page_both {plan : PagePlan} (h : p.page order request = .ok plan) (id : BlockId) :
    (id ∈ plan.selected ∧ id ∈ plan.omitted.map (·.blockId)) ↔
      p.Doubles order request id ∧ ¬p.Withdraws order request id := by
  obtain ⟨fixed, scores, bySection, filled, final, hfixed, hscores, hsections, hfilled, hfinal, rfl⟩ := page_inv h
  have hthis : p.Filled order request filled.toPageState :=
    ⟨fixed, scores, bySection, filled, hfixed, hscores, hsections, hfilled, rfl⟩
  have hfill : Both id filled.toPageState ↔ p.FillClashes order request id := filled_both hfixed hscores hsections hfilled
  have hdoubles : p.Doubles order request id ↔ Both id filled.toPageState ∨
      id ∈ filled.omitted.map (·.blockId) ∧ p.PullsIn order request.model.inputBudget id filled.toPageState := by
    refine or_congr hfill.symm ⟨?_, fun h => ⟨_, hthis, h⟩⟩
    rintro ⟨st, hst, hrest⟩
    cases hst.unique hthis
    exact hrest
  show Both id final ↔ _
  rcases pageEdges_inv hfinal with ⟨henabled, rfl⟩ | ⟨henabled, expanded, hexpand, hrest⟩
  · rw [hdoubles]
    simp [PullsIn, Withdraws, henabled]
  · rw [hdoubles, ← expandEdges_both henabled hexpand]
    rcases hrest with ⟨hquiet, rfl⟩ | ⟨hrec, hreconcile⟩
    · -- A policy that supersedes nothing withdraws nothing.
      refine (and_iff_left ?_).symm
      rintro ⟨-, st, expanded, -, -, -, -, hsuperseded⟩
      exact not_superseded_of_quiet hquiet hsuperseded
    · have hplain := plain_kept.pulls.expandEdges (filled_plain hfixed hsections hfilled) hexpand
      obtain ⟨vs, hvs, hreconciled⟩ := reconcile_inv hplain hreconcile
      rw [hreconciled.both, dropped_iff_superseded (fun id hid => ?_) hvs]
      · refine and_congr Iff.rfl (not_congr ⟨fun h => ⟨henabled, _, _, hthis, hexpand, h⟩, ?_⟩)
        rintro ⟨-, st, expanded', hst, hexpand', hdropped⟩
        cases hst.unique hthis
        cases hexpand.symm.trans hexpand'
        exact hdropped
      · obtain ⟨n, b, hb, -⟩ := hplain.costed id hid
        exact ⟨b, hb⟩

/-- A plan never both selects and omits a block exactly when each block that is doubled is withdrawn. -/
theorem page_disjoint {plan : PagePlan} (h : p.page order request = .ok plan) :
    (∀ id ∈ plan.selected, id ∉ plan.omitted.map (·.blockId)) ↔
      ∀ id, p.Doubles order request id → p.Withdraws order request id := by
  have hboth := page_both h
  constructor
  · intro hdisjoint id hdoubles
    by_contra hkept
    obtain ⟨hselected, homitted⟩ := (hboth id).mpr ⟨hdoubles, hkept⟩
    exact hdisjoint id hselected homitted
  · intro hall id hselected homitted
    obtain ⟨hdoubles, hkept⟩ := (hboth id).mp ⟨hselected, homitted⟩
    exact hkept (hall id hdoubles)

/-! ### A fact that does not fit its section

The section of the facts has no room for the second fact, the whole prompt has, and the first one is supported by
it. -/

def overlapPager : GreedyPager :=
  .new (.ofLists [sampleBlock ⟨1⟩ .fact [0x61] [], sampleBlock ⟨2⟩ .fact (List.replicate 50 0x62) []]
    [(⟨1⟩, ⟨1⟩), (⟨1⟩, ⟨2⟩)] [⟨⟨1⟩, ⟨2⟩, .supports⟩]) byteTokenizer (fun s => s) .insertion

def overlapRequest : PageRequest := ⟨⟨1⟩, "", ⟨"model", .saturate 100, .zero, .zero, "bytes", true⟩, []⟩

/-- The lists of a plan. -/
theorem exists_lists (p : GreedyPager) (order : HashOrder) (request : PageRequest) (selected omitted : List BlockId)
    (h : (p.page order request).toOption.map (fun plan => (plan.selected, plan.omitted.map (·.blockId))) =
      some (selected, omitted)) :
    ∃ plan, p.page order request = .ok plan ∧ plan.selected = selected ∧ plan.omitted.map (·.blockId) = omitted := by
  obtain ⟨plan, hplan, heq⟩ := Option.map_eq_some_iff.mp h
  obtain ⟨hselected, homitted⟩ := Prod.mk.inj heq
  exact ⟨plan, Loop.toOption_eq_some.mp hplan, hselected, homitted⟩

theorem page_overlaps : ∃ plan, overlapPager.page .canonical overlapRequest = .ok plan ∧
    (⟨2⟩ : BlockId) ∈ plan.selected ∧ (⟨2⟩ : BlockId) ∈ plan.omitted.map (·.blockId) := by
  obtain ⟨plan, hplan, hselected, homitted⟩ := exists_lists overlapPager .canonical overlapRequest
    [⟨1⟩, ⟨2⟩] [⟨2⟩] (by decide +kernel)
  exact ⟨plan, hplan, by rw [hselected]; decide, by rw [homitted]; decide⟩

theorem page_disjoint_sample :
    (∀ id, contestedPager.Doubles .canonical contestedRequest id →
      contestedPager.Withdraws .canonical contestedRequest id) ∧
    ¬∀ id, overlapPager.Doubles .canonical overlapRequest id → overlapPager.Withdraws .canonical overlapRequest id := by
  constructor
  · obtain ⟨plan, hplan, hselected, homitted⟩ := exists_lists contestedPager .canonical contestedRequest
      [⟨2⟩, ⟨1⟩] [⟨3⟩] (by decide +kernel)
    refine (page_disjoint hplan).mp ?_
    rw [hselected, homitted]
    decide
  · obtain ⟨plan, hplan, hselected, homitted⟩ := exists_lists overlapPager .canonical overlapRequest
      [⟨1⟩, ⟨2⟩] [⟨2⟩] (by decide +kernel)
    intro hall
    have hdisjoint := (page_disjoint hplan).mpr hall
    rw [hselected, homitted] at hdisjoint
    exact absurd hdisjoint (by decide)

end GreedyPager

end Llm386
