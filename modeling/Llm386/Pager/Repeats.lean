import Llm386.Pager.Expansion
import Llm386.Pager.Turns

/-! # Repeated blocks

A block enters the selection once from the required list, once as a candidate and once by expansion, and each of
these excludes the others. A substituted summary is checked against the summaries substituted before, but not
against the selection: where it is selected already, or is a candidate that is selected later, it is selected
twice. These are the only repeats. -/

namespace Llm386

/-- Reconciliation drops blocks under this policy. -/
def EdgePolicy.Drops (policy : EdgePolicy) : Prop :=
  policy.enabled = true ∧ (policy.derivedFrom = .suppressSource ∨ policy.contradicts = .preferNewer)

namespace GreedyPager
open PageState

variable {p : GreedyPager} {budget : TokenCount} {order : HashOrder}

/-- The step of the section fill that selects a block a second time: the candidate fits and stands in already as a
summary, or it does not fit and its summary, which does, is selected already. -/
def Repeats (p : GreedyPager) (env : FillEnv) (st : FillState) (cand : Candidate) : Prop :=
  p.isRedundant st cand = false ∧
    (st.Admits env cand.tokens ∧ cand.id ∈ st.compressedInto ∨
      ¬st.Admits env cand.tokens ∧ ∃ summaryId n, p.summaryOf env cand = some summaryId ∧
        summaryId ∉ st.compressedInto ∧ p.Costs summaryId n ∧ st.Admits env n ∧ summaryId ∈ st.selected)

/-- No step of one section's fill repeats a block. -/
def SectionOnce (p : GreedyPager) (env : FillEnv) (st : FillState) (cands : List Candidate) : Prop :=
  ∀ x ∈ Loop.visited (p.fillCandidate env) st.enter cands, ¬p.Repeats env x.1 x.2

/-- No step of the section fill repeats a block. -/
def FillOnce (p : GreedyPager) (order : HashOrder) (request : PageRequest) : Prop :=
  ∀ fixed scores bySection summaryFor, p.pageFixed request = .ok fixed → p.gather request = .ok scores →
    p.loadSections (order.scores scores) = .ok bySection → p.summaryIndex request.sessionId = .ok summaryFor →
    let st := pageSystem request bySection fixed
    let allocation := p.pageAllocation request st
    ∀ x ∈ Loop.visited (p.fillSection request.model.inputBudget allocation summaryFor bySection) (fillStart st)
      (order.sections (variableSections bySection)), x.2 ≠ .slack →
        p.SectionOnce (sectionEnv request.model.inputBudget allocation summaryFor x.2) x.1 (bySection x.2)

theorem nodup_snoc {l : List BlockId} {id : BlockId} : (l ++ [id]).Nodup ↔ id ∉ l ∧ l.Nodup := by
  rw [← List.concat_eq_append, List.nodup_concat]

/-! ### The fill -/

/-- What is selected twice stays selected twice. -/
theorem twice_pulls : PullKept p budget fun st => ¬st.selected.Nodup where
  pull h _ _ := fun hnodup => h (nodup_snoc.mp hnodup).2

/-- A step that repeats a block leaves it selected twice. -/
theorem not_nodup_of_repeats {env : FillEnv} {st st' : FillState} {cand : Candidate} {rest : List Candidate}
    (h : Coming st (cand :: rest)) (hstep : p.fillCandidate env st cand = .ok st')
    (hrep : p.Repeats env st cand) : ¬st'.selected.Nodup := by
  obtain ⟨hred, hrep⟩ := hrep
  rcases hrep with ⟨hadmits, hcomp⟩ | ⟨hadmits, S, n, hsummary, hnew, ⟨b, hb, hn⟩, hfits, hsel⟩
  · rw [GreedyPager.fillCandidate, if_neg (by simp [hred]), if_pos hadmits] at hstep
    cases hstep
    exact fun hnodup => (nodup_snoc.mp hnodup).1 (h.compressed _ hcomp)
  · rw [GreedyPager.fillCandidate, if_neg (by simp [hred]), if_neg hadmits, hsummary] at hstep
    simp only [substitute, if_neg hnew, hb, hn, Loop.ok_bind, if_pos hfits] at hstep
    cases hstep
    exact fun hnodup => (nodup_snoc.mp hnodup).1 hsel

/-- A step that repeats nothing selects a new block or none. -/
theorem nodup_iff_of_not_repeats {env : FillEnv} {st st' : FillState} {cand : Candidate} {rest : List Candidate}
    (h : Coming st (cand :: rest)) (hstep : p.fillCandidate env st cand = .ok st')
    (hrep : ¬p.Repeats env st cand) : st'.selected.Nodup ↔ st.selected.Nodup := by
  rcases fillCandidate_inv hstep with ⟨reason, rfl⟩ | ⟨hred, hadmits, rfl⟩ |
    ⟨S, n, hred, hadmits, hsummary, hnew, hcost, hfits, rfl⟩
  · exact Iff.rfl
  · have hnot : cand.id ∉ st.selected := fun hsel =>
      hrep ⟨hred, Or.inl ⟨hadmits, h.early cand List.mem_cons_self hsel⟩⟩
    exact nodup_snoc.trans (and_iff_right hnot)
  · have hnot : S ∉ st.selected := fun hsel =>
      hrep ⟨hred, Or.inr ⟨hadmits, S, n, hsummary, hnew, hcost, hfits, hsel⟩⟩
    exact nodup_snoc.trans (and_iff_right hnot)

/-- A section selects a block twice when some step of it repeats one. -/
theorem fillSection_repeats {allocation : SectionAllocation} {summaryFor : List (BlockId × BlockId)}
    {bySection : SectionKind → List Candidate} {st st' : FillState} {s : SectionKind} {rest : List Candidate}
    (h : Coming st (bySection s ++ rest))
    (hstep : p.fillSection budget allocation summaryFor bySection st s = .ok st') :
    ¬st'.selected.Nodup ↔ ¬st.selected.Nodup ∨
      s ≠ .slack ∧ ¬p.SectionOnce (sectionEnv budget allocation summaryFor s) st (bySection s) := by
  by_cases hs : s = .slack
  · rw [GreedyPager.fillSection, if_pos hs] at hstep
    cases hstep
    have hsame : ∀ (cands : List Candidate) (st : FillState),
        (cands.foldl (fun st cand => st.leave cand .budget) st).selected = st.selected := by
      intro cands
      induction cands with
      | nil => exact fun st => rfl
      | cons cand cands ih => exact fun st => ih (st.leave cand .budget)
    simp [hs, hsame]
  · rw [GreedyPager.fillSection, if_neg hs] at hstep
    have turn : ∀ cand cands u t, Coming u (cand :: cands ++ rest) →
        p.fillCandidate (sectionEnv budget allocation summaryFor s) u cand = .ok t → Coming t (cands ++ rest) ∧
          (¬t.selected.Nodup ↔ ¬u.selected.Nodup ∨ p.Repeats (sectionEnv budget allocation summaryFor s) u cand) := by
      intro cand cands u t hI hfill
      refine ⟨hI.fillCandidate hfill, ?_⟩
      by_cases hrep : p.Repeats (sectionEnv budget allocation summaryFor s) u cand
      · simp [hrep, not_nodup_of_repeats hI hfill hrep]
      · simp [hrep, nodup_iff_of_not_repeats hI hfill hrep]
    obtain ⟨-, hcollect⟩ := Loop.foldlM_collects (I := fun st cands => Coming st (cands ++ rest))
      (P := fun (st : FillState) => ¬st.selected.Nodup) turn h.enter hstep
    rw [hcollect]
    simp [hs, SectionOnce, FillState.enter]

/-! ### Plans -/

/-- The expansion pulls in a block only once, and none that is selected. -/
theorem expandEdges_nodup {st st' : PageState} (hnodup : st.selected.Nodup)
    (h : p.expandEdges order budget st = .ok st') : st'.selected.Nodup := by
  obtain ⟨new, hselected, hnew, hfresh, -⟩ := expandEdges_inv h
  rw [hselected, List.nodup_append]
  exact ⟨hnodup, hnew, fun id hid id' hid' heq => hfresh id' hid' (heq ▸ hid)⟩

/-- Step 6 repeats nothing, and hides a repeat only where the policy drops blocks. -/
theorem pageEdges_nodup {request : PageRequest} {st final : PageState}
    (hplain : p.Plain st) (h : p.pageEdges order request st = .ok final) :
    (st.selected.Nodup → final.selected.Nodup) ∧
      (¬p.scoring.edgePolicy.Drops → ¬st.selected.Nodup → ¬final.selected.Nodup) := by
  rcases pageEdges_inv h with ⟨-, rfl⟩ | ⟨henabled, expanded, hexpand, ⟨-, rfl⟩ | ⟨-, hrec⟩⟩
  · exact ⟨fun hn => hn, fun _ hn => hn⟩
  · exact ⟨fun hn => expandEdges_nodup hn hexpand, fun _ hn => (twice_pulls (p := p)).expandEdges hn hexpand⟩
  · refine ⟨fun hn => (reconcile_sublist hrec).nodup (expandEdges_nodup hn hexpand), fun hdrops hn => ?_⟩
    simp only [EdgePolicy.Drops, henabled, true_and, not_or] at hdrops
    rw [reconcile_selected hdrops.1 hdrops.2 (plain_kept.pulls.expandEdges hplain hexpand).lockstep hrec]
    exact (twice_pulls (p := p)).expandEdges hn hexpand

/-- A plan selects no block twice when no step of the section fill repeats one, and, under a policy that drops
nothing, only then. -/
theorem page_nodup {request : PageRequest} {plan : PagePlan} (hrequired : request.requiredBlocks.Nodup)
    (h : p.page order request = .ok plan) :
    (p.FillOnce order request → plan.selected.Nodup) ∧
      (¬p.scoring.edgePolicy.Drops → plan.selected.Nodup → p.FillOnce order request) := by
  obtain ⟨fixed, scores, bySection, filled, final, hfixed, hscores, hsections, hfilled, hfinal, rfl⟩ := page_inv h
  obtain ⟨summaryFor, hsummary, hfill⟩ := Loop.bind_eq_ok.mp hfilled
  obtain ⟨hkeep, hshow⟩ := pageEdges_nodup (filled_plain hfixed hsections hfilled) hfinal
  have hcollect := fill_collects (P := fun st => ¬st.selected.Nodup) ?_
    (fun _ _ _ _ hI h => fillSection_repeats hI h) hfixed hscores hsections hfill
  · rw [(pageFixed_inv hfixed).1] at hcollect
    constructor
    · intro honce
      refine hkeep (by_contra fun htwice => ?_)
      rcases hcollect.mp htwice with hdup | ⟨x, hx, hslack, hrep⟩
      · exact hdup hrequired
      · exact hrep (honce fixed scores bySection summaryFor hfixed hscores hsections hsummary x hx hslack)
    · intro hdrops hnodup fixed' scores' bySection' summaryFor' hfixed' hscores' hsections' hsummary' st allocation x hx hslack
      cases hfixed.symm.trans hfixed'
      cases hscores.symm.trans hscores'
      cases hsections.symm.trans hsections'
      cases hsummary.symm.trans hsummary'
      by_contra hrep
      exact hshow hdrops (hcollect.mpr (Or.inr ⟨x, hx, hslack, hrep⟩)) hnodup
  · -- The system fill selects each of its candidates at most once.
    intro cand rest st hI
    obtain ⟨hnew, -, -⟩ := hI.fillSystem request.model.inputBudget
    rcases fillSystem_cases request.model.inputBudget st cand with ⟨-, heq⟩ | heq
    · rw [heq]
      exact not_congr (nodup_snoc.trans (and_iff_right hnew))
    · rw [heq]
      exact Iff.rfl

/-! ### A repeated summary

A fact too large for its section, and the summary of it in the same session: the summary is selected as a
candidate, and again in place of the fact. -/

def repeatStore : BlockStore :=
  .ofLists [sampleBlock ⟨1⟩ .fact (List.replicate 50 0x61) [], sampleBlock ⟨2⟩ .summary [0x62] [⟨1⟩]]
    [(⟨1⟩, ⟨1⟩), (⟨1⟩, ⟨2⟩)] []

/-- The default pager, with summary substitution as given. -/
def repeatPager (summaryFallback : Bool) : GreedyPager :=
  { GreedyPager.new repeatStore byteTokenizer (fun s => s) .insertion with scoring := { ScoringPolicy.default with summaryFallback } }

def repeatRequest : PageRequest := ⟨⟨1⟩, "", ⟨"model", .saturate 100, .zero, .zero, "bytes", true⟩, []⟩

theorem page_repeats_summary : ∃ plan, (repeatPager true).page .canonical repeatRequest = .ok plan ∧
    repeatRequest.requiredBlocks.Nodup ∧ plan.selected = [⟨2⟩, ⟨2⟩] ∧ ¬plan.selected.Nodup := by
  obtain ⟨plan, hplan, hselected⟩ := exists_plan (repeatPager true) .canonical repeatRequest
    [⟨2⟩, ⟨2⟩] (by decide +kernel)
  exact ⟨plan, hplan, List.nodup_nil, hselected, by rw [hselected]; decide⟩

theorem page_nodup_sample : (repeatPager false).FillOnce .canonical repeatRequest ∧
    ¬(repeatPager true).FillOnce .canonical repeatRequest := by
  constructor
  · obtain ⟨plan, hplan, hselected⟩ := exists_plan (repeatPager false) .canonical repeatRequest
      [⟨2⟩] (by decide +kernel)
    exact (page_nodup List.nodup_nil hplan).2 (by simp [repeatPager, EdgePolicy.Drops, ScoringPolicy.default,
      EdgePolicy.default]) (by rw [hselected]; decide)
  · obtain ⟨plan, hplan, hselected⟩ := exists_plan (repeatPager true) .canonical repeatRequest
      [⟨2⟩, ⟨2⟩] (by decide +kernel)
    intro honce
    have hnodup := (page_nodup List.nodup_nil hplan).1 honce
    rw [hselected] at hnodup
    exact absurd hnodup (by decide)

end GreedyPager

end Llm386
