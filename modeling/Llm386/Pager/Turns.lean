import Llm386.Pager.Candidates

/-! # The candidates still to come

The fill takes each candidate once. One that is still to come is selected only where it stands in as a summary, and
it is not omitted yet; this holds before every step, whatever the steps do. -/

namespace Llm386.GreedyPager
open PageState

variable {p : GreedyPager} {budget : TokenCount} {order : HashOrder}

/-- The fill with the candidates of `rest` still to come. -/
structure Coming (st : FillState) (rest : List Candidate) : Prop where
  distinct : (rest.map (·.id)).Nodup
  early : ∀ cand ∈ rest, cand.id ∈ st.selected → cand.id ∈ st.compressedInto
  later : ∀ cand ∈ rest, cand.id ∉ st.omitted.map (·.blockId)
  compressed : ∀ id ∈ st.compressedInto, id ∈ st.selected

theorem Coming.ne {st : FillState} {cand : Candidate} {rest : List Candidate} (h : Coming st (cand :: rest))
    {c : Candidate} (hc : c ∈ rest) : c.id ≠ cand.id := fun heq =>
  (List.nodup_cons.mp h.distinct).1 (List.mem_map.mpr ⟨c, hc, heq⟩)

theorem Coming.leave {st : FillState} {cand : Candidate} {rest : List Candidate} (h : Coming st (cand :: rest))
    (reason : OmissionReason) : Coming (st.leave cand reason) rest where
  distinct := (List.nodup_cons.mp h.distinct).2
  early c hc := h.early c (List.mem_cons_of_mem _ hc)
  later c hc hout := by
    simp only [FillState.leave, PageState.omit_, List.map_append, List.mem_append, List.map_singleton,
      List.mem_singleton] at hout
    rcases hout with hout | heq
    · exact h.later c (List.mem_cons_of_mem _ hc) hout
    · exact h.ne hc heq
  compressed := h.compressed

/-- Every step keeps the order of what is to come. -/
theorem Coming.fillCandidate {env : FillEnv} {st st' : FillState} {cand : Candidate} {rest : List Candidate}
    (h : Coming st (cand :: rest)) (hstep : p.fillCandidate env st cand = .ok st') : Coming st' rest := by
  rcases fillCandidate_inv hstep with ⟨reason, rfl⟩ | ⟨-, -, rfl⟩ | ⟨S, n, -, -, -, -, -, -, rfl⟩
  · exact h.leave reason
  · refine ⟨(List.nodup_cons.mp h.distinct).2, fun c hc hsel => ?_, fun c hc => h.later c (List.mem_cons_of_mem _ hc),
      fun id hid => List.mem_append_left _ (h.compressed id hid)⟩
    rcases List.mem_append.mp hsel with hsel | hsel
    · exact h.early c (List.mem_cons_of_mem _ hc) hsel
    · exact absurd (List.mem_singleton.mp hsel) (h.ne hc)
  · refine ⟨(h.leave .compressed).distinct, fun c hc hsel => ?_, (h.leave .compressed).later, fun id hid => ?_⟩
    · rcases List.mem_append.mp hsel with hsel | hsel
      · exact List.mem_cons_of_mem _ (h.early c (List.mem_cons_of_mem _ hc) hsel)
      · exact List.mem_cons.mpr (Or.inl (List.mem_singleton.mp hsel))
    · rcases List.mem_cons.mp hid with rfl | hid
      · exact List.mem_append_right _ (List.mem_singleton_self _)
      · exact List.mem_append_left _ (h.compressed id hid)

theorem Coming.slack {cands rest : List Candidate} {st : FillState} (h : Coming st (cands ++ rest)) :
    Coming (cands.foldl (fun st cand => st.leave cand .budget) st) rest := by
  induction cands generalizing st with
  | nil => exact h
  | cons cand cands ih => exact ih (h.leave .budget)

theorem Coming.enter {st : FillState} {rest : List Candidate} (h : Coming st rest) : Coming st.enter rest :=
  ⟨h.distinct, h.early, h.later, h.compressed⟩

theorem Coming.fillSection {allocation : SectionAllocation} {summaryFor : List (BlockId × BlockId)}
    {bySection : SectionKind → List Candidate} {st st' : FillState} {s : SectionKind} {rest : List Candidate}
    (h : Coming st (bySection s ++ rest))
    (hstep : p.fillSection budget allocation summaryFor bySection st s = .ok st') : Coming st' rest := by
  unfold GreedyPager.fillSection at hstep
  split at hstep
  · cases hstep
    exact h.slack
  · exact Loop.foldlM_inv_rest (P := fun st cands => Coming st (cands ++ rest))
      (fun _ _ _ _ hP hfill => hP.fillCandidate hfill) h.enter hstep

/-- The system fill selects or omits its next candidate, which is neither yet. -/
theorem Coming.fillSystem {cand : Candidate} {rest : List Candidate} {st : PageState} (budget : TokenCount)
    (h : Coming (fillStart st) (cand :: rest)) : cand.id ∉ st.selected ∧ cand.id ∉ st.omitted.map (·.blockId) ∧
      Coming (fillStart (fillSystem budget st cand)) rest := by
  have hnew : cand.id ∉ st.selected := fun hsel => by cases h.early cand List.mem_cons_self hsel
  refine ⟨hnew, h.later cand List.mem_cons_self, ?_⟩
  rcases fillSystem_cases budget st cand with ⟨-, heq⟩ | heq
  · rw [heq]
    refine ⟨(List.nodup_cons.mp h.distinct).2, fun c hc hsel => ?_, fun c hc => h.later c (List.mem_cons_of_mem _ hc),
      fun _ hid => by cases hid⟩
    rcases List.mem_append.mp hsel with hsel | hsel
    · exact h.early c (List.mem_cons_of_mem _ hc) hsel
    · exact absurd (List.mem_singleton.mp hsel) (h.ne hc)
  · rw [heq]
    exact h.leave .budget

section Page
variable {request : PageRequest} {fixed : PageState} {scores : List (BlockId × Float32)}
  {bySection : SectionKind → List Candidate}

/-- Before the system section all candidates are still to come. -/
theorem pageFixed_coming (hfixed : p.pageFixed request = .ok fixed) (hscores : p.gather request = .ok scores)
    (hsections : p.loadSections (order.scores scores) = .ok bySection) :
    Coming (fillStart fixed) ((.system :: order.sections (variableSections bySection)).flatMap bySection) := by
  have hmerged := gather_merged hscores
  obtain ⟨hselected, hnone, -⟩ := pageFixed_inv hfixed
  refine ⟨sections_ids_nodup (order_scores_nodup hmerged) hsections (order_sections_nodup bySection),
    fun cand hcand hsel => ?_, fun cand _ hout => ?_, fun _ hid => by cases hid⟩
  · obtain ⟨s, -, hcand⟩ := List.mem_flatMap.mp hcand
    exact absurd (hselected ▸ hsel) (candidate_not_required hmerged hsections hcand)
  · have habs : cand.id ∈ fixed.omitted.map (·.blockId) := hout
    rw [hnone] at habs
    cases habs

/-- A property that no system candidate adds holds after the fill when it held of the required blocks or some
section adds it. -/
theorem fill_collects {P : PageState → Prop} {Adds : FillState → SectionKind → Prop} {allocation : SectionAllocation}
    {summaryFor : List (BlockId × BlockId)} {filled : FillState}
    (system : ∀ cand rest st, Coming (fillStart st) (cand :: rest) →
      (P (GreedyPager.fillSystem request.model.inputBudget st cand) ↔ P st))
    (step : ∀ s rest u t, Coming u (bySection s ++ rest) →
      p.fillSection request.model.inputBudget allocation summaryFor bySection u s = .ok t →
      (P t.toPageState ↔ P u.toPageState ∨ Adds u s))
    (hfixed : p.pageFixed request = .ok fixed) (hscores : p.gather request = .ok scores)
    (hsections : p.loadSections (order.scores scores) = .ok bySection)
    (hfill : (order.sections (variableSections bySection)).foldlM
      (p.fillSection request.model.inputBudget allocation summaryFor bySection)
      (fillStart (pageSystem request bySection fixed)) = .ok filled) :
    P filled.toPageState ↔ P fixed ∨ ∃ x ∈ Loop.visited
      (p.fillSection request.model.inputBudget allocation summaryFor bySection)
      (fillStart (pageSystem request bySection fixed)) (order.sections (variableSections bySection)), Adds x.1 x.2 := by
  have hsystem : ∀ (cands rest : List Candidate) (st : PageState), Coming (fillStart st) (cands ++ rest) →
      Coming (fillStart (cands.foldl (GreedyPager.fillSystem request.model.inputBudget) st)) rest ∧
        (P (cands.foldl (GreedyPager.fillSystem request.model.inputBudget) st) ↔ P st) := by
    intro cands rest
    induction cands with
    | nil => exact fun st h => ⟨h, Iff.rfl⟩
    | cons cand cands ih =>
      intro st h
      obtain ⟨hcoming, hP⟩ := ih _ (h.fillSystem _).2.2
      exact ⟨hcoming, hP.trans (system cand _ st h)⟩
  obtain ⟨hstart, hP⟩ := hsystem (bySection .system) _ fixed (pageFixed_coming hfixed hscores hsections)
  obtain ⟨-, hcollect⟩ := Loop.foldlM_collects (I := fun st ss => Coming st (ss.flatMap bySection))
    (P := fun (st : FillState) => P st.toPageState)
    (fun s ss u t hI h => ⟨hI.fillSection h, step s (ss.flatMap bySection) u t hI h⟩) hstart hfill
  exact hcollect.trans (or_congr hP Iff.rfl)

end Page

end Llm386.GreedyPager
