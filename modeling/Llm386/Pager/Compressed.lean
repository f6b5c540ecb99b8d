import Llm386.Pager.Justified

/-! # Blocks that a summary stands in for

A block is left out as compressed when a summary that names it is selected in its place, or was before. The fill keeps
that summary; reconciliation may drop it. -/

namespace Llm386.GreedyPager
open PageState

variable {p : GreedyPager} {order : HashOrder} {request : PageRequest} {st : PageState}

/-- For every block left out as compressed, a summary of it is among `selected`. -/
def Covered (p : GreedyPager) (omitted : List OmittedBlock) (selected : List BlockId) : Prop :=
  ∀ o ∈ omitted, o.reason = .compressed → ∃ summaryId ∈ selected, p.SummaryOf summaryId o.blockId

/-- Blocks left out for another reason need no summary. -/
theorem Covered.append {omitted gone : List OmittedBlock} {selected : List BlockId} (h : p.Covered omitted selected)
    (hgone : ∀ o ∈ gone, o.reason = .compressed → ∃ summaryId ∈ selected, p.SummaryOf summaryId o.blockId) :
    p.Covered (omitted ++ gone) selected := List.forall_mem_append.mpr ⟨h, hgone⟩

theorem Covered.mono {omitted : List OmittedBlock} {selected more : List BlockId} (h : p.Covered omitted selected)
    (hsub : ∀ id ∈ selected, id ∈ more) : p.Covered omitted more := by
  intro o ho hreason
  obtain ⟨summaryId, hmem, hof⟩ := h o ho hreason
  exact ⟨summaryId, hsub _ hmem, hof⟩

/-- The fill covers what it compresses. -/
theorem filled_covered (h : p.Filled order request st) : p.Covered st.omitted st.selected := by
  obtain ⟨fixed, scores, bySection, filled, hfixed, -, -, hfilled, rfl⟩ := h
  obtain ⟨summaryFor, hindex, -⟩ := Loop.bind_eq_ok.mp hfilled
  let I : FillState → Prop := fun st => (∀ id ∈ st.compressedInto, id ∈ st.selected) ∧ p.Covered st.omitted st.selected
  have leave : ∀ {st : FillState} {cand : Candidate} {reason : OmissionReason}, reason ≠ .compressed → I st →
      I (st.leave cand reason) := fun hreason hst =>
    ⟨hst.1, hst.2.append (List.forall_mem_singleton.mpr fun habs => absurd habs hreason)⟩
  have hof : ∀ {env : FillEnv} {cand : Candidate} {summaryId : BlockId}, env.summaryFor = summaryFor →
      p.summaryOf env cand = some summaryId → p.SummaryOf summaryId cand.id := by
    intro env cand summaryId henv hsummary
    obtain ⟨before, after, heq, -⟩ := List.lookup_eq_some_iff.mp (henv ▸ summaryOf_inv hsummary)
    exact (summaryIndex_inv hindex (cand.id, summaryId) (heq ▸ List.mem_append_right _ List.mem_cons_self)).2
  have hstart : I (fillStart (pageSystem request bySection fixed)) := by
    refine ⟨fun _ hid => (List.not_mem_nil hid).elim, fun o ho hreason => ?_⟩
    rw [pageSystem_omitted hfixed o ho] at hreason
    cases hreason
  refine (filled_rule (I := I) summaryFor hindex (fun hst => hst) (fun _ hst => leave (by decide) hst)
    (fun _ henv hst hstep => ?_) hstart hfilled).2
  cases hstep with
  | redundant | refused | unfit => exact leave (by decide) hst
  | taken =>
    exact ⟨fun id hid => List.mem_append_left _ (hst.1 id hid), hst.2.mono fun id hid => List.mem_append_left _ hid⟩
  | covered _ _ hsummary hold =>
    exact ⟨hst.1, hst.2.append (List.forall_mem_singleton.mpr fun _ => ⟨_, hst.1 _ hold, hof henv hsummary⟩)⟩
  | replaced _ _ hsummary =>
    refine ⟨fun id hid => ?_, (hst.2.mono fun id hid => List.mem_append_left _ hid).append
      (List.forall_mem_singleton.mpr fun _ => ⟨_, List.mem_append_right _ (List.mem_singleton_self _), hof henv hsummary⟩)⟩
    rcases List.mem_cons.mp hid with rfl | hid
    · exact List.mem_append_right _ (List.mem_singleton_self _)
    · exact List.mem_append_left _ (hst.1 id hid)

/-- The expansion keeps what is covered. -/
theorem expanded_covered (h : p.Expanded order request st) : p.Covered st.omitted st.selected := by
  obtain ⟨-, filled, hfilled, hexpand⟩ := h
  obtain ⟨new, hselected, -⟩ := expandEdges_inv hexpand
  rw [(omitted_pulls p _ filled.omitted).expandEdges rfl hexpand, hselected]
  exact (filled_covered hfilled).mono fun id hid => List.mem_append_left _ hid

/-- Every block of a plan that is left out as compressed has a summary in the plan exactly when, for every such block,
some summary of it that is selected before reconciliation gives way to no other block. -/
theorem page_covered {plan : PagePlan} (h : p.page order request = .ok plan) :
    p.Covered plan.omitted plan.selected ↔ ∀ st, p.Expanded order request st →
      ∀ o ∈ st.omitted, o.reason = .compressed → ∃ summaryId ∈ st.selected, p.SummaryOf summaryId o.blockId ∧
        ∀ id, ¬p.GivesWay st summaryId id := by
  rcases page_expanded h with ⟨hoff, st, hfilled, hselected, -, homitted⟩ | ⟨st, hst, hplain, hrest⟩
  · rw [hselected, homitted]
    exact ⟨fun _ st' hst' => absurd hst'.1 (by simp [hoff]), fun _ => filled_covered hfilled⟩
  · have hall : ∀ {P : PageState → Prop}, (∀ st', p.Expanded order request st' → P st') ↔ P st :=
      ⟨fun h => h st hst, fun h st' hst' => expanded_unique hst hst' ▸ h⟩
    rw [hall]
    rcases hrest with ⟨hnone, hselected, -, homitted⟩ | ⟨vs, st', hvs, hrebuilt, hselected, -, homitted⟩
    · rw [hselected, homitted]
      -- Without reconciliation nothing gives way.
      have hstay : ∀ a b, ¬p.GivesWay st a b := fun a b hab => by simp [hab.reconciles] at hnone
      refine ⟨fun hcovered o ho hreason => ?_, fun _ => expanded_covered hst⟩
      obtain ⟨summaryId, hmem, hof⟩ := hcovered o ho hreason
      exact ⟨summaryId, hmem, hof, hstay summaryId⟩
    · obtain ⟨gone, hgone, -, hdrops⟩ := hrebuilt.omitted
      have hkept : ∀ id, id ∈ plan.selected ↔ id ∈ st.selected ∧ ∀ b, ¬p.GivesWay st id b := fun id => by
        rw [hselected]
        exact hrebuilt.mem_selected hplain hvs
      rw [homitted, hgone]
      constructor
      · intro hcovered o ho hreason
        obtain ⟨summaryId, hmem, hof⟩ := hcovered o (List.mem_append_left _ ho) hreason
        obtain ⟨hsel, hstay⟩ := (hkept summaryId).mp hmem
        exact ⟨summaryId, hsel, hof, hstay⟩
      · intro hstay
        refine Covered.append (fun o ho hreason => ?_) fun o ho hreason => ?_
        · obtain ⟨summaryId, hsel, hof, hnot⟩ := hstay o ho hreason
          exact ⟨summaryId, (hkept summaryId).mpr ⟨hsel, hnot⟩, hof⟩
        · rcases drop_reason hvs (hdrops o ho) with hdrop | hdrop <;> simp [hdrop] at hreason

/-! ### A summary that gives way

A fact too large for its section, the summary that stands in for it, and a fact that is derived from the summary: as
its source the summary gives way, and the large fact is left without one. -/

def distilledPager : GreedyPager :=
  { GreedyPager.new (.ofLists [sampleBlock ⟨1⟩ .fact (List.replicate 50 0x61) [], sampleBlock ⟨2⟩ .summary [0x62] [⟨1⟩],
      sampleBlock ⟨3⟩ .fact [0x63] []] [(⟨1⟩, ⟨1⟩), (⟨1⟩, ⟨2⟩), (⟨1⟩, ⟨3⟩)] [⟨⟨3⟩, ⟨2⟩, .derivedFrom⟩])
      byteTokenizer (fun s => s) .insertion with
    scoring := { ScoringPolicy.default with
      summaryFallback := true, edgePolicy := { EdgePolicy.default with derivedFrom := .suppressSource } } }

def distilledRequest : PageRequest := ⟨⟨1⟩, "", ⟨"model", .saturate 100, .zero, .zero, "bytes", true⟩, []⟩

theorem page_loses_summary : ∃ plan, distilledPager.page .canonical distilledRequest = .ok plan ∧ plan.selected = [⟨3⟩] ∧
    ¬distilledPager.Covered plan.omitted plan.selected := by
  have hrun : (distilledPager.page .canonical distilledRequest).toOption.map
      (fun plan => (plan.selected, plan.omitted.map fun o => (o.blockId, o.reason))) =
      some ([⟨3⟩], [(⟨1⟩, .compressed), (⟨2⟩, .supersededByDerived), (⟨2⟩, .supersededByDerived)]) := by decide +kernel
  obtain ⟨plan, hplan, hresult⟩ := Option.map_eq_some_iff.mp hrun
  obtain ⟨hselected, homitted⟩ := Prod.mk.inj hresult
  refine ⟨plan, Loop.toOption_eq_some.mp hplan, hselected, fun hcovered => ?_⟩
  have hmem : ((⟨1⟩, .compressed) : BlockId × OmissionReason) ∈ plan.omitted.map fun o => (o.blockId, o.reason) := by
    rw [homitted]
    exact List.mem_cons_self
  obtain ⟨o, ho, heq⟩ := List.mem_map.mp hmem
  obtain ⟨hid, hreason⟩ := Prod.mk.inj heq
  obtain ⟨summaryId, hsel, b, hget, hkind, -⟩ := hcovered o ho hreason
  rw [hselected, List.mem_singleton] at hsel
  subst hsel
  cases hget
  cases hkind

theorem page_covered_sample : ∃ plan, distilledPager.page .canonical distilledRequest = .ok plan ∧
    (distilledPager.Covered plan.omitted plan.selected ↔ ∀ st, distilledPager.Expanded .canonical distilledRequest st →
      ∀ o ∈ st.omitted, o.reason = .compressed → ∃ summaryId ∈ st.selected, distilledPager.SummaryOf summaryId o.blockId ∧
        ∀ id, ¬distilledPager.GivesWay st summaryId id) := by
  obtain ⟨plan, hplan, -⟩ := exists_plan distilledPager .canonical distilledRequest [⟨3⟩] (by decide +kernel)
  exact ⟨plan, hplan, page_covered hplan⟩

end Llm386.GreedyPager
