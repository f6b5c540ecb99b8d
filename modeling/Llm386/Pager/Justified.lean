import Llm386.Lib.Exits
import Llm386.Pager.Superseded

/-! # Drops that something justifies

A block that reconciliation drops gives way to another selected block, which may be dropped itself. The chain ends at
a block of the plan from every dropped block exactly when every cycle of blocks that give way to each other has a way
out; blocks in a cycle without one are all dropped. -/

namespace Llm386.GreedyPager
open PageState

variable {p : GreedyPager} {order : HashOrder} {request : PageRequest} {st : PageState} {a b id : BlockId}

/-- The selection that reconciliation finds. -/
def Expanded (p : GreedyPager) (order : HashOrder) (request : PageRequest) (st : PageState) : Prop :=
  p.scoring.edgePolicy.enabled = true ∧
    ∃ filled, p.Filled order request filled ∧ p.expandEdges order request.model.inputBudget filled = .ok st

/-- The selected block `a`, which is not pinned, gives way to `b`: `b` derives from it, or beats it. -/
structure GivesWay (p : GreedyPager) (st : PageState) (a b : BlockId) : Prop where
  selected : a ∈ st.selected
  unpinned : a ∉ pinnedOf st
  other : b ∈ st.selected
  ne : b ≠ a
  reason : p.scoring.edgePolicy.derivedFrom = .suppressSource ∧ p.Linked .derivedFrom b a ∨
    p.scoring.edgePolicy.contradicts = .preferNewer ∧ p.Contradict a b ∧ p.Beats b a

/-- Every block that reconciliation drops gives way, over some others that it drops, to a block of the plan. -/
def JustifiedPlan (p : GreedyPager) (order : HashOrder) (request : PageRequest) (plan : PagePlan) : Prop :=
  ∀ o ∈ plan.omitted, o.reason = .supersededByDerived ∨ o.reason = .contradicted →
    ∃ st kept, p.Expanded order request st ∧ Relation.ReflTransGen (p.GivesWay st) o.blockId kept ∧
      kept ∈ plan.selected

theorem exists_givesWay_iff : (∃ b, p.GivesWay st a b) ↔
    a ∈ st.selected ∧ a ∉ pinnedOf st ∧ p.Superseded st.selected a := by
  constructor
  · rintro ⟨b, hsel, hpin, hb, hne, ⟨hmode, hlink⟩ | ⟨hmode, hlost⟩⟩
    · exact ⟨hsel, hpin, Or.inl ⟨hmode, b, hb, hne, hlink⟩⟩
    · exact ⟨hsel, hpin, Or.inr ⟨hmode, b, hb, hne, hlost⟩⟩
  · rintro ⟨hsel, hpin, ⟨hmode, b, hb, hne, hlink⟩ | ⟨hmode, b, hb, hne, hlost⟩⟩
    · exact ⟨b, hsel, hpin, hb, hne, Or.inl ⟨hmode, hlink⟩⟩
    · exact ⟨b, hsel, hpin, hb, hne, Or.inr ⟨hmode, hlost⟩⟩

/-- What gives way is what some verdict drops. -/
theorem dropped_iff_givesWay (hplain : Plain p st) {vs : List EdgeVerdict}
    (hvs : p.allVerdicts st.selected (pinnedOf st) st.selected = .ok vs) :
    EdgeVerdict.dropped vs a = true ↔ ∃ b, p.GivesWay st a b := by
  rw [exists_givesWay_iff, dropped_iff_superseded (fun id hid => ?_) hvs, Superseded]
  obtain ⟨n, b, hb, -⟩ := hplain.costed id hid
  exact ⟨b, hb⟩

theorem GivesWay.reconciles (h : p.GivesWay st a b) : p.scoring.edgePolicy.reconciles = true := by
  rcases h.reason with ⟨hmode, -⟩ | ⟨hmode, -⟩ <;> simp [EdgePolicy.reconciles, hmode]

/-- Reconciliation keeps what gives way to nothing. -/
theorem Rebuilt.mem_selected (hplain : Plain p st) {vs : List EdgeVerdict} {st' : PageState}
    (hvs : p.allVerdicts st.selected (pinnedOf st) st.selected = .ok vs) (h : Rebuilt p vs st st') :
    id ∈ st'.selected ↔ id ∈ st.selected ∧ ∀ b, ¬p.GivesWay st id b := by
  rw [h.selected, List.mem_filter, Bool.not_eq_true', ← Bool.not_eq_true, dropped_iff_givesWay hplain hvs, not_exists]

/-- Reconciliation drops blocks for these two reasons only. -/
theorem drop_reason {vs : List EdgeVerdict} {reason : OmissionReason}
    (hvs : p.allVerdicts st.selected (pinnedOf st) st.selected = .ok vs) (h : .drop id reason ∈ vs) :
    reason = .supersededByDerived ∨ reason = .contradicted := by
  obtain ⟨source, -, es, -, e, -, hverdict⟩ := (mem_allVerdicts hvs).mp h
  rcases edgeVerdict_eq_drop.mp hverdict with ⟨-, -, -, -, -, -, hr⟩ | ⟨-, -, -, -, -, hr, -⟩
  · exact Or.inl hr
  · exact Or.inr hr

/-- A chain from a selected block stays in the selection. -/
theorem GivesWay.chain_selected (h : Relation.ReflTransGen (p.GivesWay st) a b) (ha : a ∈ st.selected) :
    b ∈ st.selected := by
  rcases Relation.ReflTransGen.cases_tail h with rfl | ⟨c, -, hcb⟩
  · exact ha
  · exact hcb.other

/-- The fill leaves blocks out for their size, their words or a summary. -/
theorem filled_reasons (h : p.Filled order request st) :
    ∀ o ∈ st.omitted, o.reason = .budget ∨ o.reason = .redundant ∨ o.reason = .compressed := by
  obtain ⟨fixed, scores, bySection, filled, hfixed, -, -, hfilled, rfl⟩ := h
  obtain ⟨summaryFor, hindex, -⟩ := Loop.bind_eq_ok.mp hfilled
  let I : PageState → Prop := fun st => ∀ o ∈ st.omitted, o.reason = .budget ∨ o.reason = .redundant ∨ o.reason = .compressed
  have leave : ∀ {st : PageState} {id : BlockId} {reason : OmissionReason} {score : Float32},
      reason = .budget ∨ reason = .redundant ∨ reason = .compressed → I st → I (st.omit_ id reason score) :=
    fun hreason hst => List.forall_mem_append.mpr ⟨hst, List.forall_mem_singleton.mpr hreason⟩
  refine filled_rule (I := fun st => I st.toPageState) summaryFor hindex (fun hst => hst)
    (fun _ hst => leave (Or.inl rfl) hst) (fun _ _ hst hstep => ?_)
    (fun o ho => Or.inl (pageSystem_omitted hfixed o ho)) hfilled
  cases hstep with
  | redundant => exact leave (Or.inr (Or.inl rfl)) hst
  | taken => exact hst
  | refused => exact leave (Or.inl rfl) hst
  | covered => exact leave (Or.inr (Or.inr rfl)) hst
  | unfit => exact leave (Or.inl rfl) hst
  | replaced => exact leave (Or.inr (Or.inr rfl)) hst

theorem expanded_reasons (h : p.Expanded order request st) :
    ∀ o ∈ st.omitted, ¬(o.reason = .supersededByDerived ∨ o.reason = .contradicted) := by
  obtain ⟨-, filled, hfilled, hexpand⟩ := h
  have hsame : st.omitted = filled.omitted := (omitted_pulls p _ filled.omitted).expandEdges rfl hexpand
  intro o ho hreason
  rw [hsame] at ho
  rcases filled_reasons hfilled o ho with h | h | h <;> simp [h] at hreason

theorem filled_unique {st' : PageState} (h : p.Filled order request st) (h' : p.Filled order request st') : st = st' := by
  obtain ⟨fixed, scores, bySection, filled, hfixed, hscores, hsections, hfilled, rfl⟩ := h
  obtain ⟨fixed', scores', bySection', filled', hfixed', hscores', hsections', hfilled', rfl⟩ := h'
  cases hfixed.symm.trans hfixed'
  cases hscores.symm.trans hscores'
  cases hsections.symm.trans hsections'
  cases hfilled.symm.trans hfilled'
  rfl

theorem expanded_unique {st' : PageState} (h : p.Expanded order request st) (h' : p.Expanded order request st') :
    st = st' := by
  obtain ⟨-, filled, hfilled, hexpand⟩ := h
  obtain ⟨-, filled', hfilled', hexpand'⟩ := h'
  rw [filled_unique hfilled hfilled', hexpand'] at hexpand
  cases hexpand
  rfl

/-- A plan comes from the expanded selection, reconciled where the policy asks for it; without edges it comes from
the fill. -/
theorem page_expanded {plan : PagePlan} (h : p.page order request = .ok plan) :
    (p.scoring.edgePolicy.enabled = false ∧ ∃ st, p.Filled order request st ∧ plan.selected = st.selected ∧
      plan.selections = st.selections ∧ plan.omitted = st.omitted) ∨
    ∃ st, p.Expanded order request st ∧ Plain p st ∧
      ((p.scoring.edgePolicy.reconciles = false ∧ plan.selected = st.selected ∧ plan.selections = st.selections ∧
          plan.omitted = st.omitted) ∨
        ∃ vs st', p.allVerdicts st.selected (pinnedOf st) st.selected = .ok vs ∧ Rebuilt p vs st st' ∧
          plan.selected = st'.selected ∧ plan.selections = st'.selections ∧ plan.omitted = st'.omitted) := by
  obtain ⟨fixed, scores, bySection, filled, final, hfixed, hscores, hsections, hfilled, hfinal, rfl⟩ := page_inv h
  have hstage : p.Filled order request filled.toPageState :=
    ⟨fixed, scores, bySection, filled, hfixed, hscores, hsections, hfilled, rfl⟩
  rcases pageEdges_inv hfinal with ⟨hoff, rfl⟩ | ⟨hon, expanded, hexpand, hrest⟩
  · exact Or.inl ⟨hoff, _, hstage, rfl, rfl, rfl⟩
  · have hplain : Plain p expanded := plain_kept.pulls.expandEdges (filled_plain hfixed hsections hfilled) hexpand
    refine Or.inr ⟨expanded, ⟨hon, _, hstage, hexpand⟩, hplain, ?_⟩
    rcases hrest with ⟨hnone, rfl⟩ | ⟨-, hrec⟩
    · exact Or.inl ⟨hnone, rfl, rfl, rfl⟩
    · obtain ⟨vs, hvs⟩ := reconcile_verdicts hrec
      obtain ⟨st', hrun, hrebuilt⟩ := reconcile_rebuilt hplain.costed hplain.lockstep hvs
      cases hrec.symm.trans hrun
      exact Or.inr ⟨vs, final, hvs, hrebuilt, rfl, rfl, rfl⟩

/-- The drops of a plan are justified exactly when every cycle of blocks that give way has a way out. -/
theorem page_justified {plan : PagePlan} (h : p.page order request = .ok plan) :
    p.JustifiedPlan order request plan ↔ ∀ st, p.Expanded order request st → Exits.HasExits (p.GivesWay st) := by
  rcases page_expanded h with ⟨hoff, st, hfilled, -, -, homitted⟩ | ⟨st, hst, hplain, hrest⟩
  · constructor
    · intro _ st' hst'
      exact absurd hst'.1 (by simp [hoff])
    · intro _ o ho hreason
      rw [homitted] at ho
      rcases filled_reasons hfilled o ho with h | h | h <;> simp [h] at hreason
  · have hall : (∀ st', p.Expanded order request st' → Exits.HasExits (p.GivesWay st')) ↔
        Exits.HasExits (p.GivesWay st) :=
      ⟨fun h => h st hst, fun h st' hst' => expanded_unique hst hst' ▸ h⟩
    rw [hall]
    have hfinite : (st.selected.toFinset : Set BlockId).Finite := st.selected.toFinset.finite_toSet
    have hother : ∀ x y, p.GivesWay st x y → y ∈ (st.selected.toFinset : Set BlockId) := fun x y hxy => by
      simpa using hxy.other
    rw [Exits.hasExits_iff hfinite hother]
    rcases hrest with ⟨hnone, -, -, homitted⟩ | ⟨vs, st', hvs, hrebuilt, hselected, -, homitted⟩
    · -- Without reconciliation nothing gives way, and nothing is dropped.
      have hstay : ∀ x y, ¬p.GivesWay st x y := fun x y hxy => by simp [hxy.reconciles] at hnone
      constructor
      · exact fun _ x => ⟨x, Relation.ReflTransGen.refl, hstay x⟩
      · intro _ o ho hreason
        rw [homitted] at ho
        exact absurd hreason (expanded_reasons hst o ho)
    · obtain ⟨gone, hgone, hids, hdrops⟩ := hrebuilt.omitted
      have hkept : ∀ x, x ∈ plan.selected ↔ x ∈ st.selected ∧ Exits.IsEnd (p.GivesWay st) x := fun x => by
        rw [hselected]
        exact hrebuilt.mem_selected hplain hvs
      constructor
      · intro hjustified x
        by_cases hend : Exits.IsEnd (p.GivesWay st) x
        · exact ⟨x, Relation.ReflTransGen.refl, hend⟩
        · have hgives : ∃ y, p.GivesWay st x y := by simpa [Exits.IsEnd] using hend
          obtain ⟨o, ho, rfl⟩ : ∃ o ∈ gone, o.blockId = x := by
            have hmem : x ∈ gone.map (·.blockId) := by
              rw [hids]
              exact List.mem_filter.mpr ⟨hgives.choose_spec.selected, (dropped_iff_givesWay hplain hvs).mpr hgives⟩
            simpa using hmem
          obtain ⟨st₁, kept, hst₁, hchain, hmem⟩ := hjustified o
            (by rw [homitted, hgone]; exact List.mem_append_right _ ho) (drop_reason hvs (hdrops o ho))
          cases expanded_unique hst hst₁
          exact ⟨kept, hchain, ((hkept kept).mp hmem).2⟩
      · intro hends o ho hreason
        rw [homitted, hgone] at ho
        rcases List.mem_append.mp ho with ho | ho
        · exact absurd hreason (expanded_reasons hst o ho)
        · have hsel : o.blockId ∈ st.selected :=
            (List.mem_filter.mp (hids ▸ List.mem_map_of_mem ho : o.blockId ∈ _)).1
          obtain ⟨kept, hchain, hend⟩ := hends o.blockId
          exact ⟨st, kept, hst, hchain, (hkept kept).mpr ⟨GivesWay.chain_selected hchain hsel, hend⟩⟩

/-! ### A summary and its source in a circle

A summary of a fact, and the fact written anew since, against the summary: the fact goes as the source of the summary,
the summary as the loser against the fact. -/

def circlePager : GreedyPager :=
  { GreedyPager.new (.ofLists [{ sampleBlock ⟨1⟩ .fact [0x61] [] with createdAt := ⟨1, by decide⟩ },
      sampleBlock ⟨2⟩ .summary [0x62] [⟨1⟩]] [(⟨1⟩, ⟨1⟩), (⟨1⟩, ⟨2⟩)]
      [⟨⟨2⟩, ⟨1⟩, .derivedFrom⟩, ⟨⟨1⟩, ⟨2⟩, .contradicts⟩]) byteTokenizer (fun s => s) .insertion with
    scoring := { ScoringPolicy.default with
      edgePolicy := { EdgePolicy.default with derivedFrom := .suppressSource, contradicts := .preferNewer } } }

def circleRequest : PageRequest := ⟨⟨1⟩, "", ⟨"model", .saturate 100, .zero, .zero, "bytes", true⟩, []⟩

theorem page_drops_circle : ∃ plan, circlePager.page .canonical circleRequest = .ok plan ∧ plan.selected = [] ∧
    plan.omitted.map (·.blockId) = [⟨2⟩, ⟨1⟩] ∧ plan.omitted.map (·.reason) = [.contradicted, .supersededByDerived] ∧
    ¬circlePager.JustifiedPlan .canonical circleRequest plan := by
  have hrun : (circlePager.page .canonical circleRequest).toOption.map
      (fun plan => (plan.selected, plan.omitted.map (·.blockId), plan.omitted.map (·.reason))) =
      some ([], [⟨2⟩, ⟨1⟩], [.contradicted, .supersededByDerived]) := by decide +kernel
  obtain ⟨plan, hplan, hresult⟩ := Option.map_eq_some_iff.mp hrun
  obtain ⟨hselected, hrest⟩ := Prod.mk.inj hresult
  obtain ⟨hids, hreasons⟩ := Prod.mk.inj hrest
  refine ⟨plan, Loop.toOption_eq_some.mp hplan, hselected, hids, hreasons, fun hjustified => ?_⟩
  have hmem : .contradicted ∈ plan.omitted.map (·.reason) := by rw [hreasons]; decide
  obtain ⟨o, ho, hreason⟩ := List.mem_map.mp hmem
  obtain ⟨st, kept, -, -, hkept⟩ := hjustified o ho (Or.inr hreason)
  rw [hselected] at hkept
  cases hkept

theorem page_justified_sample : ∃ plan, contestedPager.page .canonical contestedRequest = .ok plan ∧
    (contestedPager.JustifiedPlan .canonical contestedRequest plan ↔
      ∀ st, contestedPager.Expanded .canonical contestedRequest st → Exits.HasExits (contestedPager.GivesWay st)) := by
  obtain ⟨plan, hplan, -⟩ := exists_plan contestedPager .canonical contestedRequest [⟨2⟩, ⟨1⟩] (by decide +kernel)
  exact ⟨plan, hplan, page_justified hplan⟩

end Llm386.GreedyPager
