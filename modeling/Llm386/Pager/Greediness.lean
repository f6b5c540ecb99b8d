import Llm386.Pager.Merging

/-! # Greedy and maximal

With the edges disabled, no summary fallback, scores that are numbers and exact shares: every section takes what it
would take alone, what it leaves for its size fits neither at its turn nor at the end, and neither the order of the
sections nor that of the retrievers changes what is taken and what is left. -/

namespace Llm386.GreedyPager

variable {p : GreedyPager} {t : ExactTable} {order order' : HashOrder} {request : PageRequest} {plan : PagePlan}
  {fixed st : PageState} {scores scores' : List (BlockId × Float32)} {bySection bySection' : SectionKind → List Candidate}
  {retrievers : List Retriever}

/-- The shares that the table gives the sections. -/
def exactShares (t : ExactTable) (request : PageRequest) (st : PageState) : SectionAllocation :=
  t.allocateVariable (variableBudget request st)

/-- What the plan adds to the state `st` before the section fill is what each section takes and leaves alone. -/
structure FilledAlone (p : GreedyPager) (t : ExactTable) (order : HashOrder) (request : PageRequest) (st : PageState)
    (bySection : SectionKind → List Candidate) (plan : PagePlan) : Prop where
  selected : plan.selected = st.selected ++
    (p.sectionsTaken (exactShares t request st) bySection (order.sections (variableSections bySection))).map (·.id)
  omitted : plan.omitted.map outline = st.omitted.map outline ++
    p.sectionsLeft (exactShares t request st) bySection (order.sections (variableSections bySection))

/-- The sections hold what the retrievers answer: each block that is not required once, under its best score, in the
section of its kind. -/
def HoldsAnswers (p : GreedyPager) (request : PageRequest) (bySection : SectionKind → List Candidate) : Prop :=
  ∃ found scores, p.answers request = .ok found ∧ Best request.requiredBlocks found.flatten scores ∧
    ∀ s cand, cand ∈ bySection s ↔ ∃ entry ∈ scores, p.loadCandidate entry = .ok (some (s, cand))

/-- The section fill of one plan. -/
structure Isolated (p : GreedyPager) (t : ExactTable) (order : HashOrder) (request : PageRequest) (st : PageState)
    (bySection : SectionKind → List Candidate) (plan : PagePlan) : Prop where
  shares : (SectionKind.all.map fun s => ((exactShares t request st).forSection s).val).sum ≤ (variableBudget request st).val
  idle : p.CeilingIdle (exactShares t request st) order request bySection st
  candidates : p.HoldsAnswers request bySection
  sorted : ∀ s, (bySection s).Pairwise fun a b => rankOf b < rankOf a ∧ candidateCmp a b = .lt
  filled : p.FilledAlone t order request st bySection plan
  maximal : ∀ o ∈ plan.omitted, o.reason = .budget → ∀ s ≠ .system, ∀ cand ∈ bySection s, cand.id = o.blockId →
    ∃ before after, bySection s = before ++ cand :: after ∧
      ((exactShares t request st).forSection s).val <
        tokensOf (p.greedy ((exactShares t request st).forSection s) before) + cand.tokens.val ∧
      ((exactShares t request st).forSection s).val <
        tokensOf (p.greedy ((exactShares t request st).forSection s) (bySection s)) + cand.tokens.val

/-! ### One plan -/

/-- The shares of the sections to fill fit under the ceiling. -/
theorem shares_room (hroom : st.promptTotal ≤ request.model.inputBudget) (bySection : SectionKind → List Candidate)
    (order : HashOrder) : st.promptTotal.val + shares (exactShares t request st)
      (order.sections (variableSections bySection)) ≤ request.model.inputBudget.val := by
  have hall := ExactTable.sum_allocations_le (t := t) (variableBudget request st)
  have hsub : shares (exactShares t request st) (order.sections (variableSections bySection)) ≤
      shares (exactShares t request st) SectionKind.all := by
    unfold shares
    rw [((order.sections_perm (variableSections bySection)).map _).sum_eq]
    exact (List.filter_sublist.map _).sum_le_sum fun _ _ => Nat.zero_le _
  have hle : st.promptTotal.val ≤ request.model.inputBudget.val := hroom
  have hvariable : (variableBudget request st).val = request.model.inputBudget.val - st.promptTotal.val := rfl
  rw [hvariable] at hall
  have hshares : shares (exactShares t request st) SectionKind.all ≤ request.model.inputBudget.val - st.promptTotal.val :=
    hall
  omega

theorem share_le (s : SectionKind) : (exactShares t request st).forSection s ≤ request.model.inputBudget := by
  have hall := ExactTable.sum_allocations_le (t := t) (variableBudget request st)
  have hmem : s ∈ SectionKind.all := by cases s <;> decide
  have hone := List.single_le_sum (fun _ _ => Nat.zero_le _) _
    (List.mem_map_of_mem (f := fun s => ((exactShares t request st).forSection s).val) hmem)
  exact hone.trans (hall.trans (Nat.sub_le _ _))

theorem separate (hfallback : p.scoring.summaryFallback = false) (hsections : p.loadSections scores = .ok bySection) :
    p.Separate request.model.inputBudget (exactShares t request st) bySection :=
  ⟨share_le, hfallback, slack_empty hsections⟩

/-- Without edges and summaries a plan is made, of what each section takes alone. -/
theorem pageBy_filled (hedges : p.scoring.edgePolicy.enabled = false) (hfallback : p.scoring.summaryFallback = false)
    (htokenizer : p.tokenizer.id = request.model.tokenizer) (hstage : p.fillStage order request = .ok (st, bySection))
    (hsections : p.loadSections scores = .ok bySection) (hroom : st.promptTotal ≤ request.model.inputBudget) :
    ∃ plan, p.pageBy t.allocateVariable order request = .ok plan ∧ p.FilledAlone t order request st bySection plan := by
  have hsep : p.Separate request.model.inputBudget (exactShares t request st) bySection := separate hfallback hsections
  obtain ⟨filled, hfilled, hpassed⟩ := hsep.fillBy
    fun _ => shares_room hroom bySection order
  have hfinal : p.pageEdges order request filled.toPageState = .ok filled.toPageState := by
    simp [pageEdges, hedges]
    rfl
  unfold pageBy
  rw [if_neg (not_not.mpr htokenizer), hstage, Loop.ok_bind]
  rw [exactShares] at hfilled
  simp only [hfilled, Loop.ok_bind, hfinal]
  exact ⟨_, rfl, hpassed.selected, hpassed.omitted⟩

/-- What is left for its size exceeds its section's share. -/
theorem FilledAlone.maximal (h : p.FilledAlone t order request (pageSystem request bySection fixed) bySection plan)
    (hfixed : p.pageFixed request = .ok fixed) (hscores : (scores.map (·.1)).Nodup)
    (hsections : p.loadSections scores = .ok bySection) :
    ∀ o ∈ plan.omitted, o.reason = .budget → ∀ s ≠ .system, ∀ cand ∈ bySection s, cand.id = o.blockId →
      ∃ before after, bySection s = before ++ cand :: after ∧
        ((exactShares t request (pageSystem request bySection fixed)).forSection s).val <
          tokensOf (p.greedy ((exactShares t request (pageSystem request bySection fixed)).forSection s) before) +
            cand.tokens.val ∧
        ((exactShares t request (pageSystem request bySection fixed)).forSection s).val <
          tokensOf (p.greedy ((exactShares t request (pageSystem request bySection fixed)).forSection s) (bySection s)) +
            cand.tokens.val := by
  intro o ho hreason s hs cand hc hid
  have hmem : (o.blockId, OmissionReason.budget) ∈ plan.omitted.map outline := by
    rw [← hreason]
    exact List.mem_map_of_mem ho
  have hsystem := pageSystem_passed request.model.inputBudget (bySection .system) fixed
  obtain ⟨-, hnone, -⟩ := pageFixed_inv hfixed
  rw [h.omitted] at hmem
  rcases List.mem_append.mp hmem with hmem | hmem
  · -- Left by the system section, so it is a candidate of that one.
    have hleft : (pageSystem request bySection fixed).omitted.map outline =
        systemLeft request.model.inputBudget fixed.promptTotal (bySection .system) := by
      rw [pageSystem, hsystem.omitted, hnone]
      rfl
    rw [hleft] at hmem
    obtain ⟨⟨taken, other⟩, hrefused, heq⟩ := List.mem_map.mp hmem
    obtain ⟨before, after, hsplit, -, -⟩ := Filling.refused_inv hrefused
    have hother : other ∈ bySection .system := hsplit ▸ List.mem_append_right _ List.mem_cons_self
    exact absurd (section_unique hscores hsections hc hother (hid.trans (Prod.mk.inj heq).1.symm)) hs
  · obtain ⟨s', -, hleft⟩ := List.mem_flatMap.mp hmem
    obtain ⟨before, other, after, hsplit, hother, hturn, hend⟩ := leftOut_budget hleft
    have hmem' : other ∈ bySection s' := hsplit ▸ List.mem_append_right _ List.mem_cons_self
    obtain rfl := section_unique hscores hsections hc hmem' (hid.trans hother.symm)
    obtain rfl := List.inj_on_of_nodup_map (section_ids_nodup hscores hsections s) hc hmem' (hid.trans hother.symm)
    exact ⟨before, after, hsplit, hturn, hend⟩

/-! ### Any order -/

theorem fillStage_inv (h : p.fillStage order request = .ok (st, bySection)) :
    ∃ fixed scores, p.pageFixed request = .ok fixed ∧ p.gather request = .ok scores ∧
      p.loadSections (order.scores scores) = .ok bySection ∧ st = pageSystem request bySection fixed := by
  obtain ⟨fixed, hfixed, h⟩ := Loop.bind_eq_ok.mp h
  obtain ⟨scores, hscores, h⟩ := Loop.bind_eq_ok.mp h
  obtain ⟨bySection, hsections, h⟩ := Loop.bind_eq_ok.mp h
  cases h
  exact ⟨fixed, scores, hfixed, hscores, hsections, rfl⟩

/-- Plans whose sections have the same candidates, but for the scores, take and leave the same blocks. -/
theorem FilledAlone.perm {plan' : PagePlan} (h : p.FilledAlone t order request (pageSystem request bySection fixed) bySection plan)
    (h' : p.FilledAlone t order' request (pageSystem request bySection' fixed) bySection' plan')
    (hbare : ∀ s, (bySection s).map bare = (bySection' s).map bare) :
    plan'.selected.Perm plan.selected ∧ (plan'.omitted.map outline).Perm (plan.omitted.map outline) := by
  have hsystem := pageSystem_passed request.model.inputBudget (bySection .system) fixed
  have hsystem' := pageSystem_passed request.model.inputBudget (bySection' .system) fixed
  obtain ⟨htaken, hleft⟩ := system_bare request.model.inputBudget fixed.promptTotal (bySection .system)
  obtain ⟨htaken', hleft'⟩ := system_bare request.model.inputBudget fixed.promptTotal (bySection' .system)
  rw [hbare, htaken'] at htaken
  rw [hbare, hleft'] at hleft
  -- The system section takes and leaves the same.
  have hselected : (pageSystem request bySection' fixed).selected = (pageSystem request bySection fixed).selected := by
    rw [pageSystem, pageSystem, hsystem.selected, hsystem'.selected, ← ids_bare, htaken, ids_bare]
  have homitted : (pageSystem request bySection' fixed).omitted.map outline =
      (pageSystem request bySection fixed).omitted.map outline := by
    rw [pageSystem, pageSystem, hsystem.omitted, hsystem'.omitted, hleft]
  have htotal : (pageSystem request bySection' fixed).promptTotal = (pageSystem request bySection fixed).promptTotal := by
    rw [pageSystem, pageSystem, hsystem.promptTotal, hsystem'.promptTotal, ← charged_bare, htaken, charged_bare]
  have hshares : exactShares t request (pageSystem request bySection' fixed) =
      exactShares t request (pageSystem request bySection fixed) := by
    rw [exactShares, exactShares, variableBudget, variableBudget, htotal]
  -- So does each of the others, of the same share.
  have hids : ∀ cap s, (p.greedy cap (bySection' s)).map (·.id) = (p.greedy cap (bySection s)).map (·.id) := by
    intro cap s
    rw [← ids_bare, ← (greedy_bare p cap (bySection' s)).1, ← hbare s, (greedy_bare p cap (bySection s)).1, ids_bare]
  have hlefts : ∀ cap s, p.leftOut cap (bySection' s) = p.leftOut cap (bySection s) := by
    intro cap s
    rw [← (greedy_bare p cap (bySection' s)).2, ← hbare s, (greedy_bare p cap (bySection s)).2]
  have hempty : ∀ s, (bySection' s).isEmpty = (bySection s).isEmpty := by
    intro s
    rw [← List.isEmpty_map (f := bare), ← hbare s, List.isEmpty_map]
  have hvisited : variableSections bySection' = variableSections bySection :=
    List.filter_congr fun s _ => by rw [hempty]
  have horder : (order'.sections (variableSections bySection')).Perm (order.sections (variableSections bySection)) := by
    rw [hvisited]
    exact (order'.sections_perm _).trans (order.sections_perm _).symm
  constructor
  · rw [h.selected, h'.selected, hselected, hshares, sectionsTaken, sectionsTaken, List.map_flatMap, List.map_flatMap,
      List.flatMap_congr fun s _ => hids _ s]
    exact (horder.flatMap_right _).append_left _
  · rw [h.omitted, h'.omitted, homitted, hshares, sectionsLeft, sectionsLeft, List.flatMap_congr fun s _ => hlefts _ s]
    exact (horder.flatMap_right _).append_left _

section Merged
variable {required : List BlockId} {cands cands' : List RetrievalCandidate}

theorem Best.paired (h : Best required cands scores) (h' : Best required cands' scores')
    (hsame : ∀ cand, cand ∈ cands ↔ cand ∈ cands') (hnum : ∀ cand ∈ cands, IsNumber cand.score) :
    Paired (order.scores scores) (order'.scores scores') := by
  intro e he
  obtain ⟨e', he', hid, hvalue⟩ := h.sameValue h' hsame hnum ((order.scores_perm scores).mem_iff.mp he)
  exact ⟨e', (order'.scores_perm scores').mem_iff.mpr he', hid, hvalue⟩

theorem Best.numbers (h : Best required cands scores) (hcands : ∀ cand ∈ cands, ∀ s c,
      p.loadCandidate (cand.blockId, cand.score) = .ok (some (s, c)) → IsNumber c.score)
    (hsections : p.loadSections (order.scores scores) = .ok bySection) :
    ∀ s, ∀ cand ∈ bySection s, IsNumber cand.score := by
  intro s c hc
  obtain ⟨e, he, hload⟩ := (mem_section_iff hsections).mp hc
  obtain ⟨cand, hcand, hid, hscore⟩ := h.attained e ((order.scores_perm scores).mem_iff.mp he)
  refine hcands cand hcand s c ?_
  rw [hid, hscore]
  exact hload

end Merged

/-- Every section fills greedily within its own share, whatever the other sections do; and no order of the maps or of
the retrievers changes what is taken and what is left. -/
theorem sections_isolated (hedges : p.scoring.edgePolicy.enabled = false) (hfallback : p.scoring.summaryFallback = false)
    (hnumbers : p.NumberScores request)
    (hfits : ∀ fixed, p.pageFixed request = .ok fixed → fixed.promptTotal ≤ request.model.inputBudget)
    (h : p.pageBy t.allocateVariable order request = .ok plan) :
    (∃ st bySection, p.fillStage order request = .ok (st, bySection) ∧ p.Isolated t order request st bySection plan) ∧
    ∀ order' retrievers, retrievers.Perm p.retrievers → ∃ plan',
      (p.withRetrievers retrievers).pageBy t.allocateVariable order' request = .ok plan' ∧
      plan'.selected.Perm plan.selected ∧ (plan'.omitted.map outline).Perm (plan.omitted.map outline) := by
  have htokenizer : p.tokenizer.id = request.model.tokenizer := by
    by_contra hne
    rw [pageBy, if_pos hne] at h
    cases h
  have hstage : ∃ st bySection, p.fillStage order request = .ok (st, bySection) := by
    rw [pageBy, if_neg (not_not.mpr htokenizer)] at h
    obtain ⟨⟨st, bySection⟩, hstage, -⟩ := Loop.bind_eq_ok.mp h
    exact ⟨st, bySection, hstage⟩
  obtain ⟨st, bySection, hstage⟩ := hstage
  obtain ⟨fixed, scores, hfixed, hscores, hsections, rfl⟩ := fillStage_inv hstage
  have hroom : ∀ bySection, (pageSystem request bySection fixed).promptTotal ≤ request.model.inputBudget :=
    fun bySection => promptTotal_pageSystem_le _ (hfits fixed hfixed)
  obtain ⟨plan₀, hplan₀, hfilled⟩ := pageBy_filled hedges hfallback htokenizer hstage hsections (hroom bySection)
  cases h.symm.trans hplan₀
  have hdistinct : ((order.scores scores).map (·.1)).Nodup := order_scores_nodup (gather_merged hscores)
  constructor
  · obtain ⟨found, -, hfound, hbest, -⟩ := gather_best hnumbers (.refl _) hscores
    have hnum := hbest.numbers (fun cand hc => (hnumbers.answer hfound hc).2) hsections
    refine ⟨_, bySection, hstage, ExactTable.sum_allocations_le _, ?_, ⟨found, scores, hfound, hbest, fun s cand => ?_⟩,
      fun s => ?_, hfilled, hfilled.maximal hfixed hdistinct hsections⟩
    · exact (separate hfallback hsections).ceilingIdle fun _ => shares_room (hroom bySection) bySection order
    · rw [mem_section_iff hsections]
      exact exists_congr fun e => and_congr_left fun _ => (order.scores_perm scores).mem_iff
    · refine (section_sorted hdistinct hsections (hnum s)).imp_of_mem fun {a b} ha hb hlt => ⟨hlt, ?_⟩
      rw [candidateCmp_of_numbers (hnum s a ha) (hnum s b hb)]
      exact compare_lt_iff_lt.mpr hlt
  · intro order' retrievers hretrievers
    obtain ⟨found, scores', hfound, hbest, hscores', cands', hbest', hsame⟩ := gather_best hnumbers hretrievers hscores
    have hanswers := fun cand (hc : cand ∈ found.flatten) => (hnumbers.answer hfound hc).2
    have hnum := fun cand (hc : cand ∈ found.flatten) => (hnumbers.answer hfound hc).1
    have hpaired : Paired (order.scores scores) (order'.scores scores') := hbest.paired hbest' hsame hnum
    have hpaired' : Paired (order'.scores scores') (order.scores scores) :=
      hbest'.paired hbest (fun cand => (hsame cand).symm) fun cand hc => hnum cand ((hsame cand).mpr hc)
    obtain ⟨bySection', hsections'⟩ := loadSections_total hpaired' hsections
    have hdistinct' : ((order'.scores scores').map (·.1)).Nodup := order_scores_nodup hbest'.merged
    have hstage' : (p.withRetrievers retrievers).fillStage order' request =
        .ok (pageSystem request bySection' fixed, bySection') := by
      have hfixed' : (p.withRetrievers retrievers).pageFixed request = .ok fixed := hfixed
      have hload : (p.withRetrievers retrievers).loadSections (order'.scores scores') = .ok bySection' := hsections'
      rw [fillStage, hfixed', Loop.ok_bind, hscores', Loop.ok_bind, hload]
      rfl
    obtain ⟨plan', hplan', hfilled'⟩ := (p.withRetrievers retrievers).pageBy_filled (t := t) hedges hfallback htokenizer
      hstage' hsections' (hroom bySection')
    have halone : p.FilledAlone t order' request (pageSystem request bySection' fixed) bySection' plan' :=
      ⟨hfilled'.selected, hfilled'.omitted⟩
    refine ⟨plan', hplan', hfilled.perm halone fun s => ?_⟩
    exact section_bare hpaired hpaired' hdistinct hdistinct' hsections hsections'
      (hbest.numbers hanswers hsections s)
      (hbest'.numbers (fun cand hc => hanswers cand ((hsame cand).mpr hc)) hsections' s)

/-! ### Two sections that share a budget -/

/-- The retrieved and the recent section ask for three quarters each. -/
def halves : ExactTable where
  fractions
    | .retrieved | .recent => some (3 / 4)
    | _ => none
  clamped s frac h := by
    cases s <;> cases h
    all_goals norm_num

def sharingStore : BlockStore :=
  .ofLists [sampleBlock ⟨1⟩ .fact [0x61] [], sampleBlock ⟨2⟩ .userMessage [0x62] [],
    sampleBlock ⟨3⟩ .fact (List.replicate 50 0x61) []] [(⟨1⟩, ⟨1⟩), (⟨1⟩, ⟨2⟩), (⟨1⟩, ⟨3⟩)] []

/-- Two retrievers over a short fact, a long one and a message. -/
def sharingPager : GreedyPager :=
  { GreedyPager.new sharingStore byteTokenizer (fun s => s) .insertion with
    scoring := { ScoringPolicy.default with edgePolicy := .disabled }
    retrievers := [sessionRetriever sharingStore 0.5, sessionRetriever sharingStore 1] }

def sharingRequest : PageRequest := ⟨⟨1⟩, "", ⟨"model", .saturate 8, .zero, .zero, "bytes", true⟩, []⟩

theorem sharing_answers (score : Float32) : sessionRetriever sharingStore score ⟨1⟩ "" RETRIEVAL_LIMIT =
    .ok [⟨⟨1⟩, score⟩, ⟨⟨2⟩, score⟩, ⟨⟨3⟩, score⟩] := rfl

theorem sharing_numbers : sharingPager.NumberScores sharingRequest := by
  have hscored : ∀ id ∈ [(⟨1⟩ : BlockId), ⟨2⟩, ⟨3⟩], ∀ score ∈ [(0.5 : Float32), 1], IsNumber score ∧
      ∀ s c, sharingPager.loadCandidate (id, score) = .ok (some (s, c)) → IsNumber c.score := by
    intro id hid score hscore
    have hnumber : ∀ score ∈ [(0.5 : Float32), 1], IsNumber score ∧ IsNumber (score + 0.5 * clamp 0 0 1) := by
      simp only [isNumber_iff]
      decide +kernel
    refine ⟨(hnumber score hscore).1, fun s c h => ?_⟩
    obtain ⟨b, hget, -, -, -, hsum⟩ := loadCandidate_inv h
    have hpriority : b.priority = 0 := by
      fin_cases hid <;> cases hget <;> rfl
    rw [hpriority] at hsum
    rw [show c.score = score + 0.5 * clamp 0 0 1 from hsum]
    exact (hnumber score hscore).2
  intro retriever hretriever cands hcands cand hc
  have hanswer : ∃ score ∈ [(0.5 : Float32), 1], cands = [⟨⟨1⟩, score⟩, ⟨⟨2⟩, score⟩, ⟨⟨3⟩, score⟩] := by
    rcases List.mem_cons.mp hretriever with rfl | hretriever
    · exact ⟨0.5, List.mem_cons_self, (Except.ok.inj ((sharing_answers 0.5).symm.trans hcands)).symm⟩
    · obtain rfl := List.mem_singleton.mp hretriever
      exact ⟨1, List.mem_cons_of_mem _ List.mem_cons_self, (Except.ok.inj ((sharing_answers 1).symm.trans hcands)).symm⟩
  obtain ⟨score, hscore, rfl⟩ := hanswer
  have hids : ∃ id ∈ [(⟨1⟩ : BlockId), ⟨2⟩, ⟨3⟩], cand = ⟨id, score⟩ := by
    simpa using hc
  obtain ⟨id, hid, rfl⟩ := hids
  exact hscored id hid score hscore

theorem sections_isolated_sample : ∃ plan, sharingPager.pageBy halves.allocateVariable .canonical sharingRequest = .ok plan ∧
    plan.selected = [⟨1⟩, ⟨2⟩] ∧ (∃ st bySection, sharingPager.fillStage .canonical sharingRequest = .ok (st, bySection) ∧
      sharingPager.Isolated halves .canonical sharingRequest st bySection plan) ∧
    ∃ plan', (sharingPager.withRetrievers sharingPager.retrievers.reverse).pageBy halves.allocateVariable .canonical
      sharingRequest = .ok plan' ∧ plan'.selected.Perm plan.selected := by
  have hrun : (sharingPager.pageBy halves.allocateVariable .canonical sharingRequest).toOption.map (·.selected) =
      some [⟨1⟩, ⟨2⟩] := by decide +kernel
  obtain ⟨plan, hplan, hselected⟩ := Option.map_eq_some_iff.mp hrun
  rw [Loop.toOption_eq_some] at hplan
  have hfixed : ∀ fixed, sharingPager.pageFixed sharingRequest = .ok fixed →
      fixed.promptTotal ≤ sharingRequest.model.inputBudget := by
    intro fixed hfixed
    cases hfixed
    decide
  obtain ⟨hisolated, horder⟩ := sections_isolated rfl rfl sharing_numbers hfixed hplan
  obtain ⟨plan', hplan', hperm, -⟩ := horder .canonical sharingPager.retrievers.reverse (List.reverse_perm _)
  exact ⟨plan, hplan, hselected, hisolated, plan', hplan', hperm⟩

end Llm386.GreedyPager
