import Llm386.Lmdb.BlockStore
import Llm386.Pager.Candidates
import Llm386.Pager.Expansion

/-! # Sessions in a plan

With retrievers that draw from the session, every block selected before the expansion is listed in the session.
The expansion follows edges, and edges carry no session: what it pulls in may be listed elsewhere only. -/

namespace Llm386

/-- The session lists the block. -/
def BlockStore.Lists (store : BlockStore) (session : SessionId) (id : BlockId) : Prop :=
  ∃ ids, store.listSession session = .ok ids ∧ id ∈ ids

/-- A stored edge out of `source` into `target`, of a kind that the policy follows. -/
def BlockStore.Leads (store : BlockStore) (policy : EdgePolicy) (source target : BlockId) : Prop :=
  ∃ es, store.edgesFrom source = .ok es ∧ ∃ e ∈ es, e.toId = target ∧ policy.pullsOutgoing e.kind = true

namespace GreedyPager
open PageState BreadthFirst

variable {p : GreedyPager} {budget : TokenCount} {order : HashOrder} {request : PageRequest} {Q : BlockId → Prop}

/-! ### Before the expansion -/

theorem mergeScore_ids {required : List BlockId} {scores : List (BlockId × Float32)} {cand : RetrievalCandidate}
    (h : ∀ e ∈ scores, Q e.1) (hc : Q cand.blockId) : ∀ e ∈ mergeScore required scores cand, Q e.1 := by
  unfold mergeScore
  split
  · exact h
  · split
    · intro e he
      obtain ⟨e', he', rfl⟩ := List.mem_map.mp he
      split
      · exact h e' he'
      · exact h e' he'
    · intro e he
      rcases List.mem_append.mp he with he | he
      · exact h e he
      · obtain rfl := List.mem_singleton.mp he
        exact hc

theorem mergeScores_ids {required : List BlockId} {cands : List RetrievalCandidate} {scores : List (BlockId × Float32)}
    (h : ∀ e ∈ scores, Q e.1) (hc : ∀ cand ∈ cands, Q cand.blockId) :
    ∀ e ∈ cands.foldl (mergeScore required) scores, Q e.1 := by
  induction cands generalizing scores with
  | nil => exact h
  | cons cand cands ih =>
    exact ih (mergeScore_ids h (hc cand List.mem_cons_self)) fun c hc' => hc c (List.mem_cons_of_mem _ hc')

/-- The merged scores name blocks of the session. -/
theorem gather_listed (hscoped : ∀ r ∈ p.retrievers, SessionScoped p.store r) {scores : List (BlockId × Float32)}
    (h : p.gather request = .ok scores) : ∀ e ∈ scores, p.store.Lists request.sessionId e.1 := by
  refine Loop.foldlM_inv (P := fun scores => ∀ e ∈ scores, p.store.Lists request.sessionId e.1)
    (fun r hr s t hs ht => ?_) (s := []) (fun e he => absurd he List.not_mem_nil) h
  obtain ⟨cands, hcands, ht⟩ := Loop.bind_eq_ok.mp ht
  cases ht
  exact mergeScores_ids hs (hscoped r hr _ _ _ _ (Loop.mapError_eq_ok.mp hcands))

/-- The fill selects candidates and summaries of the index. -/
theorem selected_kept {summaryFor : List (BlockId × BlockId)} (hsummary : ∀ e ∈ summaryFor, Q e.2) :
    FillKept p budget (fun cand => Q cand.id) summaryFor fun st => ∀ id ∈ st.selected, Q id where
  leave _ h := h
  take {st cand} hc h _ := List.forall_mem_append.mpr ⟨h, List.forall_mem_singleton.mpr hc⟩
  replace {st cand summaryId n} _ h hS _ _ := by
    obtain ⟨before, after, hindex, -⟩ := List.lookup_eq_some_iff.mp hS
    exact List.forall_mem_append.mpr ⟨h, List.forall_mem_singleton.mpr
      (hsummary (cand.id, summaryId) (hindex ▸ List.mem_append_right _ List.mem_cons_self))⟩

/-- Without required blocks, everything selected before the expansion is listed in the session. -/
theorem filled_listed (hscoped : ∀ r ∈ p.retrievers, SessionScoped p.store r) (hrequired : request.requiredBlocks = [])
    {fixed : PageState} {scores : List (BlockId × Float32)} {bySection : SectionKind → List Candidate}
    {filled : FillState} (hfixed : p.pageFixed request = .ok fixed) (hscores : p.gather request = .ok scores)
    (hsections : p.loadSections (order.scores scores) = .ok bySection)
    (hfilled : p.pageFill order request bySection (pageSystem request bySection fixed) = .ok filled) :
    ∀ id ∈ filled.selected, p.store.Lists request.sessionId id := by
  have hcands : ∀ s, ∀ cand ∈ bySection s, p.store.Lists request.sessionId cand.id := by
    intro s cand hcand
    obtain ⟨entry, hentry, hload⟩ := (mem_section_iff hsections).mp hcand
    obtain ⟨-, -, -, -, hid, -⟩ := loadCandidate_inv hload
    exact hid ▸ gather_listed hscoped hscores entry ((order.scores_perm scores).mem_iff.mp hentry)
  have hnone : ∀ id ∈ fixed.selected, p.store.Lists request.sessionId id := by
    simp [(pageFixed_inv hfixed).1, hrequired]
  exact FillKept.filled (fun _ hindex => selected_kept fun e he => (summaryIndex_inv hindex e he).1) hcands hnone hfilled

/-! ### The expansion -/

/-- Under a policy that follows outgoing edges only, a dependency is the target of an edge. -/
theorem leads_of_pulls (hparents : p.scoring.edgePolicy.followProvenanceParents = false)
    (hchildren : p.scoring.edgePolicy.pullsChildren = false) {a b : BlockId} (h : b ∈ p.pulls a) :
    p.store.Leads p.scoring.edgePolicy a b := by
  obtain ⟨-, block, deps, -, hdeps, hb⟩ := h
  obtain ⟨out, hout, hdeps⟩ := Loop.bind_eq_ok.mp hdeps
  simp only [hparents, hchildren] at hdeps
  cases hdeps
  obtain ⟨k, -, hk⟩ := List.mem_flatMap.mp (by simpa using hb : b ∈ collectOutgoing _ _ out)
  have htarget := (List.perm_insertionSort _ _).mem_iff.mp (List.mem_of_mem_take hk)
  obtain ⟨e, he, rfl⟩ := List.mem_map.mp htarget
  obtain ⟨hmem, hkind⟩ := List.mem_filter.mp he
  simp only [Bool.and_eq_true, decide_eq_true_eq] at hkind
  exact ⟨out, Loop.mapError_eq_ok.mp hout, e, hmem, rfl, hkind.1 ▸ hkind.2⟩

/-- Under the default policy a plan selects blocks of the session and targets of edges out of these. -/
theorem page_listed_or_led (hpolicy : p.scoring.edgePolicy = .default)
    (hscoped : ∀ r ∈ p.retrievers, SessionScoped p.store r) (hrequired : request.requiredBlocks = [])
    {plan : PagePlan} (h : p.page order request = .ok plan) : ∀ id ∈ plan.selected,
      p.store.Lists request.sessionId id ∨ ∃ source ∈ plan.selected,
        p.store.Lists request.sessionId source ∧ p.store.Leads .default source id := by
  obtain ⟨fixed, scores, bySection, filled, final, hfixed, hscores, hsections, hfilled, hfinal, rfl⟩ := page_inv h
  have hlisted := filled_listed hscoped hrequired hfixed hscores hsections hfilled
  have hplain := filled_plain hfixed hsections hfilled
  rcases pageEdges_inv hfinal with ⟨-, rfl⟩ | ⟨-, expanded, hexpand, hrest⟩
  · exact fun id hid => Or.inl (hlisted id hid)
  · have hselected : final.selected = expanded.selected := by
      rcases hrest with ⟨-, rfl⟩ | ⟨-, hrec⟩
      · rfl
      · exact reconcile_selected (by rw [hpolicy]; decide) (by rw [hpolicy]; decide)
          (plain_kept.pulls.expandEdges hplain hexpand).lockstep hrec
    obtain ⟨new, hnew, -, -, hball⟩ := expandEdges_inv hexpand
    intro id hid
    simp only [hselected] at hid ⊢
    have hnear := hball id hid
    rw [hpolicy] at hnear
    -- The default depth is one hop.
    rcases hnear with hid | ⟨source, hsource, hpull⟩
    · exact Or.inl (hlisted id hid)
    · refine Or.inr ⟨source, hnew ▸ List.mem_append_left _ hsource, hlisted source hsource, ?_⟩
      have hleads := leads_of_pulls (by rw [hpolicy]; rfl) (by rw [hpolicy]; rfl) hpull
      rwa [hpolicy] at hleads

/-- On every store that any run of writes leaves: a plan selects blocks that the session lists and targets of
`parent`, `derived_from`, `supports` and `tool_invocation` edges out of these, so it stays within the session when
no such edge leaves it. -/
theorem page_scoped {st : LmdbStore} (hrun : LmdbStore.Ran st) (hstore : p.store = st.blockStore hrun)
    (hpolicy : p.scoring.edgePolicy = .default) (hscoped : ∀ r ∈ p.retrievers, SessionScoped p.store r)
    (hrequired : request.requiredBlocks = []) {plan : PagePlan} (h : p.page order request = .ok plan) :
    (∀ id ∈ plan.selected, (st.blockStore hrun).Lists request.sessionId id ∨ ∃ source ∈ plan.selected,
      (st.blockStore hrun).Lists request.sessionId source ∧ ∃ es, st.edgesFrom source = .ok es ∧
        ∃ e ∈ es, e.toId = id ∧ e.kind ≠ .contradicts) ∧
    ((∀ source target, (st.blockStore hrun).Lists request.sessionId source →
        (st.blockStore hrun).Leads .default source target → (st.blockStore hrun).Lists request.sessionId target) →
      ∀ id ∈ plan.selected, (st.blockStore hrun).Lists request.sessionId id) := by
  have hall := page_listed_or_led hpolicy hscoped hrequired h
  rw [hstore] at hall
  refine ⟨fun id hid => (hall id hid).imp_right ?_, fun hclosed id hid => ?_⟩
  · rintro ⟨source, hsource, hlisted, es, hes, e, he, hto, hkind⟩
    exact ⟨source, hsource, hlisted, es, hes, e, he, hto, fun hcontra => by simp [hcontra, EdgePolicy.pullsOutgoing] at hkind⟩
  · rcases hall id hid with hlisted | ⟨source, -, hlisted, hleads⟩
    · exact hlisted
    · exact hclosed source id hlisted hleads

/-! ### An edge between sessions -/

/-- A fact of session 1 supported by a fact of session 2. -/
def crossOps : List LmdbStore.WriteOp :=
  [.put ⟨1⟩ (sampleBlock ⟨1⟩ .fact [0x61] []), .put ⟨2⟩ (sampleBlock ⟨2⟩ .fact [0x62] []),
    .putEdge ⟨⟨1⟩, ⟨2⟩, .supports⟩]

def crossStore : LmdbStore := .storeAfter crossOps

theorem crossStore_ran : LmdbStore.Ran crossStore := (LmdbStore.storeAfter_reachable (by decide +kernel)).ran

def crossPager : GreedyPager := .new (crossStore.blockStore crossStore_ran) byteTokenizer (fun s => s) .insertion

theorem crossPager_scoped : ∀ r ∈ crossPager.retrievers, SessionScoped crossPager.store r := by
  intro r hr
  obtain rfl := List.mem_singleton.mp hr
  exact recencyRetriever_scoped _

def crossRequest : PageRequest := ⟨⟨1⟩, "", ⟨"model", .saturate 100, .zero, .zero, "bytes", true⟩, []⟩

theorem page_leaves_session : crossPager.scoring.edgePolicy = .default ∧
    (∀ r ∈ crossPager.retrievers, SessionScoped crossPager.store r) ∧ crossRequest.requiredBlocks = [] ∧
    ∃ plan, crossPager.page .canonical crossRequest = .ok plan ∧
      ∃ id ∈ plan.selected, ¬crossPager.store.Lists crossRequest.sessionId id := by
  obtain ⟨plan, hplan, hselected⟩ := exists_plan crossPager .canonical crossRequest [⟨1⟩, ⟨2⟩]
    (by decide +kernel)
  refine ⟨rfl, crossPager_scoped, rfl, plan, hplan, ⟨2⟩, by simp [hselected], ?_⟩
  rintro ⟨ids, hids, hid⟩
  have hlist : crossPager.store.listSession crossRequest.sessionId = .ok [⟨1⟩] := by decide +kernel
  rw [hlist] at hids
  cases hids
  exact absurd hid (by decide)

theorem page_scoped_sample : ∃ plan, crossPager.page .canonical crossRequest = .ok plan ∧
    plan.selected = [⟨1⟩, ⟨2⟩] ∧ ∀ id ∈ plan.selected, (crossStore.blockStore crossStore_ran).Lists ⟨1⟩ id ∨
      ∃ source ∈ plan.selected, (crossStore.blockStore crossStore_ran).Lists ⟨1⟩ source ∧
        ∃ es, crossStore.edgesFrom source = .ok es ∧ ∃ e ∈ es, e.toId = id ∧ e.kind ≠ .contradicts := by
  obtain ⟨plan, hplan, hselected⟩ := exists_plan crossPager .canonical crossRequest [⟨1⟩, ⟨2⟩]
    (by decide +kernel)
  exact ⟨plan, hplan, hselected, (page_scoped crossStore_ran rfl rfl crossPager_scoped rfl hplan).1⟩

end GreedyPager

end Llm386
