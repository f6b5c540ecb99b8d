import Llm386.Packer.Notes
import Llm386.Pager.Affordable
import Llm386.Pager.Ordering
import Llm386.Pager.Reconcile

/-! # Prompts that no map decides

The pager iterates hash maps: of the scores, of the sections, of the edge kinds. Where the candidates are ordered, the
sections fit together, what they depend on fits and no block gets two notes, every order makes the same selection, and the
packer renders it alike. -/

namespace Llm386.GreedyPager
open PageState BreadthFirst

variable {p : GreedyPager} {budget : TokenCount} {order : HashOrder} {request : PageRequest} {st st' u u' : PageState}
  {vs vs' : List EdgeVerdict}

/-! ### The candidates -/

theorem Ordered.perm {cands cands' : List Candidate} (h : Ordered cands) (hperm : cands.Perm cands') : Ordered cands' where
  total a ha b hb := h.total a (hperm.mem_iff.mpr ha) b (hperm.mem_iff.mpr hb)
  antisymm a ha b hb := h.antisymm a (hperm.mem_iff.mpr ha) b (hperm.mem_iff.mpr hb)
  trans a ha b hb c hc := h.trans a (hperm.mem_iff.mpr ha) b (hperm.mem_iff.mpr hb) c (hperm.mem_iff.mpr hc)

/-- Ordered candidates come in one order, whatever order their scores come in. -/
theorem loadSections_perm {scores scores' : List (BlockId × Float32)} {bySection : SectionKind → List Candidate}
    (hperm : scores.Perm scores') (hordered : ∀ s, Ordered (bySection s)) (h : p.loadSections scores = .ok bySection) :
    p.loadSections scores' = .ok bySection := by
  obtain ⟨loaded, hloaded, h⟩ := Loop.bind_eq_ok.mp h
  cases h
  obtain ⟨loaded', hloaded', hloads⟩ := Loop.mapM_perm hperm hloaded
  unfold GreedyPager.loadSections
  rw [hloaded', Loop.ok_bind]
  refine congrArg Except.ok (funext fun s => ?_)
  exact ((hordered s).perm (p.sort.perm _ _)).sort_perm
    ((((hloads.filterMap id).filter _).map _).symm)

/-! ### The selection -/

/-- The same selection in another order, charged alike. -/
structure Alike (st st' : PageState) : Prop where
  selected : st.selected.Perm st'.selected
  selections : st.selections.Perm st'.selections
  blockTokens : st.blockTokens = st'.blockTokens

theorem Gathered.alike {start : PageState} {alone : SectionKind → FillState} {done done' : List SectionKind} {f f' : FillState}
    (hperm : done.Perm done') (h : Gathered start alone done f) (h' : Gathered start alone done' f') :
    Alike f.toPageState f'.toPageState ∧ f.promptTotal = f'.promptTotal := by
  refine ⟨⟨?_, ?_, ?_⟩, ?_⟩
  · rw [h.selected, h'.selected]
    exact (hperm.flatMap_right _).append_left _
  · rw [h.selections, h'.selections]
    exact (hperm.flatMap_right _).append_left _
  · rw [h.blockTokens, h'.blockTokens, (hperm.map _).sum_eq]
  · rw [h.promptTotal, h'.promptTotal, (hperm.map _).sum_eq]

theorem Alike.within_eq (h : Alike st st') (n : Nat) : p.within st' n = p.within st n := by
  have hset : {id | id ∈ st'.selected} = {id | id ∈ st.selected} := Set.ext fun id => h.selected.mem_iff.symm
  rw [within, within, hset]

theorem Alike.affordable (h : Alike st st') (htotal : st.promptTotal = st'.promptTotal) {new : List BlockId}
    (hnew : Affordable p budget st new) : Affordable p budget st' new where
  nodup := hnew.nodup
  all id := by rw [hnew.all, h.within_eq, h.selected.mem_iff]
  room := htotal ▸ hnew.room
  readable n hn id hid := hnew.readable n hn id (h.within_eq n ▸ hid)

theorem Extended.alike (h : Alike st st') {pulled pulled' : List BlockId} (hperm : pulled.Perm pulled')
    (hu : Extended p st pulled u) (hu' : Extended p st' pulled' u') : Alike u u' where
  selected := by
    rw [hu.selected, hu'.selected]
    exact h.selected.append hperm
  selections := by
    rw [hu.selections, hu'.selections]
    exact h.selections.append (hperm.map _)
  blockTokens := by
    rw [hu.blockTokens, hu'.blockTokens, h.blockTokens, totalCost, totalCost, (hperm.map p.tokenCost).sum_eq]

/-! ### The notes -/

/-- No block gets two notes. -/
def Uncontested (verdicts : List EdgeVerdict) : Prop :=
  ∀ id note note', .annotate id note ∈ verdicts → .annotate id note' ∈ verdicts → note = note'

theorem dropped_perm (hperm : vs.Perm vs') : EdgeVerdict.dropped vs = EdgeVerdict.dropped vs' := by
  funext id
  rw [Bool.eq_iff_iff, EdgeVerdict.dropped_iff, EdgeVerdict.dropped_iff]
  simp only [hperm.mem_iff]

/-- The first note is the only one. -/
theorem note_perm (hone : Uncontested vs) (hperm : vs.Perm vs') : EdgeVerdict.note vs = EdgeVerdict.note vs' := by
  funext id
  cases hnote : EdgeVerdict.note vs id with
  | none =>
    cases hnote' : EdgeVerdict.note vs' id with
    | none => rfl
    | some n =>
      obtain ⟨m, hm⟩ := EdgeVerdict.note_of_mem (hperm.mem_iff.mpr (EdgeVerdict.note_mem hnote'))
      rw [hnote] at hm
      cases hm
  | some n =>
    have hmem := EdgeVerdict.note_mem hnote
    obtain ⟨m, hm⟩ := EdgeVerdict.note_of_mem (hperm.mem_iff.mp hmem)
    rw [hm, hone id n m hmem (hperm.mem_iff.mpr (EdgeVerdict.note_mem hm))]

theorem Reconciled.alike (h : Alike st st') (hone : Uncontested vs) (hperm : vs.Perm vs') (hu : Reconciled p vs st u)
    (hu' : Reconciled p vs' st' u') : Alike u u' where
  selected := by
    rw [hu.selected, hu'.selected, dropped_perm hperm]
    exact h.selected.filter _
  selections := by
    rw [hu.selections, hu'.selections, dropped_perm hperm, note_perm hone hperm]
    exact (h.selections.filter _).map _
  blockTokens := by
    have htokens : u.blockTokens.val = u'.blockTokens.val := by
      have hcost := ((h.selected.filter (EdgeVerdict.dropped vs')).map p.tokenCost).sum_eq
      rw [hu.tokens, hu'.tokens, dropped_perm hperm, h.blockTokens, totalCost, totalCost, hcost]
    rw [← saturate_val u.blockTokens, htokens, saturate_val]

/-! ### The plan -/

/-- All that the selection depends on fits, and no block of it gets two notes. -/
structure Undisputed (p : GreedyPager) (budget : TokenCount) (st : PageState) : Prop where
  affordable : ∃ new, Affordable p budget st new
  uncontested : p.scoring.edgePolicy.reconciles = true → ∃ expanded vs,
    p.expandEdges .canonical budget st = .ok expanded ∧
    p.allVerdicts expanded.selected (pinnedOf expanded) expanded.selected = .ok vs ∧ Uncontested vs

/-- The stages of a request that no map decides. -/
structure Stages (p : GreedyPager) (request : PageRequest) (fixed : PageState) (scores : List (BlockId × Float32))
    (bySection : SectionKind → List Candidate) (summaryFor : List (BlockId × BlockId)) (alone : SectionKind → FillState)
    (filled : FillState) : Prop where
  tokenizer : p.tokenizer.id = request.model.tokenizer
  required : p.pageFixed request = .ok fixed
  gathered : p.gather request = .ok scores
  loaded : p.loadSections scores = .ok bySection
  untangled : ∀ s, ¬Tangled (bySection s)
  index : p.summaryIndex request.sessionId = .ok summaryFor
  together : Together p request.model.inputBudget (p.pageAllocation request (pageSystem request bySection fixed)) summaryFor
    bySection (pageSystem request bySection fixed) alone
  fill : p.pageFill .canonical request bySection (pageSystem request bySection fixed) = .ok filled
  edges : p.scoring.edgePolicy.enabled = true → p.Undisputed request.model.inputBudget filled.toPageState

/-- No iteration of a map decides what the request gets. -/
def Orderless (p : GreedyPager) (request : PageRequest) : Prop :=
  ∃ fixed scores bySection summaryFor alone filled, p.Stages request fixed scores bySection summaryFor alone filled

theorem pinnedOf_perm (h : Alike st st') (id : BlockId) : id ∈ pinnedOf st ↔ id ∈ pinnedOf st' :=
  ((h.selections.filter _).map _).mem_iff

/-- Selections that are alike stay so through the edges. -/
theorem Undisputed.edges (h : p.Undisputed request.model.inputBudget st) (hplain : Plain p st) (hplain' : Plain p st')
    (halike : Alike st st') (htotal : st.promptTotal = st'.promptTotal) (henabled : p.scoring.edgePolicy.enabled = true) :
    ∃ final final', p.pageEdges .canonical request st = .ok final ∧ p.pageEdges order request st' = .ok final' ∧
      Alike final final' := by
  obtain ⟨new, hnew⟩ := h.affordable
  obtain ⟨u, pulled, hu, hpulled, hextended⟩ := hnew.expandEdges .canonical hplain.costed
  obtain ⟨u', pulled', hu', hpulled', hextended'⟩ := (halike.affordable htotal hnew).expandEdges order hplain'.costed
  have hexpanded := hextended.alike halike (hpulled.trans hpulled'.symm) hextended'
  unfold pageEdges
  simp only [henabled, if_true, hu, hu', Loop.ok_bind]
  by_cases hrec : p.scoring.edgePolicy.reconciles = true
  · simp only [hrec, if_true]
    obtain ⟨expanded, vs, hcanonical, hvs, hone⟩ := h.uncontested hrec
    cases hu.symm.trans hcanonical
    obtain ⟨vs', hvs', hperm⟩ := allVerdicts_perm hexpanded.selected (pinnedOf_perm hexpanded) hvs
    have hu := plain_kept.pulls.expandEdges hplain hu
    have hu' := plain_kept.pulls.expandEdges hplain' hu'
    obtain ⟨final, hfinal, hreconciled⟩ := reconcile_eq hu.costed hu.lockstep hu.unnoted hvs
    obtain ⟨final', hfinal', hreconciled'⟩ := reconcile_eq hu'.costed hu'.lockstep hu'.unnoted hvs'
    exact ⟨final, final', hfinal, hfinal', hreconciled.alike hexpanded hone hperm hreconciled'⟩
  · simp only [hrec, if_false, Bool.false_eq_true]
    exact ⟨u, u', rfl, rfl, hexpanded⟩

/-- Every order makes the plan that the canonical one makes. -/
theorem Stages.page {fixed : PageState} {scores : List (BlockId × Float32)} {bySection : SectionKind → List Candidate}
    {summaryFor : List (BlockId × BlockId)} {alone : SectionKind → FillState} {filled : FillState}
    (h : p.Stages request fixed scores bySection summaryFor alone filled) (order : HashOrder) :
    ∃ final plan, p.pageEdges .canonical request filled.toPageState = .ok final ∧ p.page order request = .ok plan ∧
      plan.selected.Perm final.selected ∧ plan.selections.Perm final.selections ∧
      plan.estimatedTokens = final.blockTokens := by
  have hnodup := (gather_merged h.gathered).nodup
  have hloaded : p.loadSections (order.scores scores) = .ok bySection :=
    loadSections_perm (order.scores_perm scores).symm
      (fun s => (ordered_iff (section_ids_nodup hnodup h.loaded s)).mpr (h.untangled s)) h.loaded
  obtain ⟨canonical, hcanonical, hgathered⟩ := h.together.fill .canonical h.index
  cases h.fill.symm.trans hcanonical
  obtain ⟨filled', hfilled', hgathered'⟩ := h.together.fill order h.index
  obtain ⟨halike, htotal⟩ := hgathered.alike (order.sections_perm _).symm hgathered'
  obtain ⟨final, final', hfinal, hfinal', hdone⟩ : ∃ final final',
      p.pageEdges .canonical request filled.toPageState = .ok final ∧
      p.pageEdges order request filled'.toPageState = .ok final' ∧ Alike final final' := by
    by_cases henabled : p.scoring.edgePolicy.enabled = true
    · exact (h.edges henabled).edges (filled_plain h.required h.loaded h.fill) (filled_plain h.required h.loaded hfilled')
        halike htotal henabled
    · unfold pageEdges
      simp only [henabled, if_false, Bool.false_eq_true]
      exact ⟨_, _, rfl, rfl, halike⟩
  refine ⟨final, ⟨final'.selected, final'.selections, final'.omitted, final'.blockTokens⟩, hfinal, ?_, hdone.selected.symm,
    hdone.selections.symm, hdone.blockTokens.symm⟩
  unfold GreedyPager.page
  simp only [h.tokenizer, ne_eq, not_true, if_false, h.required, h.gathered, hloaded, hfilled', hfinal', Loop.ok_bind]
  rfl

/-- A plan has one note for each block. -/
theorem page_oneNote {plan : PagePlan} (h : p.page order request = .ok plan) : SimplePacker.OneNote plan := by
  obtain ⟨fixed, scores, bySection, filled, final, hfixed, -, hsections, hfilled, hfinal, rfl⟩ := page_inv h
  have hplain := filled_plain hfixed hsections hfilled
  have hbare : ∀ {st : PageState}, Plain p st →
      SimplePacker.OneNote ⟨st.selected, st.selections, st.omitted, st.blockTokens⟩ := by
    intro st hst sel hsel sel' _ _ note note' hnote
    rw [hst.unnoted sel hsel] at hnote
    cases hnote
  rcases pageEdges_inv hfinal with ⟨-, rfl⟩ | ⟨-, expanded, hexpand, ⟨-, rfl⟩ | ⟨-, hrec⟩⟩
  · exact hbare hplain
  · exact hbare (plain_kept.pulls.expandEdges hplain hexpand)
  · obtain ⟨vs, -, hreconciled⟩ := reconcile_inv (plain_kept.pulls.expandEdges hplain hexpand) hrec
    intro sel hsel sel' hsel' hid note note' hnote hnote'
    have heq := (hreconciled.notes sel hsel).symm.trans hnote
    rw [hid] at heq
    exact Option.some.inj (heq.symm.trans ((hreconciled.notes sel' hsel').symm.trans hnote'))

/-! ### The prompt -/

/-- A request that no map decides: all executions, at any time, render the same prompt from plans of the same cost. -/
theorem pack_deterministic (h : p.Orderless request) (order order' : HashOrder) {k : SimplePacker} {now : Timestamp}
    (hnow : k.options.nowMs = some now) (clock clock' : Timestamp) :
    ∃ plan plan', p.page order request = .ok plan ∧ p.page order' request = .ok plan' ∧
      plan.selected.Perm plan'.selected ∧ plan.estimatedTokens = plan'.estimatedTokens ∧
      (∀ prompt, k.pack clock request plan = .ok prompt ↔ k.pack clock' request plan' = .ok prompt) ∧
      ∀ chat, k.packChat clock request plan = .ok chat ↔ k.packChat clock' request plan' = .ok chat := by
  obtain ⟨fixed, scores, bySection, summaryFor, alone, filled, hstages⟩ := h
  obtain ⟨final, plan, hfinal, hplan, hselected, hselections, htokens⟩ := hstages.page order
  obtain ⟨final', plan', hfinal', hplan', hselected', hselections', htokens'⟩ := hstages.page order'
  cases hfinal.symm.trans hfinal'
  have hsame : SimplePacker.Reordered plan plan' := ⟨hselected.trans hselected'.symm, hselections.trans hselections'.symm⟩
  have hsame' : SimplePacker.Reordered plan' plan := ⟨hsame.selected.symm, hsame.selections.symm⟩
  have hone := page_oneNote hplan
  have hone' := page_oneNote hplan'
  refine ⟨plan, plan', hplan, hplan', hsame.selected, htokens.trans htokens'.symm, fun prompt => ?_, fun chat => ?_⟩
  · rw [SimplePacker.pack_of_fixed hnow clock' clock]
    exact ⟨SimplePacker.pack_reordered hone hsame, SimplePacker.pack_reordered hone' hsame'⟩
  · rw [SimplePacker.packChat_of_fixed hnow clock' clock]
    exact ⟨SimplePacker.packChat_reordered hone hsame, SimplePacker.packChat_reordered hone' hsame'⟩

/-! ### Two facts and a message

The message contradicts the first fact, which a result supports: the fact is flagged and the result pulled in. -/

def claimsPager (edges : List Edge) : GreedyPager :=
  .new (.ofLists [sampleBlock ⟨1⟩ .fact [0x61] [], sampleBlock ⟨2⟩ .fact [0x62] [], sampleBlock ⟨3⟩ .userMessage [0x63] [],
    sampleBlock ⟨4⟩ .toolResult [0x64] []] [(⟨1⟩, ⟨1⟩), (⟨1⟩, ⟨2⟩), (⟨1⟩, ⟨3⟩)] edges) byteTokenizer (fun s => s) .insertion

def claimsRequest : PageRequest := ⟨⟨1⟩, "", ⟨"model", .saturate 1000, .zero, .zero, "bytes", true⟩, []⟩

def supportedPager : GreedyPager := claimsPager [⟨⟨1⟩, ⟨4⟩, .supports⟩, ⟨⟨3⟩, ⟨1⟩, .contradicts⟩]

def claimsPacker : SimplePacker :=
  ⟨supportedPager.store, byteTokenizer, { PackerOptions.default with nowMs := some .zero }, fun _ => ""⟩

theorem eq_ok_of_isSome {ε α : Type} {x : Except ε α} (h : x.toOption.isSome = true) (d : α) :
    x = .ok (x.toOption.getD d) := by
  cases x with
  | error e => cases h
  | ok a => rfl

def supportedFixed : PageState := (supportedPager.pageFixed claimsRequest).toOption.getD .empty

def supportedScores : List (BlockId × Float32) := (supportedPager.gather claimsRequest).toOption.getD []

def supportedSections : SectionKind → List Candidate := (supportedPager.loadSections supportedScores).toOption.getD fun _ => []

def supportedStart : PageState := pageSystem claimsRequest supportedSections supportedFixed

def supportedAlone (s : SectionKind) : FillState :=
  (supportedPager.fillAlone (supportedPager.pageAllocation claimsRequest supportedStart) [] supportedSections s).toOption.getD
    (fillStart .empty)

def supportedFilled : FillState :=
  (supportedPager.pageFill .canonical claimsRequest supportedSections supportedStart).toOption.getD (fillStart .empty)

def supportedExpanded : PageState :=
  (supportedPager.expandEdges .canonical claimsRequest.model.inputBudget supportedFilled.toPageState).toOption.getD .empty

theorem supported_numbers (s : SectionKind) : ∀ c ∈ supportedSections s, IsNumber c.score := by
  simp only [isNumber_iff]
  cases s <;> decide +kernel

theorem supported_together : Together supportedPager claimsRequest.model.inputBudget
    (supportedPager.pageAllocation claimsRequest supportedStart) [] supportedSections supportedStart supportedAlone where
  slack := by decide +kernel
  through s hs := by
    refine eq_ok_of_isSome ?_ _
    revert s
    decide +kernel
  room := by decide +kernel
  apart := by decide +kernel

/-- What each selected block pulls in. -/
theorem supported_pulls {id : BlockId} (hid : id ∈ supportedFilled.selected) : ∃ block,
    supportedPager.getBlock id = .ok (some block) ∧
    supportedPager.dependencies .canonical 0 block id = .ok (if id = ⟨1⟩ then [⟨4⟩] else []) := by
  have hselected : supportedFilled.selected = [⟨2⟩, ⟨1⟩, ⟨3⟩] := by decide +kernel
  rw [hselected] at hid
  fin_cases hid <;> exact ⟨_, rfl, rfl⟩

theorem supported_costs : supportedPager.Costs ⟨4⟩ (.saturate 1) := ⟨sampleBlock ⟨4⟩ .toolResult [0x64] [], rfl, rfl⟩

theorem supported_affordable :
    Affordable supportedPager claimsRequest.model.inputBudget supportedFilled.toPageState [⟨4⟩] where
  nodup := List.nodup_singleton _
  all id := by
    have hdepth : supportedPager.scoring.edgePolicy.effectiveDepth = 1 := rfl
    have hold : (⟨4⟩ : BlockId) ∉ supportedFilled.selected := by decide +kernel
    rw [hdepth, List.mem_singleton, mem_within_succ]
    simp only [mem_within_zero]
    constructor
    · rintro rfl
      have hfirst : (⟨1⟩ : BlockId) ∈ supportedFilled.selected := by decide +kernel
      obtain ⟨block, hget, hdeps⟩ := supported_pulls hfirst
      exact ⟨hold, Or.inr ⟨⟨1⟩, hfirst, (mem_pulls hget hdeps).mpr ⟨⟨_, supported_costs⟩, List.mem_singleton.mpr rfl⟩⟩⟩
    · rintro ⟨hnew, hid | ⟨x, hx, hid⟩⟩
      · exact absurd hid hnew
      · obtain ⟨block, hget, hdeps⟩ := supported_pulls hx
        have hmem := ((mem_pulls hget hdeps).mp hid).2
        split at hmem
        · exact List.mem_singleton.mp hmem
        · exact absurd hmem List.not_mem_nil
  room := by decide +kernel
  readable n hn id hid := by
    obtain rfl : n = 0 := Nat.lt_one_iff.mp hn
    obtain ⟨block, hget, hdeps⟩ := supported_pulls (mem_within_zero.mp hid)
    refine Or.inr ⟨block, _, hget, hdeps, fun dep hdep => Or.inr ?_⟩
    split at hdep
    · exact List.mem_singleton.mp hdep ▸ ⟨_, supported_costs⟩
    · exact absurd hdep List.not_mem_nil

theorem supported_orderless : supportedPager.Orderless claimsRequest := by
  refine ⟨supportedFixed, supportedScores, supportedSections, [], supportedAlone, supportedFilled, ?_⟩
  constructor
  case tokenizer => rfl
  case required => exact eq_ok_of_isSome (by decide +kernel) _
  case gathered => exact eq_ok_of_isSome (by decide +kernel) _
  case loaded => exact eq_ok_of_isSome (by decide +kernel) _
  case untangled =>
    rintro s ⟨a, -, b, hb, -, -, hnan, -⟩
    exact hnan (supported_numbers s b hb)
  case index => rfl
  case together => exact supported_together
  case fill => exact eq_ok_of_isSome (by decide +kernel) _
  case edges =>
    refine fun _ => ⟨⟨_, supported_affordable⟩, fun _ => ?_⟩
    refine ⟨supportedExpanded, [.keep, .annotate ⟨1⟩ ("contradicted by newer block " ++ (⟨3⟩ : BlockId).display)], ?_, ?_, ?_⟩
    · exact eq_ok_of_isSome (by decide +kernel) _
    · have hselected : supportedExpanded.selected = [⟨2⟩, ⟨1⟩, ⟨3⟩, ⟨4⟩] := by decide +kernel
      have hpinned : pinnedOf supportedExpanded = [] := by decide +kernel
      rw [hselected, hpinned]
      rfl
    · intro id note note' hnote hnote'
      simp only [List.mem_cons, reduceCtorEq, EdgeVerdict.annotate.injEq, List.not_mem_nil, or_false, false_or] at hnote hnote'
      rw [hnote.2, hnote'.2]

/-- Every map iterated the other way round. -/
def backwards : HashOrder where
  scores l := l.reverse
  sections l := l.reverse
  kinds _ l := l.reverse
  scores_perm l := l.reverse_perm
  sections_perm l := l.reverse_perm
  kinds_perm _ l := l.reverse_perm

theorem pack_deterministic_sample : ∃ plan plan', supportedPager.page .canonical claimsRequest = .ok plan ∧
    supportedPager.page backwards claimsRequest = .ok plan' ∧ plan.selected.Perm plan'.selected ∧
    plan.estimatedTokens = plan'.estimatedTokens ∧
    (∀ prompt, claimsPacker.pack .zero claimsRequest plan = .ok prompt ↔
      claimsPacker.pack .zero claimsRequest plan' = .ok prompt) ∧
    ∀ chat, claimsPacker.packChat .zero claimsRequest plan = .ok chat ↔
      claimsPacker.packChat .zero claimsRequest plan' = .ok chat :=
  pack_deterministic supported_orderless .canonical backwards rfl .zero .zero

end Llm386.GreedyPager
