import Llm386.Pager.Passes

/-! # The budget of a plan

The two running totals of the pager are exact: the block total is the sum of the costs of the selected blocks, and
the prompt total is that plus the task, or the task alone overran the budget and nothing more was selected.
Reconciliation takes back exactly what a dropped block was charged. -/

namespace Llm386.GreedyPager
open PageState

variable {p : GreedyPager} {budget : TokenCount} {order : HashOrder} {st st' : PageState}

/-- `tokens_for` of the stored block `id`. -/
def tokenCost (p : GreedyPager) (id : BlockId) : Nat :=
  match p.getBlock id with
  | .ok (some b) => match p.tokensFor b with
    | .ok n => n.val
    | .error _ => 0
  | _ => 0

theorem Costs.tokenCost {id : BlockId} {n : TokenCount} (h : p.Costs id n) : p.tokenCost id = n.val := by
  obtain ⟨b, hb, hn⟩ := h
  simp only [GreedyPager.tokenCost, hb, hn]

/-- The cost of a list of blocks, each occurrence counted. -/
def totalCost (p : GreedyPager) (ids : List BlockId) : Nat := (ids.map p.tokenCost).sum

@[simp] theorem totalCost_nil : p.totalCost [] = 0 := rfl

@[simp] theorem totalCost_cons (id : BlockId) (ids : List BlockId) :
    p.totalCost (id :: ids) = p.tokenCost id + p.totalCost ids := by
  simp [totalCost]

@[simp] theorem totalCost_append (ids ids' : List BlockId) :
    p.totalCost (ids ++ ids') = p.totalCost ids + p.totalCost ids' := by
  simp [totalCost]

/-- The block total is exact and within the budget. -/
structure Charged (p : GreedyPager) (budget : TokenCount) (st : PageState) : Prop where
  costed : ∀ id ∈ st.selected, ∃ n, p.Costs id n
  exact : st.blockTokens.val = p.totalCost st.selected
  within : st.blockTokens ≤ budget
  lockstep : st.selections.map (·.blockId) = st.selected

/-- The prompt total is the task and the blocks, unless the task overran the budget beside the required blocks: then
only these are selected. -/
structure Accounted (p : GreedyPager) (budget : TokenCount) (task : Nat) (required : List BlockId) (st : PageState) :
    Prop extends Charged p budget st where
  fits : p.totalCost required + task ≤ budget.val →
    st.promptTotal.val = task + st.blockTokens.val ∧ st.promptTotal ≤ budget
  overran : budget.val < p.totalCost required + task → budget < st.promptTotal ∧ st.selected = required

/-- Selecting a block that fits under both totals keeps the books. -/
theorem Charged.push (hmax : budget < TokenCount.max) (h : Charged p budget st) {id : BlockId} {n : TokenCount}
    (hcost : p.Costs id n) (hle : st.blockTokens ≤ st.promptTotal) (hfits : st.Fits budget n) (score : Float32)
    (reason : SelectionReason) : Charged p budget (st.push id n score reason) := by
  have hfits := (TokenCount.saturatingAdd_le_iff hmax).mp hfits
  rw [TokenCount.le_iff] at hle
  have hsum : st.blockTokens.saturatingAdd n ≤ budget := (TokenCount.saturatingAdd_le_iff hmax).mpr (by omega)
  refine ⟨?_, ?_, hsum, ?_⟩
  · intro x hx
    rcases List.mem_append.mp hx with hx | hx
    · exact h.costed x hx
    · obtain rfl := List.mem_singleton.mp hx
      exact ⟨n, hcost⟩
  · have hexact : (st.blockTokens.saturatingAdd n).val = st.blockTokens.val + n.val :=
      TokenCount.val_saturatingAdd_of_le hmax hsum
    calc (st.blockTokens.saturatingAdd n).val = p.totalCost st.selected + p.tokenCost id := by
          rw [hexact, h.exact, hcost.tokenCost]
      _ = p.totalCost (st.selected ++ [id]) := by simp
  · simp [PageState.push, h.lockstep]

theorem accounted_kept (hmax : budget < TokenCount.max) (task : Nat) (required : List BlockId) :
    Kept p budget (Accounted p budget task required) where
  omit_ h := { h with }
  push {st id n score reason} h hcost hfits _ := by
    have hsum := (TokenCount.saturatingAdd_le_iff hmax).mp hfits
    by_cases hcase : p.totalCost required + task ≤ budget.val
    · obtain ⟨htotal, hle⟩ := h.fits hcase
      have hblock : st.blockTokens ≤ st.promptTotal := by
        rw [TokenCount.le_iff, htotal]
        omega
      have hcharged := h.toCharged.push hmax hcost hblock hfits score reason
      have hprompt : (st.promptTotal.saturatingAdd n).val = st.promptTotal.val + n.val :=
        TokenCount.val_saturatingAdd_of_le hmax hfits
      have hexact : (st.blockTokens.saturatingAdd n).val = st.blockTokens.val + n.val :=
        TokenCount.val_saturatingAdd_of_le hmax hcharged.within
      refine ⟨hcharged, fun _ => ⟨?_, hfits⟩, fun hover => by omega⟩
      calc (st.promptTotal.saturatingAdd n).val = task + (st.blockTokens.val + n.val) := by omega
        _ = task + (st.blockTokens.saturatingAdd n).val := by rw [hexact]
    · -- Over the budget already: nothing fits.
      have hover := (h.overran (Nat.lt_of_not_le hcase)).1
      rw [TokenCount.lt_iff] at hover
      omega

/-! ### Required blocks and the task -/

theorem required_charged (hmax : budget < TokenCount.max) {required : List BlockId}
    (h : required.foldlM (p.selectRequired budget) .empty = .ok st) :
    Charged p budget st ∧ st.promptTotal = st.blockTokens ∧ st.selected = required := by
  let P : PageState → List BlockId → Prop := fun st rest =>
    Charged p budget st ∧ st.promptTotal = st.blockTokens ∧ st.selected ++ rest = required
  have start : P .empty required :=
    ⟨⟨fun _ h => by simp [PageState.empty] at h, rfl, Nat.zero_le _, rfl⟩, rfl, rfl⟩
  have pass : ∀ id rest st st', P st (id :: rest) → p.selectRequired budget st id = .ok st' → P st' rest := by
    rintro id rest st st' ⟨hcharged, htotal, hlist⟩ hstep
    obtain ⟨n, hcost, hfits, rfl⟩ := selectRequired_inv hstep
    refine ⟨hcharged.push hmax hcost (by rw [htotal]; exact Nat.le_refl _) hfits _ _, ?_, ?_⟩
    · simp [PageState.push, htotal]
    · simpa [PageState.push] using hlist
  obtain ⟨hcharged, htotal, hlist⟩ := Loop.foldlM_inv_rest pass start h
  exact ⟨hcharged, htotal, by simpa using hlist⟩

theorem pageFixed_accounted {request : PageRequest} (hmax : request.model.inputBudget < TokenCount.max)
    (h : p.pageFixed request = .ok st) : ∃ task, p.taskTokens request.task = .ok task ∧
      Accounted p request.model.inputBudget task.val request.requiredBlocks st := by
  obtain ⟨st₁, hrequired, h⟩ := Loop.bind_eq_ok.mp h
  obtain ⟨task, htask, h⟩ := Loop.bind_eq_ok.mp h
  cases h
  obtain ⟨hcharged, htotal, hlist⟩ := required_charged hmax hrequired
  have hsum : p.totalCost request.requiredBlocks = st₁.promptTotal.val := by
    rw [htotal, hcharged.exact, hlist]
  refine ⟨task, htask, { hcharged with }, fun hfits => ?_, fun hover => ?_⟩
  · rw [hsum, ← TokenCount.saturatingAdd_le_iff hmax] at hfits
    have hexact := TokenCount.val_saturatingAdd_of_le hmax hfits
    exact ⟨by rw [hexact, htotal, Nat.add_comm], hfits⟩
  · refine ⟨Nat.lt_of_not_le fun hfits => ?_, hlist⟩
    have := (TokenCount.saturatingAdd_le_iff hmax).mp hfits
    omega

/-! ### Reconciliation -/

/-- The rebuild with `rest` still to come: what is kept so far and what is to come make up the block total. -/
structure Rebuilding (p : GreedyPager) (budget : TokenCount) (st : PageState) (rest : List (BlockId × Selection)) :
    Prop where
  costed : ∀ id ∈ st.selected ++ rest.map (·.1), ∃ n, p.Costs id n
  exact : st.blockTokens.val = p.totalCost st.selected + p.totalCost (rest.map (·.1))
  within : st.blockTokens ≤ budget
  lockstep : st.selections.map (·.blockId) = st.selected
  named : ∀ x ∈ rest, x.2.blockId = x.1

theorem Rebuilding.pass {v : Verdicts} {x : BlockId × Selection} {rest : List (BlockId × Selection)}
    (h : Rebuilding p budget st (x :: rest)) (hstep : p.rebuild v st x = .ok st') : Rebuilding p budget st' rest := by
  have hnamed := h.named x List.mem_cons_self
  have hrest : ∀ y ∈ rest, y.2.blockId = y.1 := fun y hy => h.named y (List.mem_cons_of_mem _ hy)
  have hcosted : ∀ id ∈ st.selected ++ rest.map (·.1), ∃ n, p.Costs id n := fun id hid =>
    h.costed id ((List.Sublist.append_left (List.sublist_cons_self ..) _).subset hid)
  have hexact := h.exact
  simp only [List.map_cons, totalCost_cons] at hexact
  obtain ⟨n, hcost⟩ := h.costed x.1 (by simp)
  rw [hcost.tokenCost] at hexact
  rcases rebuild_inv hstep with ⟨reason, -, ⟨-, hnone⟩ | ⟨m, hm, rfl⟩⟩ | ⟨-, note, rfl⟩
  · obtain ⟨b, hb, -⟩ := hcost
    rw [hnone] at hb
    cases hb
  · obtain rfl := hm.unique hcost
    refine ⟨hcosted, ?_, ?_, h.lockstep, hrest⟩
    · simp only [PageState.omit_, TokenCount.val_saturatingSub]
      omega
    · exact Nat.le_trans (Nat.sub_le _ _) h.within
  · refine ⟨?_, ?_, h.within, ?_, hrest⟩
    · simpa using h.costed
    · simp only [totalCost_append, totalCost_cons, totalCost_nil, hcost.tokenCost]
      omega
    · simp [h.lockstep, hnamed]

theorem zip_map_self {α β : Type} (f : α → β) (l : List α) : (l.map f).zip l = l.map fun x => (f x, x) := by
  induction l with
  | nil => rfl
  | cons x l ih => simp [ih]

/-- What reconciliation drops it takes out of the total, one charge for each occurrence. -/
theorem reconcile_charged (h : Charged p budget st) (hrec : p.reconcileEdges st = .ok st') :
    Charged p budget st' := by
  obtain ⟨v, -, hrec⟩ := Loop.bind_eq_ok.mp hrec
  split at hrec
  · cases hrec
    exact h
  · have hids : (st.selected.zip st.selections).map (·.1) = st.selected := by
      rw [List.map_fst_zip (by rw [← h.lockstep, List.length_map])]
    have hnamed : ∀ x ∈ st.selected.zip st.selections, x.2.blockId = x.1 := by
      rw [← h.lockstep, zip_map_self]
      intro x hx
      obtain ⟨sel, -, rfl⟩ := List.mem_map.mp hx
      rfl
    have start : Rebuilding p budget { st with selected := [], selections := [] }
        (st.selected.zip st.selections) :=
      ⟨by simpa [hids] using h.costed, by simp [hids, h.exact], h.within, rfl, hnamed⟩
    have done := Loop.foldlM_inv_rest (P := Rebuilding p budget) (fun _ _ _ _ h hs => h.pass hs) start hrec
    exact ⟨by simpa using done.costed, by simpa using done.exact, done.within, done.lockstep⟩

/-- The ceiling: the estimate of a plan is exactly the cost of its selection and within the budget, with the task
when that fits beside the required blocks; when it does not, nothing beyond the required blocks is selected. -/
theorem page_accounting {request : PageRequest} {plan : PagePlan} (hmax : request.model.inputBudget < TokenCount.max)
    (h : p.page order request = .ok plan) :
    (∀ id ∈ plan.selected, ∃ n, p.Costs id n) ∧
      plan.estimatedTokens.val = p.totalCost plan.selected ∧
      plan.estimatedTokens ≤ request.model.inputBudget ∧
      ∃ task, p.taskTokens request.task = .ok task ∧
        (p.totalCost request.requiredBlocks + task.val ≤ request.model.inputBudget.val →
          task.val + plan.estimatedTokens.val ≤ request.model.inputBudget.val) ∧
        (request.model.inputBudget.val < p.totalCost request.requiredBlocks + task.val →
          ∀ id ∈ plan.selected, id ∈ request.requiredBlocks) := by
  obtain ⟨fixed, scores, bySection, filled, final, hfixed, -, hsections, hfilled, hfinal, rfl⟩ := page_inv h
  obtain ⟨task, htask, hfix⟩ := pageFixed_accounted hmax hfixed
  have K := accounted_kept (p := p) hmax task.val request.requiredBlocks
  have hfill := K.filled hsections hfix hfilled
  obtain ⟨expanded, hexp, hcharged, hsub, hle⟩ : ∃ expanded,
      Accounted p request.model.inputBudget task.val request.requiredBlocks expanded ∧
      Charged p request.model.inputBudget final ∧ final.selected.Sublist expanded.selected ∧
      final.blockTokens.val ≤ expanded.blockTokens.val := by
    rcases pageEdges_inv hfinal with ⟨-, rfl⟩ | ⟨-, expanded, hexpand, ⟨-, rfl⟩ | ⟨-, hrec⟩⟩
    · exact ⟨_, hfill, hfill.toCharged, List.Sublist.refl _, Nat.le_refl _⟩
    · have hexp := K.pulls.expandEdges hfill hexpand
      exact ⟨_, hexp, hexp.toCharged, List.Sublist.refl _, Nat.le_refl _⟩
    · have hexp := K.pulls.expandEdges hfill hexpand
      have hcharged := reconcile_charged hexp.toCharged hrec
      have hsub := reconcile_sublist hrec
      refine ⟨expanded, hexp, hcharged, hsub, ?_⟩
      rw [hcharged.exact, hexp.exact]
      exact (hsub.map p.tokenCost).sum_le_sum fun _ _ => Nat.zero_le _
  refine ⟨hcharged.costed, hcharged.exact, hcharged.within, task, htask, fun hfits => ?_, fun hover id hid => ?_⟩
  · obtain ⟨htotal, hbudget⟩ := hexp.fits hfits
    rw [TokenCount.le_iff] at hbudget
    simp only
    omega
  · rw [← (hexp.overran hover).2]
    exact hsub.subset hid

/-- A required fact of one byte beside a fact of the session too large for its section. -/
def ceilingPager : GreedyPager :=
  .new (.ofLists [sampleBlock ⟨1⟩ .fact [0x61] [], sampleBlock ⟨2⟩ .fact (List.replicate 50 0x61) [],
    sampleBlock ⟨3⟩ .fact [0x62] []] [(⟨1⟩, ⟨2⟩), (⟨1⟩, ⟨3⟩)] []) byteTokenizer (fun s => s) .insertion

def ceilingRequest : PageRequest := ⟨⟨1⟩, "a", ⟨"model", ⟨40, by decide⟩, .zero, .zero, "bytes", true⟩, [⟨1⟩]⟩

theorem page_accounting_sample : ∃ plan, ceilingPager.page .canonical ceilingRequest = .ok plan ∧
    plan.selected = [⟨1⟩, ⟨3⟩] ∧ plan.estimatedTokens.val = ceilingPager.totalCost [⟨1⟩, ⟨3⟩] ∧
    plan.estimatedTokens.val ≤ 40 := by
  obtain ⟨plan, hplan, hselected⟩ := exists_plan ceilingPager .canonical ceilingRequest [⟨1⟩, ⟨3⟩]
    (by decide +kernel)
  obtain ⟨-, hexact, hwithin, -⟩ := page_accounting (by decide) hplan
  exact ⟨plan, hplan, hselected, hselected ▸ hexact, hwithin⟩

end Llm386.GreedyPager
