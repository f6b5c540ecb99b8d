import Llm386.Pager.Candidates

/-! # Exact shares

The variable budget divided by fractions that are rationals, and the pager over a given division. The shares of the
sections do not exceed what is divided. -/

namespace Llm386

/-! ### Exact shares -/

/-- A section budget table whose fractions are exact. -/
structure ExactTable where
  fractions : SectionKind → Option ℚ
  clamped : ∀ s frac, fractions s = some frac → 0 ≤ frac ∧ frac ≤ 1

namespace ExactTable
variable (t : ExactTable)

/-- `SectionBudgetTable::variable_fractions_sum`. -/
def variableFractionsSum : ℚ :=
  ((SectionKind.all.filter fun s => !SectionBudgetTable.isFixed s).filterMap t.fractions).sum

def scale : ℚ := if 1 < t.variableFractionsSum then 1 / t.variableFractionsSum else 1

/-- `SectionBudgetTable::allocate_variable`. -/
def allocateVariable (variable_ : TokenCount) : SectionAllocation where
  budgets s :=
    if SectionBudgetTable.isFixed s then none
    else (t.fractions s).map fun frac => .saturate ⌊variable_.val * frac * t.scale⌋₊

/-- What a section has of the whole. -/
def fraction (s : SectionKind) : ℚ := if SectionBudgetTable.isFixed s then 0 else (t.fractions s).getD 0

variable {t}

theorem variableFractionsSum_eq : t.variableFractionsSum = (SectionKind.all.map t.fraction).sum := by
  have hsum : ∀ l : List SectionKind,
      ((l.filter fun s => !SectionBudgetTable.isFixed s).filterMap t.fractions).sum = (l.map t.fraction).sum := by
    intro l
    induction l with
    | nil => rfl
    | cons s l ih =>
      rw [List.map_cons, List.sum_cons, fraction]
      cases hfixed : SectionBudgetTable.isFixed s with
      | true => simp [hfixed, ih]
      | false =>
        rw [List.filter_cons_of_pos (by simp [hfixed])]
        cases hfrac : t.fractions s with
        | none => simp [List.filterMap_cons_none hfrac, ih]
        | some frac => simp [List.filterMap_cons_some hfrac, ih]
  exact hsum SectionKind.all

theorem scale_nonneg : 0 ≤ t.scale := by
  unfold scale
  split
  · rename_i hlt
    exact one_div_nonneg.mpr (by linarith)
  · exact zero_le_one

theorem scale_sum_le : t.variableFractionsSum * t.scale ≤ 1 := by
  unfold scale
  split
  · rename_i hlt
    rw [mul_one_div_cancel (by linarith)]
  · rename_i hle
    rw [mul_one]
    exact not_lt.mp hle

theorem forSection_le (n : TokenCount) (s : SectionKind) :
    (((t.allocateVariable n).forSection s).val : ℚ) ≤ n.val * t.scale * t.fraction s := by
  have hscale := t.scale_nonneg
  unfold fraction
  cases hfixed : SectionBudgetTable.isFixed s with
  | true =>
    have hzero : (t.allocateVariable n).forSection s = .zero := by
      simp [SectionAllocation.forSection, allocateVariable, hfixed]
    simp [hzero]
  | false =>
    cases hfrac : t.fractions s with
    | none =>
      have hzero : (t.allocateVariable n).forSection s = .zero := by
        simp [SectionAllocation.forSection, allocateVariable, hfixed, hfrac]
      simp [hzero]
    | some frac =>
      have hshare : (t.allocateVariable n).forSection s = .saturate ⌊n.val * frac * t.scale⌋₊ := by
        simp [SectionAllocation.forSection, allocateVariable, hfixed, hfrac]
      have hnonneg := (t.clamped s frac hfrac).1
      have hle : ((TokenCount.saturate ⌊n.val * frac * t.scale⌋₊).val : ℚ) ≤ ⌊n.val * frac * t.scale⌋₊ := by
        exact_mod_cast Nat.min_le_left _ _
      rw [hshare, if_neg Bool.false_ne_true, Option.getD_some, mul_right_comm (n.val : ℚ) t.scale frac]
      exact hle.trans (Nat.floor_le (by positivity))

/-- The shares of the sections do not exceed what is divided. -/
theorem sum_allocations_le (n : TokenCount) :
    (SectionKind.all.map fun s => ((t.allocateVariable n).forSection s).val).sum ≤ n.val := by
  have hsum : ((SectionKind.all.map fun s => ((t.allocateVariable n).forSection s).val).sum : ℚ) ≤ n.val := by
    calc ((SectionKind.all.map fun s => ((t.allocateVariable n).forSection s).val).sum : ℚ)
      _ = (SectionKind.all.map fun s => (((t.allocateVariable n).forSection s).val : ℚ)).sum := by
          rw [Nat.cast_list_sum, List.map_map]
          rfl
      _ ≤ (SectionKind.all.map fun s => n.val * t.scale * t.fraction s).sum :=
          List.sum_le_sum fun s _ => forSection_le n s
      _ = n.val * (t.variableFractionsSum * t.scale) := by
          rw [List.sum_map_mul_left, variableFractionsSum_eq]
          ring
      _ ≤ n.val := mul_le_of_le_one_right (Nat.cast_nonneg _) scale_sum_le
  exact_mod_cast hsum

end ExactTable

namespace GreedyPager

/-! ### The pipeline over an allocation -/

section Pipeline
variable (p : GreedyPager)

/-- Step 5 over an allocation. -/
def fillBy (allocation : SectionAllocation) (order : HashOrder) (request : PageRequest)
    (bySection : SectionKind → List Candidate) (st : PageState) : Except PagerError FillState := do
  let summaryFor ← p.summaryIndex request.sessionId
  (order.sections (variableSections bySection)).foldlM
    (p.fillSection request.model.inputBudget allocation summaryFor bySection) (fillStart st)

/-- The state after the system section, and the candidates. -/
def fillStage (order : HashOrder) (request : PageRequest) :
    Except PagerError (PageState × (SectionKind → List Candidate)) := do
  let st ← p.pageFixed request
  let scores ← p.gather request
  let bySection ← p.loadSections (order.scores scores)
  pure (pageSystem request bySection st, bySection)

/-- What steps 1 to 4 leave for the variable sections. -/
def variableBudget (request : PageRequest) (st : PageState) : TokenCount :=
  request.model.inputBudget.saturatingSub st.promptTotal

/-- `page`, with the variable budget divided by `allocate`. -/
def pageBy (allocate : TokenCount → SectionAllocation) (order : HashOrder) (request : PageRequest) :
    Except PagerError PagePlan := do
  if p.tokenizer.id ≠ request.model.tokenizer then
    .error (.tokenizerMismatch p.tokenizer.id request.model.tokenizer)
  else
    let (st, bySection) ← p.fillStage order request
    let filled ← p.fillBy (allocate (variableBudget request st)) order request bySection st
    let st ← p.pageEdges order request filled.toPageState
    pure {
      selected := st.selected
      selections := st.selections
      omitted := st.omitted
      estimatedTokens := st.blockTokens }

/-- `page` divides the budget by its own table. -/
theorem page_eq (order : HashOrder) (request : PageRequest) :
    p.page order request = p.pageBy p.budgets.allocateVariable order request := by
  unfold page pageBy fillStage
  split
  · rfl
  · cases p.pageFixed request with
    | error e => rfl
    | ok st =>
      cases hscores : p.gather request with
      | error e => rfl
      | ok scores =>
        cases hsections : p.loadSections (order.scores scores) with
        | error e => simp only [Loop.ok_bind, hsections]; rfl
        | ok bySection => simp only [Loop.ok_bind, hsections]; rfl

end Pipeline

end GreedyPager
end Llm386
