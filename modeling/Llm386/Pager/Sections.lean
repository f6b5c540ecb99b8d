import Llm386.Lib.Filling
import Llm386.Pager.Shares

/-! # Sections that fill alone

Where the shares of the sections do not exceed what the global ceiling leaves, a candidate that its section has room
for never meets the ceiling, and each section takes what it would take alone. -/

namespace Llm386.GreedyPager
open PageState

variable {p : GreedyPager} {cands before taken : List Candidate} {cand : Candidate} {cap budget n : TokenCount}

/-! ### One section alone -/

/-- The exact total of some candidates. -/
def tokensOf (cands : List Candidate) : Nat := (cands.map (·.tokens.val)).sum

/-- A running total after some candidates, as it is kept. -/
def charged (n : TokenCount) (cands : List Candidate) : TokenCount :=
  cands.foldl (fun n cand => n.saturatingAdd cand.tokens) n

/-- The candidate is too similar to one of those taken. -/
def resembles (p : GreedyPager) (taken : List Candidate) (cand : Candidate) : Bool :=
  match p.scoring.redundancyThreshold, cand.wordSet with
  | some threshold, some candSet =>
    (taken.flatMap (·.wordSet.toList)).any fun sel => decide (threshold ≤ jaccard candSet sel)
  | _, _ => false

/-- A section that has taken some candidates takes another where it resembles none of them and fits beside them. -/
def Welcomes (p : GreedyPager) (cap : TokenCount) (taken : List Candidate) (cand : Candidate) : Prop :=
  p.resembles taken cand = false ∧ (charged .zero taken).saturatingAdd cand.tokens ≤ cap

instance (taken : List Candidate) (cand : Candidate) : Decidable (p.Welcomes cap taken cand) :=
  inferInstanceAs (Decidable (_ ∧ _))

/-- What a section of the given share takes of its candidates. -/
def greedy (p : GreedyPager) (cap : TokenCount) (cands : List Candidate) : List Candidate :=
  Filling.fill (p.Welcomes cap) cands

/-- What it leaves, and why. -/
def leftOut (p : GreedyPager) (cap : TokenCount) (cands : List Candidate) : List (BlockId × OmissionReason) :=
  (Filling.refused (p.Welcomes cap) cands).map fun x =>
    (x.2.id, if p.resembles x.1 x.2 then .redundant else .budget)

/-- The system section has the global ceiling as its share. -/
def Under (budget start : TokenCount) (taken : List Candidate) (cand : Candidate) : Prop :=
  (charged start taken).saturatingAdd cand.tokens ≤ budget

instance (start : TokenCount) (taken : List Candidate) (cand : Candidate) : Decidable (Under budget start taken cand) :=
  inferInstanceAs (Decidable (_ ≤ _))

def systemTaken (budget start : TokenCount) (cands : List Candidate) : List Candidate :=
  Filling.fill (Under budget start) cands

def systemLeft (budget start : TokenCount) (cands : List Candidate) : List (BlockId × OmissionReason) :=
  (Filling.refused (Under budget start) cands).map fun x => (x.2.id, .budget)

theorem charged_concat (n : TokenCount) (cands : List Candidate) (cand : Candidate) :
    charged n (cands ++ [cand]) = (charged n cands).saturatingAdd cand.tokens := by
  rw [charged, List.foldl_concat, charged]

theorem charged_append (n : TokenCount) (cands cands' : List Candidate) :
    charged n (cands ++ cands') = charged (charged n cands) cands' := List.foldl_append

/-- Sums that saturate on the way saturate at the end. -/
theorem val_charged (n : TokenCount) (cands : List Candidate) :
    (charged n cands).val = min (n.val + tokensOf cands) (2 ^ 32 - 1) := by
  induction cands using List.reverseRecOn with
  | nil =>
    have hlt := n.isLt
    simp only [charged, tokensOf, List.foldl_nil, List.map_nil, List.sum_nil]
    omega
  | append_singleton cands cand ih =>
    rw [charged_concat, TokenCount.val_saturatingAdd, ih]
    simp only [tokensOf, List.map_append, List.map_singleton, List.sum_append, List.sum_singleton]
    omega

theorem tokensOf_le_of_prefix {cands' : List Candidate} (h : cands <+: cands') : tokensOf cands ≤ tokensOf cands' := by
  obtain ⟨rest, rfl⟩ := h
  rw [tokensOf, tokensOf, List.map_append, List.sum_append]
  exact Nat.le_add_right _ _

/-- What is left out for its size exceeds the share beside what was taken before it, and beside all that is taken. -/
theorem leftOut_budget {id : BlockId} (h : (id, .budget) ∈ p.leftOut cap cands) :
    ∃ before cand after, cands = before ++ cand :: after ∧ cand.id = id ∧
      cap.val < tokensOf (p.greedy cap before) + cand.tokens.val ∧
      cap.val < tokensOf (p.greedy cap cands) + cand.tokens.val := by
  obtain ⟨⟨taken, cand⟩, hrefused, heq⟩ := List.mem_map.mp h
  obtain ⟨hid, hreason⟩ := Prod.mk.inj heq
  obtain ⟨before, after, rfl, rfl, hnot⟩ := Filling.refused_inv hrefused
  have hfresh : p.resembles (Filling.fill (p.Welcomes cap) before) cand = false := by
    by_contra hsome
    rw [if_pos (by simpa using hsome)] at hreason
    cases hreason
  have hturn : cap.val < tokensOf (p.greedy cap before) + cand.tokens.val := by
    have hover : ¬(charged .zero (p.greedy cap before)).saturatingAdd cand.tokens ≤ cap := fun hfits => hnot ⟨hfresh, hfits⟩
    have hlt := cap.isLt
    rw [TokenCount.le_iff, TokenCount.val_saturatingAdd, val_charged, TokenCount.val_zero] at hover
    omega
  have hlater := tokensOf_le_of_prefix (Filling.fill_prefix (p.Welcomes cap) before (cand :: after))
  exact ⟨before, cand, after, rfl, hid, hturn, hturn.trans_le (Nat.add_le_add_right hlater _)⟩

theorem greedy_concat (cands : List Candidate) (cand : Candidate) : p.greedy cap (cands ++ [cand]) =
    if p.Welcomes cap (p.greedy cap cands) cand then p.greedy cap cands ++ [cand] else p.greedy cap cands :=
  Filling.fill_concat cands cand

theorem leftOut_concat (cands : List Candidate) (cand : Candidate) : p.leftOut cap (cands ++ [cand]) =
    if p.Welcomes cap (p.greedy cap cands) cand then p.leftOut cap cands
    else p.leftOut cap cands ++ [(cand.id, if p.resembles (p.greedy cap cands) cand then .redundant else .budget)] := by
  rw [leftOut, Filling.refused_concat]
  split
  · rename_i hwelcome
    exact (if_pos hwelcome).symm
  · rename_i hnot
    rw [List.map_append, List.map_singleton]
    exact (if_neg hnot).symm

/-! ### What a pass does to the state -/

/-- An omission without its score. -/
def outline (o : OmittedBlock) : BlockId × OmissionReason := (o.blockId, o.reason)

/-- The state after some candidates are taken and others left. -/
structure Passed (st st' : PageState) (taken : List Candidate) (left : List (BlockId × OmissionReason)) : Prop where
  selected : st'.selected = st.selected ++ taken.map (·.id)
  omitted : st'.omitted.map outline = st.omitted.map outline ++ left
  promptTotal : st'.promptTotal = charged st.promptTotal taken

variable {st st' st₁ : PageState} {left left' : List (BlockId × OmissionReason)}

theorem Passed.refl (st : PageState) : Passed st st [] [] := ⟨by simp, by simp, rfl⟩

theorem Passed.trans {taken' : List Candidate} (h : Passed st st₁ taken left) (h' : Passed st₁ st' taken' left') :
    Passed st st' (taken ++ taken') (left ++ left') where
  selected := by rw [h'.selected, h.selected, List.map_append, List.append_assoc]
  omitted := by rw [h'.omitted, h.omitted, List.append_assoc]
  promptTotal := by rw [h'.promptTotal, h.promptTotal, charged_append]

theorem passed_push (st : PageState) (cand : Candidate) :
    Passed st (st.push cand.id cand.tokens cand.score .highRelevance) [cand] [] := ⟨rfl, by simp [push], rfl⟩

theorem passed_omit (st : PageState) (cand : Candidate) (reason : OmissionReason) :
    Passed st (st.omit_ cand.id reason cand.score) [] [(cand.id, reason)] := ⟨by simp [omit_], by simp [omit_, outline], rfl⟩

theorem pageSystem_passed (budget : TokenCount) (cands : List Candidate) (st : PageState) :
    Passed st (cands.foldl (fillSystem budget) st) (systemTaken budget st.promptTotal cands)
      (systemLeft budget st.promptTotal cands) := by
  unfold systemTaken systemLeft
  induction cands using List.reverseRecOn with
  | nil => exact .refl st
  | append_singleton cands cand ih =>
    have hfits : (cands.foldl (fillSystem budget) st).Fits budget cand.tokens ↔
        Under budget st.promptTotal (Filling.fill (Under budget st.promptTotal) cands) cand := by
      rw [Under, ← ih.promptTotal]
      rfl
    rw [List.foldl_concat, Filling.fill_concat, Filling.refused_concat, fillSystem]
    by_cases hunder : Under budget st.promptTotal (Filling.fill (Under budget st.promptTotal) cands) cand
    · rw [if_pos hunder, if_pos hunder, if_pos (hfits.mpr hunder)]
      simpa using ih.trans (passed_push _ cand)
    · rw [if_neg hunder, if_neg hunder, if_neg (hfits.not.mpr hunder), List.map_append]
      simpa using ih.trans (passed_omit _ cand .budget)

/-- The system section stays under the ceiling. -/
theorem promptTotal_pageSystem_le (cands : List Candidate) (h : st.promptTotal ≤ budget) :
    (cands.foldl (fillSystem budget) st).promptTotal ≤ budget := by
  induction cands generalizing st with
  | nil => exact h
  | cons cand cands ih =>
    refine ih ?_
    rcases fillSystem_cases budget st cand with ⟨hfits, heq⟩ | heq
    · rw [heq]
      exact hfits
    · rw [heq]
      exact h

/-! ### One section under the ceiling -/

/-- A section of share `cap` after the candidates `before`: it has taken what it takes of them alone, and the ceiling
leaves room for the rest of its share and for `rest` more. -/
structure Midway (p : GreedyPager) (budget cap : TokenCount) (rest : Nat) (start : PageState) (before : List Candidate)
    (u : FillState) : Prop where
  passed : Passed start u.toPageState (p.greedy cap before) (p.leftOut cap before)
  used : u.sectionUsed = charged .zero (p.greedy cap before)
  words : u.sectionWordSets = (p.greedy cap before).flatMap (·.wordSet.toList)
  room : budget < .max → u.promptTotal.val + (cap.val - u.sectionUsed.val) + rest ≤ budget.val

variable {rest : Nat} {start : PageState} {u u' : FillState} {env : FillEnv}

/-- What fits the section fits under the ceiling. -/
theorem Midway.fits (h : p.Midway budget cap rest start before u) (hcap : cap ≤ budget)
    (hfits : u.sectionUsed.saturatingAdd n ≤ cap) : u.Fits budget n := by
  by_cases hmax : budget < .max
  · have hroom := h.room hmax
    have hcap' : cap < .max := Nat.lt_of_le_of_lt hcap hmax
    have hle := (TokenCount.saturatingAdd_le_iff hcap').mp hfits
    exact (TokenCount.saturatingAdd_le_iff hmax).mpr (by omega)
  · have hlt := (u.promptTotal.saturatingAdd n).isLt
    rw [TokenCount.lt_iff] at hmax
    rw [Fits, TokenCount.le_iff]
    simp only [TokenCount.max] at hmax
    omega

theorem Midway.resembles_eq (h : p.Midway budget cap rest start before u) (cand : Candidate) :
    p.isRedundant u cand = p.resembles (p.greedy cap before) cand := by
  cases hthreshold : p.scoring.redundancyThreshold <;> cases hset : cand.wordSet <;>
    simp [isRedundant, resembles, hthreshold, hset, h.words]

theorem Midway.welcomes_iff (h : p.Midway budget cap rest start before u) (hcap : cap ≤ budget)
    (hbudget : env.inputBudget = budget) (hsection : env.sectionBudget = cap) (hfresh : p.isRedundant u cand = false) :
    p.Welcomes cap (p.greedy cap before) cand ↔ u.Admits env cand.tokens := by
  rw [h.resembles_eq] at hfresh
  rw [Welcomes, FillState.Admits, hbudget, hsection, ← h.used]
  exact ⟨fun hwelcome => ⟨hwelcome.2, h.fits hcap hwelcome.2⟩, fun hadmits => ⟨hfresh, hadmits.1⟩⟩

theorem Midway.leave (h : p.Midway budget cap rest start before u) (cand : Candidate) (reason : OmissionReason)
    (hnot : ¬p.Welcomes cap (p.greedy cap before) cand)
    (hreason : reason = if p.resembles (p.greedy cap before) cand then .redundant else .budget) :
    p.Midway budget cap rest start (before ++ [cand]) (u.leave cand reason) where
  passed := by
    rw [greedy_concat, leftOut_concat, if_neg hnot, if_neg hnot, ← hreason]
    exact List.append_nil (p.greedy cap before) ▸ h.passed.trans (passed_omit _ cand reason)
  used := by
    rw [greedy_concat, if_neg hnot]
    exact h.used
  words := by
    rw [greedy_concat, if_neg hnot]
    exact h.words
  room := h.room

theorem Midway.take (h : p.Midway budget cap rest start before u) (hcap : cap ≤ budget)
    (hwelcome : p.Welcomes cap (p.greedy cap before) cand) :
    p.Midway budget cap rest start (before ++ [cand]) { u.take cand.id cand.tokens cand.score with
      sectionWordSets := u.sectionWordSets ++ cand.wordSet.toList } where
  passed := by
    rw [greedy_concat, leftOut_concat, if_pos hwelcome, if_pos hwelcome]
    exact List.append_nil (p.leftOut cap before) ▸ h.passed.trans (passed_push _ cand)
  used := by
    rw [greedy_concat, if_pos hwelcome, charged_concat, ← h.used]
    rfl
  words := by
    rw [greedy_concat, if_pos hwelcome, List.flatMap_append, ← h.words]
    simp
  room hmax := by
    have hroom := h.room hmax
    have hcap' : cap < .max := Nat.lt_of_le_of_lt hcap hmax
    have hfits := h.used ▸ hwelcome.2
    have hused := TokenCount.val_saturatingAdd_of_le hcap' hfits
    have hle := (TokenCount.saturatingAdd_le_iff hcap').mp hfits
    have htotal := TokenCount.val_saturatingAdd_of_le hmax (h.fits hcap hfits)
    show (u.promptTotal.saturatingAdd cand.tokens).val + (cap.val - (u.sectionUsed.saturatingAdd cand.tokens).val) + rest
      ≤ budget.val
    omega

/-- A turn of a section does what the section does alone. -/
theorem Midway.step (h : p.Midway budget cap rest start before u) (hcap : cap ≤ budget)
    (hfallback : p.scoring.summaryFallback = false) (hbudget : env.inputBudget = budget)
    (hsection : env.sectionBudget = cap) (hstep : p.fillCandidate env u cand = .ok u') :
    p.Midway budget cap rest start (before ++ [cand]) u' := by
  have hnone : p.summaryOf env cand = none := by simp [summaryOf, hfallback]
  cases fillCandidate_step hstep with
  | redundant hred =>
    rw [h.resembles_eq] at hred
    exact h.leave cand .redundant (fun hwelcome => by rw [hwelcome.1] at hred; cases hred) (by rw [if_pos hred])
  | taken hfresh hadmits => exact h.take hcap ((h.welcomes_iff hcap hbudget hsection hfresh).mpr hadmits)
  | refused hfresh hadmits =>
    refine h.leave cand .budget (fun hwelcome => hadmits ((h.welcomes_iff hcap hbudget hsection hfresh).mp hwelcome)) ?_
    rw [← h.resembles_eq, hfresh]
    rfl
  | covered _ _ hsome | unfit _ _ hsome | replaced _ _ hsome =>
    rw [hnone] at hsome
    cases hsome

/-- Without the fallback a turn cannot fail. -/
theorem fillCandidate_total (hfallback : p.scoring.summaryFallback = false) (env : FillEnv) (u : FillState)
    (cand : Candidate) : ∃ u', p.fillCandidate env u cand = .ok u' := by
  have hnone : p.summaryOf env cand = none := by simp [summaryOf, hfallback]
  unfold fillCandidate
  rw [hnone]
  split
  · exact ⟨_, rfl⟩
  · split
    · exact ⟨_, rfl⟩
    · exact ⟨_, rfl⟩

/-! ### All sections under the ceiling -/

/-- What the sections take, each alone. -/
def sectionsTaken (p : GreedyPager) (allocation : SectionAllocation) (bySection : SectionKind → List Candidate)
    (ss : List SectionKind) : List Candidate :=
  ss.flatMap fun s => p.greedy (allocation.forSection s) (bySection s)

def sectionsLeft (p : GreedyPager) (allocation : SectionAllocation) (bySection : SectionKind → List Candidate)
    (ss : List SectionKind) : List (BlockId × OmissionReason) :=
  ss.flatMap fun s => p.leftOut (allocation.forSection s) (bySection s)

/-- The fill after the sections `done`: each has filled as if it were alone, and the ceiling leaves room for the shares
of the others. -/
structure Between (p : GreedyPager) (budget : TokenCount) (allocation : SectionAllocation)
    (bySection : SectionKind → List Candidate) (start : PageState) (done rest : List SectionKind) (u : FillState) :
    Prop where
  passed : Passed start u.toPageState (p.sectionsTaken allocation bySection done)
    (p.sectionsLeft allocation bySection done)
  room : budget < .max → u.promptTotal.val + (rest.map fun s => (allocation.forSection s).val).sum ≤ budget.val

/-- What the fill relies on: no share exceeds the ceiling, no summary stands in, and nothing is sent to the slack. -/
structure Separate (p : GreedyPager) (budget : TokenCount) (allocation : SectionAllocation)
    (bySection : SectionKind → List Candidate) : Prop where
  share : ∀ s, allocation.forSection s ≤ budget
  fallback : p.scoring.summaryFallback = false
  slack : bySection .slack = []

variable {allocation : SectionAllocation} {bySection : SectionKind → List Candidate} {done later : List SectionKind}
  {s : SectionKind} {summaryFor : List (BlockId × BlockId)} {order : HashOrder} {request : PageRequest}

/-- The room for the shares of the sections still to come. -/
def shares (allocation : SectionAllocation) (later : List SectionKind) : Nat :=
  (later.map fun s => (allocation.forSection s).val).sum

theorem Between.enter (h : p.Between budget allocation bySection start done (s :: later) u) :
    p.Midway budget (allocation.forSection s) (shares allocation later) u.toPageState [] u.enter where
  passed := .refl _
  used := rfl
  words := rfl
  room hmax := by
    have hroom := h.room hmax
    rw [List.map_cons, List.sum_cons] at hroom
    show u.promptTotal.val + ((allocation.forSection s).val - 0) + shares allocation later ≤ budget.val
    rw [shares]
    omega

theorem Midway.leaveSection (hmid : p.Midway budget (allocation.forSection s) (shares allocation later) u.toPageState
    (bySection s) u') (h : p.Between budget allocation bySection start done (s :: later) u) :
    p.Between budget allocation bySection start (done ++ [s]) later u' where
  passed := by
    rw [sectionsTaken, sectionsLeft, List.flatMap_append, List.flatMap_append, List.flatMap_singleton,
      List.flatMap_singleton]
    exact h.passed.trans hmid.passed
  room hmax := by
    have hroom := hmid.room hmax
    rw [shares] at hroom
    omega

/-- The turns of a section: the candidates before a turn have been handled as the section handles them alone. -/
theorem Separate.turn (hsep : p.Separate budget allocation bySection)
    (h : p.Between budget allocation bySection start done (s :: later) u)
    {y : FillState × Candidate}
    (hy : y ∈ Loop.visited (p.fillCandidate (sectionEnv budget allocation summaryFor s)) u.enter (bySection s)) :
    ∃ before, p.Midway budget (allocation.forSection s) (shares allocation later) u.toPageState before y.1 := by
  have step : ∀ cand (rest : List Candidate) v w, (∃ before, p.Midway budget (allocation.forSection s) (shares allocation later)
      u.toPageState before v) → p.fillCandidate (sectionEnv budget allocation summaryFor s) v cand = .ok w →
      ∃ before, p.Midway budget (allocation.forSection s) (shares allocation later) u.toPageState before w := by
    rintro cand - v w ⟨before, hmid⟩ hstep
    exact ⟨before ++ [cand], hmid.step (hsep.share s) hsep.fallback rfl rfl hstep⟩
  obtain ⟨-, hmid⟩ := Loop.inv_of_visited (P := fun v (_ : List Candidate) => ∃ before,
    p.Midway budget (allocation.forSection s) (shares allocation later) u.toPageState before v) step ⟨[], h.enter⟩ hy
  exact hmid

theorem Separate.fillSection (hsep : p.Separate budget allocation bySection) (summaryFor : List (BlockId × BlockId))
    (h : p.Between budget allocation bySection start done (s :: later) u) :
    ∃ u', p.fillSection budget allocation summaryFor bySection u s = .ok u' ∧
      p.Between budget allocation bySection start (done ++ [s]) later u' := by
  unfold GreedyPager.fillSection
  by_cases hs : s = .slack
  · subst hs
    rw [if_pos rfl, hsep.slack]
    have hmid : p.Midway budget (allocation.forSection .slack) (shares allocation later) u.toPageState
        (bySection .slack) u.enter := hsep.slack ▸ h.enter
    have hleft := hmid.leaveSection h
    exact ⟨u, rfl, hleft.passed, hleft.room⟩
  · rw [if_neg hs]
    let P (v : FillState) (rest : List Candidate) : Prop := ∃ before, bySection s = before ++ rest ∧
      p.Midway budget (allocation.forSection s) (shares allocation later) u.toPageState before v
    have step : ∀ cand rest v, P v (cand :: rest) →
        ∃ w, p.fillCandidate (sectionEnv budget allocation summaryFor s) v cand = .ok w ∧ P w rest := by
      rintro cand rest v ⟨before, hsplit, hmid⟩
      obtain ⟨w, hw⟩ := fillCandidate_total hsep.fallback (sectionEnv budget allocation summaryFor s) v cand
      exact ⟨w, hw, before ++ [cand], by simp [hsplit], hmid.step (hsep.share s) hsep.fallback rfl rfl hw⟩
    obtain ⟨u', hu', before, hall, hmid⟩ := Loop.foldlM_total step ⟨[], rfl, h.enter⟩
    rw [List.append_nil] at hall
    subst hall
    exact ⟨u', hu', hmid.leaveSection h⟩

/-- A candidate that its section has room for, at its turn, fits under the ceiling. -/
def CeilingIdle (p : GreedyPager) (allocation : SectionAllocation) (order : HashOrder) (request : PageRequest)
    (bySection : SectionKind → List Candidate) (st : PageState) : Prop :=
  ∀ summaryFor, p.summaryIndex request.sessionId = .ok summaryFor →
    ∀ x ∈ Loop.visited (p.fillSection request.model.inputBudget allocation summaryFor bySection) (fillStart st)
      (order.sections (variableSections bySection)),
    ∀ y ∈ Loop.visited (p.fillCandidate (sectionEnv request.model.inputBudget allocation summaryFor x.2)) x.1.enter
      (bySection x.2),
    y.1.sectionUsed.saturatingAdd y.2.tokens ≤ allocation.forSection x.2 → y.1.Fits request.model.inputBudget y.2.tokens

section Sections
variable (hsep : p.Separate request.model.inputBudget allocation bySection)
  (hroom : request.model.inputBudget < .max → st.promptTotal.val +
    shares allocation (order.sections (variableSections bySection)) ≤ request.model.inputBudget.val)
include hsep hroom

theorem Separate.fillBy : ∃ filled, p.fillBy allocation order request bySection st = .ok filled ∧
    Passed st filled.toPageState (p.sectionsTaken allocation bySection (order.sections (variableSections bySection)))
      (p.sectionsLeft allocation bySection (order.sections (variableSections bySection))) := by
  have hindex : p.summaryIndex request.sessionId = .ok [] := by simp [summaryIndex, hsep.fallback]
  unfold GreedyPager.fillBy
  rw [hindex, Loop.ok_bind]
  let P (u : FillState) (rest : List SectionKind) : Prop := ∃ done, order.sections (variableSections bySection) = done ++ rest ∧
    p.Between request.model.inputBudget allocation bySection st done rest u
  have step : ∀ s rest u, P u (s :: rest) →
      ∃ v, p.fillSection request.model.inputBudget allocation [] bySection u s = .ok v ∧ P v rest := by
    rintro s rest u ⟨done, hsplit, hbetween⟩
    obtain ⟨v, hv, hnext⟩ := hsep.fillSection [] hbetween
    exact ⟨v, hv, done ++ [s], by simp [hsplit], hnext⟩
  obtain ⟨filled, hfilled, done, hall, hdone⟩ := Loop.foldlM_total (s := fillStart st) step ⟨[], rfl, .refl _, hroom⟩
  rw [List.append_nil] at hall
  refine ⟨filled, hfilled, ?_⟩
  rw [hall]
  exact hdone.passed

theorem Separate.ceilingIdle : p.CeilingIdle allocation order request bySection st := by
  intro summaryFor _ x hx y hy hfits
  have step : ∀ s rest u v, (∃ done, p.Between request.model.inputBudget allocation bySection st done (s :: rest) u) →
      p.fillSection request.model.inputBudget allocation summaryFor bySection u s = .ok v →
      ∃ done, p.Between request.model.inputBudget allocation bySection st done rest v := by
    rintro s rest u v ⟨done, hbetween⟩ hv
    obtain ⟨w, hw, hnext⟩ := hsep.fillSection summaryFor hbetween
    cases hv.symm.trans hw
    exact ⟨_, hnext⟩
  obtain ⟨rest, done, hbetween⟩ := Loop.inv_of_visited (P := fun u rest => ∃ done,
    p.Between request.model.inputBudget allocation bySection st done rest u) step ⟨[], .refl _, hroom⟩ hx
  obtain ⟨before, hmid⟩ := hsep.turn hbetween hy
  exact hmid.fits (hsep.share x.2) hfits

end Sections

/-- No block is sent to the slack. -/
theorem slack_empty {scores : List (BlockId × Float32)} (h : p.loadSections scores = .ok bySection) :
    bySection .slack = [] := by
  refine List.eq_nil_iff_forall_not_mem.mpr fun cand hc => ?_
  obtain ⟨entry, -, hload⟩ := (mem_section_iff h).mp hc
  obtain ⟨b, -, -, hs, -⟩ := loadCandidate_inv hload
  have hkind : SectionKind.slack = b.kind.defaultSection := hs
  revert hkind
  cases b.kind <;> decide

end Llm386.GreedyPager
