import Llm386.Pager.Sections

/-! # Sections that fit together

What every section takes with nothing beside it, the summaries it substitutes included. Where all of that fits under the
ceiling together and no section waits for a summary of another, the fill takes just that, in whatever order it visits the
sections. -/

namespace Llm386.GreedyPager
open PageState

variable {p : GreedyPager} {budget : TokenCount} {allocation : SectionAllocation} {summaryFor : List (BlockId × BlockId)}
  {bySection : SectionKind → List Candidate} {alone : SectionKind → FillState} {start : PageState} {s : SectionKind}

/-! ### One section beside others -/

/-- What a section does with nothing beside it and no ceiling but its own share. -/
def fillAlone (p : GreedyPager) (allocation : SectionAllocation) (summaryFor : List (BlockId × BlockId))
    (bySection : SectionKind → List Candidate) (s : SectionKind) : Except PagerError FillState :=
  p.fillSection .max allocation summaryFor bySection (fillStart .empty) s

/-- The state `u` is `d` beside what the state `base` holds already. -/
structure Beside (base d u : FillState) : Prop where
  selected : u.selected = base.selected ++ d.selected
  selections : u.selections = base.selections ++ d.selections
  promptTotal : u.promptTotal = base.promptTotal.saturatingAdd d.promptTotal
  blockTokens : u.blockTokens = base.blockTokens.saturatingAdd d.blockTokens
  used : u.sectionUsed = d.sectionUsed
  words : u.sectionWordSets = d.sectionWordSets
  compressed : ∀ id, id ∈ u.compressedInto ↔ id ∈ base.compressedInto ∨ id ∈ d.compressedInto

variable {base d d' u : FillState} {env env' : FillEnv} {cand : Candidate} {n : TokenCount}

theorem saturatingAdd_assoc (a b c : TokenCount) :
    (a.saturatingAdd b).saturatingAdd c = a.saturatingAdd (b.saturatingAdd c) := by
  simp only [TokenCount.saturatingAdd, TokenCount.saturate, TokenCount.mk.injEq]
  omega

theorem fits_max (st : PageState) (n : TokenCount) : st.Fits .max n := by
  have hlt := (st.promptTotal.saturatingAdd n).isLt
  rw [Fits, TokenCount.le_iff]
  simp only [TokenCount.max]
  omega

/-- Two environments of one section, without a ceiling and with one. -/
structure Ceiling (budget : TokenCount) (env env' : FillEnv) : Prop where
  none : env.inputBudget = .max
  some : env'.inputBudget = budget
  share : env'.sectionBudget = env.sectionBudget
  summaries : env'.summaryFor = env.summaryFor

theorem Beside.take (h : Beside base d u) (id : BlockId) (n : TokenCount) (score : Float32) :
    Beside base (d.take id n score) (u.take id n score) where
  selected := by simp [FillState.take, push, h.selected]
  selections := by simp [FillState.take, push, h.selections]
  promptTotal := by simp [FillState.take, push, h.promptTotal, saturatingAdd_assoc]
  blockTokens := by simp [FillState.take, push, h.blockTokens, saturatingAdd_assoc]
  used := by simp [FillState.take, h.used]
  words := h.words
  compressed := h.compressed

theorem Beside.leave (h : Beside base d u) (cand : Candidate) (reason : OmissionReason) :
    Beside base (d.leave cand reason) (u.leave cand reason) := { h with }

theorem Beside.redundant_eq (h : Beside base d u) : p.isRedundant u cand = p.isRedundant d cand := by
  simp only [isRedundant, h.words]

/-- Under the ceiling the section admits what it admits alone, if that fits. -/
theorem Beside.admits_iff (h : Beside base d u) (hceiling : Ceiling budget env env')
    (hroom : d.Admits env n → base.promptTotal.saturatingAdd (d.promptTotal.saturatingAdd n) ≤ budget) :
    u.Admits env' n ↔ d.Admits env n := by
  have hfits : d.Admits env n ↔ d.sectionUsed.saturatingAdd n ≤ env.sectionBudget := by
    rw [FillState.Admits, hceiling.none]
    exact and_iff_left (fits_max _ _)
  constructor
  · rintro ⟨hsection, -⟩
    rw [hfits, ← h.used, ← hceiling.share]
    exact hsection
  · intro hadmits
    refine ⟨?_, ?_⟩
    · rw [h.used, hceiling.share]
      exact hfits.mp hadmits
    · rw [Fits, hceiling.some, h.promptTotal, saturatingAdd_assoc]
      exact hroom hadmits

/-- A candidate that does not fit waits for its summary. -/
theorem fillCandidate_of_full {st : FillState} {summaryId : BlockId} (hfresh : p.isRedundant st cand = false)
    (hadmits : ¬st.Admits env cand.tokens) (hsome : p.summaryOf env cand = some summaryId) :
    p.fillCandidate env st cand = p.substitute env st cand summaryId := by
  rw [GreedyPager.fillCandidate, if_neg (by simp [hfresh]), if_neg hadmits, hsome]

/-- What a turn may do it does. -/
theorem FillStep.run {st st' : FillState} (h : FillStep p env st cand st') : p.fillCandidate env st cand = .ok st' := by
  cases h with
  | redundant hred => rw [GreedyPager.fillCandidate, if_pos hred]
  | taken hfresh hadmits =>
    rw [GreedyPager.fillCandidate, if_neg (by simp [hfresh]), if_pos hadmits]
    rfl
  | refused hfresh hadmits hnone =>
    rw [GreedyPager.fillCandidate, if_neg (by simp [hfresh]), if_neg hadmits, hnone]
  | covered hfresh hadmits hsome hold =>
    rw [fillCandidate_of_full hfresh hadmits hsome]
    simp only [substitute, if_pos hold]
    rfl
  | unfit hfresh hadmits hsome hnew hgone =>
    rw [fillCandidate_of_full hfresh hadmits hsome]
    rcases hgone with hnone | ⟨n, ⟨b, hb, hn⟩, hno⟩
    · simp only [substitute, if_neg hnew, hnone, Loop.ok_bind]
      rfl
    · simp only [substitute, if_neg hnew, hb, hn, Loop.ok_bind, if_neg hno]
      rfl
  | replaced hfresh hadmits hsome hnew hcost hfits =>
    obtain ⟨b, hb, hn⟩ := hcost
    rw [fillCandidate_of_full hfresh hadmits hsome]
    simp only [substitute, if_neg hnew, hb, hn, Loop.ok_bind, if_pos hfits]
    rfl

/-- What a section does with a candidate alone it does beside others. -/
theorem Beside.fillCandidate (h : Beside base d u) (hceiling : Ceiling budget env env')
    (hstep : p.fillCandidate env d cand = .ok d') (hroom : base.promptTotal.saturatingAdd d'.promptTotal ≤ budget)
    (happart : ∀ id ∈ base.compressedInto, env.summaryFor.lookup cand.id ≠ some id) :
    ∃ u', p.fillCandidate env' u cand = .ok u' ∧ Beside base d' u' := by
  have hsummary : p.summaryOf env' cand = p.summaryOf env cand := by simp [summaryOf, hceiling.summaries]
  have hcovered : ∀ {id}, p.summaryOf env cand = some id → (id ∈ u.compressedInto ↔ id ∈ d.compressedInto) := by
    intro id hid
    rw [h.compressed]
    refine or_iff_right fun hbase => happart id hbase ?_
    unfold summaryOf at hid
    split at hid
    · exact hid
    · cases hid
  -- A turn that takes nothing refuses for the section's own share.
  have hrefuses : ∀ {n}, ¬d.Admits env n → ¬u.Admits env' n := fun hno hadmits =>
    hno ((h.admits_iff hceiling fun hyes => absurd hyes hno).mp hadmits)
  suffices hturn : ∃ u', FillStep p env' u cand u' ∧ Beside base d' u' by
    obtain ⟨u', hu', hbeside⟩ := hturn
    exact ⟨u', hu'.run, hbeside⟩
  cases fillCandidate_step hstep with
  | redundant hred => exact ⟨_, .redundant (h.redundant_eq.trans hred), h.leave cand .redundant⟩
  | taken hfresh hadmits =>
    have hadmits' := (h.admits_iff hceiling fun _ => hroom).mpr hadmits
    exact ⟨_, .taken (h.redundant_eq.trans hfresh) hadmits', { h.take cand.id cand.tokens cand.score with
      words := congrArg (· ++ cand.wordSet.toList) h.words }⟩
  | refused hfresh hadmits hnone =>
    exact ⟨_, .refused (h.redundant_eq.trans hfresh) (hrefuses hadmits) (hsummary.trans hnone), h.leave cand .budget⟩
  | covered hfresh hadmits hsome hold =>
    exact ⟨_, .covered (h.redundant_eq.trans hfresh) (hrefuses hadmits) (hsummary.trans hsome) ((hcovered hsome).mpr hold),
      h.leave cand .compressed⟩
  | unfit hfresh hadmits hsome hnew hgone =>
    exact ⟨_, .unfit (h.redundant_eq.trans hfresh) (hrefuses hadmits) (hsummary.trans hsome) (mt (hcovered hsome).mp hnew)
      (hgone.imp_right fun hunfit => hunfit.imp fun _ hn => ⟨hn.1, hrefuses hn.2⟩), h.leave cand .budget⟩
  | @replaced id n hfresh hadmits hsome hnew hcost hfits =>
    have hfits' := (h.admits_iff hceiling fun _ => hroom).mpr hfits
    have htook := h.take id n cand.score
    have hrecorded : Beside base { d.take id n cand.score with compressedInto := id :: d.compressedInto }
        { u.take id n cand.score with compressedInto := id :: u.compressedInto } := { htook with
      compressed := fun x => by
        simp only [List.mem_cons, h.compressed]
        tauto }
    exact ⟨_, .replaced (h.redundant_eq.trans hfresh) (hrefuses hadmits) (hsummary.trans hsome)
      (mt (hcovered hsome).mp hnew) hcost hfits', hrecorded.leave cand .compressed⟩

/-- A turn takes nothing back. -/
theorem fillCandidates_grow {cands : List Candidate} (h : cands.foldlM (p.fillCandidate env) d = .ok d') :
    d.promptTotal.val ≤ d'.promptTotal.val := by
  have hadd : ∀ (a b : TokenCount), a.val ≤ (a.saturatingAdd b).val := fun a b => by
    have hlt := a.isLt
    rw [TokenCount.val_saturatingAdd]
    omega
  refine Loop.foldlM_inv (P := fun t => d.promptTotal.val ≤ t.promptTotal.val) (fun cand _ s t hs hstep => ?_)
    (Nat.le_refl _) h
  cases fillCandidate_step hstep with
  | taken => exact hs.trans (hadd _ _)
  | replaced => exact hs.trans (hadd _ _)
  | _ => exact hs

theorem Beside.fillCandidates (hceiling : Ceiling budget env env') {cands : List Candidate}
    (happart : ∀ id ∈ base.compressedInto, ∀ cand ∈ cands, env.summaryFor.lookup cand.id ≠ some id)
    (h : Beside base d u) (hrun : cands.foldlM (p.fillCandidate env) d = .ok d')
    (hroom : base.promptTotal.val + d'.promptTotal.val ≤ budget.val) :
    ∃ u', cands.foldlM (p.fillCandidate env') u = .ok u' ∧ Beside base d' u' := by
  induction cands generalizing d u with
  | nil =>
    cases hrun
    exact ⟨u, rfl, h⟩
  | cons cand cands ih =>
    obtain ⟨d₁, hstep, hrest⟩ := Loop.foldlM_cons_eq_ok.mp hrun
    have hgrow := fillCandidates_grow hrest
    have hfits : base.promptTotal.saturatingAdd d₁.promptTotal ≤ budget := by
      rw [TokenCount.le_iff, TokenCount.val_saturatingAdd]
      omega
    obtain ⟨u₁, hu₁, hbeside⟩ := h.fillCandidate hceiling hstep hfits fun id hid =>
      happart id hid cand List.mem_cons_self
    obtain ⟨u', hu', hdone⟩ := ih (fun id hid c hc => happart id hid c (List.mem_cons_of_mem _ hc)) hbeside hrest
    exact ⟨u', Loop.foldlM_cons_eq_ok.mpr ⟨u₁, hu₁, hu'⟩, hdone⟩

/-! ### All sections -/

/-- The sections `done` hold what each of them takes alone. -/
structure Gathered (start : PageState) (alone : SectionKind → FillState) (done : List SectionKind) (u : FillState) : Prop where
  selected : u.selected = start.selected ++ done.flatMap fun s => (alone s).selected
  selections : u.selections = start.selections ++ done.flatMap fun s => (alone s).selections
  promptTotal : u.promptTotal = .saturate (start.promptTotal.val + (done.map fun s => (alone s).promptTotal.val).sum)
  blockTokens : u.blockTokens = .saturate (start.blockTokens.val + (done.map fun s => (alone s).blockTokens.val).sum)
  compressed : ∀ id, id ∈ u.compressedInto ↔ ∃ s ∈ done, id ∈ (alone s).compressedInto

/-- What the sections take alone fits together, and no section waits for a summary of another. -/
structure Together (p : GreedyPager) (budget : TokenCount) (allocation : SectionAllocation)
    (summaryFor : List (BlockId × BlockId)) (bySection : SectionKind → List Candidate) (start : PageState)
    (alone : SectionKind → FillState) : Prop where
  slack : bySection .slack = []
  through : ∀ s ∈ variableSections bySection, p.fillAlone allocation summaryFor bySection s = .ok (alone s)
  room : start.promptTotal.val + ((variableSections bySection).map fun s => (alone s).promptTotal.val).sum ≤ budget.val
  apart : ∀ s ∈ variableSections bySection, ∀ id ∈ (alone s).compressedInto, ∀ s' ∈ variableSections bySection, s' ≠ s →
    ∀ cand ∈ bySection s', summaryFor.lookup cand.id ≠ some id

theorem saturate_val (n : TokenCount) : TokenCount.saturate n.val = n := by
  cases n with
  | mk k hk =>
    simp only [TokenCount.saturate, TokenCount.mk.injEq]
    omega

theorem saturate_saturatingAdd (a : Nat) (n : TokenCount) :
    (TokenCount.saturate a).saturatingAdd n = .saturate (a + n.val) := by
  simp only [TokenCount.saturatingAdd, TokenCount.saturate, TokenCount.mk.injEq]
  omega

theorem Beside.enter (base : FillState) : Beside base.enter (fillStart .empty) base.enter where
  selected := (List.append_nil _).symm
  selections := (List.append_nil _).symm
  promptTotal := (saturate_val base.promptTotal).symm
  blockTokens := (saturate_val base.blockTokens).symm
  used := rfl
  words := rfl
  compressed := by simp [fillStart]

theorem Gathered.refl (start : PageState) : Gathered start alone [] (fillStart start) where
  selected := (List.append_nil _).symm
  selections := (List.append_nil _).symm
  promptTotal := (saturate_val start.promptTotal).symm
  blockTokens := (saturate_val start.blockTokens).symm
  compressed := by simp [fillStart]

/-- The next section adds what it takes alone. -/
theorem Gathered.fillSection (h : Together p budget allocation summaryFor bySection start alone)
    {done rest : List SectionKind} (hperm : (done ++ s :: rest).Perm (variableSections bySection))
    (hu : Gathered start alone done u) :
    ∃ u', p.fillSection budget allocation summaryFor bySection u s = .ok u' ∧ Gathered start alone (done ++ [s]) u' := by
  have hs : s ∈ variableSections bySection := hperm.mem_iff.mp (by simp)
  have hfresh : s ∉ done := by
    have hnodup : (done ++ s :: rest).Nodup := hperm.nodup_iff.mpr ((by decide : SectionKind.all.Nodup).filter _)
    exact fun hmem => (List.nodup_append.mp hnodup).2.2 s hmem s List.mem_cons_self rfl
  have hslack : s ≠ .slack := by
    rintro rfl
    simp [variableSections, h.slack] at hs
  have hrun := h.through s hs
  unfold fillAlone GreedyPager.fillSection at hrun
  rw [if_neg hslack] at hrun
  have hroom : u.promptTotal.val + (alone s).promptTotal.val ≤ budget.val := by
    have hsum : ((done ++ s :: rest).map fun s => (alone s).promptTotal.val).sum = _ := (hperm.map _).sum_eq
    have hle := h.room
    simp only [List.map_append, List.map_cons, List.sum_append, List.sum_cons] at hsum
    rw [hu.promptTotal]
    simp only [TokenCount.saturate]
    omega
  have happart : ∀ id ∈ u.enter.compressedInto, ∀ cand ∈ bySection s, summaryFor.lookup cand.id ≠ some id := by
    intro id hid
    obtain ⟨s', hs', hid⟩ := (hu.compressed id).mp hid
    refine h.apart s' (hperm.mem_iff.mp (List.mem_append_left _ hs')) id hid s hs ?_
    rintro rfl
    exact hfresh hs'
  have hceiling : Ceiling budget (sectionEnv .max allocation summaryFor s) (sectionEnv budget allocation summaryFor s) :=
    ⟨rfl, rfl, rfl, rfl⟩
  obtain ⟨u', hu', hbeside⟩ := (Beside.enter u).fillCandidates hceiling happart hrun hroom
  refine ⟨u', by rw [GreedyPager.fillSection, if_neg hslack, hu'], ?_, ?_, ?_, ?_, fun id => ?_⟩
  · rw [hbeside.selected, List.flatMap_append, List.flatMap_singleton, ← List.append_assoc, ← hu.selected]
    rfl
  · rw [hbeside.selections, List.flatMap_append, List.flatMap_singleton, ← List.append_assoc, ← hu.selections]
    rfl
  · rw [hbeside.promptTotal, List.map_append, List.sum_append, List.map_singleton, List.sum_singleton, ← Nat.add_assoc,
      ← saturate_saturatingAdd, ← hu.promptTotal]
    rfl
  · rw [hbeside.blockTokens, List.map_append, List.sum_append, List.map_singleton, List.sum_singleton, ← Nat.add_assoc,
      ← saturate_saturatingAdd, ← hu.blockTokens]
    rfl
  · rw [hbeside.compressed]
    show id ∈ u.compressedInto ∨ _ ↔ _
    rw [hu.compressed]
    simp only [List.mem_append, List.mem_singleton, or_and_right, exists_or, exists_eq_left]

/-- Sections that fit together are filled alike in every order. -/
theorem Together.fill (order : HashOrder) {request : PageRequest}
    (hindex : p.summaryIndex request.sessionId = .ok summaryFor)
    (h : Together p request.model.inputBudget (p.pageAllocation request start) summaryFor bySection start alone) :
    ∃ filled, p.pageFill order request bySection start = .ok filled ∧
      Gathered start alone (order.sections (variableSections bySection)) filled := by
  have hperm := order.sections_perm (variableSections bySection)
  obtain ⟨filled, hfilled, done, hdone, hgathered⟩ := Loop.foldlM_total (P := fun u rest => ∃ done,
    done ++ rest = order.sections (variableSections bySection) ∧ Gathered start alone done u)
    (f := p.fillSection request.model.inputBudget (p.pageAllocation request start) summaryFor bySection)
    (fun s rest u hu => by
      obtain ⟨done, hdone, hgathered⟩ := hu
      obtain ⟨u', hu', hnext⟩ := hgathered.fillSection h (hdone ▸ hperm)
      exact ⟨u', hu', done ++ [s], by rw [← hdone, List.append_assoc]; rfl, hnext⟩)
    ⟨[], rfl, .refl start⟩
  refine ⟨filled, ?_, ?_⟩
  · unfold pageFill
    rw [hindex, Loop.ok_bind, hfilled]
  · rw [← hdone, List.append_nil]
    exact hgathered

end Llm386.GreedyPager
