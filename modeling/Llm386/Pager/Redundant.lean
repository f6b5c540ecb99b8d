import Llm386.Pager.Turns

/-! # The redundancy filter

The fill of a section compares a candidate with the words of the candidates it took for the section before. It never
looks at the required blocks of the section, nor at the summaries that stand in for other blocks: a candidate similar
to one of these is selected all the same. -/

namespace Llm386.GreedyPager
open PageState

variable {p : GreedyPager} {order : HashOrder} {request : PageRequest} {t : Float32} {required : List BlockId}
  {s : SectionKind} {later : List SectionKind} {cand : Candidate} {st : FillState}

/-- The stored blocks `a` and `b` belong to one section, and their word sets are similar to the degree of `t`. -/
def Similar (p : GreedyPager) (t : Float32) (a b : BlockId) : Prop :=
  ∃ x y, p.getBlock a = .ok (some x) ∧ p.getBlock b = .ok (some y) ∧ x.kind.defaultSection = y.kind.defaultSection ∧
    t ≤ jaccard (p.wordSet x.bytes) (p.wordSet y.bytes)

/-- The turns of the section fill: each candidate that comes up, with the environment of its section and the state it
comes up in. -/
def turns (p : GreedyPager) (order : HashOrder) (request : PageRequest) :
    Except PagerError (List (FillEnv × FillState × Candidate)) := do
  let fixed ← p.pageFixed request
  let scores ← p.gather request
  let bySection ← p.loadSections (order.scores scores)
  let summaryFor ← p.summaryIndex request.sessionId
  let start := pageSystem request bySection fixed
  let allocation := p.pageAllocation request start
  let sections := Loop.visited (p.fillSection request.model.inputBudget allocation summaryFor bySection) (fillStart start)
    (order.sections (variableSections bySection))
  pure (sections.flatMap fun x =>
    if x.2 = .slack then []
    else
      let env := sectionEnv request.model.inputBudget allocation summaryFor x.2
      (Loop.visited (p.fillCandidate env) x.1.enter (bySection x.2)).map fun y => (env, y.1, y.2))

/-- The turn of `cand` in the state `st`, which it leaves as `st'`. -/
def FillTurn (p : GreedyPager) (order : HashOrder) (request : PageRequest) (st : FillState) (cand : Candidate)
    (st' : FillState) : Prop :=
  ∃ turns env, p.turns order request = .ok turns ∧ (env, st, cand) ∈ turns ∧ p.fillCandidate env st cand = .ok st'

/-- At its turn the candidate itself is selected. -/
def FillTakes (p : GreedyPager) (order : HashOrder) (request : PageRequest) (st : FillState) (cand : Candidate) : Prop :=
  ∃ st', p.FillTurn order request st cand st' ∧ st'.selected = st.selected ++ [cand.id]

/-- At the turn of the candidate the summary `id` is selected in its stead. -/
def FillReplaces (p : GreedyPager) (order : HashOrder) (request : PageRequest) (st : FillState) (cand : Candidate)
    (id : BlockId) : Prop :=
  ∃ st', p.FillTurn order request st cand st' ∧ st'.selected = st.selected ++ [id] ∧
    st'.compressedInto = id :: st.compressedInto

/-- How `id` comes to be selected next to the blocks of `before`: it is required, of the system section, taken by the
section fill or a summary that stands in for a candidate. -/
inductive Entry (p : GreedyPager) (order : HashOrder) (request : PageRequest) (before : List BlockId) (id : BlockId) : Prop
  | required : before ++ [id] <+: request.requiredBlocks → Entry p order request before id
  | system {b : ContextBlock} : p.getBlock id = .ok (some b) → b.kind.defaultSection = .system →
      Entry p order request before id
  | taken {st : FillState} {cand : Candidate} : p.FillTakes order request st cand → st.selected = before → cand.id = id →
      Entry p order request before id
  | standsIn {st : FillState} {cand : Candidate} : p.FillReplaces order request st cand id → st.selected = before →
      Entry p order request before id

/-! ### The words of a candidate -/

/-- A candidate of a section is a stored block of that section, with its words where the filter is on. -/
theorem candidate_block {scores : List (BlockId × Float32)} {bySection : SectionKind → List Candidate}
    (h : p.loadSections scores = .ok bySection) (hc : cand ∈ bySection s) : ∃ b, p.getBlock cand.id = .ok (some b) ∧
      b.kind.defaultSection = s ∧
      cand.wordSet = if p.scoring.redundancyThreshold.isSome then some (p.wordSet b.bytes) else none := by
  obtain ⟨entry, -, hload⟩ := (mem_section_iff h).mp hc
  obtain ⟨found, hget, hload⟩ := Loop.bind_eq_ok.mp hload
  cases found with
  | none => cases hload
  | some block =>
    obtain ⟨n, hn, hload⟩ := Loop.bind_eq_ok.mp hload
    cases hload
    exact ⟨block, (getBlock_id hget).symm ▸ hget, rfl, rfl⟩

theorem isRedundant_eq {words : List String} (ht : p.scoring.redundancyThreshold = some t)
    (hwords : cand.wordSet = some words) :
    p.isRedundant st cand = true ↔ ∃ seen ∈ st.sectionWordSets, t ≤ jaccard words seen := by
  simp [isRedundant, ht, hwords]

/-- Between two sections. Of the sections still to come only required blocks and summaries are selected, and what is
redundant is similar to a selected block. -/
structure Apart (p : GreedyPager) (t : Float32) (required : List BlockId) (later : List SectionKind) (st : FillState) :
    Prop where
  pinned : ∀ id ∈ required, id ∈ st.selected
  substituted : ∀ id ∈ st.compressedInto, id ∈ st.selected
  unvisited : ∀ id ∈ st.selected, ∀ b, p.getBlock id = .ok (some b) → b.kind.defaultSection ∈ later →
    id ∈ required ∨ id ∈ st.compressedInto
  redundant : ∀ o ∈ st.omitted, o.reason = .redundant → ∃ id ∈ st.selected, p.Similar t o.blockId id

/-- Within the section `s`: of its other blocks that are selected the words are known. -/
structure ApartWithin (p : GreedyPager) (t : Float32) (required : List BlockId) (s : SectionKind)
    (later : List SectionKind) (st : FillState) : Prop extends Apart p t required later st where
  here : ∀ id ∈ st.selected, ∀ b, p.getBlock id = .ok (some b) → b.kind.defaultSection = s →
    id ∈ required ∨ id ∈ st.compressedInto ∨ p.wordSet b.bytes ∈ st.sectionWordSets
  words : ∀ seen ∈ st.sectionWordSets, ∃ id ∈ st.selected, ∃ b, p.getBlock id = .ok (some b) ∧
    b.kind.defaultSection = s ∧ p.wordSet b.bytes = seen

theorem Apart.enter (h : Apart p t required (s :: later) st) : ApartWithin p t required s later st.enter where
  pinned := h.pinned
  substituted := h.substituted
  unvisited id hid b hb hs := h.unvisited id hid b hb (List.mem_cons_of_mem _ hs)
  redundant := h.redundant
  here id hid b hb hs := (h.unvisited id hid b hb (List.mem_cons.mpr (Or.inl hs))).imp_right Or.inl
  words _ hseen := (List.not_mem_nil hseen).elim

/-- An omission that is not for redundancy, or whose block is similar to a selected one. -/
theorem Apart.leave (h : Apart p t required later st) (cand : Candidate) {reason : OmissionReason}
    (hreason : reason = .redundant → ∃ id ∈ st.selected, p.Similar t cand.id id) :
    Apart p t required later (st.leave cand reason) where
  pinned := h.pinned
  substituted := h.substituted
  unvisited := h.unvisited
  redundant o ho hred := by
    rcases List.mem_append.mp ho with ho | ho
    · exact h.redundant o ho hred
    · obtain rfl := List.mem_singleton.mp ho
      exact hreason hred

theorem Apart.tail (h : Apart p t required (s :: later) st) : Apart p t required later st where
  pinned := h.pinned
  substituted := h.substituted
  unvisited id hid b hb hs := h.unvisited id hid b hb (List.mem_cons_of_mem _ hs)
  redundant := h.redundant

theorem ApartWithin.leave (h : ApartWithin p t required s later st) (cand : Candidate) {reason : OmissionReason}
    (hreason : reason = .redundant → ∃ id ∈ st.selected, p.Similar t cand.id id) :
    ApartWithin p t required s later (st.leave cand reason) where
  toApart := h.toApart.leave cand hreason
  here := h.here
  words := h.words

/-- A block of no section still to come is selected. -/
theorem Apart.select (h : Apart p t required later st) {st' : FillState} {id : BlockId} {b : ContextBlock}
    (hb : p.getBlock id = .ok (some b)) (hs : b.kind.defaultSection ∉ later) (hsel : st'.selected = st.selected ++ [id])
    (hcomp : st'.compressedInto = st.compressedInto) (hout : st'.omitted = st.omitted) :
    Apart p t required later st' where
  pinned x hx := hsel ▸ List.mem_append_left _ (h.pinned x hx)
  substituted x hx := hsel ▸ List.mem_append_left _ (h.substituted x (hcomp ▸ hx))
  unvisited x hx b' hb' hs' := by
    rw [hcomp]
    rcases List.mem_append.mp (hsel ▸ hx) with hx | hx
    · exact h.unvisited x hx b' hb' hs'
    · obtain rfl := List.mem_singleton.mp hx
      cases hb.symm.trans hb'
      exact absurd hs' hs
  redundant o ho hred := by
    obtain ⟨x, hx, hsim⟩ := h.redundant o (hout ▸ ho) hred
    exact ⟨x, hsel ▸ List.mem_append_left _ hx, hsim⟩

/-- A candidate of the section is selected with its words. -/
theorem ApartWithin.take (h : ApartWithin p t required s later st) (hs : s ∉ later) {b : ContextBlock}
    (hb : p.getBlock cand.id = .ok (some b)) (hsection : b.kind.defaultSection = s)
    (hwords : cand.wordSet = some (p.wordSet b.bytes)) :
    ApartWithin p t required s later { st.take cand.id cand.tokens cand.score with
      sectionWordSets := st.sectionWordSets ++ cand.wordSet.toList } where
  toApart := h.toApart.select hb (hsection ▸ hs) rfl rfl rfl
  here id hid b' hb' hs' := by
    rcases List.mem_append.mp hid with hid | hid
    · exact (h.here id hid b' hb' hs').imp_right (Or.imp_right (List.mem_append_left _))
    · obtain rfl := List.mem_singleton.mp hid
      cases hb.symm.trans hb'
      exact Or.inr (Or.inr (List.mem_append_right _ (by simp [hwords])))
  words seen hseen := by
    rcases List.mem_append.mp hseen with hseen | hseen
    · obtain ⟨id, hid, hblock⟩ := h.words seen hseen
      exact ⟨id, List.mem_append_left _ hid, hblock⟩
    · obtain rfl : p.wordSet b.bytes = seen := by simpa [hwords, eq_comm] using hseen
      exact ⟨cand.id, List.mem_append_right _ (List.mem_singleton_self _), b, hb, hsection, rfl⟩

/-- A summary is selected as a substitute, whatever its words. -/
theorem ApartWithin.substitute (h : ApartWithin p t required s later st) (id : BlockId) (n : TokenCount)
    (score : Float32) : ApartWithin p t required s later
      { st.take id n score with compressedInto := id :: st.compressedInto } where
  pinned x hx := List.mem_append_left _ (h.pinned x hx)
  substituted x hx := by
    rcases List.mem_cons.mp hx with rfl | hx
    · exact List.mem_append_right _ (List.mem_singleton_self _)
    · exact List.mem_append_left _ (h.substituted x hx)
  unvisited x hx b hb hs := by
    rcases List.mem_append.mp hx with hx | hx
    · exact (h.unvisited x hx b hb hs).imp_right (List.mem_cons_of_mem _)
    · exact Or.inr (List.mem_cons.mpr (Or.inl (List.mem_singleton.mp hx)))
  redundant o ho hred := by
    obtain ⟨x, hx, hsim⟩ := h.redundant o ho hred
    exact ⟨x, List.mem_append_left _ hx, hsim⟩
  here x hx b hb hs := by
    rcases List.mem_append.mp hx with hx | hx
    · exact (h.here x hx b hb hs).imp_right (Or.imp_left (List.mem_cons_of_mem _))
    · exact Or.inr (Or.inl (List.mem_cons.mpr (Or.inl (List.mem_singleton.mp hx))))
  words seen hseen := by
    obtain ⟨x, hx, hblock⟩ := h.words seen hseen
    exact ⟨x, List.mem_append_left _ hx, hblock⟩

/-- What makes a candidate redundant is a selected block of its section. -/
theorem ApartWithin.similar (h : ApartWithin p t required s later st) (ht : p.scoring.redundancyThreshold = some t)
    {b : ContextBlock} (hb : p.getBlock cand.id = .ok (some b)) (hsection : b.kind.defaultSection = s)
    (hwords : cand.wordSet = some (p.wordSet b.bytes)) (hred : p.isRedundant st cand = true) :
    ∃ id ∈ st.selected, p.Similar t cand.id id := by
  obtain ⟨seen, hseen, hle⟩ := (isRedundant_eq ht hwords).mp hred
  obtain ⟨id, hid, b', hb', hsection', rfl⟩ := h.words seen hseen
  exact ⟨id, hid, b, b', hb, hb', hsection.trans hsection'.symm, hle⟩

theorem ApartWithin.step {env : FillEnv} {st' : FillState} (h : ApartWithin p t required s later st) (hs : s ∉ later)
    (ht : p.scoring.redundancyThreshold = some t) {b : ContextBlock} (hb : p.getBlock cand.id = .ok (some b))
    (hsection : b.kind.defaultSection = s) (hwords : cand.wordSet = some (p.wordSet b.bytes))
    (hstep : p.fillCandidate env st cand = .ok st') : ApartWithin p t required s later st' := by
  cases fillCandidate_step hstep with
  | redundant hred => exact h.leave cand fun _ => h.similar ht hb hsection hwords hred
  | taken => exact h.take hs hb hsection hwords
  | refused | covered | unfit => exact h.leave cand fun habs => by cases habs
  | replaced => exact (h.substitute _ _ _).leave cand fun habs => by cases habs

/-! ### The whole fill -/

theorem Apart.fillSystem {st : PageState} (h : Apart p t required later (fillStart st)) (budget : TokenCount)
    {b : ContextBlock} (hb : p.getBlock cand.id = .ok (some b)) (hs : b.kind.defaultSection ∉ later) :
    Apart p t required later (fillStart (GreedyPager.fillSystem budget st cand)) := by
  rcases fillSystem_cases budget st cand with ⟨-, heq⟩ | heq
  · rw [heq]
    exact h.select hb hs rfl rfl rfl
  · rw [heq]
    exact h.leave cand fun habs => by cases habs

section Fill
variable {scores : List (BlockId × Float32)} {bySection : SectionKind → List Candidate}

/-- What a turn of a section finds. -/
theorem Apart.turn (h : Apart p t required (s :: later) st) (hs : s ∉ later)
    (ht : p.scoring.redundancyThreshold = some t) (hsections : p.loadSections scores = .ok bySection) {env : FillEnv}
    {x : FillState × Candidate} (hx : x ∈ Loop.visited (p.fillCandidate env) st.enter (bySection s)) :
    ApartWithin p t required s later x.1 ∧ x.2 ∈ bySection s := by
  have step : ∀ cand rest u v, (ApartWithin p t required s later u ∧ ∀ c ∈ cand :: rest, c ∈ bySection s) →
      p.fillCandidate env u cand = .ok v → ApartWithin p t required s later v ∧ ∀ c ∈ rest, c ∈ bySection s := by
    rintro cand rest u v ⟨hwithin, hsub⟩ hstep
    obtain ⟨b, hb, hsection, hwords⟩ := candidate_block hsections (hsub cand List.mem_cons_self)
    rw [ht] at hwords
    exact ⟨hwithin.step hs ht hb hsection hwords hstep, fun c hc => hsub c (List.mem_cons_of_mem _ hc)⟩
  obtain ⟨rest, hwithin, hsub⟩ := Loop.inv_of_visited (P := fun u rest => ApartWithin p t required s later u ∧
    ∀ c ∈ rest, c ∈ bySection s) step ⟨h.enter, fun _ hc => hc⟩ hx
  exact ⟨hwithin, hsub x.2 List.mem_cons_self⟩

theorem Apart.fillSection (h : Apart p t required (s :: later) st) (hs : s ∉ later)
    (ht : p.scoring.redundancyThreshold = some t) (hsections : p.loadSections scores = .ok bySection)
    {budget : TokenCount} {allocation : SectionAllocation} {summaryFor : List (BlockId × BlockId)} {st' : FillState}
    (hstep : p.fillSection budget allocation summaryFor bySection st s = .ok st') : Apart p t required later st' := by
  unfold GreedyPager.fillSection at hstep
  split at hstep
  · cases hstep
    have hslack : ∀ (cands : List Candidate) (u : FillState), Apart p t required later u →
        Apart p t required later (cands.foldl (fun st cand => st.leave cand .budget) u) := by
      intro cands
      induction cands with
      | nil => exact fun _ h => h
      | cons cand cands ih => exact fun u h => ih _ (h.leave cand fun habs => by cases habs)
    exact hslack _ st h.tail
  · refine (Loop.foldlM_inv (P := ApartWithin p t required s later) (fun cand hc u v hP hfill => ?_) h.enter
      hstep).toApart
    obtain ⟨b, hb, hsection, hwords⟩ := candidate_block hsections hc
    rw [ht] at hwords
    exact hP.step hs ht hb hsection hwords hfill

end Fill

/-! ### Every entry of the selection -/

section Entries
variable {scores : List (BlockId × Float32)} {bySection : SectionKind → List Candidate} {fixed : PageState}
  {summaryFor : List (BlockId × BlockId)} {filled : FillState}

/-- A turn that selects takes the candidate or a summary in its stead, and a candidate that it takes is not redundant. -/
theorem FillTurn.entry {st' : FillState} {id : BlockId} (h : p.FillTurn order request st cand st')
    (hsel : st'.selected = st.selected ++ [id]) : Entry p order request st.selected id := by
  obtain ⟨turns, env, hturns, hmem, hstep⟩ := h
  have hturn : p.FillTurn order request st cand st' := ⟨turns, env, hturns, hmem, hstep⟩
  cases fillCandidate_step hstep with
  | redundant | refused | covered | unfit => exact absurd hsel (by simp [FillState.leave, PageState.omit_])
  | taken =>
    obtain rfl : cand.id = id := by simpa [FillState.take, PageState.push] using hsel
    exact .taken ⟨_, hturn, hsel⟩ rfl rfl
  | @replaced summaryId =>
    obtain rfl : summaryId = id := by simpa [FillState.leave, FillState.take, PageState.push, PageState.omit_] using hsel
    exact .standsIn ⟨_, hturn, hsel, rfl⟩ rfl

end Entries

end Llm386.GreedyPager
