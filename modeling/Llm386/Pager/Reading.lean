import Llm386.Lib.Reads
import Llm386.Pager.Greedy

/-! # The pager, read by read

A call of `page` reads the store many times, each read in a transaction of its own. Here the passes of the greedy
pager are programs that ask for what they read; where every read is answered by one store they are the passes of
`GreedyPager` on it. -/

namespace Llm386

/-- A read of a block store. -/
inductive Query
  | get (id : BlockId)
  | listSession (session : SessionId)
  | edgesFrom (id : BlockId)
  | edgesTo (id : BlockId)

/-- What a read returns. -/
abbrev Query.Result : Query → Type
  | .get _ => Option ContextBlock
  | .listSession _ => List BlockId
  | .edgesFrom _ | .edgesTo _ => List Edge

abbrev Query.Answer (q : Query) : Type := Except StoreError q.Result

/-- How a store answers. -/
def BlockStore.answer (store : BlockStore) : (q : Query) → q.Answer
  | .get id => store.get id
  | .listSession session => store.listSession session
  | .edgesFrom id => store.edgesFrom id
  | .edgesTo id => store.edgesTo id

/-- A store whose reads all fail. -/
def BlockStore.closed : BlockStore where
  get _ := .error (.backend "closed")
  listSession _ := .error (.backend "closed")
  edgesFrom _ := .error (.backend "closed")
  edgesTo _ := .error (.backend "closed")
  get_id h := by cases h

/-- A program that reads a store. -/
abbrev StoreReads := Reads Query Query.Answer

/-- One read, with its error passed on. -/
def readStore {ε : Type} (wrap : StoreError → ε) (q : Query) : StoreReads ε q.Result :=
  .ask q fun r => .done (r.mapError wrap)

@[simp] theorem answered_readStore {ε : Type} (wrap : StoreError → ε) (q : Query) (store : BlockStore) :
    (readStore wrap q).answered store.answer = (store.answer q).mapError wrap := rfl

/-- A retrieval strategy that may read the store. -/
abbrev ReadingRetriever := SessionId → String → Nat → StoreReads RetrievalError (List RetrievalCandidate)

/-- The pager without the state of its store. -/
structure ReadingPager where
  tokenizer : Tokenizer
  scoring : ScoringPolicy
  budgets : SectionBudgetTable
  retrievers : List ReadingRetriever
  toLowercase : String → String
  sort : Sorting.SliceSort Candidate

namespace ReadingPager

/-- The pager on a store that does not change. -/
def on (r : ReadingPager) (store : BlockStore) : GreedyPager where
  store
  tokenizer := r.tokenizer
  scoring := r.scoring
  budgets := r.budgets
  retrievers := r.retrievers.map fun retriever session task limit => (retriever session task limit).answered store.answer
  toLowercase := r.toLowercase
  sort := r.sort

variable (r : ReadingPager)

/-- The pager between two reads. -/
def offline : GreedyPager := r.on .closed

def getBlock (id : BlockId) : StoreReads PagerError (Option ContextBlock) := readStore .storage (.get id)

/-! ### Steps 1 to 3: required blocks, the task and candidates -/

def selectRequired (inputBudget : TokenCount) (st : PageState) (id : BlockId) : StoreReads PagerError PageState := do
  match ← getBlock id with
  | none => .done (.error (.requiredBlockMissing id))
  | some block =>
    let tokens ← .done (r.offline.tokensFor block)
    if st.Fits inputBudget tokens then pure (st.push id tokens 1 .pinned)
    else .done (.error .requiredOverBudget)

def gather (request : PageRequest) : StoreReads PagerError (List (BlockId × Float32)) :=
  r.retrievers.foldlM (fun scores retriever => do
    let cands ← (retriever request.sessionId request.task RETRIEVAL_LIMIT).mapError .retrieval
    pure (cands.foldl (GreedyPager.mergeScore request.requiredBlocks) scores)) []

def loadCandidate (entry : BlockId × Float32) : StoreReads PagerError (Option (SectionKind × Candidate)) := do
  match ← getBlock entry.1 with
  | none => pure none
  | some block =>
    let tokens ← .done (r.offline.tokensFor block)
    let priority := clamp block.priority 0 1
    pure (some (block.kind.defaultSection, {
      id := block.id
      tokens
      score := entry.2 + r.scoring.priorityWeight * priority
      wordSet := if r.scoring.redundancyThreshold.isSome then some (r.offline.wordSet block.bytes) else none }))

def loadSections (scores : List (BlockId × Float32)) : StoreReads PagerError (SectionKind → List Candidate) := do
  let loaded ← scores.mapM r.loadCandidate
  pure fun s => r.offline.sortCandidates ((loaded.filterMap id).filter (·.1 = s) |>.map (·.2))

/-! ### Steps 4 and 5: greedy fill -/

def buildSummaryIndex (session : SessionId) : StoreReads PagerError (List (BlockId × BlockId)) := do
  let ids ← readStore .storage (.listSession session)
  ids.foldlM (fun m id => do
    match ← getBlock id with
    | none => pure m
    | some block =>
      if block.kind ≠ .summary then pure m
      else pure (block.provenance.parents.foldl (fun m parent => orInsert m parent id) m)) []

def substitute (env : GreedyPager.FillEnv) (st : GreedyPager.FillState) (cand : Candidate) (summaryId : BlockId) :
    StoreReads PagerError GreedyPager.FillState := do
  if summaryId ∈ st.compressedInto then
    pure (st.leave cand .compressed)
  else
    match ← getBlock summaryId with
    | none => pure (st.leave cand .budget)
    | some sBlock =>
      let sTokens ← .done (r.offline.tokensFor sBlock)
      if st.Admits env sTokens then
        let st := st.take summaryId sTokens cand.score
        pure ({ st with compressedInto := summaryId :: st.compressedInto }.leave cand .compressed)
      else pure (st.leave cand .budget)

def fillCandidate (env : GreedyPager.FillEnv) (st : GreedyPager.FillState) (cand : Candidate) :
    StoreReads PagerError GreedyPager.FillState :=
  if r.offline.isRedundant st cand then
    pure (st.leave cand .redundant)
  else if st.Admits env cand.tokens then
    let st := st.take cand.id cand.tokens cand.score
    pure { st with sectionWordSets := st.sectionWordSets ++ cand.wordSet.toList }
  else
    match r.offline.summaryOf env cand with
    | some summaryId => r.substitute env st cand summaryId
    | none => pure (st.leave cand .budget)

def fillSection (inputBudget : TokenCount) (allocation : SectionAllocation) (summaryFor : List (BlockId × BlockId))
    (bySection : SectionKind → List Candidate) (st : GreedyPager.FillState) (s : SectionKind) :
    StoreReads PagerError GreedyPager.FillState :=
  if s = .slack then pure ((bySection s).foldl (fun st cand => st.leave cand .budget) st)
  else (bySection s).foldlM (r.fillCandidate (GreedyPager.sectionEnv inputBudget allocation summaryFor s)) st.enter

/-! ### Step 6: edge expansion and reconciliation -/

def pullDep (inputBudget : TokenCount) (depth : Nat) (st : GreedyPager.ExpandState) (depId : BlockId) :
    StoreReads PagerError GreedyPager.ExpandState := do
  if depId ∈ st.visited then
    pure st
  else
    let st := { st with visited := depId :: st.visited }
    match ← getBlock depId with
    | none => pure st
    | some dep =>
      let tokens ← .done (r.offline.tokensFor dep)
      if st.Fits inputBudget tokens then
        pure { st with
          toPageState := st.push depId tokens 0 .dependency
          frontier := st.frontier ++ [(depId, depth + 1)] }
      else pure st

def dependencies (order : HashOrder) (reads : Nat) (block : ContextBlock) (id : BlockId) :
    StoreReads PagerError (List BlockId) := do
  let policy := r.scoring.edgePolicy
  let parents := if policy.followProvenanceParents then block.provenance.parents else []
  let out ← readStore .storage (.edgesFrom id)
  let outgoing := GreedyPager.collectOutgoing policy (order.kinds reads) out
  if policy.pullsChildren then
    let inEdges ← readStore .storage (.edgesTo id)
    pure (parents ++ outgoing ++ GreedyPager.collectChildren policy inEdges)
  else pure (parents ++ outgoing)

def expandBlock (order : HashOrder) (inputBudget : TokenCount) (st : GreedyPager.ExpandState) (entry : BlockId × Nat) :
    StoreReads PagerError GreedyPager.ExpandState := do
  let (id, depth) := entry
  if r.scoring.edgePolicy.effectiveDepth ≤ depth then
    pure st
  else
    match ← getBlock id with
    | none => pure st
    | some block =>
      let deps ← r.dependencies order st.reads block id
      deps.foldlM (r.pullDep inputBudget depth) { st with reads := st.reads + 1 }

def expandLoop (order : HashOrder) (inputBudget : TokenCount) :
    Nat → GreedyPager.ExpandState → StoreReads PagerError GreedyPager.ExpandState
  | 0, st => pure st
  | fuel + 1, st =>
    match st.frontier with
    | [] => pure st
    | entry :: rest => do
      let st ← r.expandBlock order inputBudget { st with frontier := rest } entry
      expandLoop order inputBudget fuel st

def expandEdges (order : HashOrder) (inputBudget : TokenCount) (st : PageState) : StoreReads PagerError PageState := do
  if r.scoring.edgePolicy.effectiveDepth = 0 then
    pure st
  else
    let start : GreedyPager.ExpandState :=
      { st with visited := st.selected, frontier := st.selected.map fun id => (id, 0), reads := 0 }
    let done ← r.expandLoop order inputBudget (GreedyPager.expandFuel st) start
    pure done.toPageState

def resolveContradiction (a b : BlockId) : StoreReads PagerError (BlockId × BlockId) := do
  let blockA ← getBlock a
  let blockB ← getBlock b
  let winnerIsA := match blockA, blockB with
    | some x, some y =>
      match compare x.createdAt.val y.createdAt.val with
      | .gt => true
      | .lt => false
      | .eq =>
        match partialCmp x.priority y.priority with
        | some .gt => true
        | some .lt => false
        | _ => decide (y.id ≤ x.id)
    | none, some _ => false
    | _, none => true
  pure (if winnerIsA then (b, a) else (a, b))

def judgeEdge (selectedSet pinned : List BlockId) (id : BlockId) (v : GreedyPager.Verdicts) (e : Edge) :
    StoreReads PagerError GreedyPager.Verdicts := do
  let policy := r.scoring.edgePolicy
  if e.kind = .derivedFrom ∧ policy.derivedFrom = .suppressSource ∧ id ≠ e.toId ∧ e.toId ∈ selectedSet ∧
      e.toId ∉ pinned then
    pure { v with toRemove := orInsert v.toRemove e.toId .supersededByDerived }
  else if e.kind = .contradicts ∧ policy.contradicts ≠ .off ∧ id ≠ e.toId ∧ e.toId ∈ selectedSet then
    let (loser, winner) ← resolveContradiction id e.toId
    if policy.contradicts = .preferNewer ∧ loser ∉ pinned then
      pure { v with toRemove := orInsert v.toRemove loser .contradicted }
    else
      pure { v with notes := orInsert v.notes loser ("contradicted by newer block " ++ winner.display) }
  else pure v

def judgeBlock (selectedSet pinned : List BlockId) (v : GreedyPager.Verdicts) (id : BlockId) :
    StoreReads PagerError GreedyPager.Verdicts := do
  let edges ← readStore .storage (.edgesFrom id)
  edges.foldlM (r.judgeEdge selectedSet pinned id) v

def rebuild (v : GreedyPager.Verdicts) (st : PageState) (x : BlockId × Selection) : StoreReads PagerError PageState := do
  let (id, sel) := x
  match v.toRemove.lookup id with
  | some reason =>
    let st := st.omit_ id reason sel.score
    match ← getBlock id with
    | none => pure st
    | some block =>
      let tokens ← .done (r.offline.tokensFor block)
      pure { st with blockTokens := st.blockTokens.saturatingSub tokens }
  | none =>
    let note := match v.notes.lookup id with
      | some note => some note
      | none => sel.note
    pure { st with selected := st.selected ++ [id], selections := st.selections ++ [{ sel with note }] }

def reconcileEdges (st : PageState) : StoreReads PagerError PageState := do
  let pinned := (st.selections.filter (·.reason = .pinned)).map (·.blockId)
  let v ← st.selected.foldlM (r.judgeBlock st.selected pinned) ⟨[], []⟩
  if v.toRemove.isEmpty && v.notes.isEmpty then
    pure st
  else
    (st.selected.zip st.selections).foldlM (r.rebuild v) { st with selected := [], selections := [] }

/-! ### The pipeline -/

def pageFixed (request : PageRequest) : StoreReads PagerError PageState := do
  let st ← request.requiredBlocks.foldlM (r.selectRequired request.model.inputBudget) .empty
  let task ← .done (r.offline.taskTokens request.task)
  pure { st with promptTotal := st.promptTotal.saturatingAdd task }

def summaryIndex (session : SessionId) : StoreReads PagerError (List (BlockId × BlockId)) :=
  if r.scoring.summaryFallback then buildSummaryIndex session else pure []

def pageFill (order : HashOrder) (request : PageRequest) (bySection : SectionKind → List Candidate)
    (st : PageState) : StoreReads PagerError GreedyPager.FillState := do
  let summaryFor ← r.summaryIndex request.sessionId
  (order.sections (GreedyPager.variableSections bySection)).foldlM
    (r.fillSection request.model.inputBudget (r.offline.pageAllocation request st) summaryFor bySection)
    (GreedyPager.fillStart st)

def pageEdges (order : HashOrder) (request : PageRequest) (st : PageState) : StoreReads PagerError PageState := do
  if r.scoring.edgePolicy.enabled then
    let st ← r.expandEdges order request.model.inputBudget st
    if r.scoring.edgePolicy.reconciles then r.reconcileEdges st else pure st
  else pure st

/-- `GreedyPager::page`, read by read. -/
def page (order : HashOrder) (request : PageRequest) : StoreReads PagerError PagePlan := do
  if r.tokenizer.id ≠ request.model.tokenizer then
    .done (.error (.tokenizerMismatch r.tokenizer.id request.model.tokenizer))
  else
    let st ← r.pageFixed request
    let scores ← r.gather request
    let bySection ← r.loadSections (order.scores scores)
    let filled ← r.pageFill order request bySection (GreedyPager.pageSystem request bySection st)
    let st ← r.pageEdges order request filled.toPageState
    pure {
      selected := st.selected
      selections := st.selections
      omitted := st.omitted
      estimatedTokens := st.blockTokens }

/-! ### On one store -/

variable {r} {store : BlockStore} {order : HashOrder}

@[simp] theorem on_tokensFor (block : ContextBlock) : (r.on store).tokensFor block = r.offline.tokensFor block := rfl

@[simp] theorem on_taskTokens (task : String) : (r.on store).taskTokens task = r.offline.taskTokens task := rfl

@[simp] theorem on_wordSet (bytes : Bytes) : (r.on store).wordSet bytes = r.offline.wordSet bytes := rfl

@[simp] theorem on_scoring : (r.on store).scoring = r.scoring := rfl

@[simp] theorem answered_getBlock (id : BlockId) : (getBlock id).answered store.answer = (r.on store).getBlock id := rfl

theorem answered_selectRequired (inputBudget : TokenCount) (st : PageState) (id : BlockId) :
    (r.selectRequired inputBudget st id).answered store.answer = (r.on store).selectRequired inputBudget st id := by
  unfold selectRequired GreedyPager.selectRequired
  rw [Reads.answered_bind]
  refine bind_congr fun found => ?_
  cases found with
  | none => rfl
  | some block => simp

theorem answered_gather (request : PageRequest) :
    (r.gather request).answered store.answer = (r.on store).gather request := by
  unfold gather GreedyPager.gather on
  rw [List.foldlM_map]
  exact Reads.answered_foldlM (fun scores retriever => by simp) _ _

theorem answered_loadCandidate (entry : BlockId × Float32) :
    (r.loadCandidate entry).answered store.answer = (r.on store).loadCandidate entry := by
  unfold loadCandidate GreedyPager.loadCandidate
  rw [Reads.answered_bind]
  refine bind_congr fun found => ?_
  cases found with
  | none => rfl
  | some block =>
    dsimp only
    rw [Reads.answered_bind]
    rfl

theorem answered_loadSections (scores : List (BlockId × Float32)) :
    (r.loadSections scores).answered store.answer = (r.on store).loadSections scores := by
  unfold loadSections GreedyPager.loadSections
  rw [Reads.answered_bind, Reads.answered_mapM answered_loadCandidate]
  rfl

theorem answered_buildSummaryIndex (session : SessionId) :
    (buildSummaryIndex session).answered store.answer = (r.on store).buildSummaryIndex session := by
  unfold buildSummaryIndex GreedyPager.buildSummaryIndex
  rw [Reads.answered_bind]
  refine bind_congr fun ids => Reads.answered_foldlM (fun m id => ?_) _ _
  rw [Reads.answered_bind]
  refine bind_congr fun found => ?_
  cases found with
  | none => rfl
  | some block => simp only [Reads.answered_ite, Reads.answered_pure]

theorem answered_substitute (env : GreedyPager.FillEnv) (st : GreedyPager.FillState) (cand : Candidate)
    (summaryId : BlockId) :
    (r.substitute env st cand summaryId).answered store.answer = (r.on store).substitute env st cand summaryId := by
  unfold substitute GreedyPager.substitute
  rw [Reads.answered_ite, Reads.answered_bind]
  refine if_congr Iff.rfl rfl (bind_congr fun found => ?_)
  cases found with
  | none => rfl
  | some block => simp

theorem answered_fillCandidate (env : GreedyPager.FillEnv) (st : GreedyPager.FillState) (cand : Candidate) :
    (r.fillCandidate env st cand).answered store.answer = (r.on store).fillCandidate env st cand := by
  unfold fillCandidate GreedyPager.fillCandidate
  rw [Reads.answered_ite, Reads.answered_ite]
  refine if_congr Iff.rfl rfl (if_congr Iff.rfl rfl ?_)
  show _ = match r.offline.summaryOf env cand with
    | some summaryId => (r.on store).substitute env st cand summaryId
    | none => .ok (st.leave cand .budget)
  cases r.offline.summaryOf env cand with
  | none => rfl
  | some summaryId => exact answered_substitute env st cand summaryId

theorem answered_fillSection (inputBudget : TokenCount) (allocation : SectionAllocation)
    (summaryFor : List (BlockId × BlockId)) (bySection : SectionKind → List Candidate) (st : GreedyPager.FillState)
    (s : SectionKind) :
    (r.fillSection inputBudget allocation summaryFor bySection st s).answered store.answer =
      (r.on store).fillSection inputBudget allocation summaryFor bySection st s := by
  unfold fillSection GreedyPager.fillSection
  rw [Reads.answered_ite, Reads.answered_foldlM (answered_fillCandidate _)]
  rfl

theorem answered_pullDep (inputBudget : TokenCount) (depth : Nat) (st : GreedyPager.ExpandState) (depId : BlockId) :
    (r.pullDep inputBudget depth st depId).answered store.answer = (r.on store).pullDep inputBudget depth st depId := by
  unfold pullDep GreedyPager.pullDep
  rw [Reads.answered_ite, Reads.answered_bind]
  refine if_congr Iff.rfl rfl (bind_congr fun found => ?_)
  cases found with
  | none => rfl
  | some block => simp

theorem answered_dependencies (reads : Nat) (block : ContextBlock) (id : BlockId) :
    (r.dependencies order reads block id).answered store.answer = (r.on store).dependencies order reads block id := by
  unfold dependencies GreedyPager.dependencies
  rw [Reads.answered_bind]
  refine bind_congr fun out => ?_
  simp only [Reads.answered_ite, Reads.answered_bind]
  rfl

theorem answered_expandBlock (inputBudget : TokenCount) (st : GreedyPager.ExpandState) (entry : BlockId × Nat) :
    (r.expandBlock order inputBudget st entry).answered store.answer =
      (r.on store).expandBlock order inputBudget st entry := by
  unfold expandBlock GreedyPager.expandBlock
  rw [Reads.answered_ite, Reads.answered_bind]
  refine if_congr Iff.rfl rfl (bind_congr fun found => ?_)
  cases found with
  | none => rfl
  | some block =>
    rw [Reads.answered_bind, answered_dependencies]
    exact bind_congr fun deps => Reads.answered_foldlM (answered_pullDep inputBudget entry.2) _ _

theorem answered_expandLoop (inputBudget : TokenCount) (fuel : Nat) (st : GreedyPager.ExpandState) :
    (r.expandLoop order inputBudget fuel st).answered store.answer = (r.on store).expandLoop order inputBudget fuel st := by
  induction fuel generalizing st with
  | zero => rfl
  | succ fuel ih =>
    unfold expandLoop GreedyPager.expandLoop
    cases st.frontier with
    | nil => rfl
    | cons entry rest =>
      dsimp only
      rw [Reads.answered_bind, answered_expandBlock]
      exact bind_congr ih

theorem answered_expandEdges (inputBudget : TokenCount) (st : PageState) :
    (r.expandEdges order inputBudget st).answered store.answer = (r.on store).expandEdges order inputBudget st := by
  unfold expandEdges GreedyPager.expandEdges
  rw [Reads.answered_ite, Reads.answered_bind, answered_expandLoop]
  rfl

theorem answered_resolveContradiction (a b : BlockId) :
    (resolveContradiction a b).answered store.answer = (r.on store).resolveContradiction a b := by
  unfold resolveContradiction GreedyPager.resolveContradiction
  rw [Reads.answered_bind]
  refine bind_congr fun blockA => ?_
  rw [Reads.answered_bind]
  rfl

theorem answered_judgeEdge (selectedSet pinned : List BlockId) (id : BlockId) (v : GreedyPager.Verdicts) (e : Edge) :
    (r.judgeEdge selectedSet pinned id v e).answered store.answer = (r.on store).judgeEdge selectedSet pinned id v e := by
  unfold judgeEdge GreedyPager.judgeEdge
  rw [Reads.answered_ite, Reads.answered_ite, Reads.answered_bind, answered_resolveContradiction]
  refine if_congr Iff.rfl rfl (if_congr Iff.rfl (bind_congr fun x => ?_) rfl)
  rw [Reads.answered_ite]
  rfl

theorem answered_judgeBlock (selectedSet pinned : List BlockId) (v : GreedyPager.Verdicts) (id : BlockId) :
    (r.judgeBlock selectedSet pinned v id).answered store.answer = (r.on store).judgeBlock selectedSet pinned v id := by
  unfold judgeBlock GreedyPager.judgeBlock
  rw [Reads.answered_bind]
  exact bind_congr fun edges => Reads.answered_foldlM (answered_judgeEdge selectedSet pinned id) _ _

theorem answered_rebuild (v : GreedyPager.Verdicts) (st : PageState) (x : BlockId × Selection) :
    (r.rebuild v st x).answered store.answer = (r.on store).rebuild v st x := by
  obtain ⟨id, sel⟩ := x
  unfold rebuild GreedyPager.rebuild
  dsimp only
  cases v.toRemove.lookup id with
  | none => rfl
  | some reason =>
    dsimp only
    rw [Reads.answered_bind]
    refine bind_congr fun found => ?_
    cases found with
    | none => rfl
    | some block => simp

theorem answered_reconcileEdges (st : PageState) :
    (r.reconcileEdges st).answered store.answer = (r.on store).reconcileEdges st := by
  unfold reconcileEdges GreedyPager.reconcileEdges
  rw [Reads.answered_bind, Reads.answered_foldlM (answered_judgeBlock _ _)]
  refine bind_congr fun v => ?_
  rw [Reads.answered_ite, Reads.answered_foldlM (answered_rebuild v)]
  rfl

theorem answered_pageFixed (request : PageRequest) :
    (r.pageFixed request).answered store.answer = (r.on store).pageFixed request := by
  unfold pageFixed GreedyPager.pageFixed
  rw [Reads.answered_bind, Reads.answered_foldlM (answered_selectRequired _)]
  refine bind_congr fun st => ?_
  simp

theorem answered_summaryIndex (session : SessionId) :
    (r.summaryIndex session).answered store.answer = (r.on store).summaryIndex session := by
  unfold summaryIndex GreedyPager.summaryIndex
  rw [Reads.answered_ite, answered_buildSummaryIndex]
  rfl

theorem answered_pageFill (request : PageRequest) (bySection : SectionKind → List Candidate) (st : PageState) :
    (r.pageFill order request bySection st).answered store.answer = (r.on store).pageFill order request bySection st := by
  unfold pageFill GreedyPager.pageFill
  rw [Reads.answered_bind, answered_summaryIndex]
  exact bind_congr fun summaryFor => Reads.answered_foldlM (answered_fillSection _ _ summaryFor bySection) _ _

theorem answered_pageEdges (request : PageRequest) (st : PageState) :
    (r.pageEdges order request st).answered store.answer = (r.on store).pageEdges order request st := by
  unfold pageEdges GreedyPager.pageEdges
  rw [Reads.answered_ite, Reads.answered_bind, answered_expandEdges]
  refine if_congr Iff.rfl (bind_congr fun st => ?_) rfl
  rw [Reads.answered_ite, answered_reconcileEdges]
  rfl

/-- On a store that does not change, the program is `GreedyPager::page`. -/
theorem answered_page (request : PageRequest) :
    (r.page order request).answered store.answer = (r.on store).page order request := by
  unfold page GreedyPager.page
  rw [Reads.answered_ite, Reads.answered_bind, answered_pageFixed]
  refine if_congr Iff.rfl rfl (bind_congr fun st => ?_)
  rw [Reads.answered_bind, answered_gather]
  refine bind_congr fun scores => ?_
  rw [Reads.answered_bind, answered_loadSections]
  refine bind_congr fun bySection => ?_
  rw [Reads.answered_bind, answered_pageFill]
  refine bind_congr fun filled => ?_
  rw [Reads.answered_bind, answered_pageEdges]
  rfl

end ReadingPager
end Llm386
