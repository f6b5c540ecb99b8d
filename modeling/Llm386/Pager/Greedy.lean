import Llm386.Core.Page
import Llm386.Lib.Sorting
import Llm386.Pager.Budget
import Llm386.Pager.Edges

/-! # The greedy pager

`GreedyPager` of `llm386-pager/src/greedy.rs`, pass by pass in the order of `page`: required blocks, task,
candidates, system blocks, section fill with summary substitution, edge expansion, reconciliation. A hash map
that is iterated comes with its order, `HashOrder`; one that is only looked up is an association list. -/

namespace Llm386

/-- Cap on the candidates of one retriever call. -/
def RETRIEVAL_LIMIT : Nat := 4096

/-- Weights of the block score, redundancy threshold, edge policy and summary substitution. -/
structure ScoringPolicy where
  priorityWeight : Float32
  redundancyThreshold : Option Float32
  edgePolicy : EdgePolicy
  summaryFallback : Bool

/-- `ScoringPolicy::default`. -/
def ScoringPolicy.default : ScoringPolicy := ⟨0.5, none, .default, false⟩

structure Candidate where
  id : BlockId
  tokens : TokenCount
  score : Float32
  wordSet : Option (List String)
deriving DecidableEq

/-- The pager. `toLowercase` and `sort` are the standard library's `str::to_lowercase` and `slice::sort_by`, which may
also panic where the comparison is not a total order. -/
structure GreedyPager where
  store : BlockStore
  tokenizer : Tokenizer
  scoring : ScoringPolicy
  budgets : SectionBudgetTable
  retrievers : List Retriever
  toLowercase : String → String
  sort : Sorting.SliceSort Candidate

/-- The order in which one run iterates its hash maps: the merged scores, the sections with candidates, and the
edge kinds collected for the `n`-th block whose edges are read. -/
structure HashOrder where
  scores : List (BlockId × Float32) → List (BlockId × Float32)
  sections : List SectionKind → List SectionKind
  kinds : Nat → List EdgeKind → List EdgeKind
  scores_perm : ∀ l, (scores l).Perm l
  sections_perm : ∀ l, (sections l).Perm l
  kinds_perm : ∀ n l, (kinds n l).Perm l

/-- Every map iterated in insertion or canonical order. -/
def HashOrder.canonical : HashOrder where
  scores l := l
  sections l := l
  kinds _ l := l
  scores_perm l := .refl l
  sections_perm l := .refl l
  kinds_perm _ l := .refl l

/-- `HashMap::entry(k).or_insert(v)`. -/
def orInsert {κ ν : Type} [BEq κ] (m : List (κ × ν)) (k : κ) (v : ν) : List (κ × ν) :=
  if (m.lookup k).isSome then m else m ++ [(k, v)]

/-- What the passes of `page` update: the selection so far and the two running totals. -/
structure PageState where
  selected : List BlockId
  selections : List Selection
  omitted : List OmittedBlock
  /-- Includes the task. -/
  promptTotal : TokenCount
  /-- Selected blocks only. -/
  blockTokens : TokenCount

namespace PageState

def empty : PageState := ⟨[], [], [], .zero, .zero⟩

/-- The global ceiling admits `tokens` more. -/
def Fits (st : PageState) (inputBudget tokens : TokenCount) : Prop := st.promptTotal.saturatingAdd tokens ≤ inputBudget

instance (st : PageState) (inputBudget tokens : TokenCount) : Decidable (st.Fits inputBudget tokens) :=
  inferInstanceAs (Decidable (_ ≤ _))

/-- Select a block and charge it to both totals. -/
def push (st : PageState) (id : BlockId) (tokens : TokenCount) (score : Float32) (reason : SelectionReason) :
    PageState :=
  { st with
    promptTotal := st.promptTotal.saturatingAdd tokens
    blockTokens := st.blockTokens.saturatingAdd tokens
    selected := st.selected ++ [id]
    selections := st.selections ++ [{ blockId := id, score, reason, note := none }] }

/-- Record a candidate as left out. -/
def omit_ (st : PageState) (id : BlockId) (reason : OmissionReason) (score : Float32) : PageState :=
  { st with omitted := st.omitted ++ [{ blockId := id, reason, score }] }

end PageState

namespace GreedyPager
variable (p : GreedyPager)

def getBlock (id : BlockId) : Except PagerError (Option ContextBlock) := (p.store.get id).mapError .storage

/-- The precomputed count for this tokenizer, or a live one. -/
def tokensFor (block : ContextBlock) : Except PagerError TokenCount :=
  match block.tokenCounts[p.tokenizer.id]? with
  | some n => .ok n
  | none => (p.tokenizer.count block.bytes).mapError .tokenizer

/-! ### Steps 1 and 2: required blocks and the task -/

def selectRequired (inputBudget : TokenCount) (st : PageState) (id : BlockId) : Except PagerError PageState := do
  match ← p.getBlock id with
  | none => .error (.requiredBlockMissing id)
  | some block =>
    let tokens ← p.tokensFor block
    if st.Fits inputBudget tokens then pure (st.push id tokens 1 .pinned)
    else .error .requiredOverBudget

def taskTokens (task : String) : Except PagerError TokenCount :=
  if task.isEmpty then .ok .zero else (p.tokenizer.count (asBytes task)).mapError .tokenizer

/-! ### Step 3: candidates -/

/-- Keep the best score of each id; required blocks are not candidates. -/
def mergeScore (required : List BlockId) (scores : List (BlockId × Float32)) (cand : RetrievalCandidate) :
    List (BlockId × Float32) :=
  if cand.blockId ∈ required then scores
  else if cand.blockId ∈ scores.map (·.1) then
    scores.map fun (e : BlockId × Float32) =>
      if e.1 = cand.blockId ∧ e.2 < cand.score then (e.1, cand.score) else e
  else scores ++ [(cand.blockId, cand.score)]

def gather (request : PageRequest) : Except PagerError (List (BlockId × Float32)) :=
  p.retrievers.foldlM (fun scores retriever => do
    let cands ← (retriever request.sessionId request.task RETRIEVAL_LIMIT).mapError .retrieval
    pure (cands.foldl (mergeScore request.requiredBlocks) scores)) []

/-- The lowercased whitespace-separated words of a body; a body that is not UTF-8 has none. -/
def wordSet (bytes : Bytes) : List String :=
  let text := (String.fromUTF8? ⟨bytes.toArray⟩).getD ""
  let words := (text.toList.splitOnP isWhitespace).filter (· ≠ [])
  (words.map fun w => p.toLowercase (String.ofList w)).dedup

def jaccard (a b : List String) : Float32 :=
  let intersection := (a.filter (· ∈ b)).length
  let union := a.length + b.length - intersection
  if union = 0 then 0 else Float32.ofNat intersection / Float32.ofNat union

/-- A surviving candidate with its section; a retriever may point at a missing block. -/
def loadCandidate (entry : BlockId × Float32) : Except PagerError (Option (SectionKind × Candidate)) := do
  match ← p.getBlock entry.1 with
  | none => pure none
  | some block =>
    let tokens ← p.tokensFor block
    let priority := clamp block.priority 0 1
    pure (some (block.kind.defaultSection, {
      id := block.id
      tokens
      score := entry.2 + p.scoring.priorityWeight * priority
      wordSet := if p.scoring.redundancyThreshold.isSome then some (p.wordSet block.bytes) else none }))

def scorePerToken (c : Candidate) : Float32 := c.score / Float32.ofNat (max c.tokens.val 1)

/-- Score per token descending, then score descending, then id descending; a NaN compares equal. -/
def candidateCmp (a b : Candidate) : Ordering :=
  (((partialCmp (scorePerToken b) (scorePerToken a)).getD .eq).then ((partialCmp b.score a.score).getD .eq)).then
    (compare b.id a.id)

def sortCandidates (cands : List Candidate) : List Candidate := p.sort.sortBy candidateCmp cands

/-- The sorted candidates of each section, from the merged scores in the order of their map. -/
def loadSections (scores : List (BlockId × Float32)) : Except PagerError (SectionKind → List Candidate) := do
  let loaded ← scores.mapM p.loadCandidate
  pure fun s => p.sortCandidates ((loaded.filterMap id).filter (·.1 = s) |>.map (·.2))

/-! ### Steps 4 and 5: greedy fill -/

def fillSystem (inputBudget : TokenCount) (st : PageState) (cand : Candidate) : PageState :=
  if st.Fits inputBudget cand.tokens then st.push cand.id cand.tokens cand.score .highRelevance
  else st.omit_ cand.id .budget cand.score

/-- The first summary of the session that names each parent. -/
def buildSummaryIndex (session : SessionId) : Except PagerError (List (BlockId × BlockId)) := do
  let ids ← (p.store.listSession session).mapError .storage
  ids.foldlM (fun m id => do
    match ← p.getBlock id with
    | none => pure m
    | some block =>
      if block.kind ≠ .summary then pure m
      else pure (block.provenance.parents.foldl (fun m parent => orInsert m parent id) m)) []

/-- The state of the section fill: the summaries already substituted, and the section's own total and words. -/
structure FillState extends PageState where
  compressedInto : List BlockId
  sectionUsed : TokenCount
  sectionWordSets : List (List String)

/-- What the section fill reads and does not change. -/
structure FillEnv where
  inputBudget : TokenCount
  sectionBudget : TokenCount
  summaryFor : List (BlockId × BlockId)

/-- The candidate is too similar to a block already selected in its section. -/
def isRedundant (st : FillState) (cand : Candidate) : Bool :=
  match p.scoring.redundancyThreshold, cand.wordSet with
  | some threshold, some candSet => st.sectionWordSets.any fun sel => decide (threshold ≤ jaccard candSet sel)
  | _, _ => false

/-- Both the section and the global ceiling admit `tokens` more. -/
def FillState.Admits (st : FillState) (env : FillEnv) (tokens : TokenCount) : Prop :=
  st.sectionUsed.saturatingAdd tokens ≤ env.sectionBudget ∧ st.Fits env.inputBudget tokens

instance (st : FillState) (env : FillEnv) (tokens : TokenCount) : Decidable (st.Admits env tokens) :=
  inferInstanceAs (Decidable (_ ∧ _))

def FillState.take (st : FillState) (id : BlockId) (tokens : TokenCount) (score : Float32) : FillState :=
  { st with
    toPageState := st.push id tokens score .highRelevance
    sectionUsed := st.sectionUsed.saturatingAdd tokens }

def FillState.leave (st : FillState) (cand : Candidate) (reason : OmissionReason) : FillState :=
  { st with toPageState := st.omit_ cand.id reason cand.score }

/-- The summary that may stand in for a candidate. -/
def summaryOf (env : FillEnv) (cand : Candidate) : Option BlockId :=
  if p.scoring.summaryFallback then env.summaryFor.lookup cand.id else none

/-- A candidate that does not fit gives way to its summary, once for each summary. -/
def substitute (env : FillEnv) (st : FillState) (cand : Candidate) (summaryId : BlockId) :
    Except PagerError FillState := do
  if summaryId ∈ st.compressedInto then
    pure (st.leave cand .compressed)
  else
    match ← p.getBlock summaryId with
    | none => pure (st.leave cand .budget)
    | some sBlock =>
      let sTokens ← p.tokensFor sBlock
      if st.Admits env sTokens then
        let st := st.take summaryId sTokens cand.score
        pure ({ st with compressedInto := summaryId :: st.compressedInto }.leave cand .compressed)
      else pure (st.leave cand .budget)

def fillCandidate (env : FillEnv) (st : FillState) (cand : Candidate) : Except PagerError FillState :=
  if p.isRedundant st cand then
    .ok (st.leave cand .redundant)
  else if st.Admits env cand.tokens then
    let st := st.take cand.id cand.tokens cand.score
    .ok { st with sectionWordSets := st.sectionWordSets ++ cand.wordSet.toList }
  else
    match p.summaryOf env cand with
    | some summaryId => p.substitute env st cand summaryId
    | none => .ok (st.leave cand .budget)

/-- A section starts with nothing used and no words seen. -/
def FillState.enter (st : FillState) : FillState := { st with sectionUsed := .zero, sectionWordSets := [] }

/-- The environment of one section. -/
def sectionEnv (inputBudget : TokenCount) (allocation : SectionAllocation) (summaryFor : List (BlockId × BlockId))
    (s : SectionKind) : FillEnv :=
  { inputBudget, sectionBudget := allocation.forSection s, summaryFor }

/-- Slack is reserved headroom and never filled. -/
def fillSection (inputBudget : TokenCount) (allocation : SectionAllocation) (summaryFor : List (BlockId × BlockId))
    (bySection : SectionKind → List Candidate) (st : FillState) (s : SectionKind) : Except PagerError FillState :=
  if s = .slack then .ok ((bySection s).foldl (fun st cand => st.leave cand .budget) st)
  else (bySection s).foldlM (p.fillCandidate (sectionEnv inputBudget allocation summaryFor s)) st.enter

/-- The sections left in the map once `System` is taken out. -/
def variableSections (bySection : SectionKind → List Candidate) : List SectionKind :=
  SectionKind.all.filter fun s => s ≠ .system && !(bySection s).isEmpty

/-! ### Step 6: edge expansion -/

/-- The targets of the edges of one kind that the policy follows. -/
def targets (policy : EdgePolicy) (edges : List Edge) (k : EdgeKind) : List BlockId :=
  (edges.filter fun e => e.kind = k && policy.pullsOutgoing k).map (·.toId)

/-- The keys of the map from kinds to targets. -/
def pulledKinds (policy : EdgePolicy) (edges : List Edge) : List EdgeKind :=
  [EdgeKind.parent, .derivedFrom, .supports, .contradicts, .toolInvocation].filter fun k =>
    !(targets policy edges k).isEmpty

/-- The targets that outgoing edges pull in, newest first and capped for each kind. -/
def collectOutgoing (policy : EdgePolicy) (kindOrder : List EdgeKind → List EdgeKind) (edges : List Edge) :
    List BlockId :=
  (kindOrder (pulledKinds policy edges)).flatMap fun k =>
    ((targets policy edges k).insertionSort (· ≥ ·)).take policy.maxFanout

/-- The children of a container, newest first and capped. -/
def collectChildren (policy : EdgePolicy) (inEdges : List Edge) : List BlockId :=
  (((inEdges.filter (·.kind = .parent)).map (·.fromId)).insertionSort (· ≥ ·)).take policy.maxFanout

structure ExpandState extends PageState where
  visited : List BlockId
  frontier : List (BlockId × Nat)
  /-- How many blocks had their edges read. -/
  reads : Nat

/-- A dependency not seen yet is pulled in when it fits. -/
def pullDep (inputBudget : TokenCount) (depth : Nat) (st : ExpandState) (depId : BlockId) :
    Except PagerError ExpandState := do
  if depId ∈ st.visited then
    pure st
  else
    let st := { st with visited := depId :: st.visited }
    match ← p.getBlock depId with
    | none => pure st
    | some dep =>
      let tokens ← p.tokensFor dep
      if st.Fits inputBudget tokens then
        pure { st with
          toPageState := st.push depId tokens 0 .dependency
          frontier := st.frontier ++ [(depId, depth + 1)] }
      else pure st

/-- The dependencies of one block, by kind of link. -/
def dependencies (order : HashOrder) (reads : Nat) (block : ContextBlock) (id : BlockId) :
    Except PagerError (List BlockId) := do
  let policy := p.scoring.edgePolicy
  let parents := if policy.followProvenanceParents then block.provenance.parents else []
  let out ← (p.store.edgesFrom id).mapError .storage
  let outgoing := collectOutgoing policy (order.kinds reads) out
  if policy.pullsChildren then
    let inEdges ← (p.store.edgesTo id).mapError .storage
    pure (parents ++ outgoing ++ collectChildren policy inEdges)
  else pure (parents ++ outgoing)

/-- One pass of the breadth-first walk, over the block at the head of the queue. -/
def expandBlock (order : HashOrder) (inputBudget : TokenCount) (st : ExpandState) (entry : BlockId × Nat) :
    Except PagerError ExpandState := do
  let (id, depth) := entry
  if p.scoring.edgePolicy.effectiveDepth ≤ depth then
    pure st
  else
    match ← p.getBlock id with
    | none => pure st
    | some block =>
      let deps ← p.dependencies order st.reads block id
      deps.foldlM (p.pullDep inputBudget depth) { st with reads := st.reads + 1 }

/-- The walk until the queue is empty. -/
def expandLoop (order : HashOrder) (inputBudget : TokenCount) : Nat → ExpandState → Except PagerError ExpandState
  | 0, st => .ok st
  | fuel + 1, st =>
    match st.frontier with
    | [] => .ok st
    | entry :: rest => do
      let st ← p.expandBlock order inputBudget { st with frontier := rest } entry
      expandLoop order inputBudget fuel st

/-- Every pop shortens the queue and only a block not visited before is queued, so the walk ends within one pass
for each queued block and each id. -/
def expandFuel (st : PageState) : Nat := st.selected.length + 2 ^ 128

def expandEdges (order : HashOrder) (inputBudget : TokenCount) (st : PageState) : Except PagerError PageState := do
  if p.scoring.edgePolicy.effectiveDepth = 0 then
    pure st
  else
    let start : ExpandState :=
      { st with visited := st.selected, frontier := st.selected.map fun id => (id, 0), reads := 0 }
    let done ← p.expandLoop order inputBudget (expandFuel st) start
    pure done.toPageState

/-! ### Step 6: reconciliation -/

/-- `(loser, winner)` of a contradiction: the later one wins, then the higher priority, then the larger id. -/
def resolveContradiction (a b : BlockId) : Except PagerError (BlockId × BlockId) := do
  let blockA ← p.getBlock a
  let blockB ← p.getBlock b
  let winnerIsA := match blockA, blockB with
    | some x, some y =>
      match compare x.createdAt.val y.createdAt.val with
      | .gt => true
      | .lt => false
      | .eq =>
        match partialCmp x.priority y.priority with
        | some .gt => true
        | some .lt => false
        | _ => decide (y.id ≤ x.id)
    | none, some _ => false
    | _, none => true
  pure (if winnerIsA then (b, a) else (a, b))

/-- What reconciliation decides before it touches the selection. -/
structure Verdicts where
  toRemove : List (BlockId × OmissionReason)
  notes : List (BlockId × String)

/-- The verdict of one edge out of the selected block `id`. -/
def judgeEdge (selectedSet pinned : List BlockId) (id : BlockId) (v : Verdicts) (e : Edge) :
    Except PagerError Verdicts := do
  let policy := p.scoring.edgePolicy
  if e.kind = .derivedFrom ∧ policy.derivedFrom = .suppressSource ∧ id ≠ e.toId ∧ e.toId ∈ selectedSet ∧
      e.toId ∉ pinned then
    pure { v with toRemove := orInsert v.toRemove e.toId .supersededByDerived }
  else if e.kind = .contradicts ∧ policy.contradicts ≠ .off ∧ id ≠ e.toId ∧ e.toId ∈ selectedSet then
    let (loser, winner) ← p.resolveContradiction id e.toId
    if policy.contradicts = .preferNewer ∧ loser ∉ pinned then
      pure { v with toRemove := orInsert v.toRemove loser .contradicted }
    else
      -- A pinned loser, or flag mode: keep the block and annotate it.
      pure { v with notes := orInsert v.notes loser ("contradicted by newer block " ++ winner.display) }
  else pure v

def judgeBlock (selectedSet pinned : List BlockId) (v : Verdicts) (id : BlockId) : Except PagerError Verdicts := do
  let edges ← (p.store.edgesFrom id).mapError .storage
  edges.foldlM (p.judgeEdge selectedSet pinned id) v

/-- Drop a block that lost, or keep it with its note. -/
def rebuild (v : Verdicts) (st : PageState) (x : BlockId × Selection) : Except PagerError PageState := do
  let (id, sel) := x
  match v.toRemove.lookup id with
  | some reason =>
    let st := st.omit_ id reason sel.score
    match ← p.getBlock id with
    | none => pure st
    | some block =>
      let tokens ← p.tokensFor block
      pure { st with blockTokens := st.blockTokens.saturatingSub tokens }
  | none =>
    let note := match v.notes.lookup id with
      | some note => some note
      | none => sel.note
    pure { st with selected := st.selected ++ [id], selections := st.selections ++ [{ sel with note }] }

def reconcileEdges (st : PageState) : Except PagerError PageState := do
  let pinned := (st.selections.filter (·.reason = .pinned)).map (·.blockId)
  let v ← st.selected.foldlM (p.judgeBlock st.selected pinned) ⟨[], []⟩
  if v.toRemove.isEmpty && v.notes.isEmpty then
    pure st
  else
    (st.selected.zip st.selections).foldlM (p.rebuild v) { st with selected := [], selections := [] }

/-! ### The pipeline -/

/-- Steps 1 and 2. -/
def pageFixed (request : PageRequest) : Except PagerError PageState := do
  let st ← request.requiredBlocks.foldlM (p.selectRequired request.model.inputBudget) .empty
  let task ← p.taskTokens request.task
  pure { st with promptTotal := st.promptTotal.saturatingAdd task }

/-- Step 4. -/
def pageSystem (request : PageRequest) (bySection : SectionKind → List Candidate) (st : PageState) : PageState :=
  (bySection .system).foldl (fillSystem request.model.inputBudget) st

/-- The index is built only when the fallback is on. -/
def summaryIndex (session : SessionId) : Except PagerError (List (BlockId × BlockId)) :=
  if p.scoring.summaryFallback then p.buildSummaryIndex session else .ok []

/-- The variable budget, divided over the sections. -/
def pageAllocation (request : PageRequest) (st : PageState) : SectionAllocation :=
  p.budgets.allocateVariable (request.model.inputBudget.saturatingSub st.promptTotal)

/-- The section fill starts with no summary substituted. -/
def fillStart (st : PageState) : FillState :=
  { st with compressedInto := [], sectionUsed := .zero, sectionWordSets := [] }

/-- Step 5. -/
def pageFill (order : HashOrder) (request : PageRequest) (bySection : SectionKind → List Candidate)
    (st : PageState) : Except PagerError FillState := do
  let summaryFor ← p.summaryIndex request.sessionId
  (order.sections (variableSections bySection)).foldlM
    (p.fillSection request.model.inputBudget (p.pageAllocation request st) summaryFor bySection) (fillStart st)

/-- Step 6. -/
def pageEdges (order : HashOrder) (request : PageRequest) (st : PageState) : Except PagerError PageState := do
  if p.scoring.edgePolicy.enabled then
    let st ← p.expandEdges order request.model.inputBudget st
    if p.scoring.edgePolicy.reconciles then p.reconcileEdges st else pure st
  else pure st

/-- `GreedyPager::page`. -/
def page (order : HashOrder) (request : PageRequest) : Except PagerError PagePlan := do
  if p.tokenizer.id ≠ request.model.tokenizer then
    .error (.tokenizerMismatch p.tokenizer.id request.model.tokenizer)
  else
    let st ← p.pageFixed request
    let scores ← p.gather request
    let bySection ← p.loadSections (order.scores scores)
    let filled ← p.pageFill order request bySection (pageSystem request bySection st)
    let st ← p.pageEdges order request filled.toPageState
    pure {
      selected := st.selected
      selections := st.selections
      omitted := st.omitted
      estimatedTokens := st.blockTokens }

end GreedyPager

end Llm386
