import Llm386.Core.Block
import Llm386.Core.Text

/-! # Page requests and plans

The pager's input and output, from `llm386-core/src/page.rs`, `pager.rs`, `model.rs`, and the traits it is built
from: `Tokenizer`, `Retriever` and the reads of `BlockStore`. The store does not change while a plan is made. -/

namespace Llm386

/-- Constraints of a target model. -/
structure ModelProfile where
  name : String
  maxContextTokens : TokenCount
  reservedOutputTokens : TokenCount
  safetyMarginTokens : TokenCount
  tokenizer : TokenizerId
  supportsSystemRole : Bool

/-- What is left for the input after the reserved output and the safety margin. -/
def ModelProfile.inputBudget (m : ModelProfile) : TokenCount :=
  (m.maxContextTokens.saturatingSub m.reservedOutputTokens).saturatingSub m.safetyMarginTokens

structure PageRequest where
  sessionId : SessionId
  task : String
  model : ModelProfile
  /-- Blocks that must appear in the plan. -/
  requiredBlocks : List BlockId

/-- Why the pager included a block. -/
inductive SelectionReason
  | pinned | highRelevance | recency | dependency | globalFact | toolResult
deriving DecidableEq

structure Selection where
  blockId : BlockId
  score : Float32
  reason : SelectionReason
  /-- Annotation that the packer renders with the block. -/
  note : Option String

/-- Why the pager left a candidate out. -/
inductive OmissionReason
  | budget | stale | redundant | lowScore | filteredByKind | dependencyMissing | compressed | contradicted
  | supersededByDerived
deriving DecidableEq

structure OmittedBlock where
  blockId : BlockId
  reason : OmissionReason
  score : Float32

/-- The pager's decision. `selected` and `selections` are kept in lockstep. -/
structure PagePlan where
  selected : List BlockId
  selections : List Selection
  omitted : List OmittedBlock
  estimatedTokens : TokenCount

inductive TokenizerError
  | encodingFailed (message : String)
deriving DecidableEq

inductive RetrievalError
  | failed (message : String)
deriving DecidableEq

inductive PagerError
  | requiredBlockMissing (id : BlockId)
  | requiredOverBudget
  | tokenizerMismatch (pager model : TokenizerId)
  | tokenizer (e : TokenizerError)
  | retrieval (e : RetrievalError)
  | storage (e : StoreError)
deriving DecidableEq

/-- Counts tokens in bytes for one tokenizer family. -/
structure Tokenizer where
  id : TokenizerId
  count : Bytes → Except TokenizerError TokenCount

/-- A candidate that a retriever surfaces. -/
structure RetrievalCandidate where
  blockId : BlockId
  score : Float32
deriving DecidableEq

/-- A retrieval strategy: session, task and limit to scored candidates. -/
abbrev Retriever := SessionId → String → Nat → Except RetrievalError (List RetrievalCandidate)

/-- The reads of a block store. A block is read under its own id. -/
structure BlockStore where
  get : BlockId → Except StoreError (Option ContextBlock)
  listSession : SessionId → Except StoreError (List BlockId)
  edgesFrom : BlockId → Except StoreError (List Edge)
  edgesTo : BlockId → Except StoreError (List Edge)
  get_id : ∀ {id b}, get id = .ok (some b) → b.id = id

/-- A store read from lists: the blocks, the sessions that list them and the edges. -/
def BlockStore.ofLists (blocks : List ContextBlock) (sessions : List (SessionId × BlockId)) (edges : List Edge) :
    BlockStore where
  get id := .ok (blocks.find? (·.id = id))
  listSession s := .ok ((sessions.filter (·.1 = s)).map (·.2))
  edgesFrom id := .ok (edges.filter (·.fromId = id))
  edgesTo id := .ok (edges.filter (·.toId = id))
  get_id h := by simpa using List.find?_some (Except.ok.inj h)

/-- One token for each byte. -/
def byteTokenizer : Tokenizer := ⟨"bytes", fun bytes => .ok (.saturate bytes.length)⟩

end Llm386
