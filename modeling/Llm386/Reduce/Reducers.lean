import Llm386.Core.Block
import Llm386.Core.Text
import Llm386.Lib.Loop

/-! # Reducers

`Reduction` of `llm386-core/src/reducer.rs` and the two reducers of `llm386-reduce` that make blocks. The content
hash is a parameter, and so is the JSON parser, which is a library of its own. -/

namespace Llm386

/-- Outcome of applying a reducer to one model response. -/
structure Reduction where
  nextState : Option ContextBlock
  newBlocks : List ContextBlock
  newEdges : List Edge

def Reduction.empty : Reduction := ⟨none, [], []⟩

/-- The blocks to put, in the order of the commit. -/
def Reduction.blocks (r : Reduction) : List ContextBlock := r.nextState.toList ++ r.newBlocks

inductive ReducerError
  | failed (name message : String)
  | invalidOutput (name message : String)
deriving DecidableEq

/-- `BlockId::from_parts`: the low 48 bits of the timestamp over the low 80 bits of the random value. -/
def BlockId.fromParts (timestampMs : Timestamp) (randomBits : Nat) : BlockId :=
  ⟨⟨timestampMs.val % 2 ^ 48 * 2 ^ 80 + randomBits % 2 ^ 80, by omega⟩⟩

/-- The source that the reducers put on their blocks. -/
def modelOutput (parents : List BlockId) : Provenance := ⟨some "model-output", parents, []⟩

/-! ### AppendOutputReducer -/

structure AppendOutputReducer where
  nowMs : Timestamp
  linkToState : Bool

/-- The high bits from the clock, so that ids sort by recency, the low 64 from the hash. -/
def blockIdFrom (nowMs : Timestamp) (hash : ContentHash) : BlockId :=
  .fromParts nowMs (BigEndian.decode (hash.bytes.take 8))

/-- `AppendOutputReducer::reduce`. -/
def AppendOutputReducer.reduce (contentHashOf : Bytes → ContentHash) (r : AppendOutputReducer)
    (state : Option ContextBlock) (output : String) : Except ReducerError Reduction :=
  if output.isEmpty then .ok .empty
  else
    let bytes := asBytes output
    let hash := contentHashOf bytes
    let blockId := blockIdFrom r.nowMs hash
    let linked := if r.linkToState then state else none
    let block : ContextBlock := {
      id := blockId
      kind := .assistantMessage
      bytes
      tokenCounts := ∅
      priority := 0
      createdAt := r.nowMs
      updatedAt := r.nowMs
      provenance := modelOutput (linked.toList.map (·.id))
      hash }
    .ok ⟨none, [block], linked.toList.map fun s => { fromId := blockId, toId := s.id, kind := .parent }⟩

/-! ### JsonEventsReducer -/

inductive EventKind
  | fact | plan | summary | documentChunk
deriving DecidableEq

def EventKind.blockKind : EventKind → BlockKind
  | .fact => .fact
  | .plan => .plan
  | .summary => .summary
  | .documentChunk => .documentChunk

structure Event where
  kind : EventKind
  body : String

/-- The envelope that the model is expected to produce. -/
structure JsonEnvelope where
  state : Option String
  events : List Event

structure JsonEventsReducer where
  nowMs : Timestamp

/-- The byte that tells the ids of equal bodies of different kinds apart. -/
def kindMix : BlockKind → UInt8
  | .state => 0xFE
  | .fact => 0x01
  | .plan => 0x02
  | .summary => 0x03
  | .documentChunk => 0x04
  | _ => 0x00

/-- The first eight bytes of the hash with the kind mixed into the first. -/
def mixedLow (kind : BlockKind) (hash : ContentHash) : Bytes :=
  match hash.bytes.take 8 with
  | [] => []
  | first :: rest => (first ^^^ kindMix kind) :: rest

def makeBlock (contentHashOf : Bytes → ContentHash) (kind : BlockKind) (body : String) (parents : List BlockId)
    (nowMs : Timestamp) : ContextBlock :=
  let bytes := asBytes body
  let hash := contentHashOf bytes
  { id := .fromParts nowMs (BigEndian.decode (mixedLow kind hash))
    kind
    bytes
    tokenCounts := ∅
    priority := 0
    createdAt := nowMs
    updatedAt := nowMs
    provenance := modelOutput parents
    hash }

/-- `JsonEventsReducer::reduce`. -/
def JsonEventsReducer.reduce (contentHashOf : Bytes → ContentHash) (parse : String → Except String JsonEnvelope)
    (r : JsonEventsReducer) (state : Option ContextBlock) (output : String) : Except ReducerError Reduction := do
  let envelope ← (parse (trim output)).mapError fun e => .invalidOutput "json-events" ("parse: " ++ e)
  let parents := state.toList.map (·.id)
  let nextState := (envelope.state.filter fun s => !s.isEmpty).map fun body =>
    makeBlock contentHashOf .state body parents r.nowMs
  let newBlocks := (envelope.events.filter fun ev => !ev.body.isEmpty).map fun ev =>
    makeBlock contentHashOf ev.kind.blockKind ev.body parents r.nowMs
  pure ⟨nextState, newBlocks, []⟩

/-! ### What the reducers promise -/

variable {contentHashOf : Bytes → ContentHash} {parse : String → Except String JsonEnvelope}
  {state : Option ContextBlock} {output : String} {r : Reduction}

/-- Either reducer makes `r` of the state and the output. -/
def Reduces (contentHashOf : Bytes → ContentHash) (parse : String → Except String JsonEnvelope)
    (state : Option ContextBlock) (output : String) (r : Reduction) : Prop :=
  (∃ a : AppendOutputReducer, a.reduce contentHashOf state output = .ok r) ∨
    ∃ j : JsonEventsReducer, j.reduce contentHashOf parse state output = .ok r

/-- A block of a reduction carries the hash of its bytes. -/
theorem Reduces.hashed (h : Reduces contentHashOf parse state output r) :
    ∀ b ∈ r.blocks, contentHashOf b.bytes = b.hash := by
  rcases h with ⟨a, h⟩ | ⟨j, h⟩
  · unfold AppendOutputReducer.reduce at h
    split at h
    · cases h
      simp [Reduction.blocks, Reduction.empty]
    · cases h
      simp [Reduction.blocks]
  · obtain ⟨envelope, -, h⟩ := Loop.bind_eq_ok.mp h
    cases h
    intro b hb
    rcases List.mem_append.mp hb with hb | hb
    · obtain ⟨body, -, rfl⟩ := Option.map_eq_some_iff.mp (Option.mem_toList.mp hb)
      rfl
    · obtain ⟨ev, -, rfl⟩ := List.mem_map.mp hb
      rfl

/-- An edge of a reduction leads from one of its blocks to the previous state. -/
theorem Reduces.edges (h : Reduces contentHashOf parse state output r) :
    ∀ e ∈ r.newEdges, (∃ b, r.blocks = [b] ∧ e.fromId = b.id) ∧ ∃ s, state = some s ∧ e.toId = s.id := by
  rcases h with ⟨a, h⟩ | ⟨j, h⟩
  · unfold AppendOutputReducer.reduce at h
    split at h
    · cases h
      simp [Reduction.empty]
    · cases h
      intro e he
      obtain ⟨s, hs, rfl⟩ := List.mem_map.mp he
      refine ⟨⟨_, rfl, rfl⟩, s, ?_, rfl⟩
      split at hs
      · exact Option.mem_toList.mp hs
      · cases hs
  · obtain ⟨envelope, -, h⟩ := Loop.bind_eq_ok.mp h
    cases h
    simp

end Llm386
