import Llm386.Core.Ids

/-! # Context blocks and typed edges

The data of `llm386-core/src/block.rs`, `edge.rs` and `packed.rs` that the stores, the pager and the packer
read. -/

namespace Llm386

/-- Kind of a context block. -/
inductive BlockKind
  | system | userMessage | assistantMessage | toolResult | summary | fact | documentChunk | plan | state | trace
deriving DecidableEq

/-- Section a block occupies in the prompt, in canonical order. -/
inductive SectionKind
  | system | task | state | plan | retrieved | tools | recent | background | slack
deriving DecidableEq

/-- The section of a block kind, shared by the pager and the packer. -/
def BlockKind.defaultSection : BlockKind → SectionKind
  | .system => .system
  | .state => .state
  | .plan => .plan
  | .summary | .fact => .retrieved
  | .toolResult => .tools
  | .userMessage | .assistantMessage => .recent
  | .documentChunk | .trace => .background

/-- Name of a tokenizer family. -/
abbrev TokenizerId := String

/-- Token counts precomputed for a block, by tokenizer (`BTreeMap`). -/
abbrev TokenCounts := Std.ExtTreeMap TokenizerId TokenCount compare

/-- Where a block came from. -/
structure Provenance where
  source : Option String
  parents : List BlockId
  labels : List String
deriving DecidableEq

/-- The atomic unit of memory. -/
structure ContextBlock where
  id : BlockId
  kind : BlockKind
  bytes : Bytes
  tokenCounts : TokenCounts
  priority : Float32
  createdAt : Timestamp
  updatedAt : Timestamp
  provenance : Provenance
  hash : ContentHash
deriving DecidableEq

/-- What an edge means. -/
inductive EdgeKind
  | parent | derivedFrom | supports | contradicts | toolInvocation
deriving DecidableEq

/-- A directed, typed link: `from` is the referencing block, `to` the referenced one. -/
structure Edge where
  fromId : BlockId
  toId : BlockId
  kind : EdgeKind
deriving DecidableEq

/-- Errors of a block store. -/
inductive StoreError
  | notFound (id : BlockId)
  | backend (message : String)
deriving DecidableEq

def StoreError.display : StoreError → String
  | .notFound id => "block not found: " ++ id.display
  | .backend message => "storage backend error: " ++ message

/-! ### Sample blocks -/

/-- blake3 of the bodies that the examples store; any other body gets the digest of the empty one. -/
def sampleHash (bytes : Bytes) : ContentHash :=
  if bytes = [0x61] then ⟨BigEndian.encode 32 0x17762fddd969a453925d65717ac3eea21320b66b54342fde15128d6caf21215f, by simp⟩
  else if bytes = [0x62] then ⟨BigEndian.encode 32 0x10e5cf3d3c8a4f9f3468c8cc58eea84892a22fdadbc1acb22410190044c1d553, by simp⟩
  else if bytes = List.replicate 50 0x61 then
    ⟨BigEndian.encode 32 0xfa67810803e839cf9bb2477ce4f7af6e30904d77f4982f3813677360bb382dfd, by simp⟩
  else ⟨BigEndian.encode 32 0xaf1349b9f5f9a1a6a0404dea36dcc9499bcb25c9adc112b7cc9a93cae41f3262, by simp⟩

/-- A block with the given id, kind, body and lineage, and no other metadata. -/
def sampleBlock (id : BlockId) (kind : BlockKind) (bytes : Bytes) (parents : List BlockId) : ContextBlock where
  id
  kind
  bytes
  tokenCounts := ∅
  priority := 0
  createdAt := .zero
  updatedAt := .zero
  provenance := ⟨none, parents, []⟩
  hash := sampleHash bytes

end Llm386
