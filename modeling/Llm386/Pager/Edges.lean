import Llm386.Core.Block

/-! # Edge policy

`llm386-pager/src/edges.rs`: how the pager treats each edge kind when it assembles a working set. -/

namespace Llm386

/-- Hard ceiling on the traversal depth. -/
def MAX_DEPTH_CEILING : Nat := 5

/-- What `parent` edges (child to container) do. -/
inductive ParentMode
  | off | containerOnly | bidirectional
deriving DecidableEq

/-- What `derivedFrom` edges (derivative to source) do. -/
inductive DerivedMode
  | off | coRetrieveSource | suppressSource
deriving DecidableEq

/-- What `supports` edges (claim to evidence) do. -/
inductive SupportsMode
  | off | coRetrieve
deriving DecidableEq

/-- What `contradicts` edges do when both ends are selected. -/
inductive ContradictMode
  | off | preferNewer | flag
deriving DecidableEq

/-- What `toolInvocation` edges (assistant turn to tool result) do. -/
inductive ToolMode
  | off | coRetrieve
deriving DecidableEq

structure EdgePolicy where
  /-- Master switch of both passes. -/
  enabled : Bool
  /-- Maximum hops from an originally selected block. -/
  maxDepth : Nat
  /-- Maximum neighbours per block and kind. -/
  maxFanout : Nat
  /-- Also follow `provenance.parents`. -/
  followProvenanceParents : Bool
  parent : ParentMode
  derivedFrom : DerivedMode
  supports : SupportsMode
  contradicts : ContradictMode
  toolInvocation : ToolMode
deriving DecidableEq

namespace EdgePolicy

/-- `EdgePolicy::default`. -/
def default : EdgePolicy where
  enabled := true
  maxDepth := 1
  maxFanout := 8
  followProvenanceParents := false
  parent := .containerOnly
  derivedFrom := .coRetrieveSource
  supports := .coRetrieve
  contradicts := .flag
  toolInvocation := .coRetrieve

/-- Ignore every edge. -/
def disabled : EdgePolicy := { default with enabled := false }

/-- Depth clamped to the ceiling. -/
def effectiveDepth (policy : EdgePolicy) : Nat := min policy.maxDepth MAX_DEPTH_CEILING

/-- An outgoing edge of this kind pulls its target in during expansion. -/
def pullsOutgoing (policy : EdgePolicy) : EdgeKind → Bool
  | .parent => policy.parent == .containerOnly || policy.parent == .bidirectional
  -- `suppressSource` demotes in reconciliation; it never pulls.
  | .derivedFrom => policy.derivedFrom == .coRetrieveSource
  | .supports => policy.supports == .coRetrieve
  | .contradicts => false
  | .toolInvocation => policy.toolInvocation == .coRetrieve

/-- The expansion pass looks at incoming edges. -/
def pullsChildren (policy : EdgePolicy) : Bool := policy.parent == .bidirectional

/-- The reconciliation pass has work to do. -/
def reconciles (policy : EdgePolicy) : Bool :=
  policy.derivedFrom == .suppressSource || policy.contradicts != .off

end EdgePolicy

end Llm386
