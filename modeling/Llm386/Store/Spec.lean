import Llm386.Lib.Serving
import Llm386.Store.Catalog

/-! # What the operations of a block store answer

The operations of the `BlockStore` trait, and what each answers and leaves over a catalog. A catalog determines the answer,
but for the order of a list of edges. -/

namespace Llm386
open Contents

inductive StoreOp
  | put (session : SessionId) (block : ContextBlock)
  | get (id : BlockId)
  | listSession (session : SessionId)
  | listSessions
  | lookupHash (hash : ContentHash)
  | delete (id : BlockId)
  | purgeSession (session : SessionId)
  | putEdge (edge : Edge)
  | edgesFrom (source : BlockId)
  | edgesTo (target : BlockId)

/-- The operations that only read. -/
def StoreOp.IsRead : StoreOp → Prop
  | .put .. | .delete _ | .purgeSession _ | .putEdge _ => False
  | _ => True

inductive Answer
  | stored (id : BlockId)
  | block (b : Option ContextBlock)
  | ids (ids : List BlockId)
  | sessions (ss : List SessionId)
  | found (id : Option BlockId)
  | existed (b : Bool)
  | purged (count : Nat)
  | linked
  | edges (es : List Edge)

/-- The step of a write that returns a value with the new state; one that fails leaves the state. -/
def settled {σ β : Type} (st : σ) (f : β → Answer) : Except StoreError (β × σ) → Except StoreError Answer × σ
  | .ok (b, st') => (.ok (f b), st')
  | .error e => (.error e, st)

/-- The step of a read. -/
def readOut {σ β : Type} (st : σ) (f : β → Answer) : Except StoreError β → Except StoreError Answer × σ
  | .ok b => (.ok (f b), st)
  | .error e => (.error e, st)

/-- Two answers are the same: errors as errors, and lists of edges as sets. -/
inductive SameAnswer : Except StoreError Answer → Except StoreError Answer → Prop
  | error (e e' : StoreError) : SameAnswer (.error e) (.error e')
  | ok (a : Answer) : SameAnswer (.ok a) (.ok a)
  | edges {es es' : List Edge} (h : ∀ e, e ∈ es ↔ e ∈ es') : SameAnswer (.ok (.edges es)) (.ok (.edges es'))

/-- What an operation that succeeds answers and leaves. `kept` is the block that the store keeps for one it is given. -/
inductive Served (kept : ContextBlock → ContextBlock) (c : Catalog) : StoreOp → Answer → Catalog → Prop
  | shared {s : SessionId} {b : ContextBlock} {id : BlockId} (held : c.Holds id (kept b).hash) (stored : c.Stored id) :
    Served kept c (.put s b) (.stored id) (c.share s id stored)
  | stored {s : SessionId} {b : ContextBlock} (new : ∀ id, ¬c.Holds id (kept b).hash) (fresh : ¬c.Stored (kept b).id) :
    Served kept c (.put s b) (.stored (kept b).id) (c.store s (kept b) new)
  | get {id : BlockId} : Served kept c (.get id) (.block (c.block id)) c
  | listSession {s : SessionId} {ids : List BlockId} (h : c.IsListing s ids) : Served kept c (.listSession s) (.ids ids) c
  | listSessions {ss : List SessionId} (h : c.IsSessionListing ss) : Served kept c .listSessions (.sessions ss) c
  | lookupHash {hash : ContentHash} {r : Option BlockId} (h : ∀ id, r = some id ↔ c.Holds id hash) :
    Served kept c (.lookupHash hash) (.found r) c
  | delete {id : BlockId} {existed : Bool} (h : existed = true ↔ c.Stored id) :
    Served kept c (.delete id) (.existed existed) (c.erase {id})
  | purgeSession {s : SessionId} {ids : List BlockId} (h : c.IsListing s ids) :
    Served kept c (.purgeSession s) (.purged ids.length) (c.purge s)
  | putEdge {e : Edge} : Served kept c (.putEdge e) .linked (c.link e)
  | edgesFrom {id : BlockId} {es : List Edge} (h : ∀ e, e ∈ es ↔ e ∈ c.edges ∧ e.fromId = id) :
    Served kept c (.edgesFrom id) (.edges es) c
  | edgesTo {id : BlockId} {es : List Edge} (h : ∀ e, e ∈ es ↔ e ∈ c.edges ∧ e.toId = id) :
    Served kept c (.edgesTo id) (.edges es) c

variable {kept : ContextBlock → ContextBlock} {c c₁ c₂ : Catalog} {op : StoreOp} {a₁ a₂ : Answer}

/-- A catalog determines what an operation answers and leaves. -/
theorem Served.unique (h₁ : Served kept c op a₁ c₁) (h₂ : Served kept c op a₂ c₂) : SameAnswer (.ok a₁) (.ok a₂) ∧ c₁ = c₂ := by
  cases h₁ with
  | shared held _ =>
    cases h₂ with
    | shared held' _ =>
      obtain rfl := c.hash_inj held held'
      exact ⟨.ok _, rfl⟩
    | stored new _ => exact absurd held (new _)
  | stored new _ =>
    cases h₂ with
    | shared held _ => exact absurd held (new _)
    | stored => exact ⟨.ok _, rfl⟩
  | get =>
    cases h₂
    exact ⟨.ok _, rfl⟩
  | listSession h =>
    cases h₂ with
    | listSession h' =>
      obtain rfl := h.unique h'
      exact ⟨.ok _, rfl⟩
  | listSessions h =>
    cases h₂ with
    | listSessions h' =>
      obtain rfl := h.unique h'
      exact ⟨.ok _, rfl⟩
  | lookupHash h =>
    cases h₂ with
    | lookupHash h' =>
      obtain rfl := Option.ext fun id => (h id).trans (h' id).symm
      exact ⟨.ok _, rfl⟩
  | delete h =>
    cases h₂ with
    | delete h' =>
      obtain rfl := Bool.eq_iff_iff.mpr (h.trans h'.symm)
      exact ⟨.ok _, rfl⟩
  | purgeSession h =>
    cases h₂ with
    | purgeSession h' =>
      obtain rfl := h.unique h'
      exact ⟨.ok _, rfl⟩
  | putEdge =>
    cases h₂
    exact ⟨.ok _, rfl⟩
  | edgesFrom h =>
    cases h₂ with
    | edgesFrom h' => exact ⟨.edges fun e => (h e).trans (h' e).symm, rfl⟩
  | edgesTo h =>
    cases h₂ with
    | edgesTo h' => exact ⟨.edges fun e => (h e).trans (h' e).symm, rfl⟩

end Llm386
