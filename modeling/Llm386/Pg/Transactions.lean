import Llm386.Core.Block
import Llm386.Lib.ReadCommitted
import Llm386.Lib.Runs

/-! # Transactions of the Postgres store

`put`, `delete`, `purge_session` and `put_edge` of `llm386-store-pg/src/store.rs`, which `async_store.rs` issues
alike, as sequences of SQL statements under READ COMMITTED. A statement reads the latest committed rows and the
writes of its own transaction. One that locks or deletes rows takes them one at a time, in any order, waits for the
holder of a lock, and leaves out a row that is gone when its turn comes. Locks are held to the end of the
transaction. -/

namespace Llm386

/-- A row of `llm386_blocks`, `llm386_session_blocks` or `llm386_edges`. -/
inductive Row
  | block (b : ContextBlock)
  | sessionBlock (session : SessionId) (block : BlockId)
  | edge (e : Edge)

/-- The primary key of a row. -/
inductive RowKey
  | block (id : BlockId)
  | sessionBlock (session : SessionId) (block : BlockId)
  | edge (e : Edge)
deriving DecidableEq

def Row.key : Row → RowKey
  | .block b => .block b.id
  | .sessionBlock session id => .sessionBlock session id
  | .edge e => .edge e

def Row.block? : Row → Option ContextBlock
  | .block b => some b
  | _ => none

namespace Pg

inductive Request
  | put (session : SessionId) (block : ContextBlock)
  | delete (id : BlockId)
  | purgeSession (session : SessionId)
  | putEdge (edge : Edge)

inductive Reply
  | stored (id : BlockId)
  | existed (b : Bool)
  | purged (count : Nat)
  | linked
deriving DecidableEq

/-- The statements, with what the transaction has read or counted before them. -/
inductive Stmt
  /-- `INSERT INTO llm386_blocks … ON CONFLICT (hash) DO UPDATE … RETURNING id`. -/
  | upsertBlock (session : SessionId) (block : ContextBlock)
  /-- `INSERT INTO llm386_session_blocks … ON CONFLICT DO NOTHING`. -/
  | insertSessionBlock (session : SessionId) (stored : BlockId)
  /-- `INSERT INTO llm386_edges … ON CONFLICT … DO NOTHING`. -/
  | insertEdge (edge : Edge)
  /-- `DELETE FROM llm386_blocks WHERE id = $1`. -/
  | deleteBlock (id : BlockId)
  /-- `DELETE FROM llm386_session_blocks WHERE block_id = $1`. -/
  | deleteRefs (id : BlockId) (existed : Bool)
  /-- `DELETE FROM llm386_edges WHERE from_id = $1 OR to_id = $1`. -/
  | deleteEdges (id : BlockId) (existed : Bool)
  /-- `SELECT block_id FROM llm386_session_blocks WHERE session_id = $1`. -/
  | collect (session : SessionId)
  /-- `SELECT 1 FROM llm386_blocks WHERE id = ANY($1) FOR UPDATE`. -/
  | lockBlocks (session : SessionId) (ids : List BlockId)
  /-- `SELECT 1 FROM llm386_session_blocks WHERE block_id = ANY($1) FOR UPDATE`. -/
  | lockRefs (session : SessionId) (ids : List BlockId)
  /-- `DELETE FROM llm386_session_blocks WHERE session_id = $1`. -/
  | dropSession (session : SessionId) (ids : List BlockId)
  /-- `SELECT id FROM llm386_blocks WHERE id = ANY($1) AND NOT EXISTS …`. -/
  | findOrphans (ids : List BlockId)
  /-- `DELETE FROM llm386_edges WHERE from_id = ANY($1) OR to_id = ANY($1)`. -/
  | scrubEdges (ids orphans : List BlockId)
  /-- `DELETE FROM llm386_blocks WHERE id = ANY($1)`. -/
  | dropBlocks (ids orphans : List BlockId)
  | commit (reply : Reply)

def Request.first : Request → Stmt
  | .put session block => .upsertBlock session block
  | .delete id => .deleteBlock id
  | .purgeSession session => .collect session
  | .putEdge edge => .insertEdge edge

/-- The rows that a statement over many rows is about. -/
def Stmt.concerns : Stmt → RowKey → Bool
  | .deleteBlock id, .block b => b = id
  | .deleteRefs id _, .sessionBlock _ b => b = id
  | .deleteEdges id _, .edge e => e.fromId = id || e.toId = id
  | .lockBlocks _ ids, .block b => ids.contains b
  | .lockRefs _ ids, .sessionBlock _ b => ids.contains b
  | .dropSession session _, .sessionBlock s _ => s = session
  | .scrubEdges _ orphans, .edge e => orphans.contains e.fromId || orphans.contains e.toId
  | .dropBlocks _ orphans, .block b => orphans.contains b
  | _, _ => false

/-- Whether such a statement deletes its rows or only locks them. -/
def Stmt.deletes : Stmt → Bool
  | .lockBlocks .. | .lockRefs .. => false
  | _ => true

/-- The statement after one over many rows, given how many it met. -/
def Stmt.after (affected : Nat) : Stmt → Stmt
  | .deleteBlock id => .deleteRefs id (0 < affected)
  | .deleteRefs id existed => .deleteEdges id (existed || 0 < affected)
  | .deleteEdges _ existed => .commit (.existed existed)
  | .lockBlocks session ids => .lockRefs session ids
  | .lockRefs session ids => .dropSession session ids
  | .dropSession _ ids => .findOrphans ids
  | .scrubEdges ids orphans => .dropBlocks ids orphans
  | .dropBlocks ids _ => .commit (.purged ids.length)
  | s => s

/-- Where a transaction is: before a statement, among the rows of one, or at its end. -/
inductive Phase
  | next (s : Stmt)
  | scanning (s : Stmt) (pending : List RowKey) (waiting : Option RowKey) (affected : Nat)
  | finished (reply : Option Reply)

structure Tx where
  request : Request
  phase : Phase
  txn : Txn Row RowKey

def Tx.view (rows : List Row) (t : Tx) : List Row := t.txn.view Row.key rows

/-- The committed rows, the transactions, and the ids that puts have proposed so far. -/
structure Database where
  rows : List Row
  txs : List Tx
  proposed : List BlockId

namespace Database
variable (db : Database)

def empty : Database := ⟨[], [], []⟩

/-- Another transaction than `i` has the property. -/
def elsewhere (i : Nat) (p : Tx → Bool) : Bool := db.txs.zipIdx.any fun x => x.2 ≠ i && p x.1

def lockedElsewhere (i : Nat) (k : RowKey) : Bool := db.elsewhere i fun t => t.txn.held.contains k

/-- Another transaction has inserted or deleted the row and has not ended. -/
def writtenElsewhere (i : Nat) (k : RowKey) : Bool :=
  db.elsewhere i fun t => t.txn.del.contains k || t.txn.ins.any (·.key = k)

/-- Another transaction has inserted a block with the id or the hash of this one and has not ended. -/
def insertedElsewhere (i : Nat) (block : ContextBlock) : Bool :=
  db.elsewhere i fun t => t.txn.ins.any fun r =>
    match r with
    | .block b => b.hash = block.hash || b.id = block.id
    | _ => false

/-- Transaction `i` is now `t`. -/
def setTx (i : Nat) (t : Tx) : Database := { db with txs := db.txs.set i t }

/-- An insert that does nothing on a conflict, once nobody else is writing the row. -/
def insertRow (i : Nat) (t : Tx) (r : Row) (s : Stmt) : Option Database :=
  if db.writtenElsewhere i r.key then none
  else if (t.view db.rows).any (·.key = r.key) then some (db.setTx i { t with phase := .next s })
  else some (db.setTx i { t with phase := .next s, txn := t.txn.insert Row.key r })

/-- The next statement of transaction `i`, where it does not have to wait. One over many rows only takes its
snapshot here. -/
def runStmt (i : Nat) (t : Tx) : Stmt → Option Database
  | .upsertBlock session block =>
    match (db.rows.filterMap Row.block?).find? (·.hash = block.hash) with
    | some found =>
      if db.lockedElsewhere i (.block found.id) then none
      else some (db.setTx i { t with
        phase := .next (.insertSessionBlock session found.id), txn := t.txn.lock (.block found.id) })
    | none =>
      if db.insertedElsewhere i block then none
      else if db.rows.any (·.key = .block block.id) then
        -- the primary key is taken: the statement fails and the transaction is rolled back
        some (db.setTx i { t with phase := .finished none, txn := .empty })
      else some (db.setTx i { t with
        phase := .next (.insertSessionBlock session block.id), txn := t.txn.insert Row.key (.block block) })
  | .insertSessionBlock session stored => db.insertRow i t (.sessionBlock session stored) (.commit (.stored stored))
  | .insertEdge edge => db.insertRow i t (.edge edge) (.commit .linked)
  | .collect session =>
    let ids := (t.view db.rows).filterMap fun r =>
      match r with
      | .sessionBlock s b => if s = session then some b else none
      | _ => none
    if ids.isEmpty then some (db.setTx i { t with phase := .next (.commit (.purged 0)) })
    else some (db.setTx i { t with phase := .next (.lockBlocks session ids) })
  | .findOrphans ids =>
    let referenced := (t.view db.rows).filterMap fun r =>
      match r with
      | .sessionBlock _ b => some b
      | _ => none
    let orphans := (t.view db.rows).filterMap fun r =>
      match r with
      | .block b => if ids.contains b.id && !referenced.contains b.id then some b.id else none
      | _ => none
    if orphans.isEmpty then some (db.setTx i { t with phase := .next (.commit (.purged ids.length)) })
    else some (db.setTx i { t with phase := .next (.scrubEdges ids orphans) })
  | .commit reply =>
    some { db with rows := t.view db.rows, txs := db.txs.set i { t with phase := .finished (some reply), txn := .empty } }
  | s =>
    let pending := ((t.view db.rows).map Row.key).filter s.concerns
    some (db.setTx i { t with phase := .scanning s pending none 0 })

/-- A statement over many rows gets the lock it waits for, and meets the row where it is still there. -/
def acquire (i : Nat) (t : Tx) (s : Stmt) (pending : List RowKey) (affected : Nat) (k : RowKey) : Option Database :=
  if db.lockedElsewhere i k then none
  else if (t.view db.rows).any (·.key = k) then
    some (db.setTx i { t with
      phase := .scanning s (pending.erase k) none (affected + 1)
      txn := if s.deletes then t.txn.delete k else t.txn.lock k })
  else some (db.setTx i { t with phase := .scanning s (pending.erase k) none affected })

/-- The steps: a request arrives, a transaction moves on, it chooses its next row, or it is rolled back. -/
inductive Action
  | start (r : Request)
  | advance (i : Nat)
  | choose (i : Nat) (k : RowKey)
  | rollback (i : Nat)

def advance (i : Nat) (t : Tx) : Option Database :=
  match t.phase with
  | .next s => db.runStmt i t s
  | .scanning s pending (some k) affected => db.acquire i t s pending affected k
  | .scanning s [] none affected => some (db.setTx i { t with phase := .next (s.after affected) })
  | .scanning _ (_ :: _) none _ => none
  | .finished _ => none

def step : Action → Option Database
  | .start r =>
    some { db with
      txs := db.txs ++ [{ request := r, phase := .next r.first, txn := .empty }]
      proposed := match r with
        | .put _ block => block.id :: db.proposed
        | _ => db.proposed }
  | .advance i =>
    match db.txs[i]? with
    | some t => db.advance i t
    | none => none
  | .choose i k =>
    match db.txs[i]? with
    | some t =>
      match t.phase with
      | .scanning s pending none affected =>
        if pending.contains k then some (db.setTx i { t with phase := .scanning s pending (some k) affected }) else none
      | _ => none
    | none => none
  | .rollback i =>
    match db.txs[i]? with
    | some t =>
      match t.phase with
      | .finished _ => none
      | _ => some (db.setTx i { t with phase := .finished none, txn := .empty })
    | none => none

end Database
end Pg
end Llm386
