import Llm386.Lib.Table
import Llm386.Pg.Rows
import Llm386.Store.Catalog

/-! # The Postgres store

The `BlockStore` operations of `llm386-store-pg/src/store.rs`, which `async_store.rs` issues alike, on the columns of the
three tables: one operation at a time, each in its own transaction. An operation that fails is rolled back. -/

namespace Llm386

/-- What the statements leave to the database: the value that a `jsonb` column keeps, if it takes one, the order of texts
and the report of a violated key. -/
structure Postgres where
  jsonb : Json → Except String Json
  collate : String → String → Bool
  violation : String

/-- The values that the store writes to its `jsonb` columns. -/
inductive Written : Json → Prop
  | tokenCounts (tc : TokenCounts) : Written (Pg.tokenCountsToJson tc)
  | provenance (p : Provenance) : Written (Pg.provenanceToJson p)

/-- The documented behaviour of a `jsonb` column on what the store writes. -/
structure Postgres.Standard (pg : Postgres) : Prop where
  keeps : ∀ {v w}, Written v → pg.jsonb v = .ok w → v.ReadBack w
  takes : ∀ {v w}, Written v → v.ReadBack w → ∃ w', pg.jsonb v = .ok w'

/-- A row of `llm386_session_blocks`. -/
structure SessionBlockRow where
  sessionId : Bytes
  blockId : Bytes
deriving DecidableEq

/-- A row of `llm386_edges`. -/
structure EdgeRow where
  fromId : Bytes
  kind : String
  toId : Bytes
deriving DecidableEq

/-- The tables with their keys: the id and the hash of a block, and the whole row of the other two. -/
structure PgStore where
  blocks : Table Pg.BlockRow Bytes [Pg.BlockRow.id, Pg.BlockRow.hash]
  sessionBlocks : Table SessionBlockRow SessionBlockRow [id]
  edges : Table EdgeRow EdgeRow [id]

namespace PgStore
open Pg

/-- A freshly migrated database. -/
def empty : PgStore := ⟨.empty, .empty, .empty⟩

def sessionBytes (session : SessionId) : Bytes := session.raw.toBeBytes

/-- `bytea` values are ordered byte by byte. -/
def byteaLe (a b : Bytes) : Prop := compare a b ≠ .gt

instance : DecidableRel byteaLe := fun a b => inferInstanceAs (Decidable (compare a b ≠ .gt))

/-! ### Reads -/

def get (st : PgStore) (id : BlockId) : Except StoreError (Option ContextBlock) :=
  match st.blocks.find? BlockRow.id (idBytes id) with
  | some row => some <$> rowToBlock row
  | none => .ok none

def listSession (st : PgStore) (session : SessionId) : Except StoreError (List BlockId) :=
  let rows := (st.sessionBlocks.rows.filter (·.sessionId = sessionBytes session)).map (·.blockId)
  (rows.insertionSort byteaLe).mapM decodeBlockId

def listSessions (st : PgStore) : Except StoreError (List SessionId) := do
  let rows := (st.sessionBlocks.rows.map (·.sessionId)).dedup
  let ids ← (rows.insertionSort byteaLe).mapM decodeBlockId
  pure (ids.map fun id => ⟨id.raw⟩)

def lookupHash (st : PgStore) (hash : ContentHash) : Except StoreError (Option BlockId) :=
  match st.blocks.find? BlockRow.hash hash.bytes with
  | some row => some <$> decodeBlockId row.id
  | none => .ok none

/-- `ORDER BY kind` and then by an id. -/
def edgeOrder (pg : Postgres) (a b : String × Bytes) : Prop :=
  a.1 ≠ b.1 ∧ pg.collate a.1 b.1 = true ∨ a.1 = b.1 ∧ byteaLe a.2 b.2

instance (pg : Postgres) : DecidableRel (edgeOrder pg) :=
  fun a b => inferInstanceAs (Decidable (a.1 ≠ b.1 ∧ pg.collate a.1 b.1 = true ∨ a.1 = b.1 ∧ byteaLe a.2 b.2))

def edgesFrom (pg : Postgres) (st : PgStore) (source : BlockId) : Except StoreError (List Edge) :=
  let rows := st.edges.rows.filter (·.fromId = idBytes source)
  (rows.insertionSort fun a b => edgeOrder pg (a.kind, a.toId) (b.kind, b.toId)).mapM fun r => do
    let toId ← decodeBlockId r.toId
    let kind ← edgeKindFromStr r.kind
    pure { fromId := source, toId, kind }

def edgesTo (pg : Postgres) (st : PgStore) (target : BlockId) : Except StoreError (List Edge) :=
  let rows := st.edges.rows.filter (·.toId = idBytes target)
  (rows.insertionSort fun a b => edgeOrder pg (a.kind, a.fromId) (b.kind, b.fromId)).mapM fun r => do
    let fromId ← decodeBlockId r.fromId
    let kind ← edgeKindFromStr r.kind
    pure { fromId, toId := target, kind }

/-! ### Writes -/

/-- The database takes the parameters of `put` as they stand, whatever the statement then does with them. -/
def bindBlock (pg : Postgres) (block : ContextBlock) : Except String BlockRow := do
  let tokenCounts ← pg.jsonb (tokenCountsToJson block.tokenCounts)
  let provenance ← pg.jsonb (provenanceToJson block.provenance)
  pure { blockToRow block with tokenCounts, provenance }

/-- `INSERT … ON CONFLICT (hash) DO UPDATE … RETURNING id`: a row with the hash stays, and any other conflict fails. -/
def upsertBlock (pg : Postgres) (st : PgStore) (row : BlockRow) : Except String (Bytes × PgStore) :=
  match st.blocks.find? BlockRow.hash row.hash with
  | some found => .ok (found.id, st)
  | none =>
    match st.blocks.insert? row with
    | some blocks => .ok (row.id, { st with blocks })
    | none => .error pg.violation

def put (pg : Postgres) (st : PgStore) (session : SessionId) (block : ContextBlock) :
    Except StoreError (BlockId × PgStore) := do
  let (bytes, st) ← (do
    let row ← bindBlock pg block
    st.upsertBlock pg row).mapError fun e => StoreError.backend ("insert block: " ++ e)
  let storedId ← decodeBlockId bytes
  pure (storedId, { st with sessionBlocks := st.sessionBlocks.insertNew ⟨sessionBytes session, idBytes storedId⟩ })

def delete (st : PgStore) (id : BlockId) : Bool × PgStore :=
  let idB := idBytes id
  let (blockDeleted, blocks) := st.blocks.deleteWhere (·.id = idB)
  let (sessionsDeleted, sessionBlocks) := st.sessionBlocks.deleteWhere (·.blockId = idB)
  let (_, edges) := st.edges.deleteWhere fun e => e.fromId = idB || e.toId = idB
  (0 < blockDeleted || 0 < sessionsDeleted, { blocks, sessionBlocks, edges })

/-- The blocks among `ids` that no session lists. -/
def orphans (st : PgStore) (ids : List Bytes) : List Bytes :=
  (st.blocks.rows.map (·.id)).filter fun id => ids.contains id && !(st.sessionBlocks.rows.map (·.blockId)).contains id

def purgeSession (st : PgStore) (session : SessionId) : Except StoreError (Nat × PgStore) := do
  let sessionB := sessionBytes session
  let blockIds ← ((st.sessionBlocks.rows.filter (·.sessionId = sessionB)).map (·.blockId)).mapM decodeBlockId
  let count := blockIds.length
  if count = 0 then
    return (0, st)
  let ids := blockIds.map idBytes
  let st := { st with sessionBlocks := (st.sessionBlocks.deleteWhere (·.sessionId = sessionB)).2 }
  let gone := st.orphans ids
  if gone.isEmpty then
    return (count, st)
  return (count, { st with
    edges := (st.edges.deleteWhere fun e => gone.contains e.fromId || gone.contains e.toId).2
    blocks := (st.blocks.deleteWhere fun b => gone.contains b.id).2 })

def putEdge (st : PgStore) (edge : Edge) : PgStore :=
  { st with edges := st.edges.insertNew ⟨idBytes edge.fromId, edgeKindToStr edge.kind, idBytes edge.toId⟩ }

end PgStore

/-! ### A database -/

/-- A text without a NUL. -/
def takesText (s : String) : Bool := !s.toList.contains '\x00'

/-- A field that is a text, a list of texts or another scalar is taken if its texts are. -/
def takesField (f : String × Json) : Bool :=
  takesText f.1 &&
    match f.2 with
    | .string s => takesText s
    | .array items => items.all fun item => takesText (item.asStr.getD "")
    | _ => true

/-- `jsonb` orders the fields of an object by the length of their keys first. -/
def keyOrder (a b : String × Json) : Prop := a.1.utf8ByteSize < b.1.utf8ByteSize ∨ a.1.utf8ByteSize = b.1.utf8ByteSize ∧ a.1 ≤ b.1

instance : DecidableRel keyOrder :=
  fun a b => inferInstanceAs (Decidable (a.1.utf8ByteSize < b.1.utf8ByteSize ∨ a.1.utf8ByteSize = b.1.utf8ByteSize ∧ a.1 ≤ b.1))

/-- A database as far as the store uses it. -/
def samplePostgres : Postgres where
  jsonb
    | .object fields =>
      if fields.all takesField then .ok (.object (fields.insertionSort keyOrder))
      else .error "unsupported Unicode escape sequence"
    | v => .ok v
  collate a b := a ≤ b
  violation := "duplicate key value violates unique constraint \"llm386_blocks_pkey\""

end Llm386
