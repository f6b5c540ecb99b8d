import Llm386.Lib.KeyTable
import Llm386.Core.Block

/-! # The LMDB store

`LmdbStore` of `llm386-store-lmdb/src/store.rs`: five tables keyed by byte strings, and the `BlockStore`
operations on them. A write transaction either commits all its changes or, on an error, none, so an operation
returns the new store with its result, or an error. A value of `blocks_by_id` is the postcard encoding of a
block; the table here holds the block. -/

namespace Llm386
open KeyTable

structure LmdbStore where
  /-- `id` → block. -/
  blocksById : KeyTable ContextBlock
  /-- content hash → `id`. -/
  blocksByHash : KeyTable Bytes
  /-- `session || id` → `()`. -/
  blocksBySession : KeyTable Bytes
  /-- `from || kind || to` → `()`. -/
  edgesFromKeys : KeyTable Bytes
  /-- `to || kind || from` → `()`. -/
  edgesToKeys : KeyTable Bytes

namespace LmdbStore

/-- A freshly opened store. -/
def empty : LmdbStore := ⟨∅, ∅, ∅, ∅, ∅⟩

/-! ### Keys -/

def sessionBlockKey (session : SessionId) (block : BlockId) : Bytes :=
  session.raw.toBeBytes ++ block.raw.toBeBytes

def decodeBlockId (bytes : Bytes) : Except StoreError BlockId :=
  if h : bytes.length = 16 then .ok ⟨U128.fromBeBytes bytes h⟩
  else .error (.backend s!"BlockId width {bytes.length}")

/-- The block id in bytes `16..` of a session key. -/
def sessionKeySuffix (key : Bytes) : Except StoreError BlockId :=
  if h : (key.drop 16).length = 16 then .ok ⟨U128.fromBeBytes (key.drop 16) h⟩
  else .error (.backend "session key suffix")

/-- `primary(16) || kind(1) || other(16)`, the key of both edge tables. -/
def edgeKey (primary : BlockId) (kind : UInt8) (other : BlockId) : Bytes :=
  primary.raw.toBeBytes ++ kind :: other.raw.toBeBytes

/-- The `(kind, other)` suffix of an edge key. -/
def parseEdgeKeySuffix (key : Bytes) : Except StoreError (UInt8 × BlockId) :=
  if key.length ≠ 33 then .error (.backend s!"edge key width {key.length}")
  else do
    let other ← decodeBlockId (key.drop 17)
    pure (key.getD 16 0, other)

def edgeKindToByte : EdgeKind → UInt8
  | .parent => 1
  | .derivedFrom => 2
  | .supports => 3
  | .contradicts => 4
  | .toolInvocation => 5

def edgeKindFromByte (b : UInt8) : Except StoreError EdgeKind :=
  if b = 1 then .ok .parent
  else if b = 2 then .ok .derivedFrom
  else if b = 3 then .ok .supports
  else if b = 4 then .ok .contradicts
  else if b = 5 then .ok .toolInvocation
  else .error (.backend s!"unknown EdgeKind byte {b.toNat}")

/-! ### Reads -/

def get (st : LmdbStore) (id : BlockId) : Option ContextBlock :=
  st.blocksById[id.raw.toBeBytes]?

/-- The block id of one key of a session scan. -/
def listedBlock (key : Bytes) : Except StoreError BlockId :=
  if key.length ≠ 32 then .error (.backend s!"session key width {key.length}") else sessionKeySuffix key

/-- All block ids of a session, in key order. -/
def listSession (st : LmdbStore) (session : SessionId) : Except StoreError (List BlockId) :=
  (prefixIter st.blocksBySession session.raw.toBeBytes).mapM fun e => listedBlock e.1

/-- The session id in bytes `..16` of a session key. -/
def sessionKeyPrefix (key : Bytes) : Except StoreError SessionId :=
  if h : (key.take 16).length = 16 then .ok ⟨U128.fromBeBytes (key.take 16) h⟩
  else .error (.backend "session key prefix")

/-- Every session with an entry, ascending: the walk collects the prefixes in a `BTreeSet`. -/
def listSessions (st : LmdbStore) : Except StoreError (List SessionId) := do
  let seen ← (st.blocksBySession.keys.filter fun key => 16 ≤ key.length).mapM sessionKeyPrefix
  pure (Std.ExtTreeSet.ofList seen compare).toList

def lookupHash (st : LmdbStore) (hash : ContentHash) : Except StoreError (Option BlockId) :=
  match st.blocksByHash[hash.bytes]? with
  | some bytes => some <$> decodeBlockId bytes
  | none => .ok none

/-- The kind and the other end that an edge key names. -/
def scannedEdge (key : Bytes) : Except StoreError (EdgeKind × BlockId) := do
  let (k, other) ← parseEdgeKeySuffix key
  let kind ← edgeKindFromByte k
  pure (kind, other)

/-- The edges out of `source`, in key order. -/
def edgesFrom (st : LmdbStore) (source : BlockId) : Except StoreError (List Edge) := do
  let found ← (prefixIter st.edgesFromKeys source.raw.toBeBytes).mapM fun e => scannedEdge e.1
  pure (found.map fun (x : EdgeKind × BlockId) => { fromId := source, toId := x.2, kind := x.1 })

/-- The edges into `target`, in key order. -/
def edgesTo (st : LmdbStore) (target : BlockId) : Except StoreError (List Edge) := do
  let found ← (prefixIter st.edgesToKeys target.raw.toBeBytes).mapM fun e => scannedEdge e.1
  pure (found.map fun (x : EdgeKind × BlockId) => { fromId := x.2, toId := target, kind := x.1 })

/-! ### Writes -/

def put (st : LmdbStore) (session : SessionId) (block : ContextBlock) : Except StoreError (BlockId × LmdbStore) :=
  match st.blocksByHash[block.hash.bytes]? with
  | some existingIdBytes => do
    -- Dedup: the content is already stored, only the session membership is new.
    let existingId ← decodeBlockId existingIdBytes
    pure (existingId,
      { st with blocksBySession := st.blocksBySession.insert (sessionBlockKey session existingId) [] })
  | none =>
    let idKey := block.id.raw.toBeBytes
    pure (block.id,
      { st with
        blocksById := st.blocksById.insert idKey block
        blocksByHash := st.blocksByHash.insert block.hash.bytes idKey
        blocksBySession := st.blocksBySession.insert (sessionBlockKey session block.id) [] })

def putEdge (st : LmdbStore) (edge : Edge) : LmdbStore :=
  let kind := edgeKindToByte edge.kind
  { st with
    edgesFromKeys := st.edgesFromKeys.insert (edgeKey edge.fromId kind edge.toId) []
    edgesToKeys := st.edgesToKeys.insert (edgeKey edge.toId kind edge.fromId) [] }

/-- First pass of `purge_edges_for_block`: the edges out of `id` and their mirror entries. -/
def purgeOutgoing (st : LmdbStore) (id : BlockId) : Except StoreError LmdbStore := do
  let outgoing ← (prefixIter st.edgesFromKeys id.raw.toBeBytes).mapM fun e => parseEdgeKeySuffix e.1
  pure { st with
    edgesFromKeys := eraseAll st.edgesFromKeys (outgoing.map fun (o : UInt8 × BlockId) => edgeKey id o.1 o.2)
    edgesToKeys := eraseAll st.edgesToKeys (outgoing.map fun (o : UInt8 × BlockId) => edgeKey o.2 o.1 id) }

/-- Second pass: the edges into `id` that are left. -/
def purgeIncoming (st : LmdbStore) (id : BlockId) : Except StoreError LmdbStore := do
  let incoming ← (prefixIter st.edgesToKeys id.raw.toBeBytes).mapM fun e => parseEdgeKeySuffix e.1
  pure { st with
    edgesToKeys := eraseAll st.edgesToKeys (incoming.map fun (i : UInt8 × BlockId) => edgeKey id i.1 i.2)
    edgesFromKeys := eraseAll st.edgesFromKeys (incoming.map fun (i : UInt8 × BlockId) => edgeKey i.2 i.1 id) }

/-- Drop every edge that touches `id`, with its mirror entry. -/
def purgeEdgesForBlock (st : LmdbStore) (id : BlockId) : Except StoreError LmdbStore := do
  let st ← st.purgeOutgoing id
  st.purgeIncoming id

/-- The session keys that reference `id`. -/
def sessionKeysOf (st : LmdbStore) (id : BlockId) : List Bytes :=
  st.blocksBySession.keys.filter fun key => key.length == 32 && key.drop 16 == id.raw.toBeBytes

/-- Delete a block entirely; `false` if nothing was stored under the id. -/
def delete (st : LmdbStore) (id : BlockId) : Except StoreError (Bool × LmdbStore) := do
  let idKey := id.raw.toBeBytes
  let hash := st.blocksById[idKey]?.map (·.hash)
  let sessionKeys := st.sessionKeysOf id
  let existed := hash.isSome || !sessionKeys.isEmpty
  if !existed then
    return (false, st)
  let st := { st with
    blocksBySession := eraseAll st.blocksBySession sessionKeys
    blocksById := if hash.isSome then st.blocksById.erase idKey else st.blocksById
    blocksByHash := match hash with
      | some hash => st.blocksByHash.erase hash.bytes
      | none => st.blocksByHash }
  let st ← st.purgeEdgesForBlock id
  return (true, st)

/-- The pass of `purge_session` over one block it dropped from the session: the content goes too when no
session references it any more. -/
def purgeUnreferenced (st : LmdbStore) (id : BlockId) : Except StoreError LmdbStore :=
  if st.sessionKeysOf id ≠ [] then pure st
  else match st.blocksById[id.raw.toBeBytes]? with
    | none => pure st
    | some block =>
      { st with
        blocksById := st.blocksById.erase id.raw.toBeBytes
        blocksByHash := st.blocksByHash.erase block.hash.bytes }.purgeEdgesForBlock id

/-- Remove every block of a session; the number of blocks affected. -/
def purgeSession (st : LmdbStore) (session : SessionId) : Except StoreError (Nat × LmdbStore) := do
  let keys := (prefixIter st.blocksBySession session.raw.toBeBytes).filter fun e => e.1.length == 32
  let blockIds ← keys.mapM fun e => sessionKeySuffix e.1
  let count := blockIds.length
  if count = 0 then
    return (0, st)
  let st := { st with blocksBySession := eraseAll st.blocksBySession (blockIds.map (sessionBlockKey session)) }
  let st ← blockIds.foldlM purgeUnreferenced st
  return (count, st)

/-! ### Integrity check -/

structure VerifyReport where
  blocksChecked : Nat
  hashMismatches : List BlockId
  missingFromHashIndex : List BlockId
  hashIndexMisroutes : List BlockId
  orphanSessionEntries : Nat
  blocksWithNoSession : List BlockId
deriving DecidableEq

/-- Every check passed. -/
def VerifyReport.isClean (r : VerifyReport) : Bool :=
  r.hashMismatches.isEmpty && r.missingFromHashIndex.isEmpty && r.hashIndexMisroutes.isEmpty &&
    r.orphanSessionEntries == 0 && r.blocksWithNoSession.isEmpty

/-- The check of one entry of `blocks_by_id`, with the ids seen so far. `contentHashOf` is blake3. -/
def verifyBlock (contentHashOf : Bytes → ContentHash) (st : LmdbStore) (acc : VerifyReport × List BlockId)
    (entry : Bytes × ContextBlock) : Except StoreError (VerifyReport × List BlockId) := do
  let (report, allIds) := acc
  let (key, block) := entry
  if h : key.length = 16 then
    let id : BlockId := ⟨U128.fromBeBytes key h⟩
    let report := { report with blocksChecked := report.blocksChecked + 1 }
    let report :=
      if contentHashOf block.bytes ≠ block.hash then
        { report with hashMismatches := report.hashMismatches ++ [id] }
      else report
    match st.blocksByHash[block.hash.bytes]? with
    | none => pure ({ report with missingFromHashIndex := report.missingFromHashIndex ++ [id] }, allIds ++ [id])
    | some bytes =>
      let pointed ← decodeBlockId bytes
      if pointed ≠ id then
        pure ({ report with hashIndexMisroutes := report.hashIndexMisroutes ++ [id] }, allIds ++ [id])
      else pure (report, allIds ++ [id])
  else .error (.backend s!"id width {key.length}")

/-- The check of one session key, with the stored ids found in a session so far. -/
def verifySessionKey (allIds : List BlockId) (acc : VerifyReport × List BlockId) (key : Bytes) :
    Except StoreError (VerifyReport × List BlockId) := do
  let (report, idsWithSession) := acc
  if key.length ≠ 32 then
    pure (report, idsWithSession)
  else
    let id ← sessionKeySuffix key
    if id ∈ allIds then pure (report, idsWithSession ++ [id])
    else pure ({ report with orphanSessionEntries := report.orphanSessionEntries + 1 }, idsWithSession)

/-- Read-only integrity check of the primary table, the hash index and the session index. The source keeps
the ids in a `HashSet`, whose order only shows in the order of `blocks_with_no_session`. -/
def verify (contentHashOf : Bytes → ContentHash) (st : LmdbStore) : Except StoreError VerifyReport := do
  let (report, allIds) ← st.blocksById.toList.foldlM (verifyBlock contentHashOf st) (⟨0, [], [], [], 0, []⟩, [])
  let (report, idsWithSession) ← st.blocksBySession.keys.foldlM (verifySessionKey allIds) (report, [])
  return { report with blocksWithNoSession := allIds.filter (· ∉ idsWithSession) }

end LmdbStore

end Llm386
