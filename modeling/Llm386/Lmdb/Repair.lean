import Llm386.Lmdb.Invariant

/-! # LMDB repair

`LmdbStore::repair` rebuilds the hash index from the primary table and drops the session entries of missing
blocks. The state it starts from is arbitrary: any hash index, any session index, any stored hashes. -/

namespace Llm386.LmdbStore
open KeyTable

/-! ### The command -/

structure RepairReport where
  hashIndexRebuilt : Bool
  hashEntriesWritten : Nat
  orphanSessionEntriesRemoved : Nat
  /-- Blocks whose stored hash does not match their bytes, left untouched. -/
  hashMismatchesQuarantined : List BlockId
  /-- Blocks with no session reference left after repair. -/
  blocksWithNoSession : List BlockId
deriving DecidableEq

/-- Step 1, one entry of `blocks_by_id`: its id and stored hash. -/
def enumerateBlock (contentHashOf : Bytes → ContentHash) (acc : RepairReport × List (BlockId × ContentHash))
    (entry : Bytes × ContextBlock) : Except StoreError (RepairReport × List (BlockId × ContentHash)) := do
  let (report, blocks) := acc
  let (key, block) := entry
  if h : key.length = 16 then
    let id : BlockId := ⟨U128.fromBeBytes key h⟩
    let report :=
      if contentHashOf block.bytes ≠ block.hash then
        { report with hashMismatchesQuarantined := report.hashMismatchesQuarantined ++ [id] }
      else report
    pure (report, blocks ++ [(id, block.hash)])
  else .error (.backend s!"id width {key.length}")

/-- Step 2, one block: its entry in the new hash index. -/
def writeHashEntry (acc : RepairReport × KeyTable Bytes) (block : BlockId × ContentHash) :
    RepairReport × KeyTable Bytes :=
  ({ acc.1 with hashEntriesWritten := acc.1.hashEntriesWritten + 1 },
    acc.2.insert block.2.bytes block.1.raw.toBeBytes)

/-- Step 3, one session key: to be removed when its block is missing. -/
def orphanSessionKey (realIds : List BlockId) (toRemove : List Bytes) (key : Bytes) :
    Except StoreError (List Bytes) := do
  if key.length ≠ 32 then
    pure toRemove
  else
    let id ← sessionKeySuffix key
    if id ∉ realIds then pure (toRemove ++ [key]) else pure toRemove

/-- Step 4, one session key that is left: its block has a session. -/
def blockWithSession (idsWithSession : List BlockId) (key : Bytes) : Except StoreError (List BlockId) := do
  if key.length ≠ 32 then
    pure idsWithSession
  else
    let id ← sessionKeySuffix key
    pure (idsWithSession ++ [id])

/-- Rebuild the derivable indexes. As in `verify`, the order of a `HashSet` shows only in the order of
`blocks_with_no_session`. -/
def repair (contentHashOf : Bytes → ContentHash) (st : LmdbStore) : Except StoreError (RepairReport × LmdbStore) := do
  let (report, blocks) ← st.blocksById.toList.foldlM (enumerateBlock contentHashOf) (⟨false, 0, 0, [], []⟩, [])
  let (report, blocksByHash) := blocks.foldl writeHashEntry (report, ∅)
  let report := { report with hashIndexRebuilt := true }
  let realIds := blocks.map (·.1)
  let toRemove ← st.blocksBySession.keys.foldlM (orphanSessionKey realIds) []
  let blocksBySession := eraseAll st.blocksBySession toRemove
  let report := { report with orphanSessionEntriesRemoved := toRemove.length }
  let idsWithSession ← blocksBySession.keys.foldlM blockWithSession []
  let report := { report with blocksWithNoSession := realIds.filter (· ∉ idsWithSession) }
  return (report, { st with blocksByHash, blocksBySession })

/-! ### The property -/

/-- A repair that did its work: the primary and the edge tables are untouched, the indexes are consistent, the
report names what `verify` still finds, and a second repair changes nothing. -/
structure Repaired (contentHashOf : Bytes → ContentHash) (st st' : LmdbStore) (report : RepairReport) : Prop where
  blocks : st'.blocksById = st.blocksById
  edges : st'.edgesFromKeys = st.edgesFromKeys ∧ st'.edgesToKeys = st.edgesToKeys
  verified : ∃ found, st'.verify contentHashOf = .ok found ∧ found.missingFromHashIndex = [] ∧
    found.hashIndexMisroutes = [] ∧ found.orphanSessionEntries = 0 ∧
    report.hashMismatchesQuarantined.Perm found.hashMismatches ∧
    report.blocksWithNoSession.Perm found.blocksWithNoSession
  again : ∃ report', st'.repair contentHashOf = .ok (report', st')

/-- Repair restores a verifiable store. -/
def RepairsWell (contentHashOf : Bytes → ContentHash) (st : LmdbStore) : Prop :=
  ∃ report st', st.repair contentHashOf = .ok (report, st') ∧ Repaired contentHashOf st st' report

/-! ### The passes over the primary table -/

/-- The primary table holds the blocks of `l`, each under its 16-byte key, in key order. -/
def Holdings (st : LmdbStore) (l : List (BlockId × ContextBlock)) : Prop :=
  st.blocksById.toList = l.map fun x => (x.1.raw.toBeBytes, x.2)

variable {contentHashOf : Bytes → ContentHash} {st : LmdbStore} {l : List (BlockId × ContextBlock)}

theorem exists_holdings (wide : ∀ key ∈ st.blocksById, key.length = 16) : ∃ l, st.Holdings l := by
  have range : ∀ e ∈ st.blocksById.toList,
      e ∈ Set.range fun x : BlockId × ContextBlock => (x.1.raw.toBeBytes, x.2) := by
    rintro ⟨key, b⟩ he
    have hb := Std.ExtTreeMap.mem_toList_iff_getElem?_eq_some.mp he
    have hkey : key.length = 16 := wide key (mem_iff_isSome.mpr (by simp [hb]))
    exact ⟨(⟨U128.fromBeBytes key hkey⟩, b), by simp⟩
  obtain ⟨l, hl⟩ := (Set.range_list_map fun x : BlockId × ContextBlock => (x.1.raw.toBeBytes, x.2)).ge range
  exact ⟨l, hl.symm⟩

theorem Holdings.mem_iff (h : st.Holdings l) {id : BlockId} {b : ContextBlock} :
    (id, b) ∈ l ↔ st.blocksById[id.raw.toBeBytes]? = some b := by
  rw [← Std.ExtTreeMap.mem_toList_iff_getElem?_eq_some, h, List.mem_map]
  constructor
  · exact fun hx => ⟨(id, b), hx, rfl⟩
  · rintro ⟨⟨id', b'⟩, hx, heq⟩
    obtain ⟨hid, rfl⟩ := Prod.mk.injEq .. ▸ heq
    rwa [← blockId_bytes_inj.mp hid]

theorem Holdings.exists_of_get (h : st.Holdings l) {key : Bytes} {b : ContextBlock} (hb : st.blocksById[key]? = some b) :
    ∃ id : BlockId, key = id.raw.toBeBytes ∧ (id, b) ∈ l := by
  have hmem := Std.ExtTreeMap.mem_toList_iff_getElem?_eq_some.mpr hb
  rw [h, List.mem_map] at hmem
  obtain ⟨⟨id, b'⟩, hx, heq⟩ := hmem
  cases heq
  exact ⟨id, rfl, hx⟩

/-- A stored hash that is not the hash of the bytes. -/
def mismatched (contentHashOf : Bytes → ContentHash) (x : BlockId × ContextBlock) : Bool :=
  contentHashOf x.2.bytes ≠ x.2.hash

/-- The hash index sends the block's hash to another block. -/
def misrouted (index : KeyTable Bytes) (x : BlockId × ContextBlock) : Bool :=
  (index[x.2.hash.bytes]?).any (· ≠ x.1.raw.toBeBytes)

theorem enumerateBlock_fold (l : List (BlockId × ContextBlock)) (r : RepairReport)
    (blocks : List (BlockId × ContentHash)) :
    (l.map fun x => (x.1.raw.toBeBytes, x.2)).foldlM (enumerateBlock contentHashOf) (r, blocks) =
      .ok ({ r with
        hashMismatchesQuarantined :=
          r.hashMismatchesQuarantined ++ (l.filter (mismatched contentHashOf)).map (·.1) },
        blocks ++ l.map fun x => (x.1, x.2.hash)) := by
  induction l generalizing r blocks with
  | nil => simp; rfl
  | cons x l ih =>
    have hone : enumerateBlock contentHashOf (r, blocks) (x.1.raw.toBeBytes, x.2) =
        .ok ({ r with
          hashMismatchesQuarantined :=
            r.hashMismatchesQuarantined ++ ([x].filter (mismatched contentHashOf)).map (·.1) },
          blocks ++ [(x.1, x.2.hash)]) := by
      by_cases hmis : contentHashOf x.2.bytes = x.2.hash <;> simp [enumerateBlock, mismatched, hmis] <;> rfl
    rw [List.map_cons, List.foldlM_cons, hone, Loop.ok_bind, ih, ← List.singleton_append (l := l),
      List.filter_append]
    simp

theorem writeHashEntry_fold (l : List (BlockId × ContextBlock)) (r : RepairReport) (index : KeyTable Bytes) :
    (l.map fun x => (x.1, x.2.hash)).foldl writeHashEntry (r, index) =
      ({ r with hashEntriesWritten := r.hashEntriesWritten + l.length },
        insertAll index (l.map fun x => (x.2.hash.bytes, x.1.raw.toBeBytes))) := by
  induction l generalizing r index with
  | nil => rfl
  | cons x l ih =>
    rw [List.map_cons, List.foldl_cons, writeHashEntry, ih]
    simp [insertAll, Nat.add_comm, Nat.add_left_comm]

/-- The values of an index that `decode_block_id` accepts. -/
def Decodes (index : KeyTable Bytes) : Prop :=
  ∀ hash bytes : Bytes, index[hash]? = some bytes → ∃ id : BlockId, bytes = id.raw.toBeBytes

theorem verifyBlock_fold (hindex : Decodes st.blocksByHash) (l : List (BlockId × ContextBlock)) (r : VerifyReport)
    (ids : List BlockId) :
    (l.map fun x => (x.1.raw.toBeBytes, x.2)).foldlM (verifyBlock contentHashOf st) (r, ids) =
      .ok ({ r with
        blocksChecked := r.blocksChecked + l.length
        hashMismatches := r.hashMismatches ++ (l.filter (mismatched contentHashOf)).map (·.1)
        missingFromHashIndex := r.missingFromHashIndex ++
          (l.filter fun x => (st.blocksByHash[x.2.hash.bytes]?).isNone).map (·.1)
        hashIndexMisroutes := r.hashIndexMisroutes ++ (l.filter (misrouted st.blocksByHash)).map (·.1) },
        ids ++ l.map (·.1)) := by
  induction l generalizing r ids with
  | nil => simp; rfl
  | cons x l ih =>
    have hone : verifyBlock contentHashOf st (r, ids) (x.1.raw.toBeBytes, x.2) =
        .ok ({ r with
          blocksChecked := r.blocksChecked + 1
          hashMismatches := r.hashMismatches ++ ([x].filter (mismatched contentHashOf)).map (·.1)
          missingFromHashIndex := r.missingFromHashIndex ++
            ([x].filter fun x => (st.blocksByHash[x.2.hash.bytes]?).isNone).map (·.1)
          hashIndexMisroutes := r.hashIndexMisroutes ++ ([x].filter (misrouted st.blocksByHash)).map (·.1) },
          ids ++ [x.1]) := by
      cases hx : st.blocksByHash[x.2.hash.bytes]? with
      | none =>
        by_cases hmis : contentHashOf x.2.bytes = x.2.hash <;>
          simp [verifyBlock, mismatched, misrouted, hx, hmis] <;> rfl
      | some bytes =>
        obtain ⟨id, rfl⟩ := hindex _ _ hx
        by_cases hid : id = x.1 <;> by_cases hmis : contentHashOf x.2.bytes = x.2.hash <;>
          simp [verifyBlock, mismatched, misrouted, hx, hid, hmis, Loop.ok_bind, blockId_bytes_inj] <;> rfl
    rw [List.map_cons, List.foldlM_cons, hone, Loop.ok_bind, ih, ← List.singleton_append (l := l)]
    simp only [List.filter_append, List.map_append, List.append_assoc, List.length_append, List.length_singleton,
      List.map_cons, List.map_nil, Nat.add_assoc]

/-! ### The passes over the session index -/

/-- The block that a session key names. -/
def namedBlock (key : Bytes) : Option BlockId :=
  if key.length = 32 then (sessionKeySuffix key).toOption else none

/-- A session key of a missing block. -/
def orphan (realIds : List BlockId) (key : Bytes) : Bool := (namedBlock key).any (· ∉ realIds)

theorem namedBlock_eq_none {key : Bytes} : namedBlock key = none ↔ key.length ≠ 32 := by
  by_cases hkey : key.length = 32
  · have hdrop : (key.drop 16).length = 16 := by simp [hkey]
    simp [namedBlock, hkey, sessionKeySuffix, Except.toOption]
  · simp [namedBlock, hkey]

theorem sessionKeySuffix_named {key : Bytes} {id : BlockId} (h : namedBlock key = some id) :
    key.length = 32 ∧ sessionKeySuffix key = .ok id := by
  have hkey : key.length = 32 := by
    by_contra hne
    rw [namedBlock_eq_none.mpr hne] at h
    cases h
  rw [namedBlock, if_pos hkey] at h
  exact ⟨hkey, Loop.toOption_eq_some.mp h⟩

theorem orphanSessionKey_fold (realIds : List BlockId) (keys acc : List Bytes) :
    keys.foldlM (orphanSessionKey realIds) acc = .ok (acc ++ keys.filter (orphan realIds)) := by
  induction keys generalizing acc with
  | nil => simp; rfl
  | cons key keys ih =>
    have hone : orphanSessionKey realIds acc key = .ok (acc ++ [key].filter (orphan realIds)) := by
      cases hkey : namedBlock key with
      | none => simp [orphanSessionKey, namedBlock_eq_none.mp hkey, orphan, hkey]; rfl
      | some id =>
        obtain ⟨hlen, hid⟩ := sessionKeySuffix_named hkey
        by_cases hreal : id ∈ realIds <;>
          simp [orphanSessionKey, hlen, hid, orphan, hkey, hreal, Loop.ok_bind] <;> rfl
    rw [List.foldlM_cons, hone, Loop.ok_bind, ih, List.append_assoc, ← List.filter_append, List.singleton_append]

theorem blockWithSession_fold (keys : List Bytes) (ids : List BlockId) :
    keys.foldlM blockWithSession ids = .ok (ids ++ keys.filterMap namedBlock) := by
  induction keys generalizing ids with
  | nil => simp; rfl
  | cons key keys ih =>
    have hone : blockWithSession ids key = .ok (ids ++ (namedBlock key).toList) := by
      cases hkey : namedBlock key with
      | none => simp [blockWithSession, namedBlock_eq_none.mp hkey]; rfl
      | some id =>
        obtain ⟨hlen, hid⟩ := sessionKeySuffix_named hkey
        simp only [blockWithSession, hlen, hid]
        rfl
    rw [List.foldlM_cons, hone, Loop.ok_bind, ih, List.append_assoc]
    cases hkey : namedBlock key <;> simp [hkey]

theorem verifySessionKey_fold (allIds : List BlockId) (keys : List Bytes) (r : VerifyReport) (ids : List BlockId) :
    keys.foldlM (verifySessionKey allIds) (r, ids) =
      .ok ({ r with orphanSessionEntries := r.orphanSessionEntries + (keys.filter (orphan allIds)).length },
        ids ++ (keys.filterMap namedBlock).filter (· ∈ allIds)) := by
  induction keys generalizing r ids with
  | nil => simp; rfl
  | cons key keys ih =>
    have hone : verifySessionKey allIds (r, ids) key =
        .ok ({ r with orphanSessionEntries := r.orphanSessionEntries + ([key].filter (orphan allIds)).length },
          ids ++ (namedBlock key).toList.filter (· ∈ allIds)) := by
      cases hkey : namedBlock key with
      | none => simp [verifySessionKey, namedBlock_eq_none.mp hkey, orphan, hkey]; rfl
      | some id =>
        obtain ⟨hlen, hid⟩ := sessionKeySuffix_named hkey
        by_cases hreal : id ∈ allIds <;>
          simp [verifySessionKey, hlen, hid, orphan, hkey, hreal, Loop.ok_bind] <;> rfl
    have hlength : (List.filter (orphan allIds) (key :: keys)).length =
        ([key].filter (orphan allIds)).length + (keys.filter (orphan allIds)).length := by
      rw [← List.length_append, ← List.filter_append, List.singleton_append]
    rw [List.foldlM_cons, hone, Loop.ok_bind, ih, hlength, Nat.add_assoc, List.append_assoc, ← List.filter_append]
    cases hkey : namedBlock key <;> simp [hkey]

/-! ### What the two commands compute -/

/-- The hash index that `repair` writes. -/
def rebuiltIndex (l : List (BlockId × ContextBlock)) : KeyTable Bytes :=
  insertAll ∅ (l.map fun x => (x.2.hash.bytes, x.1.raw.toBeBytes))

/-- The session index that `repair` leaves. -/
def scrubbedSessions (sessions : KeyTable Bytes) (realIds : List BlockId) : KeyTable Bytes :=
  eraseAll sessions (sessions.keys.filter (orphan realIds))

/-- The blocks that no session key names. -/
def unlisted (sessions : KeyTable Bytes) (realIds : List BlockId) : List BlockId :=
  realIds.filter (· ∉ sessions.keys.filterMap namedBlock)

/-- The store that `repair` leaves. -/
def repairedStore (st : LmdbStore) (l : List (BlockId × ContextBlock)) : LmdbStore :=
  { st with
    blocksByHash := rebuiltIndex l
    blocksBySession := scrubbedSessions st.blocksBySession (l.map (·.1)) }

/-- `repair` on a store whose primary table holds the blocks of `l`. -/
theorem Holdings.repair_eq (h : st.Holdings l) : st.repair contentHashOf = .ok
    ({ hashIndexRebuilt := true
       hashEntriesWritten := l.length
       orphanSessionEntriesRemoved := (st.blocksBySession.keys.filter (orphan (l.map (·.1)))).length
       hashMismatchesQuarantined := (l.filter (mismatched contentHashOf)).map (·.1)
       blocksWithNoSession := unlisted (scrubbedSessions st.blocksBySession (l.map (·.1))) (l.map (·.1)) },
     st.repairedStore l) := by
  rw [repair, h, enumerateBlock_fold, Loop.ok_bind]
  simp only [List.nil_append, writeHashEntry_fold, List.map_map, Function.comp_def, orphanSessionKey_fold,
    blockWithSession_fold, Loop.ok_bind, Nat.zero_add]
  rfl

/-- `verify` on such a store whose hash index decodes. -/
theorem Holdings.verify_eq (h : st.Holdings l) (hindex : Decodes st.blocksByHash) : st.verify contentHashOf = .ok
    { blocksChecked := l.length
      hashMismatches := (l.filter (mismatched contentHashOf)).map (·.1)
      missingFromHashIndex := (l.filter fun x => (st.blocksByHash[x.2.hash.bytes]?).isNone).map (·.1)
      hashIndexMisroutes := (l.filter (misrouted st.blocksByHash)).map (·.1)
      orphanSessionEntries := (st.blocksBySession.keys.filter (orphan (l.map (·.1)))).length
      blocksWithNoSession := unlisted st.blocksBySession (l.map (·.1)) } := by
  rw [verify, h, verifyBlock_fold hindex, Loop.ok_bind]
  simp only [List.nil_append, verifySessionKey_fold, Loop.ok_bind, Nat.zero_add]
  have hlisted : (l.map (·.1)).filter
      (· ∉ (st.blocksBySession.keys.filterMap namedBlock).filter (· ∈ l.map (·.1))) =
        unlisted st.blocksBySession (l.map (·.1)) := by
    refine List.filter_congr fun id hid => ?_
    simp only [List.mem_filter, hid, decide_true, and_true]
  rw [hlisted]
  rfl

/-! ### The rebuilt tables -/

/-- Under a hash stands the last block of `l` that carries it. -/
theorem getElem?_rebuiltIndex (l : List (BlockId × ContextBlock)) (key : Bytes) : (rebuiltIndex l)[key]? =
    ((l.filter (·.2.hash.bytes == key)).getLast?).map (·.1.raw.toBeBytes) := by
  rw [rebuiltIndex, getElem?_insertAll, List.filter_map, List.getLast?_map]
  simp [Function.comp_def]

theorem rebuiltIndex_decodes (l : List (BlockId × ContextBlock)) : Decodes (rebuiltIndex l) := by
  intro key bytes hbytes
  rw [getElem?_rebuiltIndex, Option.map_eq_some_iff] at hbytes
  obtain ⟨x, -, rfl⟩ := hbytes
  exact ⟨x.1, rfl⟩

/-- Every listed block's hash has an entry, of a listed block with that hash. -/
theorem exists_rebuiltIndex {x : BlockId × ContextBlock} (hx : x ∈ l) :
    ∃ y ∈ l, y.2.hash = x.2.hash ∧ (rebuiltIndex l)[x.2.hash.bytes]? = some y.1.raw.toBeBytes := by
  have hfilter : x ∈ l.filter (·.2.hash.bytes == x.2.hash.bytes) := List.mem_filter.mpr ⟨hx, by simp⟩
  have hne := List.ne_nil_of_mem hfilter
  have hlast := List.getLast_mem hne
  obtain ⟨hy, hhash⟩ := List.mem_filter.mp hlast
  refine ⟨_, hy, ContentHash.bytes_inj.mp (by simpa using hhash), ?_⟩
  rw [getElem?_rebuiltIndex, List.getLast?_eq_some_getLast hne]
  rfl

/-- No orphan is left. -/
theorem orphans_scrubbed (sessions : KeyTable Bytes) (realIds : List BlockId) :
    (scrubbedSessions sessions realIds).keys.filter (orphan realIds) = [] := by
  refine List.filter_eq_nil_iff.mpr fun key hkey horphan => ?_
  obtain ⟨hkept, hmem⟩ := mem_eraseAll.mp (Std.ExtTreeMap.mem_keys.mp hkey)
  exact hkept (List.mem_filter.mpr ⟨Std.ExtTreeMap.mem_keys.mpr hmem, horphan⟩)

/-- A session index without orphans is left as it is. -/
theorem scrubbedSessions_again (sessions : KeyTable Bytes) (realIds : List BlockId) :
    scrubbedSessions (scrubbedSessions sessions realIds) realIds = scrubbedSessions sessions realIds := by
  rw [scrubbedSessions, orphans_scrubbed]
  rfl

/-! ### The condition -/

/-- No two stored blocks carry the same stored hash. -/
def DistinctHashes (st : LmdbStore) : Prop :=
  ∀ (i j : Bytes) (a b : ContextBlock), st.blocksById[i]? = some a → st.blocksById[j]? = some b → a.hash = b.hash →
    i = j

/-- With distinct hashes the rebuilt index sends every block's hash to the block. -/
theorem Holdings.not_misrouted (h : st.Holdings l) (distinct : st.DistinctHashes) {x : BlockId × ContextBlock} (hx : x ∈ l) :
    misrouted (rebuiltIndex l) x = false := by
  obtain ⟨y, hy, hhash, hindex⟩ := exists_rebuiltIndex hx
  have heq := distinct _ _ _ _ (h.mem_iff.mp hy) (h.mem_iff.mp hx) hhash
  simp [misrouted, hindex, heq]

/-- Blocks that the rebuilt index does not misroute have distinct hashes. -/
theorem Holdings.distinct (h : st.Holdings l) (routed : ∀ x ∈ l, misrouted (rebuiltIndex l) x = false) :
    st.DistinctHashes := by
  have own : ∀ x ∈ l, (rebuiltIndex l)[x.2.hash.bytes]? = some x.1.raw.toBeBytes := by
    intro x hx
    obtain ⟨y, -, -, hindex⟩ := exists_rebuiltIndex hx
    have hrouted := routed x hx
    rw [misrouted, hindex] at hrouted
    simpa [hindex] using hrouted
  intro i j a b hi hj heq
  obtain ⟨x, rfl, hx⟩ := h.exists_of_get hi
  obtain ⟨y, rfl, hy⟩ := h.exists_of_get hj
  have hsame := own (x, a) hx
  rw [show ((x, a) : BlockId × ContextBlock).2.hash = b.hash from heq, own (y, b) hy] at hsame
  exact (Option.some.inj hsame).symm

/-- A repair that gets through found only 16-byte keys. -/
theorem wide_of_repair {report : RepairReport} {st' : LmdbStore}
    (h : st.repair contentHashOf = .ok (report, st')) : ∀ key ∈ st.blocksById, key.length = 16 := by
  intro key hkey
  obtain ⟨b, hb⟩ := Option.isSome_iff_exists.mp (mem_iff_isSome.mp hkey)
  obtain ⟨acc, hfold, -⟩ := Loop.bind_eq_ok.mp h
  obtain ⟨-, -, ⟨r, blocks⟩, v, -, -, hone, -⟩ :=
    Loop.split_of_mem hfold (Std.ExtTreeMap.mem_toList_iff_getElem?_eq_some.mpr hb)
  by_contra hlen
  simp [enumerateBlock, hlen] at hone

/-! ### When repair restores the store -/

/-- The repaired store lists the same blocks. -/
theorem Holdings.repairedStore (h : st.Holdings l) : (st.repairedStore l).Holdings l := h

theorem Holdings.repaired (h : st.Holdings l) (distinct : st.DistinctHashes) : RepairsWell contentHashOf st := by
  refine ⟨_, _, h.repair_eq, rfl, ⟨rfl, rfl⟩, ?_, ?_⟩
  · refine ⟨_, h.repairedStore.verify_eq (rebuiltIndex_decodes l), ?_, ?_, ?_, .refl _, .refl _⟩
    · refine List.map_eq_nil_iff.mpr (List.filter_eq_nil_iff.mpr fun x hx => ?_)
      obtain ⟨y, -, -, hindex⟩ := exists_rebuiltIndex hx
      simp [LmdbStore.repairedStore, hindex]
    · refine List.map_eq_nil_iff.mpr (List.filter_eq_nil_iff.mpr fun x hx => ?_)
      simp [LmdbStore.repairedStore, h.not_misrouted distinct hx]
    · exact List.length_eq_zero_iff.mpr (orphans_scrubbed _ _)
  · have hsame : (st.repairedStore l).repairedStore l = st.repairedStore l := by
      simp only [LmdbStore.repairedStore, scrubbedSessions_again]
    exact ⟨_, h.repairedStore.repair_eq.trans (by rw [hsame])⟩

/-- A store that keeps the invariant of its tables is repaired well. -/
theorem Invariant.repairsWell (h : st.Invariant) : RepairsWell contentHashOf st := by
  have wide : ∀ key ∈ st.blocksById, key.length = 16 := by
    intro key hkey
    obtain ⟨b, hb⟩ := Option.isSome_iff_exists.mp (mem_iff_isSome.mp hkey)
    simp [h.own_id key b hb]
  obtain ⟨l, hl⟩ := exists_holdings wide
  exact hl.repaired h.hash_injective

/-- Repair restores a verifiable store exactly when the keys of the primary table are 16 bytes wide and no two
stored blocks carry the same stored hash. -/
theorem repair_restores_iff : RepairsWell contentHashOf st ↔
    (∀ key ∈ st.blocksById, key.length = 16) ∧ st.DistinctHashes := by
  constructor
  · rintro ⟨report, st', hrepair, done⟩
    have wide := wide_of_repair hrepair
    obtain ⟨l, hl⟩ := exists_holdings wide
    rw [hl.repair_eq] at hrepair
    cases hrepair
    obtain ⟨found, hfound, -, hrouted, -⟩ := done.verified
    rw [hl.repairedStore.verify_eq (rebuiltIndex_decodes l)] at hfound
    cases hfound
    refine ⟨wide, hl.distinct fun x hx => ?_⟩
    simpa [LmdbStore.repairedStore] using List.filter_eq_nil_iff.mp (List.map_eq_nil_iff.mp hrouted) x hx
  · rintro ⟨wide, distinct⟩
    obtain ⟨l, hl⟩ := exists_holdings wide
    exact hl.repaired distinct

/-- The store in which block 7 lost its hash entry and its content was then put again, as block 9. -/
def storedTwice : LmdbStore :=
  let once := storeAfter [.put ⟨1⟩ (sampleBlock ⟨7⟩ .fact [0x61] [])]
  let lost := { once with blocksByHash := once.blocksByHash.erase (sampleHash [0x61]).bytes }
  match lost.put ⟨1⟩ (sampleBlock ⟨9⟩ .fact [0x61] []) with
  | .ok (_, st) => st
  | .error _ => lost

/-- After the repair the older block is misrouted. -/
theorem repair_misroutes : ¬RepairsWell sampleHash storedTwice := by
  rintro ⟨report, st', hrepair, done⟩
  obtain ⟨found, hfound, -, hrouted, -⟩ := done.verified
  have hrun : ((storedTwice.repair sampleHash).bind fun x => x.2.verify sampleHash).map (·.hashIndexMisroutes) =
      .ok [⟨7⟩] := by
    decide +kernel
  rw [hrepair, Except.bind, hfound, Except.map, hrouted] at hrun
  cases hrun

end Llm386.LmdbStore
