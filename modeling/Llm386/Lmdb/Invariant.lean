import Llm386.Lmdb.Refine

/-! # The LMDB store invariant over whole runs

A store reached from the empty one by admissible operations represents a catalog. The invariant of the tables
follows: the hash index inverts the primary table, the session index covers exactly the stored blocks, the edge
tables mirror each other, and `verify` finds nothing. -/

namespace Llm386.LmdbStore
open Contents KeyTable

/-! ### Runs -/

/-- The operations that write. -/
inductive WriteOp
  | put (session : SessionId) (block : ContextBlock)
  | putEdge (edge : Edge)
  | delete (id : BlockId)
  | purgeSession (session : SessionId)

/-- The store after one operation. -/
def exec (st : LmdbStore) : WriteOp → Except StoreError LmdbStore
  | .put session block => (·.2) <$> st.put session block
  | .putEdge edge => .ok (st.putEdge edge)
  | .delete id => (·.2) <$> st.delete id
  | .purgeSession session => (·.2) <$> st.purgeSession session

/-- What callers promise of an operation: a block to store carries the hash of its bytes, and its proposed id is
not in use unless its content is already indexed. -/
def Admissible (contentHashOf : Bytes → ContentHash) (st : LmdbStore) : WriteOp → Prop
  | .put _ block => contentHashOf block.bytes = block.hash ∧
      ((st.get block.id).isNone ∨ (st.blocksByHash[block.hash.bytes]?).isSome)
  | .putEdge _ | .delete _ | .purgeSession _ => True

/-- The stores that admissible operations reach from the empty one. -/
inductive Reachable (contentHashOf : Bytes → ContentHash) : LmdbStore → Prop
  | empty : Reachable contentHashOf .empty
  | step {st st' : LmdbStore} {op : WriteOp} : Reachable contentHashOf st → Admissible contentHashOf st op →
      st.exec op = .ok st' → Reachable contentHashOf st'

instance (contentHashOf : Bytes → ContentHash) (st : LmdbStore) : DecidablePred (Admissible contentHashOf st)
  | .put _ _ => inferInstanceAs (Decidable (_ ∧ _))
  | .putEdge _ | .delete _ | .purgeSession _ => isTrue trivial

/-- The store after a sequence of operations, each admissible where it runs. -/
def run (contentHashOf : Bytes → ContentHash) : LmdbStore → List WriteOp → Option LmdbStore
  | st, [] => some st
  | st, op :: ops => if Admissible contentHashOf st op then (st.exec op).toOption.bind (run contentHashOf · ops) else none

theorem Reachable.run {contentHashOf : Bytes → ContentHash} {st st' : LmdbStore} (h : Reachable contentHashOf st)
    (ops : List WriteOp) (hrun : st.run contentHashOf ops = some st') : Reachable contentHashOf st' := by
  induction ops generalizing st with
  | nil =>
    cases hrun
    exact h
  | cons op ops ih =>
    rw [LmdbStore.run] at hrun
    split at hrun
    · rename_i adm
      obtain ⟨st₁, hexec, hrest⟩ := Option.bind_eq_some_iff.mp hrun
      refine ih (h.step adm ?_) hrest
      cases hop : st.exec op with
      | error e => simp [hop, Except.toOption] at hexec
      | ok st₂ => simpa [hop, Except.toOption] using hexec
    · cases hrun

theorem Reachable.of_run {contentHashOf : Bytes → ContentHash} {ops : List WriteOp}
    (h : (LmdbStore.empty.run contentHashOf ops).isSome) :
    Reachable contentHashOf ((LmdbStore.empty.run contentHashOf ops).getD .empty) := by
  obtain ⟨st, hst⟩ := Option.isSome_iff_exists.mp h
  refine Reachable.run .empty ops ?_
  rw [hst]
  rfl

/-- Every stored block carries the hash of its bytes. -/
def Hashed (contentHashOf : Bytes → ContentHash) (c : Contents) : Prop :=
  ∀ id b, c.block id = some b → contentHashOf b.bytes = b.hash

variable {contentHashOf : Bytes → ContentHash} {st st' : LmdbStore}

/-- One admissible operation succeeds and leaves a catalog. -/
theorem exec_represents {c : Catalog} (h : st.Represents c.toContents) (hashed : Hashed contentHashOf c.toContents)
    {op : WriteOp} (adm : Admissible contentHashOf st op) : ∃ st', st.exec op = .ok st' ∧
      ∃ c' : Catalog, st'.Represents c'.toContents ∧ Hashed contentHashOf c'.toContents := by
  cases op with
  | put s b =>
    obtain ⟨hhash, hfresh⟩ := adm
    by_cases held : ∃ id, c.Holds id b.hash
    · obtain ⟨id, hid⟩ := held
      obtain ⟨st', hput, h'⟩ := h.put_held s hid
      refine ⟨st', by simp only [exec, hput]; rfl, c.share s id ?_, h', hashed⟩
      obtain ⟨a, ha, -⟩ := hid
      exact ⟨a, ha⟩
    · have new := not_exists.mp held
      have fresh : ¬c.Stored b.id := by
        rintro ⟨a, ha⟩
        rcases hfresh with hnone | hsome
        · simp [h.get_eq, ha] at hnone
        · simp [h.hash_eq_none.mpr new] at hsome
      obtain ⟨st', hput, h'⟩ := h.put_new s new fresh
      refine ⟨st', by simp only [exec, hput]; rfl, c.store s b new, h', ?_⟩
      intro id a ha
      simp only [Catalog.store, Contents.store] at ha
      split at ha
      · cases ha
        exact hhash
      · exact hashed id a ha
  | putEdge e => exact ⟨_, rfl, c.link e, h.putEdge_link e, hashed⟩
  | delete id =>
    by_cases stored : c.Stored id
    · obtain ⟨st', hdel, h'⟩ := h.delete_stored stored
      exact ⟨st', by simp only [exec, hdel]; rfl, c.erase {id}, h',
        fun x a ha => hashed x a (block_erase_eq_some.mp ha).2⟩
    · have hdel := h.delete_absent stored fun s hs => stored (c.listed_stored hs)
      exact ⟨st, by simp only [exec, hdel]; rfl, c, h, hashed⟩
  | purgeSession s =>
    obtain ⟨ids, -, hids⟩ := h.listSession_eq s
    obtain ⟨st', hpurge, h'⟩ := h.purgeSession_eq (fun _ => c.listed_stored) hids
    exact ⟨st', by simp only [exec, hpurge]; rfl, c.purge s, h',
      fun x a ha => hashed x a (block_erase_eq_some.mp ha).2⟩

theorem Reachable.represents (h : Reachable contentHashOf st) :
    ∃ c : Catalog, st.Represents c.toContents ∧ Hashed contentHashOf c.toContents := by
  induction h with
  | empty => exact ⟨.empty, represents_empty, fun id b hb => by cases hb⟩
  | step hreach adm hexec ih =>
    obtain ⟨c, h, hashed⟩ := ih
    obtain ⟨st', hst', hc'⟩ := exec_represents h hashed adm
    rw [hexec] at hst'
    cases hst'
    exact hc'

/-! ### The integrity check -/

theorem isClean_iff {r : VerifyReport} : r.isClean = true ↔
    r.hashMismatches = [] ∧ r.missingFromHashIndex = [] ∧ r.hashIndexMisroutes = [] ∧
      r.orphanSessionEntries = 0 ∧ r.blocksWithNoSession = [] := by
  simp [VerifyReport.isClean, and_assoc]

/-- A stored block under its own id passes its checks. -/
theorem verifyBlock_ok {r : VerifyReport} {ids : List BlockId} {id : BlockId} {b : ContextBlock}
    (hhash : contentHashOf b.bytes = b.hash) (hindex : st.blocksByHash[b.hash.bytes]? = some id.raw.toBeBytes) :
    verifyBlock contentHashOf st (r, ids) (id.raw.toBeBytes, b) =
      .ok ({ r with blocksChecked := r.blocksChecked + 1 }, ids ++ [id]) := by
  simp [verifyBlock, hhash, hindex, Loop.ok_bind]
  rfl

theorem verifySessionKey_ok {r : VerifyReport} {allIds ids : List BlockId} {s : SessionId} {id : BlockId}
    (hid : id ∈ allIds) : verifySessionKey allIds (r, ids) (sessionBlockKey s id) = .ok (r, ids ++ [id]) := by
  simp [verifySessionKey, hid, Loop.ok_bind]
  rfl

/-- The pass over the primary table finds every stored block, and nothing wrong. -/
theorem Represents.verify_blocks {c : Catalog} (h : st.Represents c.toContents)
    (hashed : Hashed contentHashOf c.toContents) {r : VerifyReport} (hr : r.isClean = true) :
    ∃ acc, st.blocksById.toList.foldlM (verifyBlock contentHashOf st) (r, []) = .ok acc ∧ acc.1.isClean = true ∧
      ∀ id, id ∈ acc.2 ↔ c.Stored id := by
  let P : VerifyReport × List BlockId → List (Bytes × ContextBlock) → Prop := fun acc rest =>
    acc.1.isClean = true ∧ (∀ e ∈ rest, st.blocksById[e.1]? = some e.2) ∧
      ∀ id, (id ∈ acc.2 ∨ id.raw.toBeBytes ∈ rest.map (·.1)) ↔ c.Stored id
  have start : P (r, []) st.blocksById.toList := by
    refine ⟨hr, fun e he => Std.ExtTreeMap.mem_toList_iff_getElem?_eq_some.mp he, fun id => ?_⟩
    have hget : st.blocksById[id.raw.toBeBytes]? = c.block id := h.get_eq id
    simp [Std.ExtTreeMap.map_fst_toList_eq_keys, Std.ExtTreeMap.mem_keys, mem_iff_isSome, hget, Stored,
      Option.isSome_iff_exists]
  have pass : ∀ e rest acc, P acc (e :: rest) → ∃ acc', verifyBlock contentHashOf st acc e = .ok acc' ∧ P acc' rest := by
    rintro ⟨key, b⟩ rest ⟨r, ids⟩ ⟨hclean, hrest, hids⟩
    obtain ⟨id, rfl, hb⟩ := (h.by_id key b).mp (hrest (key, b) List.mem_cons_self)
    have hindex := h.hash_eq_some.mpr ⟨id, rfl, b, hb, rfl⟩
    refine ⟨_, verifyBlock_ok (hashed id b hb) hindex, hclean, fun e he => hrest e (List.mem_cons_of_mem _ he), fun x => ?_⟩
    rw [← hids x]
    simp [blockId_bytes_inj, or_assoc]
  obtain ⟨acc, hacc, hclean, -, hids⟩ := Loop.foldlM_total pass start
  exact ⟨acc, hacc, hclean, fun id => by simpa using hids id⟩

/-- The pass over the session index finds every stored block listed, and no orphan. -/
theorem Represents.verify_sessions {c : Catalog} (h : st.Represents c.toContents) {allIds : List BlockId}
    (hall : ∀ id, id ∈ allIds ↔ c.Stored id) {r : VerifyReport} (hr : r.isClean = true) :
    ∃ acc, st.blocksBySession.keys.foldlM (verifySessionKey allIds) (r, []) = .ok acc ∧ acc.1.isClean = true ∧
      ∀ id, c.Stored id → id ∈ acc.2 := by
  let P : VerifyReport × List BlockId → List Bytes → Prop := fun acc rest =>
    acc.1.isClean = true ∧ (∀ key ∈ rest, key ∈ st.blocksBySession) ∧
      ∀ s id, id ∈ c.lists s → id ∈ acc.2 ∨ sessionBlockKey s id ∈ rest
  have start : P (r, []) st.blocksBySession.keys :=
    ⟨hr, fun key => Std.ExtTreeMap.mem_keys.mp, fun s id hid =>
      Or.inr (Std.ExtTreeMap.mem_keys.mpr ((h.by_session _).mpr ⟨s, id, rfl, hid⟩))⟩
  have pass : ∀ key rest acc, P acc (key :: rest) →
      ∃ acc', verifySessionKey allIds acc key = .ok acc' ∧ P acc' rest := by
    rintro key rest ⟨r, ids⟩ ⟨hclean, hrest, hids⟩
    obtain ⟨s, id, rfl, hid⟩ := (h.by_session key).mp (hrest key List.mem_cons_self)
    refine ⟨_, verifySessionKey_ok ((hall id).mpr (c.listed_stored hid)), hclean,
      fun k hk => hrest k (List.mem_cons_of_mem _ hk), fun s' id' hid' => ?_⟩
    have := hids s' id' hid'
    simp only [List.mem_cons, sessionBlockKey_inj, List.mem_append, List.not_mem_nil, or_false] at this ⊢
    tauto
  obtain ⟨acc, hacc, hclean, -, hids⟩ := Loop.foldlM_total pass start
  refine ⟨acc, hacc, hclean, fun id hid => ?_⟩
  obtain ⟨s, hs⟩ := c.stored_listed hid
  simpa using hids s id hs

/-- The tables of a catalog pass every check. -/
theorem Represents.verify_clean {c : Catalog} (h : st.Represents c.toContents)
    (hashed : Hashed contentHashOf c.toContents) : ∃ r, st.verify contentHashOf = .ok r ∧ r.isClean = true := by
  obtain ⟨⟨r₁, allIds⟩, hblocks, hclean₁, hall⟩ :=
    h.verify_blocks hashed (r := ⟨0, [], [], [], 0, []⟩) (isClean_iff.mpr ⟨rfl, rfl, rfl, rfl, rfl⟩)
  obtain ⟨⟨r₂, ids⟩, hsessions, hclean₂, hids⟩ := h.verify_sessions hall hclean₁
  refine ⟨_, by rw [verify, hblocks, Loop.ok_bind]; simp only [hsessions, Loop.ok_bind]; rfl, ?_⟩
  have hnone : allIds.filter (· ∉ ids) = [] :=
    List.filter_eq_nil_iff.mpr fun id hid => by simpa using hids id ((hall id).mp hid)
  obtain ⟨h₁, h₂, h₃, h₄, -⟩ := isClean_iff.mp hclean₂
  exact isClean_iff.mpr ⟨h₁, h₂, h₃, h₄, hnone⟩

/-! ### The invariant -/

/-- What the five tables keep. -/
structure Invariant (st : LmdbStore) : Prop where
  /-- `blocks_by_hash` is the inverse of id → hash on `blocks_by_id`. -/
  hash_index : ∀ hashKey idKey, st.blocksByHash[hashKey]? = some idKey ↔
    ∃ b : ContextBlock, st.blocksById[idKey]? = some b ∧ b.hash.bytes = hashKey
  hash_injective : ∀ (i j : Bytes) (a b : ContextBlock), st.blocksById[i]? = some a → st.blocksById[j]? = some b → a.hash = b.hash → i = j
  own_id : ∀ (key : Bytes) (b : ContextBlock), st.blocksById[key]? = some b → key = b.id.raw.toBeBytes
  listed_stored : ∀ key ∈ st.blocksBySession, ∃ s id, key = sessionBlockKey s id ∧ id.raw.toBeBytes ∈ st.blocksById
  stored_listed : ∀ id, id.raw.toBeBytes ∈ st.blocksById → ∃ s, sessionBlockKey s id ∈ st.blocksBySession
  edge_keys : ∀ key, (key ∈ st.edgesFromKeys → ∃ a k b, key = edgeKey a k b) ∧
    (key ∈ st.edgesToKeys → ∃ a k b, key = edgeKey a k b)
  mirror : ∀ a k b, edgeKey a k b ∈ st.edgesFromKeys ↔ edgeKey b k a ∈ st.edgesToKeys

theorem Represents.mem_blocksById {c : Contents} (h : st.Represents c) {id : BlockId} :
    id.raw.toBeBytes ∈ st.blocksById ↔ c.Stored id := by
  rw [mem_iff_isSome, Option.isSome_iff_exists]
  exact exists_congr fun b => (h.get_eq id) ▸ Iff.rfl

theorem Represents.invariant {c : Catalog} (h : st.Represents c.toContents) : st.Invariant where
  hash_index hashKey idKey := by
    rw [h.by_hash]
    constructor
    · rintro ⟨hash, id, rfl, rfl, b, hb, rfl⟩
      exact ⟨b, (h.by_id _ _).mpr ⟨id, rfl, hb⟩, rfl⟩
    · rintro ⟨b, hb, rfl⟩
      obtain ⟨id, rfl, hid⟩ := (h.by_id _ _).mp hb
      exact ⟨b.hash, id, rfl, rfl, b, hid, rfl⟩
  hash_injective i j a b hi hj heq := by
    obtain ⟨x, rfl, hx⟩ := (h.by_id _ _).mp hi
    obtain ⟨y, rfl, hy⟩ := (h.by_id _ _).mp hj
    rw [c.hash_inj ⟨a, hx, heq⟩ ⟨b, hy, rfl⟩]
  own_id key b hb := by
    obtain ⟨id, rfl, hid⟩ := (h.by_id _ _).mp hb
    rw [c.block_id hid]
  listed_stored key hkey := by
    obtain ⟨s, id, rfl, hid⟩ := (h.by_session key).mp hkey
    exact ⟨s, id, rfl, h.mem_blocksById.mpr (c.listed_stored hid)⟩
  stored_listed id hid := by
    obtain ⟨s, hs⟩ := c.stored_listed (h.mem_blocksById.mp hid)
    exact ⟨s, (h.by_session _).mpr ⟨s, id, rfl, hs⟩⟩
  edge_keys key := by
    constructor
    · intro hkey
      obtain ⟨e, -, rfl⟩ := (h.edges_from key).mp hkey
      exact ⟨_, _, _, rfl⟩
    · intro hkey
      obtain ⟨e, -, rfl⟩ := (h.edges_to key).mp hkey
      exact ⟨_, _, _, rfl⟩
  mirror a k b := by
    rw [h.edges_from, h.edges_to]
    refine exists_congr fun e => and_congr_right fun _ => ?_
    simp only [fromKey, toKey, edgeKey_inj]
    tauto

/-- Every reachable store keeps the invariant of its tables, and `verify` reports it clean. -/
theorem reachable_invariant (h : Reachable contentHashOf st) :
    st.Invariant ∧ ∃ r, st.verify contentHashOf = .ok r ∧ r.isClean = true := by
  obtain ⟨c, h, hashed⟩ := h.represents
  exact ⟨h.invariant, h.verify_clean hashed⟩

/-- Two blocks of session 1, one of them shared with session 2, and an edge between them. -/
def sampleOps : List WriteOp :=
  [.put ⟨1⟩ (sampleBlock ⟨7⟩ .fact [0x61] []), .put ⟨1⟩ (sampleBlock ⟨8⟩ .fact [0x62] []),
    .put ⟨2⟩ (sampleBlock ⟨9⟩ .fact [0x61] []), .putEdge ⟨⟨8⟩, ⟨7⟩, .supports⟩]

/-- The store after operations that are admissible in their order. -/
def storeAfter (ops : List WriteOp) : LmdbStore := (empty.run sampleHash ops).getD empty

theorem storeAfter_reachable {ops : List WriteOp} (h : (empty.run sampleHash ops).isSome) :
    Reachable sampleHash (storeAfter ops) := .of_run h

def sampleStore : LmdbStore := storeAfter sampleOps

theorem sampleStore_reachable : Reachable sampleHash sampleStore := storeAfter_reachable (by decide +kernel)

theorem reachable_invariant_sample : sampleStore.listSession ⟨2⟩ = .ok [⟨7⟩] ∧ sampleStore.Invariant ∧
    ∃ r, sampleStore.verify sampleHash = .ok r ∧ r.isClean = true :=
  ⟨by decide +kernel, reachable_invariant sampleStore_reachable⟩

end Llm386.LmdbStore
