import Llm386.Lmdb.Index

/-! # The LMDB store refines a catalog

`Represents st c` says that the five tables of `st` hold exactly the contents `c`. Every operation of the store
on tables that represent a catalog gives the tables that represent the operation of the catalog. -/

namespace Llm386.LmdbStore
open Contents KeyTable

/-- The tables hold exactly the contents `c`, and no key besides. -/
structure Represents (st : LmdbStore) (c : Contents) : Prop where
  by_id : ∀ key b, st.blocksById[key]? = some b ↔ ∃ id, key = id.raw.toBeBytes ∧ c.block id = some b
  by_hash : ∀ key v, st.blocksByHash[key]? = some v ↔
    ∃ h id, key = ContentHash.bytes h ∧ v = id.raw.toBeBytes ∧ c.Holds id h
  by_session : ∀ key, key ∈ st.blocksBySession ↔ ∃ s id, key = sessionBlockKey s id ∧ id ∈ c.lists s
  edges_from : ∀ key, key ∈ st.edgesFromKeys ↔ ∃ e ∈ c.edges, key = fromKey e
  edges_to : ∀ key, key ∈ st.edgesToKeys ↔ ∃ e ∈ c.edges, key = toKey e

theorem represents_empty : empty.Represents .empty := by
  constructor <;> simp [empty, Contents.empty, Holds]

variable {st : LmdbStore} {c : Contents}

theorem put_of_indexed {b : ContextBlock} {id : BlockId} (h : st.blocksByHash[b.hash.bytes]? = some id.raw.toBeBytes)
    (s : SessionId) :
    st.put s b = .ok (id, { st with blocksBySession := st.blocksBySession.insert (sessionBlockKey s id) [] }) := by
  simp only [put, h, decodeBlockId_toBeBytes, Loop.ok_bind]
  rfl

theorem put_of_unindexed {b : ContextBlock} (h : st.blocksByHash[b.hash.bytes]? = none) (s : SessionId) :
    st.put s b = .ok (b.id, { st with
      blocksById := st.blocksById.insert b.id.raw.toBeBytes b
      blocksByHash := st.blocksByHash.insert b.hash.bytes b.id.raw.toBeBytes
      blocksBySession := st.blocksBySession.insert (sessionBlockKey s b.id) [] }) := by
  simp only [put, h]
  rfl

namespace Represents

/-! ### Reads -/

theorem get_eq (h : st.Represents c) (id : BlockId) : st.get id = c.block id := by
  refine Option.ext fun b => ?_
  rw [get, h.by_id]
  constructor
  · rintro ⟨id', hid, hb⟩
    rwa [blockId_bytes_inj.mp hid]
  · exact fun hb => ⟨id, rfl, hb⟩

theorem hash_eq_some (h : st.Represents c) {hash : ContentHash} {v : Bytes} :
    st.blocksByHash[hash.bytes]? = some v ↔ ∃ id, v = id.raw.toBeBytes ∧ c.Holds id hash := by
  rw [h.by_hash]
  constructor
  · rintro ⟨hash', id, hk, hv, hid⟩
    exact ⟨id, hv, ContentHash.bytes_inj.mp hk ▸ hid⟩
  · rintro ⟨id, hv, hid⟩
    exact ⟨hash, id, rfl, hv, hid⟩

theorem hash_eq_none (h : st.Represents c) {hash : ContentHash} :
    st.blocksByHash[hash.bytes]? = none ↔ ∀ id, ¬c.Holds id hash := by
  rw [Option.eq_none_iff_forall_ne_some]
  constructor
  · exact fun hn id hid => hn id.raw.toBeBytes (h.hash_eq_some.mpr ⟨id, rfl, hid⟩)
  · intro hn v hv
    obtain ⟨id, -, hid⟩ := h.hash_eq_some.mp hv
    exact hn id hid

/-- The hash index holds one id a hash, so content is stored once. -/
theorem hash_inj (h : st.Represents c) {hash : ContentHash} {i j : BlockId} (hi : c.Holds i hash)
    (hj : c.Holds j hash) : i = j := by
  have hi := h.hash_eq_some.mpr ⟨i, rfl, hi⟩
  have hj := h.hash_eq_some.mpr ⟨j, rfl, hj⟩
  exact blockId_bytes_inj.mp (Option.some.inj (hi.symm.trans hj))

theorem lookupHash_some (h : st.Represents c) {hash : ContentHash} {id : BlockId} (hid : c.Holds id hash) :
    st.lookupHash hash = .ok (some id) := by
  simp only [lookupHash, h.hash_eq_some.mpr ⟨id, rfl, hid⟩, decodeBlockId_toBeBytes]
  rfl

theorem lookupHash_none (h : st.Represents c) {hash : ContentHash} (hn : ∀ id, ¬c.Holds id hash) :
    st.lookupHash hash = .ok none := by
  simp only [lookupHash, h.hash_eq_none.mpr hn]

theorem lookupHash_eq (h : st.Represents c) (hash : ContentHash) : ∃ r, st.lookupHash hash = .ok r ∧
    ∀ id, r = some id ↔ c.Holds id hash := by
  by_cases held : ∃ id, c.Holds id hash
  · obtain ⟨id, hid⟩ := held
    refine ⟨some id, h.lookupHash_some hid, fun x => ?_⟩
    rw [Option.some.injEq]
    exact ⟨fun heq => heq ▸ hid, h.hash_inj hid⟩
  · exact ⟨none, h.lookupHash_none (not_exists.mp held), fun id => by simpa using not_exists.mp held id⟩

theorem indexed (h : st.Represents c) : st.IndexedBy c := ⟨h.by_session, h.edges_from, h.edges_to⟩

theorem listSession_eq (h : st.Represents c) (s : SessionId) :
    ∃ ids, st.listSession s = .ok ids ∧ c.IsListing s ids := h.indexed.listSession_eq s

theorem listSessions_eq (h : st.Represents c) : ∃ ss, st.listSessions = .ok ss ∧ c.IsSessionListing ss :=
  h.indexed.listSessions_eq

theorem edgesFrom_eq (h : st.Represents c) (id : BlockId) :
    ∃ es, st.edgesFrom id = .ok es ∧ ∀ e, e ∈ es ↔ e ∈ c.edges ∧ e.fromId = id := by
  obtain ⟨es, hes, -, hmem⟩ := h.indexed.edgesFrom_eq id
  exact ⟨es, hes, hmem⟩

theorem edgesTo_eq (h : st.Represents c) (id : BlockId) :
    ∃ es, st.edgesTo id = .ok es ∧ ∀ e, e ∈ es ↔ e ∈ c.edges ∧ e.toId = id := by
  obtain ⟨es, hes, -, hmem⟩ := h.indexed.edgesTo_eq id
  exact ⟨es, hes, hmem⟩

/-! ### Writes -/

/-- Writes to the session index and the edge tables leave the block tables to the same blocks. -/
theorem of_indexed {st' : LmdbStore} {c' : Contents} (h : st.Represents c) (same : SameBlocks st st')
    (hi : st'.IndexedBy c') (hblock : c'.block = c.block) : st'.Represents c' where
  by_id key b := by
    rw [same.1, hblock]
    exact h.by_id key b
  by_hash key v := by
    simp only [same.2, Holds, hblock]
    exact h.by_hash key v
  by_session := hi.sessions
  edges_from := hi.edges_from
  edges_to := hi.edges_to

/-- Content already stored is shared: its id comes back, and only the session learns of it. -/
theorem put_held (h : st.Represents c) (s : SessionId) {b : ContextBlock} {id : BlockId} (held : c.Holds id b.hash) :
    ∃ st', st.put s b = .ok (id, st') ∧ st'.Represents (c.share s id) :=
  ⟨_, put_of_indexed (h.hash_eq_some.mpr ⟨id, rfl, held⟩) s, { h with by_session := h.indexed.session_insert s id }⟩

/-- New content under an id that stores nothing. -/
theorem put_new (h : st.Represents c) (s : SessionId) {b : ContextBlock} (new : ∀ id, ¬c.Holds id b.hash)
    (fresh : ¬c.Stored b.id) : ∃ st', st.put s b = .ok (b.id, st') ∧ st'.Represents (c.store s b) := by
  refine ⟨_, put_of_unindexed (h.hash_eq_none.mpr new) s, ⟨?_, ?_, h.indexed.session_insert s b.id, h.edges_from, h.edges_to⟩⟩
  · intro key b'
    rw [getElem?_insert_eq]
    split
    · rename_i hk
      constructor
      · rintro ⟨rfl⟩
        exact ⟨b.id, hk.symm, by simp [store]⟩
      · rintro ⟨id, hid, hb⟩
        obtain rfl := blockId_bytes_inj.mp (hk.trans hid)
        simpa [store] using hb
    · rename_i hk
      rw [h.by_id]
      refine exists_congr fun id => and_congr_right fun hid => ?_
      have hne : id ≠ b.id := fun hid' => hk (hid' ▸ hid.symm)
      simp [store, share, hne]
  · intro key v
    rw [getElem?_insert_eq]
    split
    · rename_i hk
      constructor
      · rintro ⟨rfl⟩
        exact ⟨b.hash, b.id, hk.symm, rfl, holds_store_iff.mpr (Or.inl ⟨rfl, rfl⟩)⟩
      · rintro ⟨hash, id, hkey, rfl, hid⟩
        obtain rfl := ContentHash.bytes_inj.mp (hk.trans hkey)
        rcases holds_store_iff.mp hid with ⟨rfl, -⟩ | ⟨-, hid⟩
        · rfl
        · exact absurd hid (new id)
    · rename_i hk
      rw [h.by_hash]
      refine exists_congr fun hash => exists_congr fun id => and_congr_right fun hkey => and_congr_right fun _ => ?_
      rw [holds_store_iff]
      constructor
      · intro hid
        refine Or.inr ⟨?_, hid⟩
        rintro rfl
        obtain ⟨a, ha, -⟩ := hid
        exact fresh ⟨a, ha⟩
      · rintro (⟨-, rfl⟩ | ⟨-, hid⟩)
        · exact absurd hkey.symm hk
        · exact hid

theorem putEdge_link (h : st.Represents c) (e : Edge) : (st.putEdge e).Represents (c.link e) :=
  h.of_indexed ⟨rfl, rfl⟩ (h.indexed.putEdge_link e) rfl

theorem purgeEdgesForBlock_eq (h : st.Represents c) (id : BlockId) : ∃ st', st.purgeEdgesForBlock id = .ok st' ∧
    st'.Represents { c with edges := {e ∈ c.edges | ¬e.Touches {id}} } := by
  obtain ⟨st', hst', hsame, h'⟩ := h.indexed.purgeEdgesForBlock_eq id
  exact ⟨st', hst', h.of_indexed hsame h' rfl⟩

/-- The content of a block that no session lists leaves with its hash entry. -/
theorem drop_content (h : st.Represents c) {id : BlockId} {b : ContextBlock} (hb : c.block id = some b)
    (unlisted : ∀ s, id ∉ c.lists s) :
    Represents { st with
      blocksById := st.blocksById.erase id.raw.toBeBytes
      blocksByHash := st.blocksByHash.erase b.hash.bytes } { c.erase {id} with edges := c.edges } where
  by_id key b' := by
    rw [getElem?_erase_eq]
    split
    · rename_i hk
      simp only [reduceCtorEq, block_erase_eq_some, Set.mem_singleton_iff, false_iff]
      rintro ⟨id', hid', hne, -⟩
      exact hne (blockId_bytes_inj.mp (hk.trans hid')).symm
    · rename_i hk
      rw [h.by_id]
      refine exists_congr fun id' => and_congr_right fun hid' => ?_
      rw [block_erase_eq_some]
      exact ⟨fun hb' => ⟨fun heq => hk (by rw [hid', heq]), hb'⟩, And.right⟩
  by_hash key v := by
    have hid : c.Holds id b.hash := ⟨b, hb, rfl⟩
    rw [getElem?_erase_eq]
    split
    · rename_i hk
      simp only [reduceCtorEq, false_iff]
      rintro ⟨hash, id', hkey, -, hid'⟩
      obtain ⟨hne, hid'⟩ := holds_erase_iff.mp hid'
      obtain rfl := ContentHash.bytes_inj.mp (hk.trans hkey)
      exact hne (h.hash_inj hid' hid)
    · rename_i hk
      rw [h.by_hash]
      refine exists_congr fun hash => exists_congr fun id' => and_congr_right fun hkey => and_congr_right fun _ => ?_
      refine Iff.trans ⟨fun hid' => ⟨?_, hid'⟩, And.right⟩ (holds_erase_iff (c := c)).symm
      rintro rfl
      obtain ⟨a, ha, rfl⟩ := hid'
      obtain rfl := Option.some.inj (hb.symm.trans ha)
      exact hk hkey.symm
  by_session key := by
    rw [h.by_session]
    refine exists_congr fun s => exists_congr fun id' => and_congr_right fun _ => ⟨fun hs => ⟨hs, ?_⟩, And.left⟩
    rintro rfl
    exact unlisted s hs
  edges_from := h.edges_from
  edges_to := h.edges_to

/-- Removing every session entry of a block. -/
theorem unlist (h : st.Represents c) (id : BlockId) :
    Represents { st with blocksBySession := eraseAll st.blocksBySession (st.sessionKeysOf id) }
      { c with lists := fun s => c.lists s \ {id} } :=
  h.of_indexed ⟨rfl, rfl⟩ (h.indexed.unlist id) rfl

/-- `delete` of a stored block erases it. -/
theorem delete_stored (h : st.Represents c) {id : BlockId} (stored : c.Stored id) :
    ∃ st', st.delete id = .ok (true, st') ∧ st'.Represents (c.erase {id}) := by
  obtain ⟨b, hb⟩ := stored
  have hget : st.blocksById[id.raw.toBeBytes]? = some b := (h.get_eq id).trans hb
  have h₁ := h.unlist id
  have h₂ := h₁.drop_content hb fun s hs => hs.2 rfl
  obtain ⟨st₃, hst₃, h₃⟩ := h₂.purgeEdgesForBlock_eq id
  refine ⟨st₃, ?_, ?_⟩
  · simp only [delete, hget, Option.map_some, Option.isSome_some, Bool.true_or, Bool.not_true, Bool.false_eq_true,
      if_false, if_true]
    rw [hst₃]
    rfl
  · have hc : { (erase { c with lists := fun s => c.lists s \ {id} } {id}) with
        edges := {e ∈ c.edges | ¬e.Touches {id}} } = c.erase {id} := by
      ext <;> simp [erase]
    rwa [← hc]

/-- `delete` of a block neither stored nor listed changes nothing. -/
theorem delete_absent (h : st.Represents c) {id : BlockId} (absent : ¬c.Stored id) (unlisted : ∀ s, id ∉ c.lists s) :
    st.delete id = .ok (false, st) := by
  have hget : st.blocksById[id.raw.toBeBytes]? = none :=
    (h.get_eq id).trans (Option.eq_none_iff_forall_ne_some.mpr fun b hb => absent ⟨b, hb⟩)
  obtain ⟨ss, hss, hmem⟩ := h.indexed.sessionKeysOf_eq id
  obtain rfl : ss = [] := List.eq_nil_iff_forall_not_mem.mpr fun s hs => unlisted s ((hmem s).mp hs)
  rw [delete, hget, hss]
  rfl

/-- A block that a session still lists keeps its content. -/
theorem purgeUnreferenced_listed (h : st.Represents c) {s : SessionId} {id : BlockId} (listed : id ∈ c.lists s) :
    st.purgeUnreferenced id = .ok st := by
  obtain ⟨ss, hss, hmem⟩ := h.indexed.sessionKeysOf_eq id
  have hne : st.sessionKeysOf id ≠ [] := by
    rw [hss]
    exact List.ne_nil_of_mem (List.mem_map_of_mem ((hmem s).mpr listed))
  rw [purgeUnreferenced, if_pos hne]
  rfl

theorem purgeUnreferenced_unlisted (h : st.Represents c) {id : BlockId} (unlisted : ∀ s, id ∉ c.lists s)
    (stored : c.Stored id) : ∃ st', st.purgeUnreferenced id = .ok st' ∧ st'.Represents (c.erase {id}) := by
  obtain ⟨ss, hss, hmem⟩ := h.indexed.sessionKeysOf_eq id
  obtain rfl : ss = [] := List.eq_nil_iff_forall_not_mem.mpr fun s hs => unlisted s ((hmem s).mp hs)
  obtain ⟨b, hb⟩ := stored
  obtain ⟨st', hst', h'⟩ := (h.drop_content hb unlisted).purgeEdgesForBlock_eq id
  refine ⟨st', ?_, h'⟩
  have hget : st.blocksById[id.raw.toBeBytes]? = some b := (h.get_eq id).trans hb
  rw [purgeUnreferenced, if_neg (by simp [hss]), hget]
  exact hst'

/-- Removing the entries of one session. -/
theorem forget (h : st.Represents c) {s : SessionId} {ids : List BlockId} (hids : c.IsListing s ids) :
    Represents { st with blocksBySession := eraseAll st.blocksBySession (ids.map (sessionBlockKey s)) }
      (c.forget s) :=
  h.of_indexed ⟨rfl, rfl⟩ (h.indexed.forget hids) rfl

end Represents

/-- The loop of `purge_session` with `rest` still to come: the exclusive blocks it has passed are erased. -/
structure Purging (c : Contents) (s : SessionId) (st : LmdbStore) (rest : List BlockId) : Prop where
  tables : st.Represents ((c.forget s).erase {id | id ∈ c.exclusive s ∧ id ∉ rest})
  nodup : rest.Nodup
  listed : ∀ id ∈ rest, id ∈ c.lists s

theorem Purging.pass {s : SessionId} (listed_stored : ∀ id ∈ c.lists s, c.Stored id) {id : BlockId}
    {rest : List BlockId} (h : Purging c s st (id :: rest)) :
    ∃ st', st.purgeUnreferenced id = .ok st' ∧ Purging c s st' rest := by
  obtain ⟨hst, hnodup, hlisted⟩ := h
  obtain ⟨hid, hnodup⟩ := List.nodup_cons.mp hnodup
  have hs := hlisted id List.mem_cons_self
  have hlisted : ∀ x ∈ rest, x ∈ c.lists s := fun x hx => hlisted x (List.mem_cons_of_mem _ hx)
  have hkept : id ∉ {x | x ∈ c.exclusive s ∧ x ∉ id :: rest} := fun hx => hx.2 List.mem_cons_self
  by_cases shared : ∃ s', id ∈ (c.forget s).lists s'
  · obtain ⟨s', hs'⟩ := shared
    refine ⟨st, hst.purgeUnreferenced_listed (s := s') ⟨hs', hkept⟩, ?_, hnodup, hlisted⟩
    have hsame : {x | x ∈ c.exclusive s ∧ x ∉ rest} = {x | x ∈ c.exclusive s ∧ x ∉ id :: rest} := by
      ext x
      simp only [Set.mem_ofPred_eq, List.mem_cons, not_or]
      refine and_congr_right fun hx => ⟨fun hrest => ⟨?_, hrest⟩, And.right⟩
      rintro rfl
      exact (mem_exclusive.mp hx).2 s' hs'
    rwa [hsame]
  · have hexcl : id ∈ c.exclusive s := mem_exclusive.mpr ⟨hs, not_exists.mp shared⟩
    obtain ⟨st', hst', h'⟩ := hst.purgeUnreferenced_unlisted (fun s' hs' => shared ⟨s', hs'.1⟩)
      (stored_erase_iff.mpr ⟨hkept, listed_stored id hs⟩)
    refine ⟨st', hst', ?_, hnodup, hlisted⟩
    have hmore : {x | x ∈ c.exclusive s ∧ x ∉ rest} = {x | x ∈ c.exclusive s ∧ x ∉ id :: rest} ∪ {id} := by
      ext x
      by_cases heq : x = id
      · simp [heq, hexcl, hid]
      · simp [heq]
    rwa [hmore, ← erase_erase]

/-- A purge leaves what the catalog's purge leaves, and counts the blocks it drops from the session. -/
theorem Represents.purgeSession_eq (h : st.Represents c) {s : SessionId}
    (listed_stored : ∀ id ∈ c.lists s, c.Stored id) {ids : List BlockId} (hids : c.IsListing s ids) :
    ∃ st', st.purgeSession s = .ok (ids.length, st') ∧ st'.Represents (c.purge s) := by
  obtain ⟨ids', hids', hscan⟩ := h.indexed.session_scan s
  obtain rfl := hids.unique hids'
  have hwide : (prefixIter st.blocksBySession s.raw.toBeBytes).filter (fun e => e.1.length == 32) =
      prefixIter st.blocksBySession s.raw.toBeBytes := by
    rw [List.filter_eq_self]
    intro e he
    have hk := List.mem_map_of_mem (f := (·.1)) he
    rw [hscan] at hk
    obtain ⟨id, -, hid⟩ := List.mem_map.mp hk
    rw [← hid, length_sessionBlockKey]
    rfl
  have hsuffix : ∀ id ∈ ids, sessionKeySuffix (sessionBlockKey s id) = .ok id := fun id _ => by simp
  have hread := Loop.mapM_proj_eq_ok hscan hsuffix
  rw [List.map_id'] at hread
  have hnone : {id | id ∈ c.exclusive s ∧ id ∉ ids} = (∅ : Set BlockId) := by
    ext id
    simp only [Set.mem_ofPred_eq, Set.mem_empty_iff_false, iff_false, not_and, not_not]
    exact fun hid => hids.mem.mpr hid.1
  have start : Purging c s { st with blocksBySession := eraseAll st.blocksBySession (ids.map (sessionBlockKey s)) }
      ids := ⟨by rw [hnone, erase_empty]; exact h.forget hids, hids.nodup, fun id => hids.mem.mp⟩
  obtain ⟨st', hst', h', -, -⟩ := Loop.foldlM_total (P := Purging c s) (fun _ _ _ hP => Purging.pass listed_stored hP) start
  simp only [List.not_mem_nil, not_false_eq_true, and_true, Set.ofPred_mem_eq] at h'
  rw [purgeSession, hwide, hread, Loop.ok_bind]
  cases ids with
  | nil =>
    cases hst'
    exact ⟨st, rfl, h'⟩
  | cons id ids =>
    refine ⟨st', ?_, h'⟩
    simp only [List.length_cons, Nat.add_one_ne_zero, if_false]
    rw [hst']
    rfl

end Llm386.LmdbStore
