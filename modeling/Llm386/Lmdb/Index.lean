import Llm386.Lib.Loop
import Llm386.Lmdb.Keys
import Llm386.Store.Catalog

/-! # The session index and the edge tables

`IndexedBy st c` says that the session index and the two edge tables of `st` hold exactly the listings and the edges
of `c`, whatever the block tables hold. Listings and edge scans then read off `c`. -/

namespace Llm386.LmdbStore
open Contents KeyTable

/-- The session index and the edge tables hold exactly the listings and the edges of `c`. -/
structure IndexedBy (st : LmdbStore) (c : Contents) : Prop where
  sessions : ∀ key, key ∈ st.blocksBySession ↔ ∃ s id, key = sessionBlockKey s id ∧ id ∈ c.lists s
  edges_from : ∀ key, key ∈ st.edgesFromKeys ↔ ∃ e ∈ c.edges, key = fromKey e
  edges_to : ∀ key, key ∈ st.edgesToKeys ↔ ∃ e ∈ c.edges, key = toKey e

/-- The two stores have the same block tables. -/
def SameBlocks (st st' : LmdbStore) : Prop :=
  st'.blocksById = st.blocksById ∧ st'.blocksByHash = st.blocksByHash

variable {st : LmdbStore} {c : Contents}

namespace IndexedBy

/-! ### Reads -/

/-- The session keys are the pairs of a session and a block it lists. -/
theorem session_keys (h : st.IndexedBy c) (key : Bytes) :
    key ∈ st.blocksBySession ↔ ∃ x ∈ {x : SessionId × BlockId | x.2 ∈ c.lists x.1}, key = sessionBlockKey x.1 x.2 := by
  rw [h.sessions]
  constructor
  · rintro ⟨s, id, hk, hid⟩
    exact ⟨(s, id), hid, hk⟩
  · rintro ⟨⟨s, id⟩, hid, hk⟩
    exact ⟨s, id, hk, hid⟩

/-- A scan of a session finds the keys of its blocks, in the order of their ids. -/
theorem session_scan (h : st.IndexedBy c) (s : SessionId) : ∃ ids, c.IsListing s ids ∧
    (prefixIter st.blocksBySession s.raw.toBeBytes).map (·.1) = ids.map (sessionBlockKey s) := by
  obtain ⟨l, hl, hmem, hsorted⟩ := exists_scan sessionBlockKey_injective h.session_keys s.raw.toBeBytes
  have hsession : ∀ x ∈ l, x.1 = s := fun x hx => (prefix_sessionBlockKey.mp ((hmem x).mp hx).2).symm
  refine ⟨l.map (·.2), ⟨?_, ?_⟩, ?_⟩
  · rw [List.pairwise_map]
    refine hsorted.imp_of_mem fun {x y} hx hy hlt => ?_
    rw [hsession x hx, hsession y hy] at hlt
    exact lt_of_compare_sessionBlockKey hlt
  · intro id
    rw [List.mem_map]
    constructor
    · rintro ⟨x, hx, rfl⟩
      exact hsession x hx ▸ ((hmem x).mp hx).1
    · exact fun hid => ⟨(s, id), (hmem _).mpr ⟨hid, prefix_sessionBlockKey.mpr rfl⟩, rfl⟩
  · rw [hl, List.map_map]
    exact List.map_congr_left fun x hx => by rw [Function.comp, hsession x hx]

theorem listSession_eq (h : st.IndexedBy c) (s : SessionId) :
    ∃ ids, st.listSession s = .ok ids ∧ c.IsListing s ids := by
  obtain ⟨ids, hids, hscan⟩ := h.session_scan s
  have hlisted : ∀ id ∈ ids, listedBlock (sessionBlockKey s id) = .ok id := fun id _ => by simp [listedBlock]
  exact ⟨ids, (Loop.mapM_proj_eq_ok hscan hlisted).trans (by rw [List.map_id']), hids⟩

theorem listSessions_eq (h : st.IndexedBy c) : ∃ ss, st.listSessions = .ok ss ∧ c.IsSessionListing ss := by
  obtain ⟨l, hl, hmem, -⟩ := exists_scan sessionBlockKey_injective h.session_keys []
  rw [prefixIter_nil] at hl
  have hwide : st.blocksBySession.keys.filter (fun key => 16 ≤ key.length) = st.blocksBySession.keys := by
    rw [hl, List.filter_eq_self]
    intro k hk
    obtain ⟨x, -, rfl⟩ := List.mem_map.mp hk
    simp
  have hseen : st.blocksBySession.keys.mapM sessionKeyPrefix = .ok (l.map (·.1)) := by
    rw [hl, List.mapM_map]
    exact Loop.mapM_eq_ok fun x _ => sessionKeyPrefix_sessionBlockKey x.1 x.2
  refine ⟨_, by rw [listSessions, hwide, hseen]; rfl, ?_, ?_⟩
  · exact Std.ExtTreeSet.ordered_toList.imp fun hlt => compare_lt_iff_lt.mp hlt
  · intro s
    rw [Std.ExtTreeSet.mem_toList, Std.ExtTreeSet.mem_ofList, List.contains_iff_mem, List.mem_map]
    constructor
    · rintro ⟨x, hx, rfl⟩
      exact ⟨x.2, ((hmem x).mp hx).1⟩
    · rintro ⟨id, hid⟩
      exact ⟨(s, id), (hmem _).mpr ⟨hid, List.nil_prefix⟩, rfl⟩

/-- A scan of `edges_from` finds the keys of the edges out of a block. -/
theorem from_scan (h : st.IndexedBy c) (id : BlockId) : ∃ es : List Edge,
    (∀ e, e ∈ es ↔ e ∈ c.edges ∧ e.fromId = id) ∧ es.Nodup ∧
      (prefixIter st.edgesFromKeys id.raw.toBeBytes).map (·.1) = es.map fromKey := by
  obtain ⟨es, hes, hmem, hsorted⟩ := exists_scan fromKey_injective h.edges_from id.raw.toBeBytes
  refine ⟨es, fun e => by rw [hmem, fromKey, prefix_edgeKey, eq_comm (a := id)], hsorted.imp fun hlt heq => ?_, hes⟩
  simp [heq] at hlt

theorem to_scan (h : st.IndexedBy c) (id : BlockId) : ∃ es : List Edge,
    (∀ e, e ∈ es ↔ e ∈ c.edges ∧ e.toId = id) ∧ es.Nodup ∧
      (prefixIter st.edgesToKeys id.raw.toBeBytes).map (·.1) = es.map toKey := by
  obtain ⟨es, hes, hmem, hsorted⟩ := exists_scan toKey_injective h.edges_to id.raw.toBeBytes
  refine ⟨es, fun e => by rw [hmem, toKey, prefix_edgeKey, eq_comm (a := id)], hsorted.imp fun hlt heq => ?_, hes⟩
  simp [heq] at hlt

theorem edgesFrom_eq (h : st.IndexedBy c) (id : BlockId) :
    ∃ es, st.edgesFrom id = .ok es ∧ es.Nodup ∧ ∀ e, e ∈ es ↔ e ∈ c.edges ∧ e.fromId = id := by
  obtain ⟨es, hmem, hnodup, hscan⟩ := h.from_scan id
  have hread : ∀ e ∈ es, scannedEdge (fromKey e) = .ok (e.kind, e.toId) := fun e _ => scannedEdge_edgeKey ..
  have hfrom : ∀ e ∈ es, ({ fromId := id, toId := e.toId, kind := e.kind } : Edge) = e := by
    intro e he
    rw [← ((hmem e).mp he).2]
  refine ⟨es, ?_, hnodup, hmem⟩
  rw [edgesFrom, Loop.mapM_proj_eq_ok hscan hread, Loop.ok_bind, List.map_map]
  exact congrArg Except.ok ((List.map_congr_left hfrom).trans (List.map_id' es))

theorem edgesTo_eq (h : st.IndexedBy c) (id : BlockId) :
    ∃ es, st.edgesTo id = .ok es ∧ es.Nodup ∧ ∀ e, e ∈ es ↔ e ∈ c.edges ∧ e.toId = id := by
  obtain ⟨es, hmem, hnodup, hscan⟩ := h.to_scan id
  have hread : ∀ e ∈ es, scannedEdge (toKey e) = .ok (e.kind, e.fromId) := fun e _ => scannedEdge_edgeKey ..
  have hto : ∀ e ∈ es, ({ fromId := e.fromId, toId := id, kind := e.kind } : Edge) = e := by
    intro e he
    rw [← ((hmem e).mp he).2]
  refine ⟨es, ?_, hnodup, hmem⟩
  rw [edgesTo, Loop.mapM_proj_eq_ok hscan hread, Loop.ok_bind, List.map_map]
  exact congrArg Except.ok ((List.map_congr_left hto).trans (List.map_id' es))

/-- The entries of the session index that reference a block, one for each session that lists it. -/
theorem sessionKeysOf_eq (h : st.IndexedBy c) (id : BlockId) : ∃ ss : List SessionId,
    st.sessionKeysOf id = ss.map (sessionBlockKey · id) ∧ ∀ s, s ∈ ss ↔ id ∈ c.lists s := by
  obtain ⟨l, hl, hmem, -⟩ := exists_scan sessionBlockKey_injective h.session_keys []
  rw [prefixIter_nil] at hl
  refine ⟨(l.filter fun x => x.2 = id).map (·.1), ?_, fun s => ?_⟩
  · rw [sessionKeysOf, hl, List.filter_map, List.map_map]
    have hsel : ((fun key : Bytes => key.length == 32 && key.drop 16 == id.raw.toBeBytes) ∘
        fun x : SessionId × BlockId => sessionBlockKey x.1 x.2) = fun x => decide (x.2 = id) := by
      funext x
      simp [blockId_bytes_inj, beq_eq_decide]
    rw [hsel]
    refine List.map_congr_left fun x hx => ?_
    have hid : x.2 = id := by simpa using (List.mem_filter.mp hx).2
    simp [hid]
  · rw [List.mem_map]
    constructor
    · rintro ⟨x, hx, rfl⟩
      obtain ⟨hx, hid⟩ := List.mem_filter.mp hx
      have hid : x.2 = id := by simpa using hid
      exact hid ▸ ((hmem x).mp hx).1
    · exact fun hs => ⟨(s, id), List.mem_filter.mpr ⟨(hmem _).mpr ⟨hs, List.nil_prefix⟩, by simp⟩, rfl⟩

/-! ### Writes -/

/-- One more pair in the session index. -/
theorem session_insert (h : st.IndexedBy c) (s : SessionId) (id : BlockId) (key : Bytes) :
    key ∈ st.blocksBySession.insert (sessionBlockKey s id) [] ↔
      ∃ s' id', key = sessionBlockKey s' id' ∧ id' ∈ (c.share s id).lists s' := by
  refine (keys_insert h.session_keys (s, id) [] key).trans ?_
  constructor
  · rintro ⟨x, rfl | hx, rfl⟩
    · exact ⟨s, id, rfl, Or.inr ⟨rfl, rfl⟩⟩
    · exact ⟨x.1, x.2, rfl, Or.inl hx⟩
  · rintro ⟨s', id', rfl, hid | ⟨rfl, rfl⟩⟩
    · exact ⟨(s', id'), Or.inr hid, rfl⟩
    · exact ⟨(s', id'), Or.inl rfl, rfl⟩

theorem putEdge_link (h : st.IndexedBy c) (e : Edge) : (st.putEdge e).IndexedBy (c.link e) where
  sessions := h.sessions
  edges_from := keys_insert h.edges_from e []
  edges_to := keys_insert h.edges_to e []

theorem purgeOutgoing_eq (h : st.IndexedBy c) (id : BlockId) : ∃ st', st.purgeOutgoing id = .ok st' ∧
    SameBlocks st st' ∧ st'.IndexedBy { c with edges := {e ∈ c.edges | e.fromId ≠ id} } := by
  obtain ⟨out, hout, -, hscan⟩ := h.from_scan id
  have hparse : ∀ e ∈ out, parseEdgeKeySuffix (fromKey e) = .ok (edgeKindToByte e.kind, e.toId) :=
    fun e _ => parseEdgeKeySuffix_edgeKey ..
  have hfrom : (out.map fun e => (edgeKindToByte e.kind, e.toId)).map (fun o => edgeKey id o.1 o.2) =
      out.map fromKey := by
    rw [List.map_map]
    exact List.map_congr_left fun e he => by simp [fromKey, ((hout e).mp he).2]
  have hto : (out.map fun e => (edgeKindToByte e.kind, e.toId)).map (fun o => edgeKey o.2 o.1 id) =
      out.map toKey := by
    rw [List.map_map]
    exact List.map_congr_left fun e he => by simp [toKey, ((hout e).mp he).2]
  have hleft : {e ∈ c.edges | e ∉ out} = {e ∈ c.edges | e.fromId ≠ id} := by
    ext e
    simp only [Set.mem_ofPred_eq, hout]
    tauto
  refine ⟨{ st with
    edgesFromKeys := eraseAll st.edgesFromKeys (out.map fromKey)
    edgesToKeys := eraseAll st.edgesToKeys (out.map toKey) }, ?_, ⟨rfl, rfl⟩, ?_⟩
  · rw [purgeOutgoing, Loop.mapM_proj_eq_ok hscan hparse, Loop.ok_bind, hfrom, hto]
    rfl
  · rw [← hleft]
    exact { h with
      edges_from := keys_eraseAll fromKey_injective h.edges_from out
      edges_to := keys_eraseAll toKey_injective h.edges_to out }

theorem purgeIncoming_eq (h : st.IndexedBy c) (id : BlockId) : ∃ st', st.purgeIncoming id = .ok st' ∧
    SameBlocks st st' ∧ st'.IndexedBy { c with edges := {e ∈ c.edges | e.toId ≠ id} } := by
  obtain ⟨inc, hinc, -, hscan⟩ := h.to_scan id
  have hparse : ∀ e ∈ inc, parseEdgeKeySuffix (toKey e) = .ok (edgeKindToByte e.kind, e.fromId) :=
    fun e _ => parseEdgeKeySuffix_edgeKey ..
  have hto : (inc.map fun e => (edgeKindToByte e.kind, e.fromId)).map (fun i => edgeKey id i.1 i.2) =
      inc.map toKey := by
    rw [List.map_map]
    exact List.map_congr_left fun e he => by simp [toKey, ((hinc e).mp he).2]
  have hfrom : (inc.map fun e => (edgeKindToByte e.kind, e.fromId)).map (fun i => edgeKey i.2 i.1 id) =
      inc.map fromKey := by
    rw [List.map_map]
    exact List.map_congr_left fun e he => by simp [fromKey, ((hinc e).mp he).2]
  have hleft : {e ∈ c.edges | e ∉ inc} = {e ∈ c.edges | e.toId ≠ id} := by
    ext e
    simp only [Set.mem_ofPred_eq, hinc]
    tauto
  refine ⟨{ st with
    edgesFromKeys := eraseAll st.edgesFromKeys (inc.map fromKey)
    edgesToKeys := eraseAll st.edgesToKeys (inc.map toKey) }, ?_, ⟨rfl, rfl⟩, ?_⟩
  · rw [purgeIncoming, Loop.mapM_proj_eq_ok hscan hparse, Loop.ok_bind, hfrom, hto]
    rfl
  · rw [← hleft]
    exact { h with
      edges_from := keys_eraseAll fromKey_injective h.edges_from inc
      edges_to := keys_eraseAll toKey_injective h.edges_to inc }

/-- Both passes together find every edge that touches `id`, a self-loop in the first. -/
theorem purgeEdgesForBlock_eq (h : st.IndexedBy c) (id : BlockId) : ∃ st', st.purgeEdgesForBlock id = .ok st' ∧
    SameBlocks st st' ∧ st'.IndexedBy { c with edges := {e ∈ c.edges | ¬e.Touches {id}} } := by
  obtain ⟨st₁, hst₁, hsame₁, h₁⟩ := h.purgeOutgoing_eq id
  obtain ⟨st₂, hst₂, hsame₂, h₂⟩ := h₁.purgeIncoming_eq id
  refine ⟨st₂, by rw [purgeEdgesForBlock, hst₁, Loop.ok_bind, hst₂],
    ⟨hsame₂.1.trans hsame₁.1, hsame₂.2.trans hsame₁.2⟩, ?_⟩
  have hleft : {e ∈ c.edges | ¬e.Touches {id}} = {e ∈ {e ∈ c.edges | e.fromId ≠ id} | e.toId ≠ id} := by
    ext e
    simp only [Edge.Touches, Set.mem_singleton_iff, Set.mem_ofPred_eq]
    tauto
  rwa [hleft]

/-- Removing every session entry of a block. -/
theorem unlist (h : st.IndexedBy c) (id : BlockId) :
    IndexedBy { st with blocksBySession := eraseAll st.blocksBySession (st.sessionKeysOf id) }
      { c with lists := fun s => c.lists s \ {id} } := by
  obtain ⟨ss, hss, hmem⟩ := h.sessionKeysOf_eq id
  refine { h with sessions := fun key => ?_ }
  rw [mem_eraseAll, h.sessions, hss]
  constructor
  · rintro ⟨hk, s, id', rfl, hs⟩
    refine ⟨s, id', rfl, hs, ?_⟩
    rintro rfl
    exact hk (List.mem_map.mpr ⟨s, (hmem s).mpr hs, rfl⟩)
  · rintro ⟨s, id', rfl, hs, hne⟩
    refine ⟨fun hk => ?_, s, id', rfl, hs⟩
    obtain ⟨s', -, hs'⟩ := List.mem_map.mp hk
    exact hne (sessionBlockKey_inj.mp hs').2.symm

/-- Removing the entries of one session. -/
theorem forget (h : st.IndexedBy c) {s : SessionId} {ids : List BlockId} (hids : c.IsListing s ids) :
    IndexedBy { st with blocksBySession := eraseAll st.blocksBySession (ids.map (sessionBlockKey s)) }
      (c.forget s) := by
  refine { h with sessions := fun key => ?_ }
  rw [mem_eraseAll, h.sessions]
  constructor
  · rintro ⟨hk, s', id, rfl, hid⟩
    refine ⟨s', id, rfl, mem_forget.mpr ⟨?_, hid⟩⟩
    rintro rfl
    exact hk (List.mem_map_of_mem (hids.mem.mpr hid))
  · rintro ⟨s', id, rfl, hid⟩
    obtain ⟨hne, hid⟩ := mem_forget.mp hid
    refine ⟨fun hk => ?_, s', id, rfl, hid⟩
    obtain ⟨id', -, hid'⟩ := List.mem_map.mp hk
    exact hne (sessionBlockKey_inj.mp hid').1.symm

end IndexedBy

end Llm386.LmdbStore
