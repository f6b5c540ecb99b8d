import Llm386.Lmdb.BlockStore

/-! # What the index tables list

The composite keys order as the tuples they are made of. Over any run of operations, whatever ids and hashes their
callers choose, the session index holds exactly the pairs of a session and an id put under it and not removed since,
and the edge tables exactly the edges put and not removed since; so the listings return exactly these. -/

namespace Llm386.LmdbStore
open Contents KeyTable

/-! ### The order of keys -/

theorem compare_of_lt_iff {α β : Type} [LinearOrder α] [LinearOrder β] {f : α → β} {a b : α}
    (hab : a < b ↔ f a < f b) (hba : b < a ↔ f b < f a) : compare (f a) (f b) = compare a b := by
  rcases lt_trichotomy a b with h | rfl | h
  · rw [compare_lt_iff_lt.mpr h, compare_lt_iff_lt.mpr (hab.mp h)]
  · rw [compare_eq_iff_eq.mpr rfl, compare_eq_iff_eq.mpr rfl]
  · rw [compare_gt_iff_gt.mpr h, compare_gt_iff_gt.mpr (hba.mp h)]

theorem compare_toBeBytes (x y : U128) : compare x.toBeBytes y.toBeBytes = compare x y := by
  rw [U128.toBeBytes, U128.toBeBytes, BigEndian.compare_encode x.isLt y.isLt]
  exact compare_of_lt_iff Iff.rfl Iff.rfl

theorem compare_blockId (a b : BlockId) : compare a.raw.toBeBytes b.raw.toBeBytes = compare a b := by
  rw [compare_toBeBytes]
  exact compare_of_lt_iff Iff.rfl Iff.rfl

theorem compare_sessionId (s t : SessionId) : compare s.raw.toBeBytes t.raw.toBeBytes = compare s t := by
  rw [compare_toBeBytes]
  exact compare_of_lt_iff Iff.rfl Iff.rfl

theorem compare_sessionBlockKey (s s' : SessionId) (a a' : BlockId) :
    compare (sessionBlockKey s a) (sessionBlockKey s' a') = (compare s s').then (compare a a') := by
  rw [sessionBlockKey, sessionBlockKey, BigEndian.compare_append (by simp), compare_sessionId, compare_blockId]

theorem compare_edgeKey (a a' b b' : BlockId) (k k' : UInt8) :
    compare (edgeKey a k b) (edgeKey a' k' b') = (compare a a').then ((compare k k').then (compare b b')) := by
  rw [edgeKey, edgeKey, BigEndian.compare_append (by simp), List.compare_cons_cons, compare_blockId, compare_blockId]

/-! ### The ledger of a run -/

/-- A store with what the run so far has put and not removed: the listings of the sessions and the edges, and the
blocks as the store holds them. -/
inductive Recorded : LmdbStore → Contents → Prop
  | empty : Recorded .empty .empty
  | put {st st' : LmdbStore} {c : Contents} {s : SessionId} {b : ContextBlock} {id : BlockId} :
      Recorded st c → st.put s b = .ok (id, st') → Recorded st' { c.share s id with block := st'.get }
  | putEdge {st : LmdbStore} {c : Contents} {e : Edge} : Recorded st c → Recorded (st.putEdge e) (c.link e)
  | delete {st st' : LmdbStore} {c : Contents} {id : BlockId} :
      Recorded st c → st.delete id = .ok (true, st') → Recorded st' (c.erase {id})
  | deleteMissing {st st' : LmdbStore} {c : Contents} {id : BlockId} :
      Recorded st c → st.delete id = .ok (false, st') → Recorded st' c
  | purgeSession {st st' : LmdbStore} {c : Contents} {s : SessionId} {count : Nat} :
      Recorded st c → st.purgeSession s = .ok (count, st') →
        Recorded st' ((c.forget s).erase {id | id ∈ c.exclusive s ∧ c.Stored id})

/-- The tables agree with the ledger, and the hash index names ids. -/
structure Tracks (st : LmdbStore) (c : Contents) : Prop where
  blocks : ∀ id, st.get id = c.block id
  indexed : st.IndexedBy c
  ids : ∀ hash bytes : Bytes, st.blocksByHash[hash]? = some bytes → ∃ id : BlockId, bytes = id.raw.toBeBytes

variable {st st' : LmdbStore} {c : Contents} {s : SessionId} {id : BlockId}

theorem Tracks.stored_iff (h : Tracks st c) : (st.blocksById[id.raw.toBeBytes]?).isSome ↔ c.Stored id := by
  rw [Option.isSome_iff_exists]
  exact exists_congr fun b => by rw [← h.blocks id, get]

/-- A step that only drops content of blocks that no listing names. -/
theorem Tracks.of_same {c' : Contents} (h : Tracks st c) (same : SameBlocks st st') (hi : st'.IndexedBy c')
    (hblock : c'.block = c.block) : Tracks st' c' where
  blocks id := by
    rw [get, same.1, hblock]
    exact h.blocks id
  indexed := hi
  ids hash bytes hbytes := h.ids hash bytes (same.2 ▸ hbytes)

theorem Tracks.put {b : ContextBlock} (h : Tracks st c) (hput : st.put s b = .ok (id, st')) :
    Tracks st' { c.share s id with block := st'.get } := by
  cases hindex : st.blocksByHash[b.hash.bytes]? with
  | some bytes =>
    obtain ⟨held, rfl⟩ := h.ids _ _ hindex
    rw [put_of_indexed hindex] at hput
    cases hput
    exact ⟨fun _ => rfl, ⟨h.indexed.session_insert s id, h.indexed.edges_from, h.indexed.edges_to⟩, h.ids⟩
  | none =>
    rw [put_of_unindexed hindex] at hput
    cases hput
    refine ⟨fun _ => rfl, ⟨h.indexed.session_insert s b.id, h.indexed.edges_from, h.indexed.edges_to⟩, ?_⟩
    intro hash bytes hbytes
    rw [getElem?_insert_eq] at hbytes
    split at hbytes
    · cases hbytes
      exact ⟨b.id, rfl⟩
    · exact h.ids hash bytes hbytes

/-- The content of one block goes, with some entry of the hash index, and then its edges. -/
theorem Tracks.drop (h : Tracks st c) (id : BlockId) (index : KeyTable Bytes) (unlisted : ∀ s, id ∉ c.lists s)
    (hindex : ∀ hash bytes : Bytes, index[hash]? = some bytes → st.blocksByHash[hash]? = some bytes) :
    ∃ st', purgeEdgesForBlock { st with blocksById := st.blocksById.erase id.raw.toBeBytes, blocksByHash := index } id =
      .ok st' ∧ Tracks st' (c.erase {id}) := by
  have hi : IndexedBy { st with blocksById := st.blocksById.erase id.raw.toBeBytes, blocksByHash := index } c :=
    ⟨h.indexed.sessions, h.indexed.edges_from, h.indexed.edges_to⟩
  obtain ⟨st', hst', hsame, h'⟩ := hi.purgeEdgesForBlock_eq id
  refine ⟨st', hst', fun x => ?_, ?_, fun hash bytes hbytes => ?_⟩
  · rw [get, hsame.1, getElem?_erase_eq]
    by_cases hx : x = id
    · subst hx
      simp [Contents.erase]
    · rw [if_neg fun heq => hx (blockId_bytes_inj.mp heq).symm]
      refine (h.blocks x).trans ?_
      simp [Contents.erase, hx]
  · refine ⟨fun key => (h'.sessions key).trans ?_, h'.edges_from, h'.edges_to⟩
    refine exists_congr fun s => exists_congr fun x => and_congr_right fun _ => ⟨fun hx => ⟨hx, ?_⟩, And.left⟩
    rintro rfl
    exact unlisted s hx
  · have hhash : st'.blocksByHash = index := hsame.2
    rw [hhash] at hbytes
    exact h.ids hash bytes (hindex hash bytes hbytes)

theorem getElem?_erase_some {index : KeyTable Bytes} {key hash bytes : Bytes}
    (h : (index.erase key)[hash]? = some bytes) : index[hash]? = some bytes := by
  rw [getElem?_erase_eq] at h
  split at h
  · cases h
  · exact h

theorem erase_absent {key : Bytes} {α : Type} {t : KeyTable α} (h : t[key]? = none) : t.erase key = t := by
  refine Std.ExtTreeMap.ext_getElem? fun a => ?_
  rw [getElem?_erase_eq]
  split
  · rename_i heq
    rw [← heq, h]
  · rfl

/-- `delete` finds nothing only where nothing is stored or listed, and else erases the id. -/
theorem Tracks.delete {existed : Bool} (h : Tracks st c) (hdelete : st.delete id = .ok (existed, st')) :
    Tracks st' (if existed then c.erase {id} else c) := by
  have hunlisted : Tracks { st with blocksBySession := eraseAll st.blocksBySession (st.sessionKeysOf id) }
      { c with lists := fun s => c.lists s \ {id} } :=
    h.of_same ⟨rfl, rfl⟩ (h.indexed.unlist id) rfl
  have herase : Contents.erase { c with lists := fun s => c.lists s \ {id} } {id} = c.erase {id} := by
    ext <;> simp [Contents.erase]
  unfold LmdbStore.delete at hdelete
  simp only at hdelete
  cases hget : st.blocksById[id.raw.toBeBytes]? with
  | some b =>
    obtain ⟨st₁, hst₁, h₁⟩ := hunlisted.drop id (st.blocksByHash.erase b.hash.bytes)
      (fun s hs => hs.2 rfl) fun _ _ => getElem?_erase_some
    simp only [hget, Option.map_some, Option.isSome_some, Bool.true_or, Bool.not_true, Bool.false_eq_true, if_false,
      if_true] at hdelete
    rw [hst₁] at hdelete
    cases hdelete
    exact herase ▸ h₁
  | none =>
    simp only [hget, Option.map_none, Option.isSome_none, Bool.false_or, Bool.not_not, Bool.false_eq_true, if_false]
      at hdelete
    by_cases hkeys : (st.sessionKeysOf id).isEmpty
    · rw [if_pos hkeys] at hdelete
      have hfalse : existed = false := by
        have heq := congrArg (·.1) (Except.ok.inj hdelete)
        simpa [hkeys] using heq.symm
      have hst : st = st' := congrArg (·.2) (Except.ok.inj hdelete)
      subst hfalse hst
      exact h
    · rw [if_neg hkeys] at hdelete
      obtain ⟨st₁, hst₁, h₁⟩ := hunlisted.drop id st.blocksByHash (fun s hs => hs.2 rfl)
        fun _ _ hbytes => hbytes
      simp only [erase_absent hget] at hst₁
      rw [hst₁] at hdelete
      have htrue : existed = true := by
        have heq := congrArg (·.1) (Except.ok.inj hdelete)
        simpa [hkeys] using heq.symm
      have hst : st₁ = st' := congrArg (·.2) (Except.ok.inj hdelete)
      subst htrue hst
      exact herase ▸ h₁

/-! ### Purges -/

/-- The loop of `purge_session` with `rest` still to come: of the exclusive blocks it has passed the stored ones are
erased. -/
structure PurgingAny (c : Contents) (s : SessionId) (st : LmdbStore) (rest : List BlockId) : Prop where
  tables : Tracks st ((c.forget s).erase {id | (id ∈ c.exclusive s ∧ c.Stored id) ∧ id ∉ rest})
  nodup : rest.Nodup
  listed : ∀ id ∈ rest, id ∈ c.lists s

theorem PurgingAny.pass {rest : List BlockId} (h : PurgingAny c s st (id :: rest)) :
    ∃ st', st.purgeUnreferenced id = .ok st' ∧ PurgingAny c s st' rest := by
  obtain ⟨hst, hnodup, hlisted⟩ := h
  obtain ⟨hid, hnodup⟩ := List.nodup_cons.mp hnodup
  have hs := hlisted id List.mem_cons_self
  have hlisted : ∀ x ∈ rest, x ∈ c.lists s := fun x hx => hlisted x (List.mem_cons_of_mem _ hx)
  have hkept : id ∉ {x | (x ∈ c.exclusive s ∧ c.Stored x) ∧ x ∉ id :: rest} := fun hx => hx.2 List.mem_cons_self
  -- A block that stays leaves the erased set as it was.
  have stays : ¬(id ∈ c.exclusive s ∧ c.Stored id) → {x | (x ∈ c.exclusive s ∧ c.Stored x) ∧ x ∉ rest} =
      {x | (x ∈ c.exclusive s ∧ c.Stored x) ∧ x ∉ id :: rest} := by
    intro hno
    ext x
    simp only [Set.mem_ofPred_eq, List.mem_cons, not_or]
    refine and_congr_right fun hx => ⟨fun hrest => ⟨?_, hrest⟩, And.right⟩
    rintro rfl
    exact hno hx
  obtain ⟨ss, hss, hmem⟩ := hst.indexed.sessionKeysOf_eq id
  unfold purgeUnreferenced
  by_cases shared : ∃ s', id ∈ (c.forget s).lists s'
  · obtain ⟨s', hs'⟩ := shared
    have hne : st.sessionKeysOf id ≠ [] := by
      rw [hss]
      exact List.ne_nil_of_mem (List.mem_map_of_mem ((hmem s').mpr ⟨hs', hkept⟩))
    rw [if_pos hne]
    refine ⟨st, rfl, ?_, hnodup, hlisted⟩
    rw [stays fun hx => (mem_exclusive.mp hx.1).2 s' hs']
    exact hst
  · have hexcl : id ∈ c.exclusive s := mem_exclusive.mpr ⟨hs, not_exists.mp shared⟩
    have hnil : st.sessionKeysOf id = [] := by
      rw [hss, List.eq_nil_iff_forall_not_mem.mpr fun s' hs' => shared ⟨s', ((hmem s').mp hs').1⟩]
      rfl
    rw [if_neg (not_not.mpr hnil)]
    have hstored : (st.blocksById[id.raw.toBeBytes]?).isSome ↔ c.Stored id := by
      rw [hst.stored_iff, stored_erase_iff, and_iff_right hkept]
      rfl
    cases hget : st.blocksById[id.raw.toBeBytes]? with
    | none =>
      have hno : ¬c.Stored id := by
        rw [← hstored, hget]
        exact Bool.false_ne_true
      refine ⟨st, rfl, ?_, hnodup, hlisted⟩
      rw [stays fun hx => hno hx.2]
      exact hst
    | some b =>
      have hyes : c.Stored id := by
        rw [← hstored, hget]
        rfl
      obtain ⟨st', hst', h'⟩ := hst.drop id (st.blocksByHash.erase b.hash.bytes)
        (fun s' hs' => shared ⟨s', hs'.1⟩) fun _ _ => getElem?_erase_some
      refine ⟨st', hst', ?_, hnodup, hlisted⟩
      have hmore : {x | (x ∈ c.exclusive s ∧ c.Stored x) ∧ x ∉ rest} =
          {x | (x ∈ c.exclusive s ∧ c.Stored x) ∧ x ∉ id :: rest} ∪ {id} := by
        ext x
        by_cases heq : x = id
        · simp [heq, hexcl, hyes, hid]
        · simp [heq]
      rwa [hmore, ← erase_erase]

/-- `purge_session` gets through, forgets the session and erases the stored blocks only it listed. -/
theorem Tracks.purgeSession (h : Tracks st c) (s : SessionId) : ∃ count st', st.purgeSession s = .ok (count, st') ∧
    Tracks st' ((c.forget s).erase {id | id ∈ c.exclusive s ∧ c.Stored id}) := by
  obtain ⟨ids, hids, hscan⟩ := h.indexed.session_scan s
  have hwide : (prefixIter st.blocksBySession s.raw.toBeBytes).filter (fun e => e.1.length == 32) =
      prefixIter st.blocksBySession s.raw.toBeBytes := by
    rw [List.filter_eq_self]
    intro e he
    have hk := List.mem_map_of_mem (f := (·.1)) he
    rw [hscan] at hk
    obtain ⟨id, -, hid⟩ := List.mem_map.mp hk
    rw [← hid, length_sessionBlockKey]
    rfl
  have hsuffix : ∀ id ∈ ids, sessionKeySuffix (sessionBlockKey s id) = .ok id := fun id _ => by simp
  have hread := Loop.mapM_proj_eq_ok hscan hsuffix
  rw [List.map_id'] at hread
  have hnone : {id | (id ∈ c.exclusive s ∧ c.Stored id) ∧ id ∉ ids} = (∅ : Set BlockId) := by
    ext id
    simp only [Set.mem_ofPred_eq, Set.mem_empty_iff_false, iff_false, not_and, not_not]
    exact fun hid => hids.mem.mpr hid.1.1
  have start : PurgingAny c s
      { st with blocksBySession := eraseAll st.blocksBySession (ids.map (sessionBlockKey s)) } ids := by
    refine ⟨?_, hids.nodup, fun id => hids.mem.mp⟩
    rw [hnone, erase_empty]
    exact h.of_same ⟨rfl, rfl⟩ (h.indexed.forget hids) rfl
  obtain ⟨st', hst', h', -, -⟩ := Loop.foldlM_total (P := PurgingAny c s) (fun _ _ _ hP => PurgingAny.pass hP) start
  simp only [List.not_mem_nil, not_false_eq_true, and_true] at h'
  rw [LmdbStore.purgeSession, hwide, hread, Loop.ok_bind]
  cases ids with
  | nil =>
    cases hst'
    exact ⟨0, st, rfl, h'⟩
  | cons id ids =>
    refine ⟨ids.length + 1, st', ?_, h'⟩
    simp only [List.length_cons, Nat.add_one_ne_zero, if_false]
    rw [hst']
    rfl

/-! ### Any run -/

theorem tracks_empty : Tracks .empty .empty where
  blocks id := by simp [get, LmdbStore.empty, Contents.empty]
  indexed := represents_empty.indexed
  ids hash bytes h := by simp [LmdbStore.empty] at h

theorem Recorded.tracks (h : Recorded st c) : Tracks st c := by
  induction h with
  | empty => exact tracks_empty
  | put _ hput ih => exact ih.put hput
  | @putEdge st c e _ ih => exact ih.of_same ⟨rfl, rfl⟩ (ih.indexed.putEdge_link e) rfl
  | delete _ hdelete ih => exact ih.delete hdelete
  | deleteMissing _ hdelete ih => exact ih.delete hdelete
  | @purgeSession st st' c s count _ hpurge ih =>
    obtain ⟨count', st'', hpurge', h'⟩ := ih.purgeSession s
    rw [hpurge] at hpurge'
    cases hpurge'
    exact h'

/-- Every store that operations reach has a ledger. -/
theorem Ran.recorded (h : Ran st) : ∃ c, Recorded st c := by
  induction h with
  | empty => exact ⟨_, .empty⟩
  | @step st st' op _ hexec ih =>
    obtain ⟨c, hc⟩ := ih
    cases op with
    | put s b =>
      obtain ⟨⟨id, st₁⟩, hput, heq⟩ := Loop.map_eq_ok.mp hexec
      cases heq
      exact ⟨_, hc.put hput⟩
    | putEdge e =>
      cases hexec
      exact ⟨_, hc.putEdge⟩
    | delete id =>
      obtain ⟨⟨existed, st₁⟩, hdelete, heq⟩ := Loop.map_eq_ok.mp hexec
      cases heq
      cases existed with
      | true => exact ⟨_, hc.delete hdelete⟩
      | false => exact ⟨_, hc.deleteMissing hdelete⟩
    | purgeSession s =>
      obtain ⟨⟨count, st₁⟩, hpurge, heq⟩ := Loop.map_eq_ok.mp hexec
      cases heq
      exact ⟨_, hc.purgeSession hpurge⟩

/-! ### The listings -/

/-- Composite keys determine their fields, order as the tuples of them, and parse back. -/
structure KeysFaithful : Prop where
  session_injective : ∀ s s' a a', sessionBlockKey s a = sessionBlockKey s' a' → s = s' ∧ a = a'
  session_order : ∀ s s' a a', compare (sessionBlockKey s a) (sessionBlockKey s' a') =
    (compare s s').then (compare a a')
  edge_injective : ∀ a k b a' k' b', edgeKey a k b = edgeKey a' k' b' → a = a' ∧ k = k' ∧ b = b'
  edge_order : ∀ a k b a' k' b', compare (edgeKey a k b) (edgeKey a' k' b') =
    (compare a a').then ((compare k k').then (compare b b'))
  edge_suffix : ∀ a k b, parseEdgeKeySuffix (edgeKey a k b) = .ok (k, b)
  edge_kind : ∀ k k', (edgeKindToByte k = edgeKindToByte k' ↔ k = k') ∧ edgeKindFromByte (edgeKindToByte k) = .ok k

/-- Every listing returns exactly what the ledger has, in the order of the ids. -/
structure ListingsExact (st : LmdbStore) (c : Contents) : Prop where
  session : ∀ s, ∃ ids, st.listSession s = .ok ids ∧ ids.Pairwise (· < ·) ∧ (∀ id, id ∈ ids ↔ id ∈ c.lists s) ∧
    ids.Pairwise fun a b => a.timestampMs ≤ b.timestampMs
  sessions : ∃ ss, st.listSessions = .ok ss ∧ ss.Pairwise (· < ·) ∧ ∀ s, s ∈ ss ↔ ∃ id, id ∈ c.lists s
  edgesFrom : ∀ id, ∃ es, st.edgesFrom id = .ok es ∧ es.Nodup ∧ ∀ e, e ∈ es ↔ e ∈ c.edges ∧ e.fromId = id
  edgesTo : ∀ id, ∃ es, st.edgesTo id = .ok es ∧ es.Nodup ∧ ∀ e, e ∈ es ↔ e ∈ c.edges ∧ e.toId = id

theorem keysFaithful : KeysFaithful where
  session_injective _ _ _ _ := sessionBlockKey_inj.mp
  session_order := compare_sessionBlockKey
  edge_injective _ _ _ _ _ _ := edgeKey_inj.mp
  edge_order a k b a' k' b' := compare_edgeKey a a' b b' k k'
  edge_suffix a k b := parseEdgeKeySuffix_edgeKey a b k
  edge_kind k _ := ⟨edgeKindToByte_inj, edgeKindFromByte_toByte k⟩

/-- A later id is no older. -/
theorem timestampMs_le {a b : BlockId} (h : a < b) : a.timestampMs ≤ b.timestampMs := by
  have hab : a.raw.val ≤ b.raw.val := le_of_lt (show a.raw.val < b.raw.val from h)
  have ha := a.raw.isLt
  have hb := b.raw.isLt
  have hpow : (2 : Nat) ^ 128 = 2 ^ 48 * 2 ^ 80 := by norm_num
  rw [BlockId.timestampMs, BlockId.timestampMs,
    Nat.mod_eq_of_lt ((Nat.div_lt_iff_lt_mul (by positivity)).mpr (hpow ▸ ha)),
    Nat.mod_eq_of_lt ((Nat.div_lt_iff_lt_mul (by positivity)).mpr (hpow ▸ hb))]
  exact Nat.div_le_div_right hab

theorem IndexedBy.listings (h : st.IndexedBy c) : ListingsExact st c where
  session s := by
    obtain ⟨ids, hlist, hids⟩ := h.listSession_eq s
    exact ⟨ids, hlist, hids.ascending, fun id => hids.mem, hids.ascending.imp timestampMs_le⟩
  sessions := by
    obtain ⟨ss, hlist, hss⟩ := h.listSessions_eq
    exact ⟨ss, hlist, hss.ascending, fun s => hss.mem⟩
  edgesFrom := h.edgesFrom_eq
  edgesTo := h.edgesTo_eq

/-- The composite keys are faithful, and over any run the listings return exactly what was put and not removed. -/
theorem composite_keys_faithful (h : Recorded st c) : KeysFaithful ∧ ListingsExact st c :=
  ⟨keysFaithful, h.tracks.indexed.listings⟩

theorem composite_keys_faithful_sample : sampleStore.listSession ⟨2⟩ = .ok [⟨7⟩] ∧
    sampleStore.edgesTo ⟨7⟩ = .ok [⟨⟨8⟩, ⟨7⟩, .supports⟩] ∧
      ∃ c, Recorded sampleStore c ∧ KeysFaithful ∧ ListingsExact sampleStore c := by
  obtain ⟨c, hc⟩ := sampleStore_reachable.ran.recorded
  exact ⟨by decide +kernel, by decide +kernel, c, hc, composite_keys_faithful hc⟩

end Llm386.LmdbStore
