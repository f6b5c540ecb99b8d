import Llm386.Lmdb.Repair

/-! # What a check covers and what a repair recovers

A clean `verify` together with four properties that it does not look at is exactly a store that holds a catalog; `repair`
makes the tables hold a catalog exactly when the primary table, the session keys and the edge tables still determine one; and
where only the hash index and keys of missing blocks were damaged, it gives back the very store. -/

namespace Llm386.LmdbStore
open Contents KeyTable

/-- The two edge tables hold the same edges. -/
def Mirrored (st : LmdbStore) : Prop :=
  ∃ es : Set Edge, (∀ key, key ∈ st.edgesFromKeys ↔ ∃ e ∈ es, key = fromKey e) ∧
    ∀ key, key ∈ st.edgesToKeys ↔ ∃ e ∈ es, key = toKey e

/-- What `verify` does not look at. -/
structure Unchecked (st : LmdbStore) : Prop where
  own_id : ∀ (key : Bytes) (b : ContextBlock), st.blocksById[key]? = some b → key = b.id.raw.toBeBytes
  /-- No entry of the hash index is left over. -/
  current : ∀ hashKey v : Bytes, st.blocksByHash[hashKey]? = some v →
    ∃ b : ContextBlock, st.blocksById[v]? = some b ∧ b.hash.bytes = hashKey
  wide : ∀ key ∈ st.blocksBySession, key.length = 32
  mirrored : st.Mirrored

/-- What `repair` does not derive: the tables that it trusts determine a catalog. -/
structure Salvageable (st : LmdbStore) : Prop where
  own_id : ∀ (key : Bytes) (b : ContextBlock), st.blocksById[key]? = some b → key = b.id.raw.toBeBytes
  distinct : st.DistinctHashes
  wide : ∀ key ∈ st.blocksBySession, key.length = 32
  named : ∀ id, id.raw.toBeBytes ∈ st.blocksById → ∃ s, sessionBlockKey s id ∈ st.blocksBySession
  mirrored : st.Mirrored

/-- The store `st'` is `st` but for the hash index, which may hold anything, and session keys of missing blocks. -/
structure Damaged (st st' : LmdbStore) : Prop where
  blocks : st'.blocksById = st.blocksById
  kept : ∀ (key v : Bytes), st.blocksBySession[key]? = some v → st'.blocksBySession[key]? = some v
  added : ∀ key ∈ st'.blocksBySession, key ∈ st.blocksBySession ∨
    ∃ s id, key = sessionBlockKey s id ∧ id.raw.toBeBytes ∉ st.blocksById
  edges_from : st'.edgesFromKeys = st.edgesFromKeys
  edges_to : st'.edgesToKeys = st.edgesToKeys

variable {contentHashOf : Bytes → ContentHash} {st st' : LmdbStore} {l : List (BlockId × ContextBlock)}

/-! ### Session keys -/

/-- A key of 32 bytes is the key of a session and a block. -/
theorem exists_sessionBlockKey {key : Bytes} (h : key.length = 32) : ∃ s id, key = sessionBlockKey s id := by
  have htake : (key.take 16).length = 16 := by simp [h]
  have hdrop : (key.drop 16).length = 16 := by simp [h]
  refine ⟨⟨U128.fromBeBytes _ htake⟩, ⟨U128.fromBeBytes _ hdrop⟩, ?_⟩
  rw [sessionBlockKey, U128.toBeBytes_fromBeBytes htake, U128.toBeBytes_fromBeBytes hdrop, List.take_append_drop]

@[simp] theorem namedBlock_sessionBlockKey (s : SessionId) (id : BlockId) : namedBlock (sessionBlockKey s id) = some id := by
  simp [namedBlock, Except.toOption]

theorem orphan_sessionBlockKey {realIds : List BlockId} {s : SessionId} {id : BlockId} :
    orphan realIds (sessionBlockKey s id) = true ↔ id ∉ realIds := by
  simp [orphan]

theorem Holdings.mem_map_iff (h : st.Holdings l) {id : BlockId} : id ∈ l.map (·.1) ↔ id.raw.toBeBytes ∈ st.blocksById := by
  rw [mem_iff_isSome, Option.isSome_iff_exists, List.mem_map]
  constructor
  · rintro ⟨⟨_, b⟩, hx, rfl⟩
    exact ⟨b, h.mem_iff.mp hx⟩
  · exact fun ⟨b, hb⟩ => ⟨(id, b), h.mem_iff.mpr hb, rfl⟩

theorem holdings_of_own (own_id : ∀ (key : Bytes) (b : ContextBlock), st.blocksById[key]? = some b → key = b.id.raw.toBeBytes) :
    ∃ l, st.Holdings l := by
  refine exists_holdings fun key hkey => ?_
  obtain ⟨b, hb⟩ := Option.isSome_iff_exists.mp (mem_iff_isSome.mp hkey)
  simp [own_id key b hb]

/-! ### Tables that hold a catalog -/

/-- Tables in which every block stands under its own id, the hash index is the inverse of the stored hashes, the session keys
are those of stored blocks, every stored block among them, and the edge tables mirror each other. -/
theorem exists_catalog (own_id : ∀ (key : Bytes) (b : ContextBlock), st.blocksById[key]? = some b → key = b.id.raw.toBeBytes)
    (hash_index : ∀ hashKey idKey : Bytes, st.blocksByHash[hashKey]? = some idKey ↔
      ∃ b : ContextBlock, st.blocksById[idKey]? = some b ∧ b.hash.bytes = hashKey)
    (listed : ∀ key ∈ st.blocksBySession, ∃ s id, key = sessionBlockKey s id ∧ id.raw.toBeBytes ∈ st.blocksById)
    (named : ∀ id, id.raw.toBeBytes ∈ st.blocksById → ∃ s, sessionBlockKey s id ∈ st.blocksBySession)
    (mirrored : st.Mirrored) : ∃ c : Catalog, st.Represents c.toContents := by
  obtain ⟨es, hfrom, hto⟩ := mirrored
  let c : Contents := ⟨fun id => st.blocksById[id.raw.toBeBytes]?, fun s => {id | sessionBlockKey s id ∈ st.blocksBySession}, es⟩
  have stored : ∀ {id}, c.Stored id ↔ id.raw.toBeBytes ∈ st.blocksById := by
    intro id
    rw [mem_iff_isSome, Option.isSome_iff_exists]
    rfl
  have holds : ∀ {id : BlockId} {h : ContentHash}, c.Holds id h ↔ st.blocksByHash[h.bytes]? = some id.raw.toBeBytes := by
    intro id h
    rw [hash_index]
    exact exists_congr fun b => and_congr_right fun _ => ContentHash.bytes_inj.symm
  refine ⟨⟨c, ?_, ?_, ?_, ?_⟩, ?_, ?_, ?_, hfrom, hto⟩
  · intro id b hb
    exact (blockId_bytes_inj.mp (own_id _ b hb)).symm
  · intro i j h hi hj
    exact blockId_bytes_inj.mp (Option.some.inj ((holds.mp hi).symm.trans (holds.mp hj)))
  · intro s id hid
    obtain ⟨s', id', hkey, hstored⟩ := listed _ hid
    obtain ⟨-, rfl⟩ := sessionBlockKey_inj.mp hkey
    exact stored.mpr hstored
  · exact fun hid => named _ (stored.mp hid)
  · intro key b
    constructor
    · intro hb
      obtain rfl := own_id key b hb
      exact ⟨b.id, rfl, hb⟩
    · rintro ⟨id, rfl, hb⟩
      exact hb
  · intro key v
    rw [hash_index]
    constructor
    · rintro ⟨b, hb, rfl⟩
      obtain rfl := own_id v b hb
      exact ⟨b.hash, b.id, rfl, rfl, b, hb, rfl⟩
    · rintro ⟨h, id, rfl, rfl, b, hb, rfl⟩
      exact ⟨b, hb, rfl⟩
  · intro key
    constructor
    · intro hkey
      obtain ⟨s, id, rfl, -⟩ := listed key hkey
      exact ⟨s, id, rfl, hkey⟩
    · rintro ⟨s, id, rfl, hid⟩
      exact hid

theorem Represents.mirrored {c : Contents} (h : st.Represents c) : st.Mirrored := ⟨c.edges, h.edges_from, h.edges_to⟩

/-! ### The check -/

theorem mem_named_iff {sessions : KeyTable Bytes} {id : BlockId} :
    id ∈ sessions.keys.filterMap namedBlock ↔ ∃ s, sessionBlockKey s id ∈ sessions := by
  rw [List.mem_filterMap]
  constructor
  · rintro ⟨key, hkey, hnamed⟩
    obtain ⟨s, id', rfl⟩ := exists_sessionBlockKey (sessionKeySuffix_named hnamed).1
    rw [namedBlock_sessionBlockKey, Option.some.injEq] at hnamed
    exact ⟨s, hnamed ▸ Std.ExtTreeMap.mem_keys.mp hkey⟩
  · rintro ⟨s, hs⟩
    exact ⟨_, Std.ExtTreeMap.mem_keys.mpr hs, namedBlock_sessionBlockKey s id⟩

theorem unlisted_eq_nil {sessions : KeyTable Bytes} {realIds : List BlockId} :
    unlisted sessions realIds = [] ↔ ∀ id ∈ realIds, ∃ s, sessionBlockKey s id ∈ sessions := by
  rw [unlisted, List.filter_eq_nil_iff]
  refine forall_congr' fun id => imp_congr_right fun _ => ?_
  rw [decide_eq_true_iff, not_not, mem_named_iff]

/-- The hash index sends the stored hash to the block. -/
theorem routed_of_clean {x : BlockId × ContextBlock} (hpresent : (st.blocksByHash[x.2.hash.bytes]?).isNone = false)
    (hrouted : misrouted st.blocksByHash x = false) : st.blocksByHash[x.2.hash.bytes]? = some x.1.raw.toBeBytes := by
  rw [Option.isNone_eq_false_iff, Option.isSome_iff_exists] at hpresent
  obtain ⟨v, hv⟩ := hpresent
  simpa [misrouted, hv] using hrouted

theorem Represents.unchecked {c : Catalog} (h : st.Represents c.toContents) : st.Unchecked := by
  refine ⟨h.invariant.own_id, fun hashKey v hv => (h.invariant.hash_index _ _).mp hv, fun key hkey => ?_, h.mirrored⟩
  obtain ⟨s, id, rfl, -⟩ := (h.by_session key).mp hkey
  simp

/-- A clean check and the four properties that it does not look at are a store that holds a catalog of sound blocks. -/
theorem verify_clean_iff : (∃ r, st.verify contentHashOf = .ok r ∧ r.isClean = true) ∧ st.Unchecked ↔
    ∃ c : Catalog, st.Represents c.toContents ∧ Hashed contentHashOf c.toContents := by
  constructor
  · rintro ⟨⟨r, hr, hclean⟩, hun⟩
    obtain ⟨l, hl⟩ := holdings_of_own hun.own_id
    have hdecodes : Decodes st.blocksByHash := by
      intro hashKey v hv
      obtain ⟨b, hb, -⟩ := hun.current hashKey v hv
      exact ⟨b.id, hun.own_id v b hb⟩
    rw [hl.verify_eq hdecodes, Except.ok.injEq] at hr
    subst hr
    obtain ⟨hhashes, hpresent, hrouted, horphans, hlisted⟩ := isClean_iff.mp hclean
    simp only [List.map_eq_nil_iff, List.filter_eq_nil_iff, Bool.not_eq_true] at hhashes hpresent hrouted
    rw [List.length_eq_zero_iff, List.filter_eq_nil_iff] at horphans
    have hindex : ∀ id b, st.blocksById[BlockId.raw id |>.toBeBytes]? = some b →
        st.blocksByHash[b.hash.bytes]? = some id.raw.toBeBytes := by
      intro id b hb
      have hx := hl.mem_iff.mpr hb
      exact routed_of_clean (hpresent _ hx) (hrouted _ hx)
    obtain ⟨c, hc⟩ : ∃ c : Catalog, st.Represents c.toContents := by
      refine exists_catalog hun.own_id (fun hashKey idKey => ⟨hun.current hashKey idKey, ?_⟩) (fun key hkey => ?_)
        (fun id hid => unlisted_eq_nil.mp hlisted id (hl.mem_map_iff.mpr hid)) hun.mirrored
      · rintro ⟨b, hb, rfl⟩
        obtain rfl := hun.own_id idKey b hb
        exact hindex b.id b hb
      · obtain ⟨s, id, rfl⟩ := exists_sessionBlockKey (hun.wide key hkey)
        have hkept := horphans _ (Std.ExtTreeMap.mem_keys.mpr hkey)
        rw [orphan_sessionBlockKey, not_not] at hkept
        exact ⟨s, id, rfl, hl.mem_map_iff.mp hkept⟩
    refine ⟨c, hc, fun id b hb => ?_⟩
    have hx := hl.mem_iff.mpr ((hc.by_id _ b).mpr ⟨id, rfl, hb⟩)
    simpa [mismatched] using hhashes _ hx
  · rintro ⟨c, hc, hashed⟩
    exact ⟨hc.verify_clean hashed, hc.unchecked⟩

/-! ### The repair -/

theorem mem_scrubbedSessions {sessions : KeyTable Bytes} {realIds : List BlockId} {s : SessionId} {id : BlockId} :
    sessionBlockKey s id ∈ scrubbedSessions sessions realIds ↔ id ∈ realIds ∧ sessionBlockKey s id ∈ sessions := by
  rw [scrubbedSessions, mem_eraseAll, List.mem_filter, Std.ExtTreeMap.mem_keys, orphan_sessionBlockKey]
  tauto

/-- The rebuilt hash index is the inverse of the stored hashes. -/
theorem rebuiltIndex_iff (hl : st.Holdings l)
    (own_id : ∀ (key : Bytes) (b : ContextBlock), st.blocksById[key]? = some b → key = b.id.raw.toBeBytes)
    (distinct : st.DistinctHashes) (hashKey idKey : Bytes) : (rebuiltIndex l)[hashKey]? = some idKey ↔
      ∃ b : ContextBlock, st.blocksById[idKey]? = some b ∧ b.hash.bytes = hashKey := by
  constructor
  · intro h
    rw [getElem?_rebuiltIndex, Option.map_eq_some_iff] at h
    obtain ⟨x, hx, rfl⟩ := h
    obtain ⟨hmem, hhash⟩ := List.mem_filter.mp (List.mem_of_getLast? hx)
    exact ⟨x.2, hl.mem_iff.mp hmem, by simpa using hhash⟩
  · rintro ⟨b, hb, rfl⟩
    obtain rfl := own_id idKey b hb
    obtain ⟨y, hy, hhash, hindex⟩ := exists_rebuiltIndex (hl.mem_iff.mpr hb)
    have heq := distinct _ _ _ _ (hl.mem_iff.mp hy) hb hhash
    rw [hindex, heq]

/-- Repair leads to tables that hold a catalog exactly when the tables that it trusts determine one. -/
theorem repair_recovers_iff : (∃ report st', st.repair contentHashOf = .ok (report, st') ∧
    ∃ c : Catalog, st'.Represents c.toContents) ↔ st.Salvageable := by
  constructor
  · rintro ⟨report, st', hrepair, c, hc⟩
    obtain ⟨l, hl⟩ := exists_holdings (wide_of_repair hrepair)
    rw [hl.repair_eq] at hrepair
    cases hrepair
    have hinvariant := hc.invariant
    refine ⟨hinvariant.own_id, hinvariant.hash_injective, fun key hkey => ?_, fun id hid => ?_, hc.mirrored⟩
    · by_contra hnarrow
      have hkept : key ∈ scrubbedSessions st.blocksBySession (l.map (·.1)) := by
        rw [scrubbedSessions, mem_eraseAll, List.mem_filter]
        refine ⟨fun hno => ?_, hkey⟩
        rw [orphan, namedBlock_eq_none.mpr hnarrow] at hno
        cases hno.2
      obtain ⟨s, id, rfl, -⟩ := (hc.by_session key).mp hkept
      simp at hnarrow
    · obtain ⟨s, hs⟩ := hinvariant.stored_listed id hid
      exact ⟨s, (mem_scrubbedSessions.mp hs).2⟩
  · intro h
    obtain ⟨l, hl⟩ := holdings_of_own h.own_id
    refine ⟨_, _, hl.repair_eq, exists_catalog h.own_id (rebuiltIndex_iff hl h.own_id h.distinct) (fun key hkey => ?_)
      (fun id hid => ?_) h.mirrored⟩
    · obtain ⟨-, hold⟩ := mem_eraseAll.mp hkey
      obtain ⟨s, id, rfl⟩ := exists_sessionBlockKey (h.wide key hold)
      exact ⟨s, id, rfl, hl.mem_map_iff.mp (mem_scrubbedSessions.mp hkey).1⟩
    · obtain ⟨s, hs⟩ := h.named id hid
      exact ⟨s, mem_scrubbedSessions.mpr ⟨hl.mem_map_iff.mpr hid, hs⟩⟩

/-- The session keys that are left are those from before the damage. -/
theorem Damaged.scrubbed (h : Damaged st st') {c : Catalog} (hc : st.Represents c.toContents) (hl : st.Holdings l) :
    scrubbedSessions st'.blocksBySession (l.map (·.1)) = st.blocksBySession := by
  refine Std.ExtTreeMap.ext_getElem? fun key => ?_
  rw [scrubbedSessions, getElem?_eraseAll]
  cases hold : st.blocksBySession[key]? with
  | some v =>
    obtain ⟨s, id, rfl, hid⟩ := hc.invariant.listed_stored key (mem_iff_isSome.mpr (by simp [hold]))
    have hkept : ¬orphan (l.map (·.1)) (sessionBlockKey s id) = true := by
      rw [orphan_sessionBlockKey, not_not]
      exact hl.mem_map_iff.mpr hid
    rw [if_neg fun hmem => hkept (List.mem_filter.mp hmem).2, h.kept _ v hold]
  | none =>
    by_cases hnew : key ∈ st'.blocksBySession
    · rcases h.added key hnew with hmem | ⟨s, id, rfl, hmissing⟩
      · simp [mem_iff_isSome, hold] at hmem
      · refine if_pos (List.mem_filter.mpr ⟨Std.ExtTreeMap.mem_keys.mpr hnew, orphan_sessionBlockKey.mpr fun hid => ?_⟩)
        exact hmissing (hl.mem_map_iff.mp hid)
    · rw [mem_iff_isSome, Bool.not_eq_true, Option.isSome_eq_false_iff, Option.isNone_iff_eq_none] at hnew
      simp [hnew]

/-- Whatever happened to the hash index, and whatever keys of missing blocks came into the session index, `repair` gives back
the very store, and reports as removed what had been added. -/
theorem repair_undoes (h : Reachable contentHashOf st) (hdamaged : Damaged st st') :
    ∃ report, st'.repair contentHashOf = .ok (report, st) ∧ report.hashMismatchesQuarantined = [] ∧
      report.blocksWithNoSession = [] ∧
      st.blocksBySession.size + report.orphanSessionEntriesRemoved = st'.blocksBySession.size := by
  obtain ⟨c, hc, hashed⟩ := h.represents
  obtain ⟨l, hl⟩ := holdings_of_own hc.invariant.own_id
  have hl' : st'.Holdings l := by
    unfold Holdings
    rw [hdamaged.blocks]
    exact hl
  have hsessions := hdamaged.scrubbed hc hl
  have hstore : st'.repairedStore l = st := by
    have hindex : rebuiltIndex l = st.blocksByHash := by
      refine Std.ExtTreeMap.ext_getElem? fun key => Option.ext fun v => ?_
      rw [rebuiltIndex_iff hl hc.invariant.own_id hc.invariant.hash_injective, hc.invariant.hash_index]
    rw [LmdbStore.repairedStore, hindex, hsessions, hdamaged.blocks, hdamaged.edges_from, hdamaged.edges_to]
  refine ⟨_, by rw [hl'.repair_eq, hstore], ?_, ?_, ?_⟩
  · simp only [List.map_eq_nil_iff, List.filter_eq_nil_iff]
    intro x hx
    simp [mismatched, hashed x.1 x.2 (hc.get_eq x.1 ▸ hl.mem_iff.mp hx)]
  · rw [hsessions, unlisted_eq_nil]
    exact fun id hid => hc.invariant.stored_listed id (hl.mem_map_iff.mp hid)
  · have hkept : st.blocksBySession.keys.Perm (st'.blocksBySession.keys.filter fun key => !orphan (l.map (·.1)) key) := by
      refine (List.perm_ext_iff_of_nodup Std.ExtTreeMap.nodup_keys (Std.ExtTreeMap.nodup_keys.filter _)).mpr fun key => ?_
      rw [Std.ExtTreeMap.mem_keys, ← hsessions, scrubbedSessions, mem_eraseAll, List.mem_filter, List.mem_filter,
        Std.ExtTreeMap.mem_keys, Bool.not_eq_true']
      cases orphan (l.map (·.1)) key <;> simp
    rw [← Std.ExtTreeMap.length_keys, ← Std.ExtTreeMap.length_keys, hkept.length_eq, Nat.add_comm]
    exact (List.length_eq_length_filter_add _).symm

/-- The sample store with an empty hash index and a session key of block 5, which is not stored. -/
def damagedStore : LmdbStore :=
  { sampleStore with
    blocksByHash := ∅
    blocksBySession := sampleStore.blocksBySession.insert (sessionBlockKey ⟨3⟩ ⟨5⟩) [] }

theorem repair_undoes_sample : ∃ report, damagedStore.repair sampleHash = .ok (report, sampleStore) ∧
    report.hashMismatchesQuarantined = [] ∧ report.blocksWithNoSession = [] ∧
    sampleStore.blocksBySession.size + report.orphanSessionEntriesRemoved = damagedStore.blocksBySession.size := by
  refine repair_undoes sampleStore_reachable ⟨rfl, fun key v hv => ?_, fun key hkey => ?_, rfl, rfl⟩
  · have hnew : sessionBlockKey ⟨3⟩ ⟨5⟩ ∉ sampleStore.blocksBySession := by decide +kernel
    rw [damagedStore, getElem?_insert_eq, if_neg, hv]
    rintro rfl
    exact hnew (mem_iff_isSome.mpr (by simp [hv]))
  · rcases Std.ExtTreeMap.mem_insert.mp hkey with heq | hold
    · exact .inr ⟨_, _, (Std.LawfulEqCmp.compare_eq_iff_eq.mp heq).symm, by decide +kernel⟩
    · exact .inl hold

end Llm386.LmdbStore
