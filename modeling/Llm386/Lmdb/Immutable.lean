import Llm386.Lmdb.BlockStore

/-! # Immutability on LMDB

A put that deduplicates touches no block. A put of new content writes under the proposed id: where that id already
stores a block, the block is replaced, and the hash index still leads from its hash to the id. -/

namespace Llm386.LmdbStore
open KeyTable

/-- Every block of `st` is served by `st'` with the same bytes, hash, kind and provenance. -/
def Keeps (st st' : LmdbStore) : Prop :=
  ∀ id a, st.get id = some a → ∃ a', st'.get id = some a' ∧ a'.bytes = a.bytes ∧ a'.hash = a.hash ∧ a'.kind = a.kind ∧
    a'.provenance = a.provenance

/-- The hash index leads to blocks of that hash. -/
def Faithful (st : LmdbStore) : Prop :=
  ∀ hash id, st.lookupHash hash = .ok (some id) → ∃ b, st.get id = some b ∧ b.hash = hash

/-- The proposed id stores nothing, or the content is indexed already. -/
def Fresh (st : LmdbStore) (b : ContextBlock) : Prop :=
  st.get b.id = none ∨ ∃ id, st.lookupHash b.hash = .ok (some id)

/-- Every stored block is indexed under its hash, whatever else the index holds. -/
structure Indexed (st : LmdbStore) : Prop where
  entries : ∀ (hashKey idKey : Bytes), st.blocksByHash[hashKey]? = some idKey → ∃ id : BlockId, idKey = id.raw.toBeBytes
  stored : ∀ (key : Bytes) (b : ContextBlock), st.blocksById[key]? = some b → st.blocksByHash[b.hash.bytes]? = some key

variable {st st' : LmdbStore}

/-! ### The index over any run -/

/-- A block goes together with its index entry, and no other block shares that entry. -/
theorem Indexed.drop (h : Indexed st) {key : Bytes} {b : ContextBlock} (hb : st.blocksById[key]? = some b)
    (hblocks : st'.blocksById = st.blocksById.erase key) (hhash : st'.blocksByHash = st.blocksByHash.erase b.hash.bytes) :
    Indexed st' where
  entries hashKey idKey hentry := by
    rw [hhash, getElem?_erase_eq] at hentry
    split at hentry
    · cases hentry
    · exact h.entries hashKey idKey hentry
  stored k a ha := by
    rw [hblocks, getElem?_erase_eq] at ha
    split at ha
    · cases ha
    · rename_i hne
      rw [hhash, getElem?_erase_eq, if_neg, h.stored k a ha]
      intro heq
      have hkey : some k = some key := (h.stored k a ha).symm.trans (heq ▸ h.stored key b hb)
      exact hne (Option.some.inj hkey).symm

theorem Indexed.congr (h : Indexed st) (hblocks : st'.blocksById = st.blocksById)
    (hhash : st'.blocksByHash = st.blocksByHash) : Indexed st' where
  entries hashKey idKey hentry := h.entries hashKey idKey (hhash ▸ hentry)
  stored k a ha := hhash ▸ h.stored k a (hblocks ▸ ha)

theorem purgeEdgesForBlock_hash {id : BlockId} (h : st.purgeEdgesForBlock id = .ok st') :
    st'.blocksByHash = st.blocksByHash := by
  obtain ⟨st₁, hout, h⟩ := Loop.bind_eq_ok.mp h
  obtain ⟨outgoing, -, hout⟩ := Loop.bind_eq_ok.mp hout
  obtain ⟨incoming, -, h⟩ := Loop.bind_eq_ok.mp h
  cases hout
  cases h
  rfl

theorem delete_indexed {id : BlockId} {existed : Bool} (h : Indexed st) (hdel : st.delete id = .ok (existed, st')) :
    Indexed st' := by
  simp only [delete] at hdel
  split at hdel
  · cases hdel
    exact h
  · obtain ⟨st₁, hpurge, hdel⟩ := Loop.bind_eq_ok.mp hdel
    cases hdel
    have hblocks := purgeEdgesForBlock_blocks hpurge
    have hhash := purgeEdgesForBlock_hash hpurge
    cases hb : st.blocksById[id.raw.toBeBytes]? with
    | none =>
      simp only [hb, Option.map_none, Option.isSome_none, Bool.false_eq_true, if_false] at hblocks hhash
      exact h.congr hblocks hhash
    | some b =>
      simp only [hb, Option.map_some, Option.isSome_some, if_true] at hblocks hhash
      exact h.drop hb hblocks hhash

theorem purgeUnreferenced_indexed {id : BlockId} (h : Indexed st) (hpurge : st.purgeUnreferenced id = .ok st') :
    Indexed st' := by
  unfold purgeUnreferenced at hpurge
  split at hpurge
  · cases hpurge
    exact h
  · split at hpurge
    · cases hpurge
      exact h
    · rename_i b hb
      exact h.drop hb (purgeEdgesForBlock_blocks hpurge) (purgeEdgesForBlock_hash hpurge)

theorem purgeSession_indexed {s : SessionId} {count : Nat} (h : Indexed st)
    (hpurge : st.purgeSession s = .ok (count, st')) : Indexed st' := by
  obtain ⟨ids, -, hpurge⟩ := Loop.bind_eq_ok.mp hpurge
  simp only at hpurge
  split at hpurge
  · cases hpurge
    exact h
  · obtain ⟨st₁, hrest, hpurge⟩ := Loop.bind_eq_ok.mp hpurge
    cases hpurge
    exact Loop.foldlM_inv (P := Indexed) (fun id _ u v hu (hv : u.purgeUnreferenced id = .ok v) =>
      purgeUnreferenced_indexed hu hv) (by exact h.congr rfl rfl) hrest

/-- The two outcomes of a put: the content is indexed and only a session entry is new, or the block is written. -/
theorem put_cases (h : Indexed st) (s : SessionId) (b : ContextBlock) :
    (∃ id, st.lookupHash b.hash = .ok (some id) ∧ ∃ st', st.put s b = .ok (id, st') ∧
      st'.blocksById = st.blocksById ∧ st'.blocksByHash = st.blocksByHash) ∨
    st.lookupHash b.hash = .ok none ∧ st.blocksByHash[b.hash.bytes]? = none ∧ ∃ st', st.put s b = .ok (b.id, st') ∧
      st'.blocksById = st.blocksById.insert b.id.raw.toBeBytes b ∧
      st'.blocksByHash = st.blocksByHash.insert b.hash.bytes b.id.raw.toBeBytes := by
  cases hindex : st.blocksByHash[b.hash.bytes]? with
  | some idKey =>
    obtain ⟨id, rfl⟩ := h.entries _ _ hindex
    refine Or.inl ⟨id, ?_, _, put_of_indexed hindex s, rfl, rfl⟩
    simp only [lookupHash, hindex, decodeBlockId_toBeBytes]
    rfl
  | none => exact Or.inr ⟨by simp only [lookupHash, hindex], rfl, _, put_of_unindexed hindex s, rfl, rfl⟩

theorem put_indexed {s : SessionId} {b : ContextBlock} {id : BlockId} (h : Indexed st)
    (hput : st.put s b = .ok (id, st')) : Indexed st' := by
  rcases put_cases h s b with ⟨id', -, st₁, hput', hblocks, hhash⟩ | ⟨-, hnone, st₁, hput', hblocks, hhash⟩
  · cases hput.symm.trans hput'
    exact h.congr hblocks hhash
  · cases hput.symm.trans hput'
    refine ⟨fun hashKey idKey hentry => ?_, fun k a ha => ?_⟩
    · rw [hhash, getElem?_insert_eq] at hentry
      split at hentry
      · cases hentry
        exact ⟨b.id, rfl⟩
      · exact h.entries hashKey idKey hentry
    · rw [hblocks, getElem?_insert_eq] at ha
      rw [hhash, getElem?_insert_eq]
      split at ha
      · rename_i hkey
        cases ha
        rw [if_pos rfl, hkey]
      · -- Another block keeps its entry: the new hash was not indexed.
        have hentry := h.stored k a ha
        rw [if_neg, hentry]
        rintro heq
        rw [← heq, hnone] at hentry
        cases hentry

theorem exec_indexed {op : WriteOp} (h : Indexed st) (hexec : st.exec op = .ok st') : Indexed st' := by
  cases op with
  | put s b =>
    obtain ⟨⟨id, st₁⟩, hput, heq⟩ := Loop.bind_eq_ok.mp hexec
    cases heq
    exact put_indexed h hput
  | putEdge e =>
    cases hexec
    exact h.congr rfl rfl
  | delete id =>
    obtain ⟨⟨existed, st₁⟩, hdelete, heq⟩ := Loop.bind_eq_ok.mp hexec
    cases heq
    exact delete_indexed h hdelete
  | purgeSession s =>
    obtain ⟨⟨count, st₁⟩, hpurge, heq⟩ := Loop.bind_eq_ok.mp hexec
    cases heq
    exact purgeSession_indexed h hpurge

theorem Ran.indexed (h : Ran st) : Indexed st := by
  induction h with
  | empty => exact ⟨fun _ _ hentry => by simp [LmdbStore.empty] at hentry, fun _ _ hb => by simp [LmdbStore.empty] at hb⟩
  | step _ hexec ih => exact exec_indexed ih hexec

/-! ### One more put -/

theorem get_insert {b : ContextBlock} (hblocks : st'.blocksById = st.blocksById.insert b.id.raw.toBeBytes b)
    (id : BlockId) : st'.get id = if b.id = id then some b else st.get id := by
  rw [get, hblocks, getElem?_insert_eq]
  simp only [blockId_bytes_inj]
  rfl

theorem lookupHash_insert {b : ContextBlock}
    (hhash : st'.blocksByHash = st.blocksByHash.insert b.hash.bytes b.id.raw.toBeBytes) (hash : ContentHash) :
    st'.lookupHash hash = if b.hash = hash then .ok (some b.id) else st.lookupHash hash := by
  simp only [lookupHash, hhash, getElem?_insert_eq, ContentHash.bytes_inj]
  by_cases heq : b.hash = hash
  · simp only [heq, if_true, decodeBlockId_toBeBytes]
    rfl
  · simp only [heq, if_false]

/-- After any run, a put keeps every stored block and leaves a faithful index exactly when the index was faithful
and the put is fresh. -/
theorem put_keeps_iff (h : Ran st) (s : SessionId) (b : ContextBlock) : ∃ id st', st.put s b = .ok (id, st') ∧
    (Keeps st st' ∧ Faithful st' ↔ Faithful st ∧ Fresh st b) := by
  rcases put_cases h.indexed s b with ⟨id, hlookup, st', hput, hblocks, hhash⟩ | ⟨hlookup, hnone, st', hput, hblocks, hhash⟩
  · refine ⟨id, st', hput, ?_⟩
    have hget : ∀ id, st'.get id = st.get id := fun id => by rw [get, get, hblocks]
    have hsame : ∀ hash, st'.lookupHash hash = st.lookupHash hash := fun hash => by rw [lookupHash, lookupHash, hhash]
    have hkeeps : Keeps st st' := fun id a ha => ⟨a, by rw [hget, ha], rfl, rfl, rfl, rfl⟩
    have hfresh : Fresh st b := Or.inr ⟨id, hlookup⟩
    simp only [hkeeps, hfresh, true_and, and_true, Faithful, hget, hsame]
  · refine ⟨b.id, st', hput, ?_⟩
    have hget := get_insert hblocks
    have hsame := lookupHash_insert hhash
    have hfresh : Fresh st b ↔ st.get b.id = none := by simp [Fresh, hlookup]
    rw [hfresh]
    constructor
    · rintro ⟨hkeeps, hfaithful⟩
      have habsent : st.get b.id = none := by
        by_contra hstored
        obtain ⟨a, ha⟩ := Option.ne_none_iff_exists'.mp hstored
        obtain ⟨a', ha', -, hkept, -⟩ := hkeeps b.id a ha
        rw [hget, if_pos rfl] at ha'
        cases ha'
        -- The replaced block had another hash: it was indexed, the new one is not.
        have hentry := h.indexed.stored _ a ha
        rw [← hkept, hnone] at hentry
        cases hentry
      refine ⟨fun hash id hid => ?_, habsent⟩
      have hne : b.hash ≠ hash := fun heq => by
        rw [← heq, hlookup] at hid
        cases hid
      obtain ⟨a, ha, hhash'⟩ := hfaithful hash id (by rw [hsame, if_neg hne, hid])
      rw [hget] at ha
      split at ha
      · cases ha
        exact absurd hhash' hne
      · exact ⟨a, ha, hhash'⟩
    · rintro ⟨hfaithful, habsent⟩
      have hother : ∀ id a, st.get id = some a → b.id ≠ id := fun id a ha heq => by
        rw [← heq, habsent] at ha
        cases ha
      refine ⟨fun id a ha => ⟨a, by rw [hget, if_neg (hother id a ha), ha], rfl, rfl, rfl, rfl⟩, fun hash id hid => ?_⟩
      rw [hsame] at hid
      split at hid
      · rename_i heq
        cases hid
        exact ⟨b, by rw [hget, if_pos rfl], heq⟩
      · obtain ⟨a, ha, hhash'⟩ := hfaithful hash id hid
        exact ⟨a, by rw [hget, if_neg (hother id a ha), ha], hhash'⟩

/-- Where every put was fresh, the index is faithful. -/
theorem Reachable.faithful {contentHashOf : Bytes → ContentHash} (h : Reachable contentHashOf st) : Faithful st := by
  obtain ⟨c, hrep, -⟩ := h.represents
  intro hash id hid
  obtain ⟨r, hr, hiff⟩ := hrep.lookupHash_eq hash
  obtain ⟨b, hb, hbhash⟩ := (hiff id).mp (Except.ok.inj (hr.symm.trans hid))
  exact ⟨b, by rw [hrep.get_eq, hb], hbhash⟩

/-- Stored blocks are immutable under a put exactly when the index is faithful and the put fresh, whatever run led
there; and it is faithful in every run whose puts are fresh and carry the hash of their bytes. -/
theorem put_immutable (h : Ran st) (s : SessionId) (b : ContextBlock) :
    (∃ id st', st.put s b = .ok (id, st') ∧ (Keeps st st' ∧ Faithful st' ↔ Faithful st ∧ Fresh st b)) ∧
      ∀ contentHashOf, Reachable contentHashOf st → Faithful st :=
  ⟨put_keeps_iff h s b, fun _ h => h.faithful⟩

/-! ### A second body under one id -/

def replacedStore : LmdbStore := storeAfter [.put ⟨1⟩ (sampleBlock ⟨7⟩ .fact [0x61] [])]

theorem put_replaces : Reachable sampleHash replacedStore ∧
    ∃ st', replacedStore.put ⟨1⟩ (sampleBlock ⟨7⟩ .fact [0x62] []) = .ok (⟨7⟩, st') ∧
      ¬Keeps replacedStore st' ∧ ¬Faithful st' := by
  refine ⟨storeAfter_reachable (by decide +kernel), _, put_of_unindexed (by decide +kernel) ⟨1⟩, fun hkeeps => ?_, fun hfaithful => ?_⟩
  · have hstored : (replacedStore.get ⟨7⟩).map (·.bytes) = some [0x61] := by decide +kernel
    obtain ⟨a, ha, hbytes⟩ := Option.map_eq_some_iff.mp hstored
    obtain ⟨a', ha', hsame, -⟩ := hkeeps ⟨7⟩ a ha
    cases ((get_insert rfl ⟨7⟩).trans (if_pos rfl)).symm.trans ha'
    rw [hbytes] at hsame
    cases hsame
  · have hlookup : replacedStore.lookupHash (sampleHash [0x61]) = .ok (some ⟨7⟩) := by decide +kernel
    obtain ⟨a, ha, hhash⟩ := hfaithful (sampleHash [0x61]) ⟨7⟩
      (by rw [lookupHash_insert (b := sampleBlock ⟨7⟩ .fact [0x62] []) rfl, if_neg (by decide +kernel), hlookup])
    cases ((get_insert rfl ⟨7⟩).trans (if_pos rfl)).symm.trans ha
    exact absurd hhash (by decide +kernel)

theorem put_immutable_sample : Faithful replacedStore ∧
    ∃ id st', replacedStore.put ⟨1⟩ (sampleBlock ⟨8⟩ .fact [0x62] []) = .ok (id, st') ∧ Keeps replacedStore st' ∧
      Faithful st' := by
  have hreach : Reachable sampleHash replacedStore := storeAfter_reachable (by decide +kernel)
  obtain ⟨⟨id, st', hput, hiff⟩, hfaithful⟩ := put_immutable hreach.ran ⟨1⟩ (sampleBlock ⟨8⟩ .fact [0x62] [])
  have habsent : (replacedStore.get ⟨8⟩).isNone = true := by decide +kernel
  exact ⟨hfaithful _ hreach, id, st', hput,
    hiff.mpr ⟨hfaithful _ hreach, Or.inl (Option.isNone_iff_eq_none.mp habsent)⟩⟩

end Llm386.LmdbStore
