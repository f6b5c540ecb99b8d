import Llm386.Lib.Loop
import Llm386.Pg.Store

/-! # The Postgres store refines a catalog

`Represents st c` says that the three tables of `st` hold exactly the contents `c`. Every operation on tables that represent
a catalog gives the tables that represent the operation of the catalog, or fails and leaves them as they are. -/

namespace Llm386

/-- A block as its columns keep it: a timestamp past the range of a `BIGINT` becomes the last one in it. -/
def ContextBlock.capped (b : ContextBlock) : ContextBlock :=
  { b with
    createdAt := Pg.tsFromI64 (Pg.tsToI64 b.createdAt)
    updatedAt := Pg.tsFromI64 (Pg.tsToI64 b.updatedAt) }

theorem ContextBlock.capped_eq {b : ContextBlock} (hcreated : b.createdAt.val < 2 ^ 63) (hupdated : b.updatedAt.val < 2 ^ 63) :
    b.capped = b := by
  rw [capped, Pg.tsFromI64_tsToI64 hcreated, Pg.tsFromI64_tsToI64 hupdated]

namespace PgStore
open Pg Contents

/-! ### Rows -/

theorem idBytes_inj {a b : BlockId} : idBytes a = idBytes b ↔ a = b :=
  U128.toBeBytes_inj.trans BlockId.raw_injective.eq_iff

theorem sessionBytes_inj {a b : SessionId} : sessionBytes a = sessionBytes b ↔ a = b :=
  U128.toBeBytes_inj.trans SessionId.raw_injective.eq_iff

theorem byteaLe_idBytes {a b : BlockId} : byteaLe (idBytes a) (idBytes b) ↔ a ≤ b := by
  rw [byteaLe, idBytes, idBytes, U128.toBeBytes, U128.toBeBytes, BigEndian.compare_encode a.raw.isLt b.raw.isLt,
    Ne, Nat.compare_eq_gt, not_lt]
  rfl

/-- The row keeps the block. -/
structure Keeps (row : BlockRow) (b : ContextBlock) : Prop where
  id : row.id = idBytes b.id
  hash : row.hash = b.hash.bytes
  reads : rowToBlock row = .ok b

def sessionRow (s : SessionId) (id : BlockId) : SessionBlockRow := ⟨sessionBytes s, idBytes id⟩

def edgeRow (e : Edge) : EdgeRow := ⟨idBytes e.fromId, edgeKindToStr e.kind, idBytes e.toId⟩

theorem sessionRow_inj {s s' : SessionId} {id id' : BlockId} : sessionRow s id = sessionRow s' id' ↔ s = s' ∧ id = id' := by
  simp [sessionRow, sessionBytes_inj, idBytes_inj]

theorem edgeKindToStr_inj {k k' : EdgeKind} : edgeKindToStr k = edgeKindToStr k' ↔ k = k' := by
  refine ⟨fun h => ?_, fun h => h ▸ rfl⟩
  have hread := edgeKindFromStr_toStr k
  rw [h, edgeKindFromStr_toStr] at hread
  exact (Except.ok.inj hread).symm

theorem edgeRow_injective : Function.Injective edgeRow := by
  rintro ⟨f, t, k⟩ ⟨f', t', k'⟩ h
  simp only [edgeRow, EdgeRow.mk.injEq, idBytes_inj, edgeKindToStr_inj] at h
  obtain ⟨rfl, rfl, rfl⟩ := h
  rfl

variable {pg : Postgres} {st : PgStore} {c : Contents} {b : ContextBlock}

/-- The columns that the database takes read back as the block. -/
theorem bindBlock_keeps (std : pg.Standard) {row : BlockRow} (h : bindBlock pg b = .ok row) : Keeps row b.capped := by
  obtain ⟨tokenCounts, htc, h⟩ := Loop.bind_eq_ok.mp h
  obtain ⟨provenance, hprov, h⟩ := Loop.bind_eq_ok.mp h
  cases h
  refine ⟨rfl, rfl, ?_⟩
  have hid : decodeBlockId (idBytes b.id) = .ok b.id := decodeBlockId_idBytes b.id
  have hkind := blockKindFromStr_toStr b.kind
  have hcounts := tokenCountsFromJson_readBack (std.keeps (.tokenCounts _) htc)
  have hprovenance := provenanceFromJson_readBack (std.keeps (.provenance _) hprov)
  simp only [rowToBlock, blockToRow, hid, hkind, hcounts, hprovenance, Loop.ok_bind]
  exact dif_pos b.hash.width

/-- A column gives back a string or a list of strings only without a NUL. -/
theorem plain_of_readBack {s : String} {w : Json} (h : (Json.string s).ReadBack w) : Json.Plain s := by
  cases h with
  | string hs => exact hs

theorem plain_of_array {l : List String} {w : Json} (h : (Json.array (l.map .string)).ReadBack w) : ∀ s ∈ l, Json.Plain s := by
  cases h with
  | array hitems =>
    intro s hs
    obtain ⟨i, hi, rfl⟩ := List.getElem_of_mem hs
    have hread := hitems.get (i := i) (by simpa using hi) (by simpa [← hitems.length_eq] using hi)
    exact plain_of_readBack (s := l[i]) (by simpa using hread)

theorem plainStrings_of_readBack {v w : Json} (hcounts : (tokenCountsToJson b.tokenCounts).ReadBack v)
    (hprovenance : (provenanceToJson b.provenance).ReadBack w) : PlainStrings b := by
  cases hcounts with
  | object _ hplain _ _ _ =>
    cases hprovenance with
    | object _ _ _ hvalues _ =>
      simp only [List.map_cons, List.map_nil, List.forall₂_cons_left_iff] at hvalues
      obtain ⟨_, _, hsource, ⟨_, _, -, ⟨_, _, hlabels, -, -⟩, -⟩, -⟩ := hvalues
      refine ⟨fun s hs => ?_, plain_of_array hlabels, fun s hs => ?_⟩
      · rw [hs] at hsource
        exact plain_of_readBack hsource
      · obtain ⟨n, hn⟩ := Option.isSome_iff_exists.mp (Std.ExtTreeMap.mem_iff_isSome_getElem?.mp hs)
        exact hplain _ (List.mem_map_of_mem (Std.ExtTreeMap.mem_toList_iff_getElem?_eq_some.mpr hn))

/-- The database takes the columns of a block exactly when it has no NUL in its strings. -/
theorem exists_bindBlock_iff (std : pg.Standard) : (∃ row, bindBlock pg b = .ok row) ↔ PlainStrings b := by
  constructor
  · rintro ⟨row, h⟩
    obtain ⟨tokenCounts, htc, h⟩ := Loop.bind_eq_ok.mp h
    obtain ⟨provenance, hprov, -⟩ := Loop.bind_eq_ok.mp h
    exact plainStrings_of_readBack (std.keeps (.tokenCounts _) htc) (std.keeps (.provenance _) hprov)
  · intro h
    obtain ⟨tokenCounts, htc⟩ := std.takes (.tokenCounts _) (tokenCounts_readBack h)
    obtain ⟨provenance, hprov⟩ := std.takes (.provenance _) (provenance_readBack h)
    exact ⟨_, by rw [bindBlock, htc, Loop.ok_bind, hprov]; rfl⟩

/-- The tables hold exactly the contents `c`, and no row besides. -/
structure Represents (st : PgStore) (c : Contents) : Prop where
  rows : ∀ row ∈ st.blocks.rows, ∃ b, Keeps row b ∧ c.block b.id = some b
  kept : ∀ {id b}, c.block id = some b → ∃ row ∈ st.blocks.rows, Keeps row b ∧ b.id = id
  sessions : ∀ row, row ∈ st.sessionBlocks.rows ↔ ∃ s id, id ∈ c.lists s ∧ row = sessionRow s id
  edges : ∀ row, row ∈ st.edges.rows ↔ ∃ e ∈ c.edges, row = edgeRow e

theorem represents_empty : empty.Represents .empty where
  rows := by simp [empty, Table.empty]
  kept := by simp [Contents.empty]
  sessions := by simp [empty, Table.empty, Contents.empty]
  edges := by simp [empty, Table.empty, Contents.empty]

namespace Represents

theorem find_id (h : st.Represents c) {id : BlockId} (hb : c.block id = some b) :
    ∃ row, st.blocks.find? BlockRow.id (idBytes id) = some row ∧ Keeps row b := by
  obtain ⟨row, hrow, hkeeps, rfl⟩ := h.kept hb
  exact ⟨row, (Table.find?_eq_some_iff (by simp)).mpr ⟨hrow, hkeeps.id⟩, hkeeps⟩

theorem find_id_none (h : st.Represents c) {id : BlockId} (absent : ¬c.Stored id) :
    st.blocks.find? BlockRow.id (idBytes id) = none := by
  rw [Table.find?_eq_none_iff]
  intro row hrow hid
  obtain ⟨b, hkeeps, hb⟩ := h.rows row hrow
  rw [hkeeps.id, idBytes_inj] at hid
  exact absent ⟨b, hid ▸ hb⟩

theorem find_hash (h : st.Represents c) {id : BlockId} {hash : ContentHash} (hid : c.Holds id hash) :
    ∃ row, st.blocks.find? BlockRow.hash hash.bytes = some row ∧ row.id = idBytes id := by
  obtain ⟨b, hb, rfl⟩ := hid
  obtain ⟨row, hrow, hkeeps, rfl⟩ := h.kept hb
  exact ⟨row, (Table.find?_eq_some_iff (by simp)).mpr ⟨hrow, hkeeps.hash⟩, hkeeps.id⟩

theorem find_hash_none (h : st.Represents c) {hash : ContentHash} (hnone : ∀ id, ¬c.Holds id hash) :
    st.blocks.find? BlockRow.hash hash.bytes = none := by
  rw [Table.find?_eq_none_iff]
  intro row hrow hhash
  obtain ⟨b, hkeeps, hb⟩ := h.rows row hrow
  rw [hkeeps.hash, ContentHash.bytes_inj] at hhash
  exact hnone b.id ⟨b, hb, hhash⟩

/-- The unique index on the hash keeps content once. -/
theorem hash_inj (h : st.Represents c) {hash : ContentHash} {i j : BlockId} (hi : c.Holds i hash) (hj : c.Holds j hash) :
    i = j := by
  obtain ⟨row, hrow, hid⟩ := h.find_hash hi
  obtain ⟨row', hrow', hid'⟩ := h.find_hash hj
  rw [hrow] at hrow'
  cases hrow'
  exact idBytes_inj.mp (hid.symm.trans hid')

/-! ### Reads -/

theorem get_eq (h : st.Represents c) (id : BlockId) : st.get id = .ok (c.block id) := by
  cases hb : c.block id with
  | some b =>
    obtain ⟨row, hrow, hkeeps⟩ := h.find_id hb
    simp only [get, hrow, hkeeps.reads]
    rfl
  | none =>
    have absent : ¬c.Stored id := by simp [Stored, hb]
    simp only [get, h.find_id_none absent]

theorem lookupHash_eq (h : st.Represents c) (hash : ContentHash) : ∃ r, st.lookupHash hash = .ok r ∧
    ∀ id, r = some id ↔ c.Holds id hash := by
  by_cases held : ∃ id, c.Holds id hash
  · obtain ⟨id, hid⟩ := held
    obtain ⟨row, hrow, hrowId⟩ := h.find_hash hid
    refine ⟨some id, ?_, fun x => ?_⟩
    · simp only [lookupHash, hrow, hrowId, decodeBlockId_idBytes]
      rfl
    · rw [Option.some.injEq]
      exact ⟨fun heq => heq ▸ hid, h.hash_inj hid⟩
  · refine ⟨none, ?_, fun id => by simpa using not_exists.mp held id⟩
    simp only [lookupHash, h.find_hash_none (not_exists.mp held)]

end Represents

/-- Encoded ids sort as the ids do. -/
theorem insertionSort_idBytes (ids : List BlockId) :
    (ids.map idBytes).insertionSort byteaLe = (ids.insertionSort (· ≤ ·)).map idBytes :=
  (List.map_insertionSort (r := (· ≤ ·)) (s := byteaLe) idBytes ids fun _ _ _ _ => byteaLe_idBytes.symm).symm

theorem ascending_insertionSort {ids : List BlockId} (h : ids.Nodup) : (ids.insertionSort (· ≤ ·)).Pairwise (· < ·) := by
  have hsorted : (ids.insertionSort (· ≤ ·)).Pairwise (· ≤ ·) := List.pairwise_insertionSort _ _
  exact hsorted.imp₂ (fun a b hle hne => lt_of_le_of_ne hle hne) ((List.perm_insertionSort _ _).nodup_iff.mpr h)

theorem mapM_decodeBlockId (ids : List BlockId) : (ids.map idBytes).mapM decodeBlockId = .ok ids := by
  rw [List.mapM_map]
  exact (Loop.mapM_eq_ok fun id _ => decodeBlockId_idBytes id).trans (by rw [List.map_id'])

namespace Represents

/-- The rows of a session name its blocks, each once. -/
theorem session_rows (h : st.Represents c) (s : SessionId) : ∃ ids : List BlockId, ids.Nodup ∧ (∀ id, id ∈ ids ↔ id ∈ c.lists s) ∧
    (st.sessionBlocks.rows.filter (·.sessionId = sessionBytes s)).map (·.blockId) = ids.map idBytes := by
  have hform : ∀ row ∈ st.sessionBlocks.rows.filter (·.sessionId = sessionBytes s), ∃ id, id ∈ c.lists s ∧ row = sessionRow s id := by
    intro row hrow
    obtain ⟨hrow, hs⟩ := List.mem_filter.mp hrow
    obtain ⟨s', id, hid, rfl⟩ := (h.sessions row).mp hrow
    obtain rfl := sessionBytes_inj.mp (of_decide_eq_true hs)
    exact ⟨id, hid, rfl⟩
  obtain ⟨ids, hids⟩ : ∃ ids : List BlockId, ids.map (sessionRow s) =
      st.sessionBlocks.rows.filter (·.sessionId = sessionBytes s) := by
    have hrange : st.sessionBlocks.rows.filter (·.sessionId = sessionBytes s) ∈ {l | ∀ x ∈ l, x ∈ Set.range (sessionRow s)} :=
      fun row hrow => (hform row hrow).imp fun id hid => hid.2.symm
    rwa [← Set.range_list_map] at hrange
  have hnodup : (ids.map (sessionRow s)).Nodup := by
    rw [hids]
    exact (Table.rows_nodup (List.mem_singleton_self _)).filter _
  refine ⟨ids, hnodup.of_map, fun id => ?_, ?_⟩
  · rw [← List.mem_map_of_injective (f := sessionRow s) fun a b hab => (sessionRow_inj.mp hab).2, hids, List.mem_filter, h.sessions]
    constructor
    · rintro ⟨⟨s', id', hid', heq⟩, -⟩
      obtain ⟨rfl, rfl⟩ := sessionRow_inj.mp heq
      exact hid'
    · exact fun hid => ⟨⟨s, id, hid, rfl⟩, by simp [sessionRow]⟩
  · rw [← hids, List.map_map]
    rfl

theorem listSession_eq (h : st.Represents c) (s : SessionId) :
    ∃ ids, st.listSession s = .ok ids ∧ c.IsListing s ids := by
  obtain ⟨ids, hnodup, hmem, hrows⟩ := h.session_rows s
  refine ⟨ids.insertionSort (· ≤ ·), ?_, ⟨?_, fun {id} => ?_⟩⟩
  · simp only [listSession, hrows, insertionSort_idBytes, mapM_decodeBlockId]
  · exact ascending_insertionSort hnodup
  · rw [List.mem_insertionSort, hmem]

theorem listSessions_eq (h : st.Represents c) : ∃ ss, st.listSessions = .ok ss ∧ c.IsSessionListing ss := by
  obtain ⟨ids, hids⟩ : ∃ ids : List BlockId, ids.map idBytes = (st.sessionBlocks.rows.map (·.sessionId)).dedup := by
    have hrange : (st.sessionBlocks.rows.map (·.sessionId)).dedup ∈ {l | ∀ x ∈ l, x ∈ Set.range idBytes} := by
      intro x hx
      obtain ⟨row, hrow, rfl⟩ := List.mem_map.mp (List.mem_dedup.mp hx)
      obtain ⟨s, id, -, rfl⟩ := (h.sessions row).mp hrow
      exact ⟨⟨s.raw⟩, rfl⟩
    rwa [← Set.range_list_map] at hrange
  have hmem : ∀ s : SessionId, (⟨s.raw⟩ : BlockId) ∈ ids ↔ ∃ id, id ∈ c.lists s := by
    intro s
    rw [← List.mem_map_of_injective (f := idBytes) fun a b hab => idBytes_inj.mp hab, hids, List.mem_dedup, List.mem_map]
    constructor
    · rintro ⟨row, hrow, heq⟩
      obtain ⟨s', id, hid, rfl⟩ := (h.sessions row).mp hrow
      obtain rfl : s' = s := sessionBytes_inj.mp heq
      exact ⟨id, hid⟩
    · rintro ⟨id, hid⟩
      exact ⟨sessionRow s id, (h.sessions _).mpr ⟨s, id, hid, rfl⟩, rfl⟩
  have hnodup : ids.Nodup := by
    refine List.Nodup.of_map idBytes ?_
    rw [hids]
    exact List.nodup_dedup _
  refine ⟨(ids.insertionSort (· ≤ ·)).map fun id => ⟨id.raw⟩, ?_, ⟨?_, fun {s} => ?_⟩⟩
  · simp only [listSessions, ← hids, insertionSort_idBytes, mapM_decodeBlockId, Loop.ok_bind]
    rfl
  · rw [List.pairwise_map]
    exact ascending_insertionSort hnodup
  · rw [← hmem, List.mem_map]
    constructor
    · rintro ⟨id, hid, rfl⟩
      exact (List.mem_insertionSort _).mp hid
    · exact fun hs => ⟨_, (List.mem_insertionSort _).mpr hs, rfl⟩

/-- Rows of edges, in whatever order, read as the edges they keep. -/
theorem edges_read (h : st.Represents c) {p : EdgeRow → Bool} {r : EdgeRow → EdgeRow → Prop} [DecidableRel r]
    {f : EdgeRow → Except StoreError Edge} (hread : ∀ e, p (edgeRow e) = true → f (edgeRow e) = .ok e) :
    ∃ es, ((st.edges.rows.filter p).insertionSort r).mapM f = .ok es ∧ ∀ e, e ∈ es ↔ e ∈ c.edges ∧ p (edgeRow e) = true := by
  obtain ⟨es, hes⟩ : ∃ es : List Edge, es.map edgeRow = (st.edges.rows.filter p).insertionSort r := by
    have hrange : (st.edges.rows.filter p).insertionSort r ∈ {l | ∀ x ∈ l, x ∈ Set.range edgeRow} := by
      intro row hrow
      obtain ⟨e, -, rfl⟩ := (h.edges row).mp (List.mem_filter.mp ((List.mem_insertionSort _).mp hrow)).1
      exact ⟨e, rfl⟩
    rwa [← Set.range_list_map] at hrange
  have hmem : ∀ e, e ∈ es ↔ e ∈ c.edges ∧ p (edgeRow e) = true := by
    intro e
    rw [← List.mem_map_of_injective edgeRow_injective, hes, List.mem_insertionSort, List.mem_filter, h.edges]
    refine and_congr_left fun _ => ⟨?_, fun he => ⟨e, he, rfl⟩⟩
    rintro ⟨e', he', heq⟩
    exact edgeRow_injective heq ▸ he'
  refine ⟨es, ?_, hmem⟩
  rw [← hes, List.mapM_map]
  exact (Loop.mapM_eq_ok fun e he => hread e ((hmem e).mp he).2).trans (by rw [List.map_id'])

theorem edgesFrom_eq (h : st.Represents c) (id : BlockId) :
    ∃ es, st.edgesFrom pg id = .ok es ∧ ∀ e, e ∈ es ↔ e ∈ c.edges ∧ e.fromId = id := by
  obtain ⟨es, hes, hmem⟩ := h.edges_read (p := fun row => row.fromId = idBytes id)
    (r := fun a b => edgeOrder pg (a.kind, a.toId) (b.kind, b.toId)) (f := fun r => do
      let toId ← decodeBlockId r.toId
      let kind ← edgeKindFromStr r.kind
      pure { fromId := id, toId, kind }) (by
    intro e he
    obtain rfl := idBytes_inj.mp (of_decide_eq_true he)
    simp only [edgeRow, decodeBlockId_idBytes, edgeKindFromStr_toStr, Loop.ok_bind]
    rfl)
  exact ⟨es, hes, fun e => by rw [hmem]; simp [edgeRow, idBytes_inj]⟩

theorem edgesTo_eq (h : st.Represents c) (id : BlockId) :
    ∃ es, st.edgesTo pg id = .ok es ∧ ∀ e, e ∈ es ↔ e ∈ c.edges ∧ e.toId = id := by
  obtain ⟨es, hes, hmem⟩ := h.edges_read (p := fun row => row.toId = idBytes id)
    (r := fun a b => edgeOrder pg (a.kind, a.fromId) (b.kind, b.fromId)) (f := fun r => do
      let fromId ← decodeBlockId r.fromId
      let kind ← edgeKindFromStr r.kind
      pure { fromId, toId := id, kind }) (by
    intro e he
    obtain rfl := idBytes_inj.mp (of_decide_eq_true he)
    simp only [edgeRow, decodeBlockId_idBytes, edgeKindFromStr_toStr, Loop.ok_bind]
    rfl)
  exact ⟨es, hes, fun e => by rw [hmem]; simp [edgeRow, idBytes_inj]⟩

/-! ### Writes -/

theorem sessions_insert (h : st.Represents c) (s : SessionId) (id : BlockId) (row : SessionBlockRow) :
    row ∈ (st.sessionBlocks.insertNew (sessionRow s id)).rows ↔
      ∃ s' id', id' ∈ (c.share s id).lists s' ∧ row = sessionRow s' id' := by
  rw [Table.mem_insertNew rfl Function.injective_id, h.sessions]
  constructor
  · rintro (⟨s', id', hid', rfl⟩ | rfl)
    · exact ⟨s', id', Or.inl hid', rfl⟩
    · exact ⟨s, id, Or.inr ⟨rfl, rfl⟩, rfl⟩
  · rintro ⟨s', id', hid' | ⟨rfl, rfl⟩, rfl⟩
    · exact Or.inl ⟨s', id', hid', rfl⟩
    · exact Or.inr rfl

/-- Content already stored is shared: its id comes back, and only the session learns of it. -/
theorem put_held (h : st.Represents c) (std : pg.Standard) {row : BlockRow} (hbind : bindBlock pg b = .ok row) (s : SessionId)
    {id : BlockId} (held : c.Holds id b.hash) : ∃ st', st.put pg s b = .ok (id, st') ∧ st'.Represents (c.share s id) := by
  obtain ⟨found, hfound, hid⟩ := h.find_hash held
  have hhash : row.hash = b.hash.bytes := (bindBlock_keeps std hbind).hash
  refine ⟨{ st with sessionBlocks := st.sessionBlocks.insertNew (sessionRow s id) }, ?_,
    ⟨h.rows, h.kept, h.sessions_insert s id, h.edges⟩⟩
  simp only [put, hbind, Loop.ok_bind, upsertBlock, hhash, hfound, hid, Except.mapError, decodeBlockId_idBytes]
  rfl

/-- New content under an id that stores nothing. -/
theorem put_new (h : st.Represents c) (std : pg.Standard) {row : BlockRow} (hbind : bindBlock pg b = .ok row) (s : SessionId)
    (new : ∀ id, ¬c.Holds id b.hash) (fresh : ¬c.Stored b.id) :
    ∃ st', st.put pg s b = .ok (b.id, st') ∧ st'.Represents (c.store s b.capped) := by
  have hkeeps := bindBlock_keeps std hbind
  have hid : row.id = idBytes b.id := hkeeps.id
  have hhash : row.hash = b.hash.bytes := hkeeps.hash
  have free : ¬st.blocks.Conflicts row := by
    rintro ⟨key, hkey, x, hx, heq⟩
    obtain rfl | rfl := by simpa using hkey
    · exact Table.find?_eq_none_iff.mp (h.find_id_none fresh) x hx (heq.trans hid)
    · exact Table.find?_eq_none_iff.mp (h.find_hash_none new) x hx (heq.trans hhash)
  refine ⟨{ st with blocks := st.blocks.add row free, sessionBlocks := st.sessionBlocks.insertNew (sessionRow s b.id) }, ?_,
    ?_, ?_, h.sessions_insert s b.id, h.edges⟩
  · simp only [put, hbind, Loop.ok_bind, upsertBlock, hhash, h.find_hash_none new, Table.insert?_eq_some free, hid,
      Except.mapError, decodeBlockId_idBytes]
    rfl
  · intro x hx
    rcases (Table.mem_add free).mp hx with hx | rfl
    · obtain ⟨a, hx, ha⟩ := h.rows x hx
      have hne : a.id ≠ b.id := fun heq => fresh ⟨a, heq ▸ ha⟩
      exact ⟨a, hx, (if_neg hne).trans ha⟩
    · exact ⟨b.capped, hkeeps, if_pos rfl⟩
  · intro id a ha
    by_cases heq : id = b.id
    · obtain rfl : b.capped = a := Option.some.inj ((if_pos heq).symm.trans ha)
      exact ⟨row, (Table.mem_add free).mpr (Or.inr rfl), hkeeps, heq.symm⟩
    · obtain ⟨x, hx, hxkeeps, hxid⟩ := h.kept ((if_neg heq).symm.trans ha)
      exact ⟨x, (Table.mem_add free).mpr (Or.inl hx), hxkeeps, hxid⟩

/-- New content under the id of other content violates the primary key. -/
theorem put_taken (h : st.Represents c) (std : pg.Standard) (s : SessionId) (new : ∀ id, ¬c.Holds id b.hash)
    (taken : c.Stored b.id) : ∃ e, st.put pg s b = .error e := by
  cases hbind : bindBlock pg b with
  | error e => exact ⟨.backend ("insert block: " ++ e), by simp only [put, hbind]; rfl⟩
  | ok row =>
    have hkeeps := bindBlock_keeps std hbind
    have hhash : row.hash = b.hash.bytes := hkeeps.hash
    obtain ⟨a, ha⟩ := taken
    obtain ⟨x, hx, hxkeeps, hxid⟩ := h.kept ha
    have conflict : st.blocks.Conflicts row :=
      ⟨BlockRow.id, by simp, x, hx, by rw [hxkeeps.id, hxid, hkeeps.id]; rfl⟩
    refine ⟨.backend ("insert block: " ++ pg.violation), ?_⟩
    simp only [put, hbind, Loop.ok_bind, upsertBlock, hhash, h.find_hash_none new, Table.insert?_eq_none conflict]
    rfl

theorem put_refused (std : pg.Standard) (st : PgStore) (s : SessionId) (refused : ¬PlainStrings b) : ∃ e, st.put pg s b = .error e := by
  cases hbind : bindBlock pg b with
  | error e => exact ⟨.backend ("insert block: " ++ e), by simp only [put, hbind]; rfl⟩
  | ok row => exact absurd ((exists_bindBlock_iff std).mp ⟨row, hbind⟩) refused

theorem putEdge_link (h : st.Represents c) (e : Edge) : (st.putEdge e).Represents (c.link e) where
  rows := h.rows
  kept := h.kept
  sessions := h.sessions
  edges row := by
    have hrow : row ∈ (st.putEdge e).edges.rows ↔ row ∈ st.edges.rows ∨ row = edgeRow e :=
      Table.mem_insertNew rfl Function.injective_id
    rw [hrow, h.edges]
    constructor
    · rintro (⟨e', he', rfl⟩ | rfl)
      · exact ⟨e', Or.inr he', rfl⟩
      · exact ⟨e, Or.inl rfl, rfl⟩
    · rintro ⟨e', rfl | he', rfl⟩
      · exact Or.inr rfl
      · exact Or.inl ⟨e', he', rfl⟩

/-- A delete erases the block with its listings and edges, stored or not. -/
theorem delete_erase (h : st.Represents c) (id : BlockId) : (st.delete id).2.Represents (c.erase {id}) where
  rows row hrow := by
    obtain ⟨hrow, hne⟩ := Table.mem_deleteWhere.mp hrow
    obtain ⟨b, hkeeps, hb⟩ := h.rows row hrow
    refine ⟨b, hkeeps, block_erase_eq_some.mpr ⟨fun heq => ?_, hb⟩⟩
    rw [hkeeps.id, Set.mem_singleton_iff.mp heq] at hne
    simp at hne
  kept hb := by
    obtain ⟨hne, hb⟩ := block_erase_eq_some.mp hb
    obtain ⟨row, hrow, hkeeps, rfl⟩ := h.kept hb
    refine ⟨row, Table.mem_deleteWhere.mpr ⟨hrow, ?_⟩, hkeeps, rfl⟩
    rw [hkeeps.id]
    simpa [idBytes_inj] using hne
  sessions row := by
    have hrow : row ∈ (st.delete id).2.sessionBlocks.rows ↔ row ∈ st.sessionBlocks.rows ∧ decide (row.blockId = idBytes id) = false :=
      Table.mem_deleteWhere
    rw [hrow, h.sessions]
    constructor
    · rintro ⟨⟨s, x, hx, rfl⟩, hne⟩
      exact ⟨s, x, ⟨hx, by simpa [sessionRow, idBytes_inj] using hne⟩, rfl⟩
    · rintro ⟨s, x, ⟨hx, hne⟩, rfl⟩
      exact ⟨⟨s, x, hx, rfl⟩, by simpa [sessionRow, idBytes_inj] using hne⟩
  edges row := by
    have hrow : row ∈ (st.delete id).2.edges.rows ↔ row ∈ st.edges.rows ∧
        (decide (row.fromId = idBytes id) || decide (row.toId = idBytes id)) = false := Table.mem_deleteWhere
    rw [hrow, h.edges]
    constructor
    · rintro ⟨⟨e, he, rfl⟩, hne⟩
      exact ⟨e, ⟨he, by simpa [edgeRow, idBytes_inj, Edge.Touches] using hne⟩, rfl⟩
    · rintro ⟨e, ⟨he, hne⟩, rfl⟩
      exact ⟨⟨e, he, rfl⟩, by simpa [edgeRow, idBytes_inj, Edge.Touches] using hne⟩

theorem delete_existed (h : st.Represents c) (id : BlockId) :
    (st.delete id).1 = true ↔ c.Stored id ∨ ∃ s, id ∈ c.lists s := by
  have hdef : (st.delete id).1 = true ↔ 0 < (st.blocks.deleteWhere (·.id = idBytes id)).1 ∨
      0 < (st.sessionBlocks.deleteWhere (·.blockId = idBytes id)).1 := by simp [delete]
  rw [hdef, Table.deleteWhere_pos, Table.deleteWhere_pos]
  refine or_congr ⟨?_, ?_⟩ ⟨?_, ?_⟩
  · rintro ⟨row, hrow, hid⟩
    obtain ⟨b, hkeeps, hb⟩ := h.rows row hrow
    rw [decide_eq_true_eq, hkeeps.id, idBytes_inj] at hid
    exact ⟨b, hid ▸ hb⟩
  · rintro ⟨b, hb⟩
    obtain ⟨row, hrow, hkeeps, rfl⟩ := h.kept hb
    exact ⟨row, hrow, by simp [hkeeps.id]⟩
  · rintro ⟨row, hrow, hid⟩
    obtain ⟨s, x, hx, rfl⟩ := (h.sessions row).mp hrow
    obtain rfl := idBytes_inj.mp (of_decide_eq_true hid)
    exact ⟨s, hx⟩
  · rintro ⟨s, hs⟩
    exact ⟨sessionRow s id, (h.sessions _).mpr ⟨s, id, hs, rfl⟩, by simp [sessionRow]⟩

theorem drop_session (h : st.Represents c) (s : SessionId) :
    Represents { st with sessionBlocks := (st.sessionBlocks.deleteWhere (·.sessionId = sessionBytes s)).2 } (c.forget s) := by
  refine ⟨h.rows, h.kept, fun row => ?_, h.edges⟩
  rw [Table.mem_deleteWhere, h.sessions]
  constructor
  · rintro ⟨⟨s', id, hid, rfl⟩, hne⟩
    exact ⟨s', id, mem_forget.mpr ⟨by simpa [sessionRow, sessionBytes_inj] using hne, hid⟩, rfl⟩
  · rintro ⟨s', id, hid, rfl⟩
    obtain ⟨hne, hid⟩ := mem_forget.mp hid
    exact ⟨⟨s', id, hid, rfl⟩, by simpa [sessionRow, sessionBytes_inj] using hne⟩

/-- The orphans among the blocks that a session listed are those that only it listed. -/
theorem mem_orphans (h : st.Represents (c.forget s)) (listed_stored : ∀ id ∈ c.lists s, c.Stored id) {ids : List BlockId}
    (hids : ∀ id, id ∈ ids ↔ id ∈ c.lists s) (x : Bytes) :
    x ∈ st.orphans (ids.map idBytes) ↔ ∃ id ∈ c.exclusive s, x = idBytes id := by
  simp only [orphans, List.mem_filter, Bool.and_eq_true, Bool.not_eq_true', List.contains_eq_mem,
    decide_eq_true_eq, decide_eq_false_iff_not, List.mem_map]
  constructor
  · rintro ⟨-, ⟨id, hid, rfl⟩, hnone⟩
    refine ⟨id, mem_exclusive.mpr ⟨(hids id).mp hid, fun s' hs' => hnone ?_⟩, rfl⟩
    exact ⟨sessionRow s' id, (h.sessions _).mpr ⟨s', id, hs', rfl⟩, rfl⟩
  · rintro ⟨id, hid, rfl⟩
    obtain ⟨hs, hnone⟩ := mem_exclusive.mp hid
    obtain ⟨b, hb⟩ := listed_stored id hs
    obtain ⟨row, hrow, hkeeps, rfl⟩ := h.kept hb
    refine ⟨⟨row, hrow, hkeeps.id⟩, ⟨b.id, (hids _).mpr hs, rfl⟩, ?_⟩
    rintro ⟨x, hx, heq⟩
    obtain ⟨s', id, hid, rfl⟩ := (h.sessions x).mp hx
    obtain rfl := idBytes_inj.mp heq
    exact hnone s' hid

/-- The blocks of `dead`, which no session lists, go with their edges. -/
theorem scrub (h : st.Represents c) {gone : List Bytes} {dead : Set BlockId} (hgone : ∀ x, x ∈ gone ↔ ∃ id ∈ dead, x = idBytes id)
    (unlisted : ∀ id ∈ dead, ∀ s, id ∉ c.lists s) :
    Represents { st with
      edges := (st.edges.deleteWhere fun e => gone.contains e.fromId || gone.contains e.toId).2
      blocks := (st.blocks.deleteWhere fun b => gone.contains b.id).2 } (c.erase dead) := by
  have hdead : ∀ id, idBytes id ∈ gone ↔ id ∈ dead := by
    intro id
    rw [hgone]
    exact ⟨fun ⟨x, hx, heq⟩ => idBytes_inj.mp heq ▸ hx, fun hid => ⟨id, hid, rfl⟩⟩
  refine ⟨fun row hrow => ?_, fun {id b} hb => ?_, fun row => ?_, fun row => ?_⟩
  · obtain ⟨hrow, hne⟩ := Table.mem_deleteWhere.mp hrow
    obtain ⟨b, hkeeps, hb⟩ := h.rows row hrow
    refine ⟨b, hkeeps, block_erase_eq_some.mpr ⟨fun hmem => ?_, hb⟩⟩
    rw [hkeeps.id, List.contains_eq_mem, decide_eq_false_iff_not, hdead] at hne
    exact hne hmem
  · obtain ⟨hne, hb⟩ := block_erase_eq_some.mp hb
    obtain ⟨row, hrow, hkeeps, rfl⟩ := h.kept hb
    refine ⟨row, Table.mem_deleteWhere.mpr ⟨hrow, ?_⟩, hkeeps, rfl⟩
    rwa [hkeeps.id, List.contains_eq_mem, decide_eq_false_iff_not, hdead]
  · rw [h.sessions]
    refine exists_congr fun s => exists_congr fun id => and_congr_left fun _ => ⟨fun hid => ⟨hid, fun hmem => ?_⟩, And.left⟩
    exact unlisted id hmem s hid
  · rw [Table.mem_deleteWhere, h.edges]
    have htouch : ∀ e : Edge, (gone.contains (edgeRow e).fromId || gone.contains (edgeRow e).toId) = false ↔ ¬e.Touches dead := by
      intro e
      simp [edgeRow, Edge.Touches, hdead]
    constructor
    · rintro ⟨⟨e, he, rfl⟩, hne⟩
      exact ⟨e, ⟨he, (htouch e).mp hne⟩, rfl⟩
    · rintro ⟨e, ⟨he, hne⟩, rfl⟩
      exact ⟨⟨e, he, rfl⟩, (htouch e).mpr hne⟩

/-- A purge erases the blocks that no other session lists, and counts those it drops from the session. -/
theorem purgeSession_eq (h : st.Represents c) {s : SessionId} (listed_stored : ∀ id ∈ c.lists s, c.Stored id)
    {ids : List BlockId} (hids : c.IsListing s ids) :
    ∃ st', st.purgeSession s = .ok (ids.length, st') ∧ st'.Represents (c.purge s) := by
  obtain ⟨found, hnodup, hmem, hrows⟩ := h.session_rows s
  have hlength : found.length = ids.length :=
    ((List.perm_ext_iff_of_nodup hnodup hids.nodup).mpr fun id => (hmem id).trans hids.mem.symm).length_eq
  have h₁ := h.drop_session s
  have hgone := h₁.mem_orphans listed_stored hmem
  simp only [purgeSession, hrows, mapM_decodeBlockId, Loop.ok_bind, hlength]
  split
  · rename_i hzero
    refine ⟨st, by rw [hzero]; rfl, ?_⟩
    have hnone : ∀ id, id ∉ c.lists s := fun id hid => by
      simpa [List.length_eq_zero_iff.mp hzero] using hids.mem.mpr hid
    rwa [purge_of_unlisted hnone]
  · split
    · rename_i hempty
      refine ⟨_, rfl, ?_⟩
      have hnone : c.exclusive s = ∅ := by
        ext id
        have hid := hgone (idBytes id)
        rw [List.isEmpty_iff.mp hempty] at hid
        simpa using fun hmem => hid.mpr ⟨id, hmem, rfl⟩
      rw [purge, hnone, erase_empty]
      exact h₁
    · exact ⟨_, rfl, h₁.scrub hgone fun id hid => (mem_exclusive.mp hid).2⟩

end Represents

end PgStore

/-! ### The sample database -/

open Pg

theorem readBack_reorder {fields fields' fields'' : List (String × Json)} (h : (Json.object fields).ReadBack (.object fields'))
    (hperm : fields'.Perm fields'') : (Json.object fields).ReadBack (.object fields'') := by
  cases h with
  | object hkeys hplain hnames hvalues hmid => exact .object hkeys hplain hnames hvalues (hmid.trans hperm)

theorem takesText_iff {s : String} : takesText s = true ↔ Json.Plain s := by
  simp [takesText, Json.Plain]

theorem samplePostgres_jsonb {fields : List (String × Json)} {w : Json} : samplePostgres.jsonb (.object fields) = .ok w ↔
    (∀ f ∈ fields, takesField f = true) ∧ w = .object (fields.insertionSort keyOrder) := by
  simp only [samplePostgres]
  split
  · rename_i hall
    rw [List.all_eq_true] at hall
    exact ⟨fun h => ⟨hall, (Except.ok.inj h).symm⟩, fun h => congrArg _ h.2.symm⟩
  · rename_i hall
    rw [List.all_eq_true] at hall
    exact iff_of_false (by simp) fun h => hall h.1

theorem takesField_tokenCounts {tc : TokenCounts} :
    (∀ f ∈ tc.toList.map fun e => (e.1, Json.number (.ofNat e.2.val)), takesField f = true) ↔ ∀ s ∈ tc, Json.Plain s := by
  simp only [List.forall_mem_map, takesField, Bool.and_true, takesText_iff]
  constructor
  · intro h s hs
    obtain ⟨n, hn⟩ := Option.isSome_iff_exists.mp (Std.ExtTreeMap.mem_iff_isSome_getElem?.mp hs)
    exact h (s, n) (Std.ExtTreeMap.mem_toList_iff_getElem?_eq_some.mpr hn)
  · intro h e he
    exact h e.1 (Std.ExtTreeMap.mem_iff_isSome_getElem?.mpr (by rw [Std.ExtTreeMap.mem_toList_iff_getElem?_eq_some.mp he]; rfl))

theorem takesField_provenance {p : Provenance} :
    (∀ f ∈ [("source", match p.source with | some s => Json.string s | none => Json.null),
      ("parents", .array (p.parents.map fun id => .string id.display)), ("labels", .array (p.labels.map .string))],
      takesField f = true) ↔ (∀ s, p.source = some s → Json.Plain s) ∧ ∀ s ∈ p.labels, Json.Plain s := by
  have hkeys : takesText "source" = true ∧ takesText "parents" = true ∧ takesText "labels" = true := by decide
  have hparents : ∀ id ∈ p.parents, takesText id.display = true := fun id _ => takesText_iff.mpr (plain_display id)
  have hsource : (∀ s, p.source = some s → Json.Plain s) ↔
      takesField ("source", match p.source with | some s => Json.string s | none => Json.null) = true := by
    cases p.source <;> simp [takesField, hkeys, takesText_iff]
  rw [hsource]
  simp only [List.forall_mem_cons, List.not_mem_nil, false_implies, implies_true, and_true]
  refine and_congr_right fun _ => ?_
  simpa [takesField, hkeys, Json.asStr, takesText_iff] using fun _ id _ => plain_display id

theorem samplePostgres_standard : samplePostgres.Standard where
  keeps {v w} hv h := by
    cases hv with
    | tokenCounts tc =>
      obtain ⟨hall, rfl⟩ := samplePostgres_jsonb.mp h
      have hplain : PlainStrings { sampleBlock ⟨0⟩ .fact [] [] with tokenCounts := tc } :=
        ⟨by simp [sampleBlock], by simp [sampleBlock], takesField_tokenCounts.mp hall⟩
      exact readBack_reorder (tokenCounts_readBack hplain) (List.perm_insertionSort _ _).symm
    | provenance p =>
      obtain ⟨hall, rfl⟩ := samplePostgres_jsonb.mp h
      obtain ⟨hsource, hlabels⟩ := takesField_provenance.mp hall
      have hplain : PlainStrings { sampleBlock ⟨0⟩ .fact [] [] with provenance := p } :=
        ⟨hsource, hlabels, by simp [sampleBlock]⟩
      exact readBack_reorder (provenance_readBack hplain) (List.perm_insertionSort _ _).symm
  takes {v w} hv h := by
    have hempty : PlainStrings (sampleBlock ⟨0⟩ .fact [] []) := ⟨by simp [sampleBlock], by simp [sampleBlock], by simp [sampleBlock]⟩
    have hcounts := tokenCounts_readBack hempty
    have hprovenance := provenance_readBack hempty
    cases hv with
    | tokenCounts tc =>
      have hplain := PgStore.plainStrings_of_readBack (b := { sampleBlock ⟨0⟩ .fact [] [] with tokenCounts := tc }) h
        hprovenance
      exact ⟨_, samplePostgres_jsonb.mpr ⟨takesField_tokenCounts.mpr hplain.tokenizers, rfl⟩⟩
    | provenance p =>
      have hplain := PgStore.plainStrings_of_readBack (b := { sampleBlock ⟨0⟩ .fact [] [] with provenance := p })
        hcounts h
      exact ⟨_, samplePostgres_jsonb.mpr ⟨takesField_provenance.mpr ⟨hplain.source, hplain.labels⟩, rfl⟩⟩

end Llm386
