import Llm386.Lib.Loop
import Llm386.Lmdb.Store

/-! # The keys of the LMDB tables

Every key is a concatenation of fixed-width fields, so a key determines its fields, a prefix scan finds exactly
the keys with that first field, and key order within a prefix is the order of the second field. -/

namespace Llm386.LmdbStore
open KeyTable

/-! ### Ids -/

theorem blockId_bytes_inj {a b : BlockId} : a.raw.toBeBytes = b.raw.toBeBytes ↔ a = b :=
  U128.toBeBytes_inj.trans BlockId.raw_injective.eq_iff

theorem sessionId_bytes_inj {a b : SessionId} : a.raw.toBeBytes = b.raw.toBeBytes ↔ a = b :=
  U128.toBeBytes_inj.trans SessionId.raw_injective.eq_iff

@[simp] theorem decodeBlockId_toBeBytes (id : BlockId) : decodeBlockId id.raw.toBeBytes = .ok id := by
  simp [decodeBlockId]

/-! ### Session keys -/

@[simp] theorem length_sessionBlockKey (s : SessionId) (id : BlockId) : (sessionBlockKey s id).length = 32 := by
  simp [sessionBlockKey]

@[simp] theorem drop_sessionBlockKey (s : SessionId) (id : BlockId) :
    (sessionBlockKey s id).drop 16 = id.raw.toBeBytes := by
  simp [sessionBlockKey]

@[simp] theorem take_sessionBlockKey (s : SessionId) (id : BlockId) :
    (sessionBlockKey s id).take 16 = s.raw.toBeBytes := by
  simp [sessionBlockKey]

@[simp] theorem sessionBlockKey_inj {s s' : SessionId} {id id' : BlockId} :
    sessionBlockKey s id = sessionBlockKey s' id' ↔ s = s' ∧ id = id' := by
  constructor
  · intro h
    have hs := congrArg (List.take 16) h
    have hid := congrArg (List.drop 16) h
    rw [take_sessionBlockKey, take_sessionBlockKey, sessionId_bytes_inj] at hs
    rw [drop_sessionBlockKey, drop_sessionBlockKey, blockId_bytes_inj] at hid
    exact ⟨hs, hid⟩
  · rintro ⟨rfl, rfl⟩
    rfl

theorem sessionBlockKey_injective : Function.Injective fun x : SessionId × BlockId => sessionBlockKey x.1 x.2 := by
  rintro ⟨s, id⟩ ⟨s', id'⟩ h
  obtain ⟨rfl, rfl⟩ := sessionBlockKey_inj.mp h
  rfl

theorem prefix_sessionBlockKey {s s' : SessionId} {id : BlockId} :
    s.raw.toBeBytes <+: sessionBlockKey s' id ↔ s = s' := by
  rw [List.prefix_iff_eq_take, U128.length_toBeBytes, take_sessionBlockKey, sessionId_bytes_inj]

@[simp] theorem sessionKeySuffix_sessionBlockKey (s : SessionId) (id : BlockId) :
    sessionKeySuffix (sessionBlockKey s id) = .ok id := by
  simp [sessionKeySuffix]

@[simp] theorem sessionKeyPrefix_sessionBlockKey (s : SessionId) (id : BlockId) :
    sessionKeyPrefix (sessionBlockKey s id) = .ok s := by
  simp [sessionKeyPrefix]

/-- Within a session, key order is id order. -/
theorem lt_of_compare_sessionBlockKey {s : SessionId} {a b : BlockId}
    (h : compare (sessionBlockKey s a) (sessionBlockKey s b) = .lt) : a < b := by
  rw [sessionBlockKey, sessionBlockKey, BigEndian.compare_append_left] at h
  have hlt := BigEndian.decode_lt_decode (by simp) h
  rwa [U128.toBeBytes, U128.toBeBytes, BigEndian.decode_encode a.raw.isLt, BigEndian.decode_encode b.raw.isLt]
    at hlt

/-- A session key of 32 bytes is the key of its session and its block. -/
theorem eq_sessionBlockKey {s : SessionId} {key : Bytes} {id : BlockId} (hbegins : s.raw.toBeBytes <+: key)
    (h : listedBlock key = .ok id) : key = sessionBlockKey s id := by
  unfold listedBlock at h
  split at h
  · cases h
  · rename_i hlen
    have hdrop : (key.drop 16).length = 16 := by
      rw [List.length_drop]
      omega
    rw [sessionKeySuffix, dif_pos hdrop] at h
    cases h
    have htake : s.raw.toBeBytes = key.take 16 := by
      simpa using List.prefix_iff_eq_take.mp hbegins
    rw [sessionBlockKey, U128.toBeBytes_fromBeBytes hdrop, htake, List.take_append_drop]

/-- Whatever the table holds, a session is listed in ascending order. -/
theorem listSession_ascending {st : LmdbStore} {s : SessionId} {ids : List BlockId} (h : st.listSession s = .ok ids) :
    ids.Pairwise (· < ·) := by
  have hsorted := pairwise_prefixIter st.blocksBySession s.raw.toBeBytes
  have hbegins : ∀ e ∈ prefixIter st.blocksBySession s.raw.toBeBytes, s.raw.toBeBytes <+: e.1 :=
    fun e he => (mem_prefixIter.mp he).1
  have hall := Loop.mapM_eq_ok_iff.mp h
  clear h
  generalize prefixIter st.blocksBySession s.raw.toBeBytes = entries at hsorted hbegins hall
  induction hall with
  | nil => exact List.Pairwise.nil
  | @cons e id entries ids he hall ih =>
    obtain ⟨hfirst, hrest⟩ := List.pairwise_cons.mp hsorted
    refine List.pairwise_cons.mpr ⟨fun x hx => ?_, ih hrest fun e' he' => hbegins e' (List.mem_cons_of_mem _ he')⟩
    obtain ⟨e', he', hx'⟩ := Loop.exists_of_mem_mapM (Loop.mapM_eq_ok_iff.mpr hall) hx
    have hlt := hfirst e' he'
    rw [eq_sessionBlockKey (hbegins e List.mem_cons_self) he,
      eq_sessionBlockKey (hbegins e' (List.mem_cons_of_mem _ he')) hx'] at hlt
    exact lt_of_compare_sessionBlockKey hlt

/-! ### Edge keys -/

theorem edgeKindFromByte_toByte (k : EdgeKind) : edgeKindFromByte (edgeKindToByte k) = .ok k := by
  cases k <;> rfl

theorem edgeKindToByte_inj {k k' : EdgeKind} : edgeKindToByte k = edgeKindToByte k' ↔ k = k' := by
  cases k <;> cases k' <;> decide

@[simp] theorem parseEdgeKeySuffix_edgeKey (a b : BlockId) (k : UInt8) :
    parseEdgeKeySuffix (edgeKey a k b) = .ok (k, b) := by
  have hdrop : (edgeKey a k b).drop 17 = b.raw.toBeBytes := by
    rw [edgeKey, List.drop_append, List.drop_of_length_le (by simp)]
    simp
  have hkind : (edgeKey a k b).getD 16 0 = k := by
    simp [edgeKey]
  have hlen : (edgeKey a k b).length = 33 := by
    simp [edgeKey]
  rw [parseEdgeKeySuffix, if_neg (by simpa using hlen), hdrop, hkind, decodeBlockId_toBeBytes]
  rfl

theorem scannedEdge_edgeKey (a b : BlockId) (k : EdgeKind) :
    scannedEdge (edgeKey a (edgeKindToByte k) b) = .ok (k, b) := by
  rw [scannedEdge, parseEdgeKeySuffix_edgeKey, Loop.ok_bind]
  simp only [edgeKindFromByte_toByte]
  rfl

theorem take_edgeKey (a b : BlockId) (k : UInt8) : (edgeKey a k b).take 16 = a.raw.toBeBytes := by
  simp [edgeKey]

@[simp] theorem edgeKey_inj {a b a' b' : BlockId} {k k' : UInt8} :
    edgeKey a k b = edgeKey a' k' b' ↔ a = a' ∧ k = k' ∧ b = b' := by
  constructor
  · intro h
    have ha := congrArg (List.take 16) h
    have hrest := congrArg parseEdgeKeySuffix h
    rw [take_edgeKey, take_edgeKey, blockId_bytes_inj] at ha
    rw [parseEdgeKeySuffix_edgeKey, parseEdgeKeySuffix_edgeKey, Except.ok.injEq, Prod.mk.injEq] at hrest
    exact ⟨ha, hrest⟩
  · rintro ⟨rfl, rfl, rfl⟩
    rfl

theorem prefix_edgeKey {a a' b : BlockId} {k : UInt8} : a.raw.toBeBytes <+: edgeKey a' k b ↔ a = a' := by
  rw [List.prefix_iff_eq_take, U128.length_toBeBytes, take_edgeKey, blockId_bytes_inj]

/-- The key of an edge in `edges_from`. -/
def fromKey (e : Edge) : Bytes := edgeKey e.fromId (edgeKindToByte e.kind) e.toId

/-- The key of an edge in `edges_to`. -/
def toKey (e : Edge) : Bytes := edgeKey e.toId (edgeKindToByte e.kind) e.fromId

theorem fromKey_injective : Function.Injective fromKey := by
  rintro ⟨a, b, k⟩ ⟨a', b', k'⟩ h
  obtain ⟨ha, hk, hb⟩ := edgeKey_inj.mp h
  simp only [edgeKindToByte_inj] at ha hk hb
  rw [ha, hk, hb]

theorem toKey_injective : Function.Injective toKey := by
  rintro ⟨a, b, k⟩ ⟨a', b', k'⟩ h
  obtain ⟨ha, hk, hb⟩ := edgeKey_inj.mp h
  simp only [edgeKindToByte_inj] at ha hk hb
  rw [ha, hk, hb]

end Llm386.LmdbStore
