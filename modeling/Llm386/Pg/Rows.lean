import Llm386.Core.Block
import Llm386.Core.Hex
import Llm386.Lib.Json
import Llm386.Lib.Loop

/-! # The columns of a block

`llm386-store-pg/src/common.rs`: how `put` writes a block into the columns of its row, and how `row_to_block` reads the
row. The columns of token counts and provenance are `jsonb`. -/

namespace Llm386.Pg

/-- A `BIGINT`. -/
structure I64 where
  val : Int
  lower : -2 ^ 63 ≤ val
  upper : val < 2 ^ 63

/-- A row of `llm386_blocks`. -/
structure BlockRow where
  id : Bytes
  kind : String
  bytes : Bytes
  tokenCounts : Json
  priority : Float32
  createdAt : I64
  updatedAt : I64
  provenance : Json
  hash : Bytes

/-! ### The codecs -/

def idBytes (id : BlockId) : Bytes := id.raw.toBeBytes

def decodeBlockId (bytes : Bytes) : Except StoreError BlockId :=
  if h : bytes.length = 16 then .ok ⟨.fromBeBytes bytes h⟩
  else .error (.backend ("BlockId width " ++ toString bytes.length))

/-- `i64::MAX` stands for what does not fit. -/
def tsToI64 (ts : Timestamp) : I64 :=
  if h : ts.val < 2 ^ 63 then ⟨ts.val, by omega, by omega⟩ else ⟨2 ^ 63 - 1, by decide, by decide⟩

/-- What is negative becomes 0. -/
def tsFromI64 (v : I64) : Timestamp := ⟨v.val.toNat, by have := v.upper; omega⟩

def blockKindToStr : BlockKind → String
  | .system => "System"
  | .userMessage => "UserMessage"
  | .assistantMessage => "AssistantMessage"
  | .toolResult => "ToolResult"
  | .summary => "Summary"
  | .fact => "Fact"
  | .documentChunk => "DocumentChunk"
  | .plan => "Plan"
  | .state => "State"
  | .trace => "Trace"

def blockKindFromStr (s : String) : Except StoreError BlockKind :=
  match s with
  | "System" => .ok .system
  | "UserMessage" => .ok .userMessage
  | "AssistantMessage" => .ok .assistantMessage
  | "ToolResult" => .ok .toolResult
  | "Summary" => .ok .summary
  | "Fact" => .ok .fact
  | "DocumentChunk" => .ok .documentChunk
  | "Plan" => .ok .plan
  | "State" => .ok .state
  | "Trace" => .ok .trace
  | other => .error (.backend ("unknown BlockKind `" ++ other ++ "`"))

def edgeKindToStr : EdgeKind → String
  | .parent => "Parent"
  | .derivedFrom => "DerivedFrom"
  | .supports => "Supports"
  | .contradicts => "Contradicts"
  | .toolInvocation => "ToolInvocation"

def edgeKindFromStr (s : String) : Except StoreError EdgeKind :=
  match s with
  | "Parent" => .ok .parent
  | "DerivedFrom" => .ok .derivedFrom
  | "Supports" => .ok .supports
  | "Contradicts" => .ok .contradicts
  | "ToolInvocation" => .ok .toolInvocation
  | other => .error (.backend ("unknown EdgeKind `" ++ other ++ "`"))

def provenanceToJson (p : Provenance) : Json :=
  .object [("source", match p.source with | some s => .string s | none => .null),
    ("parents", .array (p.parents.map fun id => .string id.display)),
    ("labels", .array (p.labels.map .string))]

def parentFromJson (item : Json) : Except StoreError BlockId :=
  match item.asStr with
  | none => .error (.backend "provenance.parents: non-string entry")
  | some s => (BlockId.parse s).mapError fun e => .backend ("provenance.parents: parse: " ++ e)

/-- A missing field is empty, and a label that is no string is skipped. -/
def provenanceFromJson (v : Json) : Except StoreError Provenance := do
  let source := (v.get "source").bind Json.asStr
  let parents ←
    match (v.get "parents").bind Json.asArray with
    | none => pure []
    | some arr => arr.mapM parentFromJson
  let labels :=
    match (v.get "labels").bind Json.asArray with
    | none => []
    | some arr => arr.filterMap Json.asStr
  pure ⟨source, parents, labels⟩

def tokenCountsToJson (tc : TokenCounts) : Json := .object (tc.toList.map fun e => (e.1, .number (.ofNat e.2.val)))

/-- One count more. -/
def readCount (out : TokenCounts) (field : String × Json) : Except StoreError TokenCounts :=
  match field.2.asU64 with
  | none => .error (.backend ("token_counts." ++ field.1 ++ ": non-u64"))
  | some count =>
    if h : count.toNat < 2 ^ 32 then .ok (out.insert field.1 ⟨count.toNat, h⟩)
    else .error (.backend ("token_counts." ++ field.1 ++ ": exceeds u32"))

/-- What is no object has no counts. -/
def tokenCountsFromJson (v : Json) : Except StoreError TokenCounts :=
  match v.asObject with
  | none => .ok ∅
  | some obj => obj.foldlM readCount ∅

/-- The values that `put` writes. -/
def blockToRow (block : ContextBlock) : BlockRow where
  id := idBytes block.id
  kind := blockKindToStr block.kind
  bytes := block.bytes
  tokenCounts := tokenCountsToJson block.tokenCounts
  priority := block.priority
  createdAt := tsToI64 block.createdAt
  updatedAt := tsToI64 block.updatedAt
  provenance := provenanceToJson block.provenance
  hash := block.hash.bytes

def rowToBlock (row : BlockRow) : Except StoreError ContextBlock := do
  let id ← decodeBlockId row.id
  let kind ← blockKindFromStr row.kind
  let tokenCounts ← tokenCountsFromJson row.tokenCounts
  let provenance ← provenanceFromJson row.provenance
  if h : row.hash.length = 32 then
    pure { id, kind, bytes := row.bytes, tokenCounts, priority := row.priority, createdAt := tsFromI64 row.createdAt,
           updatedAt := tsFromI64 row.updatedAt, provenance, hash := ⟨row.hash, h⟩ }
  else .error (.backend ("hash width " ++ toString row.hash.length))

/-! ### What the database gives back -/

/-- The row that a row is read back as: `jsonb` may reorder the fields of an object. -/
structure BlockRow.ReadBack (row row' : BlockRow) : Prop where
  id : row'.id = row.id
  kind : row'.kind = row.kind
  bytes : row'.bytes = row.bytes
  tokenCounts : row.tokenCounts.ReadBack row'.tokenCounts
  priority : row'.priority = row.priority
  createdAt : row'.createdAt = row.createdAt
  updatedAt : row'.updatedAt = row.updatedAt
  provenance : row.provenance.ReadBack row'.provenance
  hash : row'.hash = row.hash

/-- The strings of a block are such as a `jsonb` column holds. -/
structure PlainStrings (block : ContextBlock) : Prop where
  source : ∀ s, block.provenance.source = some s → Json.Plain s
  labels : ∀ s ∈ block.provenance.labels, Json.Plain s
  tokenizers : ∀ s, s ∈ block.tokenCounts → Json.Plain s

theorem plainStrings_sampleBlock (i : BlockId) (kind : BlockKind) (bytes : Bytes) :
    PlainStrings (sampleBlock i kind bytes []) := ⟨by simp [sampleBlock], by simp [sampleBlock], by simp [sampleBlock]⟩

variable {block : ContextBlock} {p : Provenance} {tc : TokenCounts} {v : Json}

/-! ### Round trips -/

theorem decodeBlockId_idBytes (id : BlockId) : decodeBlockId (idBytes id) = .ok id := by
  simp [decodeBlockId, idBytes]

theorem tsFromI64_tsToI64 {ts : Timestamp} (h : ts.val < 2 ^ 63) : tsFromI64 (tsToI64 ts) = ts := by
  rw [tsToI64, dif_pos h]
  rfl

theorem blockKindFromStr_toStr (k : BlockKind) : blockKindFromStr (blockKindToStr k) = .ok k := by
  cases k <;> rfl

theorem edgeKindFromStr_toStr (k : EdgeKind) : edgeKindFromStr (edgeKindToStr k) = .ok k := by
  cases k <;> rfl

theorem parentFromJson_display (id : BlockId) : parentFromJson (.string id.display) = .ok id := by
  simp only [parentFromJson, Json.asStr, BlockId.parse_display]
  rfl

theorem provenanceFromJson_toJson (p : Provenance) : provenanceFromJson (provenanceToJson p) = .ok p := by
  have hparents : (p.parents.map fun id => Json.string id.display).mapM parentFromJson = .ok p.parents := by
    rw [List.mapM_map]
    simpa [Function.comp_def] using Loop.mapM_eq_ok (g := id) fun id _ => parentFromJson_display id
  have hlabels : (p.labels.map Json.string).filterMap Json.asStr = p.labels := by
    simp [List.filterMap_map, Function.comp_def, Json.asStr]
  have hsource : ((provenanceToJson p).get "source").bind Json.asStr = p.source := by
    cases hsource : p.source <;> simp [provenanceToJson, Json.get, hsource, Json.asStr]
  have hget : ((provenanceToJson p).get "parents").bind Json.asArray =
      some (p.parents.map fun id => Json.string id.display) := rfl
  have hget' : ((provenanceToJson p).get "labels").bind Json.asArray = some (p.labels.map .string) := rfl
  rw [provenanceFromJson, hsource, hget, hget']
  dsimp only
  rw [hparents, hlabels]
  rfl

/-- The decoder reads fields by name. -/
theorem provenanceFromJson_readBack (h : (provenanceToJson p).ReadBack v) : provenanceFromJson v = .ok p := by
  have hfixed : ∀ f ∈ [("source", match p.source with | some s => Json.string s | none => Json.null),
      ("parents", .array (p.parents.map fun id => .string id.display)), ("labels", .array (p.labels.map .string))],
      Json.Fixed f.2 := by
    simp only [List.forall_mem_cons, List.not_mem_nil, false_implies, implies_true, and_true]
    refine ⟨?_, Json.fixed_array ?_, Json.fixed_array ?_⟩
    · cases p.source
      · exact Json.fixed_null
      · exact Json.fixed_string _
    · intro item hitem
      obtain ⟨id, -, rfl⟩ := List.mem_map.mp hitem
      exact Json.fixed_string _
    · intro item hitem
      obtain ⟨label, -, rfl⟩ := List.mem_map.mp hitem
      exact Json.fixed_string _
  have hget : ∀ key, v.get key = (provenanceToJson p).get key := Json.get_of_readBack hfixed h
  rw [← provenanceFromJson_toJson p, provenanceFromJson, provenanceFromJson, hget, hget, hget]

theorem toNat_count (count : TokenCount) : (UInt64.ofNat count.val).toNat = count.val :=
  UInt64.toNat_ofNat_of_lt' (Nat.lt_trans count.isLt (by decide))

theorem readCount_number (out : TokenCounts) (key : String) (count : TokenCount) :
    readCount out (key, .number (.ofNat count.val)) = .ok (out.insert key count) := by
  have hlt : (UInt64.ofNat count.val).toNat < 2 ^ 32 := (toNat_count count).symm ▸ count.isLt
  have hcount : (⟨(UInt64.ofNat count.val).toNat, hlt⟩ : TokenCount) = count := by
    rw [TokenCount.mk.injEq, toNat_count]
  simp only [readCount, Json.asU64]
  rw [dif_pos hlt, hcount]

/-- The counts are read back in whatever order. -/
theorem tokenCountsFromJson_readBack (h : (tokenCountsToJson tc).ReadBack v) : tokenCountsFromJson v = .ok tc := by
  have hfixed : ∀ f ∈ tc.toList.map fun e => (e.1, Json.number (.ofNat e.2.val)), Json.Fixed f.2 := by
    intro f hf
    obtain ⟨e, -, rfl⟩ := List.mem_map.mp hf
    exact Json.fixed_number _
  obtain ⟨-, fields, rfl, hperm⟩ := Json.readBack_object hfixed h
  let field : String × TokenCount → String × Json := fun e => (e.1, .number (.ofNat e.2.val))
  have hinj : Function.Injective field := by
    rintro ⟨key, count⟩ ⟨key', count'⟩ heq
    simp only [field, Prod.mk.injEq, Json.number.injEq] at heq
    obtain ⟨rfl, hcount⟩ := heq
    have hval := congrArg UInt64.toNat hcount
    rw [toNat_count, toNat_count] at hval
    cases count
    cases hval
    rfl
  obtain ⟨entries, rfl⟩ : ∃ entries : List (String × TokenCount), entries.map field = fields := by
    have hrange : fields ∈ {l | ∀ x ∈ l, x ∈ Set.range field} := by
      intro x hx
      obtain ⟨e, -, he⟩ := List.mem_map.mp (hperm.mem_iff.mpr hx)
      exact ⟨e, he⟩
    rwa [← Set.range_list_map] at hrange
  have hentries : tc.toList.Perm entries := (List.map_perm_map_iff hinj).mp hperm
  have hread : ∀ (entries : List (String × TokenCount)) out, (entries.map field).foldlM readCount out =
      .ok (entries.foldl (fun out e => out.insert e.1 e.2) out) := by
    intro entries
    induction entries with
    | nil => exact fun out => rfl
    | cons e entries ih => exact fun out => (congrArg (· >>= _) (readCount_number out e.1 e.2)).trans (ih _)
  rw [tokenCountsFromJson, Json.asObject]
  dsimp only
  rw [hread]
  refine congrArg _ (Std.ExtTreeMap.ext_getElem? fun key => ?_)
  have hassign : ∀ (m : TokenCounts) (e : String × TokenCount) a, (m.insert e.1 e.2)[a]? =
      if e.1 = a then some e.2 else m[a]? := fun m e a => by simp [Std.ExtTreeMap.getElem?_insert]
  have hmem : ∀ e ∈ entries, e.1 = key → some e.2 = tc[key]? := by
    rintro e he rfl
    exact (Std.ExtTreeMap.mem_toList_iff_getElem?_eq_some.mp (hentries.mem_iff.mpr he)).symm
  rw [Loop.lookup_foldl (g := fun (m : TokenCounts) a => m[a]?) hassign hmem]
  split
  case isTrue => rfl
  case isFalse habsent =>
    refine (Option.eq_none_iff_forall_ne_some.mpr fun count hcount => habsent ?_).symm
    have hin := hentries.mem_iff.mp (Std.ExtTreeMap.mem_toList_iff_getElem?_eq_some.mpr hcount)
    exact List.mem_map.mpr ⟨_, hin, rfl⟩

/-! ### Rows -/

theorem plain_display (id : BlockId) : Json.Plain id.display := by
  intro h
  rw [BlockId.display, String.toList_ofList] at h
  obtain ⟨i, -, hi⟩ := List.mem_map.mp h
  have hdigit := hexDigit_digitChar (Nat.mod_lt (id.raw.val / 16 ^ (31 - i)) (by decide : 0 < 16))
  rw [hi] at hdigit
  cases hdigit

theorem forall₂_strings {l : List String} (h : ∀ s ∈ l, Json.Plain s) :
    List.Forall₂ Json.ReadBack (l.map .string) (l.map .string) := by
  rw [List.forall₂_map_left_iff, List.forall₂_map_right_iff, List.forall₂_same]
  exact fun s hs => .string (h s hs)

theorem provenance_readBack (h : PlainStrings block) :
    (provenanceToJson block.provenance).ReadBack (provenanceToJson block.provenance) := by
  refine .object (by simp) (by simp [Json.Plain]) rfl (.cons ?_ (.cons (.array ?_) (.cons (.array ?_) .nil))) (.refl _)
  · cases hsource : block.provenance.source with
    | none => exact .null
    | some s => exact .string (h.source s hsource)
  · have hids : ∀ s ∈ block.provenance.parents.map (·.display), Json.Plain s := by
      simpa using fun id _ => plain_display id
    simpa using forall₂_strings hids
  · exact forall₂_strings h.labels

theorem tokenCounts_readBack (h : PlainStrings block) :
    (tokenCountsToJson block.tokenCounts).ReadBack (tokenCountsToJson block.tokenCounts) := by
  refine .object ?_ ?_ rfl ?_ (.refl _)
  · rw [List.map_map]
    simpa [Function.comp_def, Std.ExtTreeMap.map_fst_toList_eq_keys] using block.tokenCounts.nodup_keys
  · intro f hf
    obtain ⟨e, he, rfl⟩ := List.mem_map.mp hf
    have hget := Std.ExtTreeMap.mem_toList_iff_getElem?_eq_some.mp he
    exact h.tokenizers _ (Std.ExtTreeMap.mem_iff_isSome_getElem?.mpr (by rw [hget]; rfl))
  · rw [List.map_map, List.forall₂_same]
    intro v hv
    obtain ⟨e, -, rfl⟩ := List.mem_map.mp hv
    exact .number _

/-- A block with timestamps in the range of the columns and strings that the columns hold is stored, and whatever row
the database gives back for it is read as the same block. Ids and edge kinds are read back too. -/
theorem rows_round_trip (block : ContextBlock) (hcreated : block.createdAt.val < 2 ^ 63) (hupdated : block.updatedAt.val < 2 ^ 63)
    (hplain : PlainStrings block) :
    (∃ row, (blockToRow block).ReadBack row) ∧ (∀ row, (blockToRow block).ReadBack row → rowToBlock row = .ok block) ∧
    (∀ id, decodeBlockId (idBytes id) = .ok id) ∧ ∀ k, edgeKindFromStr (edgeKindToStr k) = .ok k := by
  have hself : (blockToRow block).ReadBack (blockToRow block) :=
    ⟨rfl, rfl, rfl, tokenCounts_readBack hplain, rfl, rfl, rfl, provenance_readBack hplain, rfl⟩
  refine ⟨⟨_, hself⟩, fun row h => ?_, decodeBlockId_idBytes, edgeKindFromStr_toStr⟩
  have hid : decodeBlockId row.id = .ok block.id := by rw [h.id, blockToRow, decodeBlockId_idBytes]
  have hkind : blockKindFromStr row.kind = .ok block.kind := by rw [h.kind, blockToRow, blockKindFromStr_toStr]
  have hcounts : tokenCountsFromJson row.tokenCounts = .ok block.tokenCounts :=
    tokenCountsFromJson_readBack h.tokenCounts
  have hprovenance : provenanceFromJson row.provenance = .ok block.provenance :=
    provenanceFromJson_readBack h.provenance
  have hhash : row.hash = block.hash.bytes := h.hash
  have hwidth : row.hash.length = 32 := hhash ▸ block.hash.width
  have hcreatedAt : tsFromI64 row.createdAt = block.createdAt := by rw [h.createdAt]; exact tsFromI64_tsToI64 hcreated
  have hupdatedAt : tsFromI64 row.updatedAt = block.updatedAt := by rw [h.updatedAt]; exact tsFromI64_tsToI64 hupdated
  rw [rowToBlock, hid, Loop.ok_bind, hkind, Loop.ok_bind, hcounts, Loop.ok_bind, hprovenance, Loop.ok_bind,
    dif_pos hwidth, h.bytes, h.priority, hcreatedAt, hupdatedAt]
  have hsame : (⟨row.hash, hwidth⟩ : ContentHash) = block.hash := ContentHash.bytes_inj.mp hhash
  rw [hsame]
  rfl

/-- A summary of one block, with its tokens counted. -/
def summaryBlock : ContextBlock where
  id := ⟨2⟩
  kind := .summary
  bytes := [0x61]
  tokenCounts := (∅ : TokenCounts).insert "cl100k_base" ⟨1, by decide⟩
  priority := 1
  createdAt := ⟨1777980720000, by decide⟩
  updatedAt := ⟨1777980720000, by decide⟩
  provenance := ⟨some "chat", [⟨1⟩], ["pinned"]⟩
  hash := sampleHash [0x61]

theorem rows_round_trip_sample :
    ∃ row, (blockToRow summaryBlock).ReadBack row ∧ rowToBlock row = .ok summaryBlock := by
  have h := rows_round_trip summaryBlock (by decide) (by decide) ⟨by simp [summaryBlock, Json.Plain],
    by simp [summaryBlock, Json.Plain], by simp [summaryBlock, Json.Plain]⟩
  obtain ⟨row, hrow⟩ := h.1
  exact ⟨row, hrow, h.2.1 row hrow⟩

end Llm386.Pg
