import Llm386.Core.Float
import Llm386.Core.Page
import Llm386.Lib.KeyTable
import Llm386.Lib.Wire

/-! # Trace records and their sink

`TraceRecord` and the methods of `TraceSink` from `llm386-core/src/trace.rs`, and `LmdbTraceSink` of
`llm386-trace/src/lmdb.rs`: one table from call ids to records encoded with `postcard`. The encodings of the
primitive types are parameters; a struct is its fields in order, without names. -/

namespace Llm386

/-- Identifier of one page and pack call. -/
structure CallId where
  raw : U128
deriving DecidableEq

/-- An id as 32 lowercase hex digits. -/
def CallId.display (id : CallId) : String := BlockId.display ⟨id.raw⟩

/-- Record of one page and pack call. -/
structure TraceRecord where
  callId : CallId
  session : SessionId
  model : String
  plan : PagePlan
  promptTokens : TokenCount
  promptHash : ContentHash
  startedAt : Timestamp
  durationMs : Fin (2 ^ 32)
  modelVersion : String
  tokenizerVersion : String
  /-- Model output, once it is known. -/
  output : Option String
  outputTokens : Option TokenCount

inductive TraceError
  | failed (message : String)
deriving DecidableEq

/-! ### Encodings -/

/-- The encodings of the primitive types. -/
structure Postcard where
  /-- An unsigned integer of some width, or the variant of an enum. -/
  varint (bits : Nat) : Codec String (Fin (2 ^ bits))
  f32 : Codec String Float32
  /-- Number of elements of a sequence. -/
  length : Codec String Nat
  /-- Whether an `Option` has a value. -/
  tag : Codec String Bool
  string : Codec String String
  /-- `[u8; 32]`. -/
  hash : Codec String ContentHash
  /-- The error for a variant that an enum does not have. -/
  unknownVariant : String

namespace Postcard
variable (p : Postcard)

def u128 : Codec String U128 := (p.varint 128).ofEquiv ⟨fun n => ⟨n, n.isLt⟩, fun x => ⟨x.val, x.isLt⟩, fun _ => rfl, fun _ => rfl⟩

def callId : Codec String CallId := p.u128.ofEquiv ⟨.mk, CallId.raw, fun _ => rfl, fun _ => rfl⟩

def sessionId : Codec String SessionId := p.u128.ofEquiv ⟨.mk, SessionId.raw, fun _ => rfl, fun _ => rfl⟩

def blockId : Codec String BlockId := p.u128.ofEquiv ⟨.mk, BlockId.raw, fun _ => rfl, fun _ => rfl⟩

def tokenCount : Codec String TokenCount :=
  (p.varint 32).ofEquiv ⟨fun n => ⟨n, n.isLt⟩, fun x => ⟨x.val, x.isLt⟩, fun _ => rfl, fun _ => rfl⟩

def timestamp : Codec String Timestamp :=
  (p.varint 64).ofEquiv ⟨fun n => ⟨n, n.isLt⟩, fun x => ⟨x.val, x.isLt⟩, fun _ => rfl, fun _ => rfl⟩

def selectionReason : Codec String SelectionReason :=
  (p.varint 32).enum p.unknownVariant [.pinned, .highRelevance, .recency, .dependency, .globalFact, .toolResult]
    (by rintro (_ | _) <;> simp) (by decide) (by decide)

def omissionReason : Codec String OmissionReason :=
  (p.varint 32).enum p.unknownVariant
    [.budget, .stale, .redundant, .lowScore, .filteredByKind, .dependencyMissing, .compressed, .contradicted,
      .supersededByDerived]
    (by rintro (_ | _) <;> simp) (by decide) (by decide)

def selection : Codec String Selection :=
  (p.blockId.pair (p.f32.pair (p.selectionReason.pair (p.string.option p.tag)))).ofEquiv
    ⟨fun ⟨blockId, score, reason, note⟩ => ⟨blockId, score, reason, note⟩,
      fun s => ⟨s.blockId, s.score, s.reason, s.note⟩, fun _ => rfl, fun _ => rfl⟩

def omittedBlock : Codec String OmittedBlock :=
  (p.blockId.pair (p.omissionReason.pair p.f32)).ofEquiv
    ⟨fun ⟨blockId, reason, score⟩ => ⟨blockId, reason, score⟩, fun o => ⟨o.blockId, o.reason, o.score⟩,
      fun _ => rfl, fun _ => rfl⟩

def pagePlan : Codec String PagePlan :=
  ((p.blockId.list p.length).pair ((p.selection.list p.length).pair
      ((p.omittedBlock.list p.length).pair p.tokenCount))).ofEquiv
    ⟨fun ⟨selected, selections, omitted, tokens⟩ => ⟨selected, selections, omitted, tokens⟩,
      fun plan => ⟨plan.selected, plan.selections, plan.omitted, plan.estimatedTokens⟩, fun _ => rfl, fun _ => rfl⟩

/-- The fields up to the duration, with the encoding of the plan. -/
def callFields : Codec String (CallId × SessionId × String × PagePlan × TokenCount × ContentHash × Timestamp × Fin (2 ^ 32)) :=
  p.callId.pair (p.sessionId.pair (p.string.pair (p.pagePlan.pair (p.tokenCount.pair (p.hash.pair
    (p.timestamp.pair (p.varint 32)))))))

/-- The fields about the model's build and its output. -/
def outputFields : Codec String (String × String × Option String × Option TokenCount) :=
  p.string.pair (p.string.pair ((p.string.option p.tag).pair (p.tokenCount.option p.tag)))

def traceRecord : Codec String TraceRecord :=
  (p.callFields.pair p.outputFields).ofEquiv
    ⟨fun ⟨⟨callId, session, model, plan, promptTokens, promptHash, startedAt, durationMs⟩,
          modelVersion, tokenizerVersion, output, outputTokens⟩ =>
        { callId, session, model, plan, promptTokens, promptHash, startedAt, durationMs, modelVersion,
          tokenizerVersion, output, outputTokens },
      fun r => ⟨⟨r.callId, r.session, r.model, r.plan, r.promptTokens, r.promptHash, r.startedAt, r.durationMs⟩,
          r.modelVersion, r.tokenizerVersion, r.output, r.outputTokens⟩,
      fun _ => rfl, fun _ => rfl⟩

end Postcard

/-! ### The sink -/

structure LmdbTraceSink where
  /-- `call_id` → encoded record. -/
  traceByCall : KeyTable Bytes

namespace LmdbTraceSink

/-- A freshly opened sink. -/
def empty : LmdbTraceSink := ⟨∅⟩

/-- The bytes stored for a call. -/
def stored (sink : LmdbTraceSink) (callId : CallId) : Option Bytes := sink.traceByCall[callId.raw.toBeBytes]?

def record (p : Postcard) (sink : LmdbTraceSink) (trace : TraceRecord) : LmdbTraceSink :=
  ⟨sink.traceByCall.insert trace.callId.raw.toBeBytes (p.traceRecord.encode trace)⟩

/-- `postcard::from_bytes` reads a record from the front of the stored bytes and ignores what is left. -/
def fetch (p : Postcard) (sink : LmdbTraceSink) (callId : CallId) : Except TraceError (Option TraceRecord) :=
  match sink.stored callId with
  | some bytes =>
    match p.traceRecord.decode bytes with
    | .ok (trace, _) => .ok (some trace)
    | .error e => .error (.failed ("postcard decode: " ++ e))
  | none => .ok none

/-- The default `TraceSink::update_output`. -/
def updateOutput (p : Postcard) (sink : LmdbTraceSink) (callId : CallId) (output : String)
    (outputTokens : TokenCount) : Except TraceError LmdbTraceSink := do
  match ← sink.fetch p callId with
  | none => .error (.failed ("no trace for " ++ callId.display))
  | some trace => pure (sink.record p { trace with output := some output, outputTokens := some outputTokens })

variable {p : Postcard} {sink sink' : LmdbTraceSink} {trace : TraceRecord} {callId : CallId}

theorem stored_record (p : Postcard) (sink : LmdbTraceSink) (trace : TraceRecord) (callId : CallId) :
    (sink.record p trace).stored callId =
      if trace.callId = callId then some (p.traceRecord.encode trace) else sink.stored callId := by
  unfold stored record
  rw [KeyTable.getElem?_insert_eq]
  refine if_congr ?_ rfl rfl
  rw [U128.toBeBytes_inj]
  cases callId
  cases h : trace.callId
  simp

theorem fetch_eq_none (h : sink.stored callId = none) : sink.fetch p callId = .ok none := by
  rw [fetch, h]

theorem fetch_inv (h : sink.fetch p callId = .ok (some trace)) :
    ∃ bytes rest, sink.stored callId = some bytes ∧ p.traceRecord.decode bytes = .ok (trace, rest) := by
  unfold fetch at h
  split at h
  · rename_i bytes hbytes
    split at h
    · rename_i found rest hdecode
      cases h
      exact ⟨bytes, rest, hbytes, hdecode⟩
    · cases h
  · cases h

theorem fetch_of_stored (h : sink.stored callId = some (p.traceRecord.encode trace)) :
    sink.fetch p callId = .ok (some trace) := by
  have hdecode := p.traceRecord.decode_encode trace []
  rw [List.append_nil] at hdecode
  simp only [fetch, h, hdecode]

/-- Every entry is the encoding of a record, under the record's own id. -/
def Recorded (p : Postcard) (sink : LmdbTraceSink) : Prop :=
  ∀ callId bytes, sink.stored callId = some bytes → ∃ trace, trace.callId = callId ∧ bytes = p.traceRecord.encode trace

theorem recorded_empty : Recorded p empty := by
  intro callId bytes h
  simp [stored, empty] at h

theorem Recorded.record (h : Recorded p sink) (trace : TraceRecord) : Recorded p (sink.record p trace) := by
  intro callId bytes hstored
  rw [stored_record] at hstored
  split at hstored
  · rename_i hid
    cases hstored
    exact ⟨trace, hid, rfl⟩
  · exact h callId bytes hstored

/-- In such a sink a call either has no entry, or its record is found. -/
theorem Recorded.fetch (h : Recorded p sink) (callId : CallId) :
    sink.fetch p callId = .ok none ∨ ∃ trace, trace.callId = callId ∧ sink.fetch p callId = .ok (some trace) := by
  cases hstored : sink.stored callId with
  | none => exact .inl (fetch_eq_none hstored)
  | some bytes =>
    obtain ⟨trace, hid, rfl⟩ := h callId bytes hstored
    exact .inr ⟨trace, hid, fetch_of_stored hstored⟩

theorem updateOutput_inv {output : String} {outputTokens : TokenCount}
    (h : sink.updateOutput p callId output outputTokens = .ok sink') :
    ∃ trace, sink.fetch p callId = .ok (some trace) ∧
      sink' = sink.record p { trace with output := some output, outputTokens := some outputTokens } := by
  obtain ⟨found, hfound, h⟩ := Loop.bind_eq_ok.mp h
  cases found with
  | none => cases h
  | some trace =>
    cases h
    exact ⟨trace, hfound, rfl⟩

theorem Recorded.updateOutput {output : String} {outputTokens : TokenCount} (h : Recorded p sink)
    (hupdate : sink.updateOutput p callId output outputTokens = .ok sink') : Recorded p sink' := by
  obtain ⟨trace, -, rfl⟩ := updateOutput_inv hupdate
  exact h.record _

/-- Patching a recorded call changes the output of that call and nothing else. -/
theorem Recorded.fetch_updateOutput {output : String} {outputTokens : TokenCount} (h : Recorded p sink)
    (hupdate : sink.updateOutput p callId output outputTokens = .ok sink') :
    (∃ trace, sink.fetch p callId = .ok (some trace) ∧
      sink'.fetch p callId = .ok (some { trace with output := some output, outputTokens := some outputTokens })) ∧
    ∀ other, other ≠ callId → sink'.fetch p other = sink.fetch p other := by
  obtain ⟨trace, hfetch, rfl⟩ := updateOutput_inv hupdate
  have hid : trace.callId = callId := by
    rcases h.fetch callId with hnone | ⟨found, hid, hfound⟩
    · rw [hnone] at hfetch
      cases hfetch
    · rw [hfound] at hfetch
      cases hfetch
      exact hid
  constructor
  · exact ⟨trace, hfetch, fetch_of_stored (by rw [stored_record, if_pos hid])⟩
  · intro other hne
    have hstored : (sink.record p { trace with output := some output, outputTokens := some outputTokens }).stored other
        = sink.stored other := by
      rw [stored_record, if_neg (fun h => hne (h.symm.trans hid))]
    simp only [LmdbTraceSink.fetch, hstored]

end LmdbTraceSink

/-! ### The encodings of `postcard` 1 -/

namespace Postcard

def endOfInput : String := "Hit the end of buffer, expected more data"

/-- Numbers as varints, `f32` and hashes as fixed bytes, little-endian, and strings as UTF-8 after their length. -/
def v1 : Postcard where
  varint bits := (Codec.varint endOfInput).narrow
    (fun n => if h : n < 2 ^ bits then .ok ⟨n, h⟩ else .error "Found a varint that didn't terminate")
    Fin.val (fun i => dif_pos i.isLt) (fun h => by
      split at h
      · cases h
        exact le_rfl
      · cases h)
  f32 := ((Codec.byte endOfInput).array 3).narrow (fun l => .ok (f32FromLeBytes l.val))
    (fun x => ⟨f32ToLeBytes x, length_f32ToLeBytes x⟩) (fun x => by rw [f32FromLeBytes_toLeBytes])
    (fun {l x} _ => by simp [Codec.array, l.property])
  length := Codec.varint endOfInput
  tag := (Codec.byte endOfInput).narrow
    (fun b => if b = 0 then .ok false else if b = 1 then .ok true
      else .error "Found an Option discriminant that wasn't 0 or 1")
    (fun present => if present then 1 else 0) (by decide) (fun _ => le_rfl)
  string := ((Codec.byte endOfInput).list (Codec.varint endOfInput)).narrow
    (fun l =>
      match String.fromUTF8? ⟨l.toArray⟩ with
      | some s => .ok s
      | none => .error "Tried to parse invalid utf-8")
    asBytes
    (fun s => by rw [fromUTF8?_asBytes])
    (fun {l s} h => by
      split at h
      · rename_i s' hs
        cases h
        rw [asBytes_of_fromUTF8 hs]
      · cases h)
  hash := ((Codec.byte endOfInput).array 31).ofEquiv
    ⟨fun l => ⟨l.val, l.property⟩, fun h => ⟨h.bytes, h.width⟩, fun _ => rfl, fun _ => rfl⟩
  unknownVariant := "Serde Deserialization Error"

end Postcard
end Llm386
