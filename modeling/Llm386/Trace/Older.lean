import Llm386.Core.Text
import Llm386.Trace.Record

/-! # Trace records of older layouts

A record written before the fields about the model's build and its output existed ends at the duration; its
plan may be older still, without the selections or without their notes. `#[serde(default)]` gives a missing
field its default where a format marks which fields are there. `postcard` does not, so the bytes of an older
record are not those of the record it should load as. -/

namespace Llm386

/-- A selection from before selections had a note. -/
structure OlderSelection where
  blockId : BlockId
  score : Float32
  reason : SelectionReason

def OlderSelection.upgrade (s : OlderSelection) : Selection := ⟨s.blockId, s.score, s.reason, none⟩

/-- The plan of an older record. -/
inductive OlderPlan
  /-- From before plans had selections. -/
  | unscored (selected : List BlockId) (omitted : List OmittedBlock) (estimatedTokens : TokenCount)
  /-- From before selections had a note. -/
  | unnoted (selected : List BlockId) (selections : List OlderSelection) (omitted : List OmittedBlock)
      (estimatedTokens : TokenCount)
  | current (plan : PagePlan)

/-- The plan with the defaults for the fields it does not have. -/
def OlderPlan.upgrade : OlderPlan → PagePlan
  | .unscored selected omitted estimatedTokens => ⟨selected, [], omitted, estimatedTokens⟩
  | .unnoted selected selections omitted estimatedTokens =>
    ⟨selected, selections.map OlderSelection.upgrade, omitted, estimatedTokens⟩
  | .current plan => plan

/-- A record from before `model_version`, `tokenizer_version`, `output` and `output_tokens`. -/
structure OlderRecord where
  callId : CallId
  session : SessionId
  model : String
  plan : OlderPlan
  promptTokens : TokenCount
  promptHash : ContentHash
  startedAt : Timestamp
  durationMs : Fin (2 ^ 32)

/-- The record with the defaults for the fields it does not have. -/
def OlderRecord.upgrade (r : OlderRecord) : TraceRecord where
  callId := r.callId
  session := r.session
  model := r.model
  plan := r.plan.upgrade
  promptTokens := r.promptTokens
  promptHash := r.promptHash
  startedAt := r.startedAt
  durationMs := r.durationMs
  modelVersion := ""
  tokenizerVersion := ""
  output := none
  outputTokens := none

/-! ### The bytes that were written -/

def OlderSelection.encode (p : Postcard) (s : OlderSelection) : Bytes :=
  p.blockId.encode s.blockId ++ p.f32.encode s.score ++ p.selectionReason.encode s.reason

def OlderPlan.encode (p : Postcard) : OlderPlan → Bytes
  | .unscored selected omitted estimatedTokens =>
    (p.blockId.list p.length).encode selected ++ (p.omittedBlock.list p.length).encode omitted ++
      p.tokenCount.encode estimatedTokens
  | .unnoted selected selections omitted estimatedTokens =>
    (p.blockId.list p.length).encode selected ++
      (p.length.encode selections.length ++ selections.flatMap (OlderSelection.encode p)) ++
      (p.omittedBlock.list p.length).encode omitted ++ p.tokenCount.encode estimatedTokens
  | .current plan => p.pagePlan.encode plan

def OlderRecord.encode (p : Postcard) (r : OlderRecord) : Bytes :=
  p.callId.encode r.callId ++ p.sessionId.encode r.session ++ p.string.encode r.model ++ r.plan.encode p ++
    p.tokenCount.encode r.promptTokens ++ p.hash.encode r.promptHash ++ p.timestamp.encode r.startedAt ++
    (p.varint 32).encode r.durationMs

variable (p : Postcard)

theorem length_selection (s : OlderSelection) :
    (s.encode p).length ≤ (p.selection.encode s.upgrade).length := by
  simp only [OlderSelection.encode, OlderSelection.upgrade, Postcard.selection, Codec.encode_ofEquiv, Equiv.coe_fn_symm_mk,
    Codec.encode_pair, List.length_append]
  omega

theorem length_selections (l : List OlderSelection) :
    (l.flatMap (OlderSelection.encode p)).length ≤ (p.selection.encodeAll (l.map OlderSelection.upgrade)).length := by
  induction l with
  | nil => simp
  | cons s l ih =>
    have hhead := length_selection p s
    rw [List.flatMap_cons, List.map_cons, Codec.encodeAll_cons, List.length_append, List.length_append]
    omega

/-- A plan is written in no fewer bytes once it has the fields it missed. -/
theorem length_plan (plan : OlderPlan) : (plan.encode p).length ≤ (p.pagePlan.encode plan.upgrade).length := by
  cases plan with
  | unscored selected omitted estimatedTokens =>
    simp only [OlderPlan.encode, OlderPlan.upgrade, Postcard.pagePlan, Codec.encode_ofEquiv, Equiv.coe_fn_symm_mk,
      Codec.encode_pair, List.length_append]
    omega
  | unnoted selected selections omitted estimatedTokens =>
    have hselections := length_selections p selections
    simp only [OlderPlan.encode, OlderPlan.upgrade, Postcard.pagePlan, Codec.encode_ofEquiv, Equiv.coe_fn_symm_mk,
      Codec.encode_pair, Codec.encode_list, List.length_append, List.length_map]
    omega
  | current plan => exact le_rfl

/-- An older record is shorter than the record it should load as. -/
theorem length_record (r : OlderRecord) : (r.encode p).length < (p.traceRecord.encode r.upgrade).length := by
  have hplan := length_plan p r.plan
  have htail := p.outputFields.length_encode_pos ("", "", none, none)
  simp only [OlderRecord.encode, OlderRecord.upgrade, Postcard.traceRecord, Postcard.callFields, Codec.encode_ofEquiv,
    Equiv.coe_fn_symm_mk, Codec.encode_pair, List.length_append]
  omega

/-! ### Loading -/

/-- A fetch loads an older record: its own fields, and defaults for the others. -/
def LoadsOlder (p : Postcard) (sink : LmdbTraceSink) (r : OlderRecord) : Prop :=
  sink.fetch p r.callId = .ok (some r.upgrade)

/-- No older record loads. -/
theorem fetch_older (p : Postcard) (sink : LmdbTraceSink) (r : OlderRecord)
    (stored : sink.stored r.callId = some (r.encode p)) : ¬ LoadsOlder p sink r := by
  intro hloads
  obtain ⟨bytes, rest, hbytes, hdecode⟩ := LmdbTraceSink.fetch_inv hloads
  rw [stored] at hbytes
  cases hbytes
  exact p.traceRecord.decode_ne_of_short (length_record p r) hdecode

/-- A record from before plans had selections, of a call that selected nothing. -/
def sampleOlder : OlderRecord where
  callId := ⟨42⟩
  session := ⟨1⟩
  model := "gpt-4o"
  plan := .unscored [] [] .zero
  promptTokens := .zero
  promptHash := sampleHash []
  startedAt := ⟨1000, by decide⟩
  durationMs := 0

/-- A sink that was left with that record. -/
def sampleSink : LmdbTraceSink := ⟨(∅ : KeyTable Bytes).insert (⟨42⟩ : CallId).raw.toBeBytes (sampleOlder.encode .v1)⟩

theorem stored_sample : sampleSink.stored ⟨42⟩ = some (sampleOlder.encode .v1) := by
  simp [sampleSink, LmdbTraceSink.stored]

theorem fetch_older_sample : ¬ LoadsOlder .v1 sampleSink sampleOlder :=
  fetch_older .v1 sampleSink sampleOlder stored_sample

/-- Its omitted list is read as its selections and so on, until the duration is missing. -/
theorem older_does_not_load :
    sampleSink.fetch .v1 sampleOlder.callId =
      .error (.failed "postcard decode: Hit the end of buffer, expected more data") ∧
    ¬ LoadsOlder .v1 sampleSink sampleOlder := by
  have hfetch : sampleSink.fetch .v1 sampleOlder.callId = .error (.failed ("postcard decode: " ++ Postcard.endOfInput)) := by
    have hend : (match Postcard.v1.traceRecord.decode (sampleOlder.encode .v1) with
        | .error e => decide (e = Postcard.endOfInput)
        | .ok _ => false) = true := by decide +kernel
    unfold LmdbTraceSink.fetch
    rw [show sampleOlder.callId = ⟨42⟩ from rfl, stored_sample]
    cases hdecode : Postcard.v1.traceRecord.decode (sampleOlder.encode .v1) with
    | ok found =>
      rw [hdecode] at hend
      cases hend
    | error e =>
      rw [hdecode] at hend
      have he : e = Postcard.endOfInput := of_decide_eq_true hend
      simp only [hdecode, he]
  refine ⟨hfetch, fun hloads => ?_⟩
  rw [LoadsOlder, hfetch] at hloads
  cases hloads

/-- Where only the last fields are missing, the fetch fails at the end of the stored bytes. -/
theorem fetch_older_current {p : Postcard} {sink : LmdbTraceSink} {r : OlderRecord} {plan : PagePlan}
    (hplan : r.plan = .current plan) (stored : sink.stored r.callId = some (r.encode p)) :
    ∃ e, p.outputFields.decode [] = .error e ∧
      sink.fetch p r.callId = .error (.failed ("postcard decode: " ++ e)) := by
  obtain ⟨e, heof, hdecode⟩ := p.callFields.pair_truncated p.outputFields
    ⟨r.callId, r.session, r.model, plan, r.promptTokens, r.promptHash, r.startedAt, r.durationMs⟩
  have hbytes : r.encode p = p.callFields.encode
      ⟨r.callId, r.session, r.model, plan, r.promptTokens, r.promptHash, r.startedAt, r.durationMs⟩ := by
    simp only [OlderRecord.encode, hplan, OlderPlan.encode, Postcard.callFields, Codec.encode_pair, List.append_assoc]
  refine ⟨e, heof, ?_⟩
  unfold LmdbTraceSink.fetch
  rw [stored, hbytes]
  have hrecord : p.traceRecord.decode _ = .error e := Codec.decode_ofEquiv_error _ _ hdecode
  simp only [hrecord]

end Llm386
