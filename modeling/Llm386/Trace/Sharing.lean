import Llm386.Lib.Parties
import Llm386.Lib.Runs
import Llm386.Lib.Serving
import Llm386.Trace.Record

/-! # Calls that share a trace sink

Any number of calls of one `LmdbTraceSink` whose transactions interleave. `update_output` fetches in one transaction and
records in another, and other calls come in between; as long as no call id is recorded twice, every call still takes effect
at once. -/

namespace Llm386

inductive TraceOp
  | record (trace : TraceRecord)
  | fetch (callId : CallId)
  | updateOutput (callId : CallId) (output : String) (outputTokens : TokenCount)

inductive TraceReply
  | recorded
  | found (trace : Option TraceRecord)

/-- One call after the other. -/
def LmdbTraceSink.serve (p : Postcard) : Machine LmdbTraceSink TraceOp (Except TraceError TraceReply) := fun sink op =>
  match op with
  | .record trace => (.ok .recorded, sink.record p trace)
  | .fetch callId =>
    match sink.fetch p callId with
    | .ok found => (.ok (.found found), sink)
    | .error e => (.error e, sink)
  | .updateOutput callId output outputTokens =>
    match sink.updateOutput p callId output outputTokens with
    | .ok sink' => (.ok .recorded, sink')
    | .error e => (.error e, sink)

namespace SharedTraceSink

/-! ### Calls that interleave -/

/-- What a call has done, and at its end what it has returned. -/
inductive Stage
  | asked
  /-- `update_output` holds the record that it is about to write back. -/
  | fetched (trace : TraceRecord)
  | returned (reply : Except TraceError TraceReply)

structure Call where
  op : TraceOp
  stage : Stage

structure State where
  sink : LmdbTraceSink
  calls : List Call
  /-- The calls that have returned and their replies, in the order of the returns. -/
  answered : List (TraceOp × Except TraceError TraceReply)

inductive Action
  | call (op : TraceOp)
  /-- The call takes its next transaction. -/
  | advance (i : Nat)

/-- One transaction of a call. -/
def Call.advance (p : Postcard) (sink : LmdbTraceSink) (call : Call) : Option (Stage × LmdbTraceSink) :=
  match call.op, call.stage with
  | _, .returned _ => none
  | .record trace, _ => some (.returned (.ok .recorded), sink.record p trace)
  | .fetch callId, _ =>
    match sink.fetch p callId with
    | .ok found => some (.returned (.ok (.found found)), sink)
    | .error e => some (.returned (.error e), sink)
  | .updateOutput callId _ _, .asked =>
    match sink.fetch p callId with
    | .ok (some trace) => some (.fetched trace, sink)
    | .ok none => some (.returned (.error (.failed ("no trace for " ++ callId.display))), sink)
    | .error e => some (.returned (.error e), sink)
  | .updateOutput _ output outputTokens, .fetched trace =>
    some (.returned (.ok .recorded), sink.record p { trace with output := some output, outputTokens := some outputTokens })

/-- The answer of a call that returns. -/
def Stage.answer (op : TraceOp) : Stage → List (TraceOp × Except TraceError TraceReply)
  | .returned reply => [(op, reply)]
  | _ => []

def step (p : Postcard) (st : State) : Action → Option State
  | .call op => some { st with calls := st.calls ++ [⟨op, .asked⟩] }
  | .advance i => do
    let call ← st.calls[i]?
    let (stage, sink) ← call.advance p st.sink
    some ⟨sink, st.calls.set i { call with stage }, st.answered ++ stage.answer call.op⟩

/-- The id of a trace that the call is about to record. -/
def Call.recording (call : Call) : Option CallId :=
  match call.op, call.stage with
  | .record trace, .asked => some trace.callId
  | _, _ => none

/-- A trace that is recorded has an id that is neither in the sink nor about to be. -/
def Fresh (st : State) : Action → Prop
  | .call (.record trace) =>
    st.sink.stored trace.callId = none ∧ ∀ call ∈ st.calls, call.recording ≠ some trace.callId
  | _ => True

/-! ### Records of one call -/

/-- The records differ in their outputs at most. -/
def SameCall (a b : TraceRecord) : Prop :=
  ∀ output outputTokens, { a with output, outputTokens } = { b with output, outputTokens }

theorem SameCall.refl (a : TraceRecord) : SameCall a a := fun _ _ => rfl

theorem SameCall.trans {a b c : TraceRecord} (h : SameCall a b) (h' : SameCall b c) : SameCall a c :=
  fun output outputTokens => (h output outputTokens).trans (h' output outputTokens)

theorem SameCall.symm {a b : TraceRecord} (h : SameCall a b) : SameCall b a :=
  fun output outputTokens => (h output outputTokens).symm

theorem SameCall.callId {a b : TraceRecord} (h : SameCall a b) : a.callId = b.callId :=
  (TraceRecord.mk.inj (h none none)).1

theorem sameCall_withOutput (a : TraceRecord) (output : Option String) (outputTokens : Option TokenCount) :
    SameCall a { a with output, outputTokens } := fun _ _ => rfl

/-! ### What a call relies on -/

variable {p : Postcard} {sink sink' start : LmdbTraceSink} {st st' : State} {call other : Call} {stage : Stage}
  {trace now : TraceRecord} {callId : CallId}

/-- A call that is about to record finds its id free; one that is about to write back finds the record that it fetched,
but for the output. -/
inductive Ready (p : Postcard) (sink : LmdbTraceSink) : Call → Prop
  | record {trace : TraceRecord} (free : sink.stored trace.callId = none) : Ready p sink ⟨.record trace, .asked⟩
  | fetch {callId : CallId} : Ready p sink ⟨.fetch callId, .asked⟩
  | update {callId : CallId} {output : String} {outputTokens : TokenCount} :
    Ready p sink ⟨.updateOutput callId output outputTokens, .asked⟩
  | patch {callId : CallId} {output : String} {outputTokens : TokenCount} {trace now : TraceRecord}
    (found : sink.fetch p callId = .ok (some now)) (same : SameCall now trace) :
    Ready p sink ⟨.updateOutput callId output outputTokens, .fetched trace⟩
  | done {op : TraceOp} {reply : Except TraceError TraceReply} : Ready p sink ⟨op, .returned reply⟩

/-- What a transaction writes: nothing, a trace with a new id, or a record in the place of one of the same call. -/
inductive Writes (p : Postcard) (sink : LmdbTraceSink) (recording : Option CallId) : LmdbTraceSink → Prop
  | nothing : Writes p sink recording sink
  | new {trace : TraceRecord} (free : sink.stored trace.callId = none) (own : recording = some trace.callId) :
    Writes p sink recording (sink.record p trace)
  | patched {trace now : TraceRecord} (found : sink.fetch p trace.callId = .ok (some now)) (same : SameCall now trace) :
    Writes p sink recording (sink.record p trace)

theorem fetch_record_self (p : Postcard) (sink : LmdbTraceSink) (trace : TraceRecord) :
    (sink.record p trace).fetch p trace.callId = .ok (some trace) :=
  LmdbTraceSink.fetch_of_stored (by rw [LmdbTraceSink.stored_record, if_pos rfl])

theorem fetch_record_other (h : trace.callId ≠ callId) : (sink.record p trace).fetch p callId = sink.fetch p callId := by
  have hstored : (sink.record p trace).stored callId = sink.stored callId := by rw [LmdbTraceSink.stored_record, if_neg h]
  simp only [LmdbTraceSink.fetch, hstored]

theorem stored_of_found (h : sink.fetch p callId = .ok (some now)) : sink.stored callId ≠ none := by
  obtain ⟨bytes, rest, hstored, -⟩ := LmdbTraceSink.fetch_inv h
  simp [hstored]

/-- In a recorded sink a record stands under its own id. -/
theorem callId_of_found (hrecorded : sink.Recorded p) (h : sink.fetch p callId = .ok (some now)) : now.callId = callId := by
  rcases hrecorded.fetch callId with hnone | ⟨found, hid, hfound⟩
  · rw [hnone] at h
    cases h
  · rw [hfound] at h
    cases h
    exact hid

theorem Writes.recorded (h : Writes p sink call.recording sink') (hrecorded : sink.Recorded p) : sink'.Recorded p := by
  cases h with
  | nothing => exact hrecorded
  | new => exact hrecorded.record _
  | patched => exact hrecorded.record _

/-- What another call writes leaves a call ready, unless both are about to record the same id. -/
theorem Ready.keep {recording : Option CallId} (h : Ready p sink other) (hwrites : Writes p sink recording sink')
    (hapart : ∀ id, recording = some id → other.recording ≠ some id) : Ready p sink' other := by
  cases h with
  | @record pending free =>
    refine .record ?_
    cases hwrites with
    | nothing => exact free
    | @new trace _ own =>
      have hne : trace.callId ≠ pending.callId := fun heq => hapart _ own (congrArg some heq.symm)
      rw [LmdbTraceSink.stored_record, if_neg hne, free]
    | @patched trace now found same =>
      have hne : trace.callId ≠ pending.callId := fun heq => stored_of_found found (heq ▸ free)
      rw [LmdbTraceSink.stored_record, if_neg hne, free]
  | fetch => exact .fetch
  | update => exact .update
  | @patch id output outputTokens mine held found same =>
    cases hwrites with
    | nothing => exact .patch found same
    | @new trace free own =>
      have hne : trace.callId ≠ id := fun heq => stored_of_found found (heq ▸ free)
      exact .patch ((fetch_record_other hne).trans found) same
    | @patched trace now found' same' =>
      by_cases heq : trace.callId = id
      · subst heq
        obtain rfl : held = now := by
          rw [found] at found'
          cases found'
          rfl
        exact .patch (fetch_record_self p sink trace) (same'.symm.trans same)
      · exact .patch ((fetch_record_other heq).trans found) same
  | done => exact .done

/-! ### One transaction -/

/-- A transaction that ends its call does what the call does alone; any other is a fetch. -/
theorem advance_served (hrecorded : sink.Recorded p) (h : Ready p sink call)
    (hadvance : call.advance p sink = some (stage, sink')) :
    Ready p sink' { call with stage } ∧ Writes p sink call.recording sink' ∧ (Call.mk call.op stage).recording = none ∧
      ((∃ reply, stage = .returned reply ∧ LmdbTraceSink.serve p sink call.op = (reply, sink')) ∨
        (∃ trace, stage = .fetched trace) ∧ sink' = sink) := by
  cases h with
  | record free =>
    cases hadvance
    exact ⟨.done, .new free rfl, rfl, .inl ⟨_, rfl, rfl⟩⟩
  | @fetch id =>
    simp only [Call.advance] at hadvance
    cases hfetch : sink.fetch p id with
    | ok found =>
      simp only [hfetch] at hadvance
      cases hadvance
      exact ⟨.done, .nothing, rfl, .inl ⟨_, rfl, by simp only [LmdbTraceSink.serve, hfetch]⟩⟩
    | error e =>
      simp only [hfetch] at hadvance
      cases hadvance
      exact ⟨.done, .nothing, rfl, .inl ⟨_, rfl, by simp only [LmdbTraceSink.serve, hfetch]⟩⟩
  | @update id output outputTokens =>
    simp only [Call.advance] at hadvance
    cases hfetch : sink.fetch p id with
    | ok found =>
      cases found with
      | none =>
        simp only [hfetch] at hadvance
        cases hadvance
        exact ⟨.done, .nothing, rfl, .inl ⟨_, rfl, by
          simp only [LmdbTraceSink.serve, LmdbTraceSink.updateOutput, hfetch, Loop.ok_bind]⟩⟩
      | some trace =>
        simp only [hfetch] at hadvance
        cases hadvance
        exact ⟨.patch hfetch (.refl _), .nothing, rfl, .inr ⟨⟨_, rfl⟩, rfl⟩⟩
    | error e =>
      simp only [hfetch] at hadvance
      cases hadvance
      refine ⟨.done, .nothing, rfl, .inl ⟨_, rfl, ?_⟩⟩
      simp only [LmdbTraceSink.serve, LmdbTraceSink.updateOutput, hfetch]
      rfl
  | @patch id output outputTokens trace now found same =>
    cases hadvance
    have hid : trace.callId = id := same.callId.symm.trans (callId_of_found hrecorded found)
    have hmine : sink.fetch p trace.callId = .ok (some now) := by
      rw [hid]
      exact found
    refine ⟨.done, .patched hmine (same.trans (sameCall_withOutput _ _ _)), rfl, .inl ⟨_, rfl, ?_⟩⟩
    simp only [LmdbTraceSink.serve, LmdbTraceSink.updateOutput, found, Loop.ok_bind]
    show (_, sink.record p { now with output := some output, outputTokens := some outputTokens }) = _
    rw [same]
  | done => cases hadvance

/-! ### Runs -/

/-- The replies so far are those of one call after the other, and every call is ready for its next transaction. -/
structure Sound (p : Postcard) (start : LmdbTraceSink) (st : State) : Prop where
  recorded : st.sink.Recorded p
  replies : (LmdbTraceSink.serve p).answers start (st.answered.map (·.1)) = st.answered.map (·.2)
  sink : (LmdbTraceSink.serve p).after start (st.answered.map (·.1)) = st.sink
  ready : ∀ {i : Nat} {call : Call}, st.calls[i]? = some call → Ready p st.sink call
  /-- No two calls are about to record one id. -/
  apart : ∀ {i j : Nat} {call other : Call}, st.calls[i]? = some call → st.calls[j]? = some other → i ≠ j →
    ∀ id, call.recording = some id → other.recording ≠ some id

theorem Sound.called {op : TraceOp} (h : Sound p start st) (hfresh : Fresh st (.call op)) :
    Sound p start { st with calls := st.calls ++ [⟨op, .asked⟩] } := by
  have hnew : ∀ {j : Nat} {other : Call}, st.calls[j]? = some other → ∀ id, other.recording = some id →
      (Call.mk op .asked).recording ≠ some id := by
    intro j other hother id hid
    cases op with
    | record trace =>
      intro heq
      exact hfresh.2 other (List.mem_of_getElem? hother) (hid.trans heq.symm)
    | _ => exact fun heq => by cases heq
  refine ⟨h.recorded, h.replies, h.sink, fun {i call} hcall => ?_, fun {i j call other} hcall hother hne id hid => ?_⟩
  · rcases Parties.getElem?_append_iff.mp hcall with hcall | ⟨-, rfl⟩
    · exact h.ready hcall
    · cases op with
      | record trace => exact .record hfresh.1
      | fetch id => exact .fetch
      | updateOutput id output outputTokens => exact .update
  · rcases Parties.getElem?_append_iff.mp hcall with hcall | ⟨hi, rfl⟩ <;>
      rcases Parties.getElem?_append_iff.mp hother with hother | ⟨hj, rfl⟩
    · exact h.apart hcall hother hne id hid
    · exact hnew hcall id hid
    · exact fun hid' => hnew hother id hid' hid
    · exact absurd (hi.trans hj.symm) hne

theorem Sound.advance {i : Nat} (h : Sound p start st) (hcall : st.calls[i]? = some call)
    (hadvance : call.advance p st.sink = some (stage, sink')) :
    Sound p start ⟨sink', st.calls.set i { call with stage }, st.answered ++ stage.answer call.op⟩ := by
  obtain ⟨hready, hwrites, hsettled, hserved⟩ := advance_served h.recorded (h.ready hcall) hadvance
  refine ⟨hwrites.recorded h.recorded, ?_, ?_, fun {j other} hother => ?_, fun {j k a b} ha hb hne id hid => ?_⟩
  · rcases hserved with ⟨reply, rfl, hserve⟩ | ⟨⟨trace, rfl⟩, -⟩
    · simp only [Stage.answer, List.map_append, Machine.answers_append, h.replies, h.sink, List.map_cons, List.map_nil,
        Machine.answers, hserve]
    · simpa only [Stage.answer, List.append_nil] using h.replies
  · rcases hserved with ⟨reply, rfl, hserve⟩ | ⟨⟨trace, rfl⟩, hsame⟩
    · simp only [Stage.answer, List.map_append, Machine.after_append, h.sink, List.map_cons, List.map_nil, Machine.after,
        hserve]
    · simpa only [Stage.answer, List.append_nil, hsame] using h.sink
  · rcases (Parties.getElem?_set_iff hcall).mp hother with ⟨-, rfl⟩ | ⟨hne, hother⟩
    · exact hready
    · exact (h.ready hother).keep hwrites fun id hid => h.apart hcall hother (Ne.symm hne) id hid
  · rcases (Parties.getElem?_set_iff hcall).mp ha with ⟨-, rfl⟩ | ⟨hja, ha⟩
    · rw [hsettled] at hid
      cases hid
    · rcases (Parties.getElem?_set_iff hcall).mp hb with ⟨-, rfl⟩ | ⟨hkb, hb⟩
      · rw [hsettled]
        exact fun heq => by cases heq
      · exact h.apart ha hb hne id hid

theorem Sound.step {a : Action} (h : Sound p start st) (hfresh : Fresh st a) (hstep : step p st a = some st') :
    Sound p start st' := by
  cases a with
  | call op =>
    cases hstep
    exact h.called hfresh
  | advance i =>
    obtain ⟨call, hcall, hstep⟩ := Option.bind_eq_some_iff.mp hstep
    obtain ⟨⟨stage, sink⟩, hadvance, hstep⟩ := Option.bind_eq_some_iff.mp hstep
    cases hstep
    exact h.advance hcall hadvance

/-- Where no id is recorded twice, calls that interleave answer what they answer one after the other, in the order of their
returns, and leave the same sink: each takes effect at once, also `update_output`, which takes two transactions. -/
theorem calls_atomic {as : List Action} (hstart : start.Recorded p) (h : Run (step p) Fresh ⟨start, [], []⟩ as st) :
    (LmdbTraceSink.serve p).answers start (st.answered.map (·.1)) = st.answered.map (·.2) ∧
      (LmdbTraceSink.serve p).after start (st.answered.map (·.1)) = st.sink := by
  have hsound : Sound p start st := h.invariant (P := Sound p start)
    ⟨hstart, rfl, rfl, fun hcall => by simp at hcall, fun hcall => by simp at hcall⟩ fun hsound hfresh hstep => hsound.step hfresh hstep
  exact ⟨hsound.replies, hsound.sink⟩

instance (st : State) : DecidablePred (Fresh st)
  | .call (.record _) => inferInstanceAs (Decidable (_ ∧ _))
  | .call (.fetch _) | .call (.updateOutput ..) | .advance _ => isTrue trivial

def sampleTrace : TraceRecord where
  callId := ⟨42⟩
  session := ⟨1⟩
  model := "gpt-4o"
  plan := ⟨[], [], [], .zero⟩
  promptTokens := .zero
  promptHash := sampleHash []
  startedAt := .zero
  durationMs := ⟨7, by decide⟩
  modelVersion := "gpt-4o"
  tokenizerVersion := "o200k_base"
  output := none
  outputTokens := none

/-- Two updates of one trace that both fetch before either writes. -/
def crossedUpdates : List Action :=
  [.call (.updateOutput ⟨42⟩ "a" .zero), .advance 0, .call (.record sampleTrace), .advance 1,
    .call (.updateOutput ⟨42⟩ "a" .zero), .call (.updateOutput ⟨42⟩ "b" .zero), .advance 2, .advance 3, .advance 3, .advance 2, .call (.fetch ⟨42⟩), .advance 4]

theorem calls_atomic_sample : ∃ st, Run (step .v1) Fresh ⟨.empty, [], []⟩ crossedUpdates st ∧ st.answered.length = 5 ∧
    (LmdbTraceSink.serve .v1).answers .empty (st.answered.map (·.1)) = st.answered.map (·.2) ∧
    (LmdbTraceSink.serve .v1).after .empty (st.answered.map (·.1)) = st.sink := by
  have hends : ((Run.exec (fun st a => if decide (Fresh st a) then step .v1 st a else none) ⟨.empty, [], []⟩
      crossedUpdates).map fun st => st.answered.length) = some 5 := by decide +kernel
  obtain ⟨st, hst, hlength⟩ := Option.map_eq_some_iff.mp hends
  have hrun : Run (step .v1) Fresh ⟨.empty, [], []⟩ crossedUpdates st := Run.of_exec (fun _ _ => of_decide_eq_true) hst
  exact ⟨st, hrun, hlength, calls_atomic LmdbTraceSink.recorded_empty hrun⟩

end SharedTraceSink
end Llm386
