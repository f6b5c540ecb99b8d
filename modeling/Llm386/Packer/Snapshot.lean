import Llm386.Lmdb.Footprint
import Llm386.Packer.Simple
import Llm386.Pager.Retrievers

/-! # A pack call among writers

`page` and then `pack`, each read a transaction of its own, while other clients write to the LMDB store between any
two reads. The call has no snapshot of its own: its outcome is that of the store at its start where no write touches what
the call has still to read, and may be another where one does. -/

namespace Llm386

/-! ### The packer, read by read -/

/-- The packer without the state of its store. -/
structure ReadingPacker where
  tokenizer : Tokenizer
  options : PackerOptions
  utf8Error : Bytes → String

namespace ReadingPacker

/-- The packer on a store that does not change. -/
def on (k : ReadingPacker) (store : BlockStore) : SimplePacker := ⟨store, k.tokenizer, k.options, k.utf8Error⟩

variable (k : ReadingPacker)

/-- The packer between two reads. -/
def offline : SimplePacker := k.on .closed

def loadBlock (id : BlockId) : StoreReads PackerError ContextBlock := do
  match ← readStore .storage (.get id) with
  | some block => pure block
  | none => .done (.error (.storage (.backend ("selected block " ++ id.display ++ " missing from store"))))

/-- `SimplePacker::pack`, read by read: it loads every block first. -/
def pack (clock : Timestamp) (request : PageRequest) (plan : PagePlan) : StoreReads PackerError PackedPrompt := do
  let loaded ← plan.selected.mapM loadBlock
  .done (do
    let (rendered, blocks) ←
      SECTION_ORDER.foldlM (k.offline.packSection clock request.task loaded (collectNotes plan)) ("", [])
    let total ← (k.tokenizer.count (asBytes rendered)).mapError .tokenizer
    if request.model.inputBudget < total then
      .error (.budgetExceeded total request.model.inputBudget)
    else
      pure { model := request.model.name, inputTokens := total, blocks, rendered })

variable {k} {store : BlockStore}

theorem answered_loadBlock (id : BlockId) : (loadBlock id).answered store.answer = (k.on store).loadBlock id := by
  unfold loadBlock SimplePacker.loadBlock
  rw [Reads.answered_bind]
  refine bind_congr fun found => ?_
  cases found <;> rfl

/-- On a store that does not change, the program is `SimplePacker::pack`. -/
theorem answered_pack (clock : Timestamp) (request : PageRequest) (plan : PagePlan) :
    (k.pack clock request plan).answered store.answer = (k.on store).pack clock request plan := by
  unfold pack SimplePacker.pack
  rw [Reads.answered_bind, Reads.answered_mapM answered_loadBlock]
  rfl

end ReadingPacker

/-! ### The call -/

inductive CallError
  | pager (e : PagerError)
  | packer (e : PackerError)
deriving DecidableEq

/-- `page` and then `pack` of its plan, on a store that does not change. -/
def packCall (p : GreedyPager) (k : SimplePacker) (order : HashOrder) (clock : Timestamp) (request : PageRequest) :
    Except CallError PackedPrompt := do
  let plan ← (p.page order request).mapError .pager
  (k.pack clock request plan).mapError .packer

/-- The call, read by read. -/
def packReads (r : ReadingPager) (k : ReadingPacker) (order : HashOrder) (clock : Timestamp) (request : PageRequest) :
    StoreReads CallError PackedPrompt := do
  let plan ← (r.page order request).mapError .pager
  (k.pack clock request plan).mapError .packer

theorem answered_packReads (r : ReadingPager) (k : ReadingPacker) (order : HashOrder) (clock : Timestamp)
    (request : PageRequest) (store : BlockStore) :
    (packReads r k order clock request).answered store.answer =
      packCall (r.on store) (k.on store) order clock request := by
  unfold packReads packCall
  rw [Reads.answered_bind, Reads.answered_mapError, ReadingPager.answered_page]
  refine bind_congr fun plan => ?_
  rw [Reads.answered_mapError, ReadingPacker.answered_pack]

/-- `RecencyRetriever`, read by read. -/
def recencyReads : ReadingRetriever := fun session _ limit => do
  let ids ← readStore storeErr (.listSession session)
  if ids.isEmpty then
    pure []
  else
    let minTs := ids.foldl (fun m id => min m id.timestampMs) (2 ^ 64 - 1)
    let maxTs := ids.foldl (fun m id => max m id.timestampMs) 0
    let cands : List RetrievalCandidate := ids.map fun id => { blockId := id, score := recencyScore minTs maxTs id }
    let sorted := cands.insertionSort fun a b => (partialCmp b.score a.score).getD .eq ≠ .gt
    pure (sorted.take limit)

/-- `GreedyPager::new`, read by read. -/
def ReadingPager.new (tokenizer : Tokenizer) (toLowercase : String → String) (sort : Sorting.SliceSort Candidate) :
    ReadingPager :=
  ⟨tokenizer, .default, .default, [recencyReads], toLowercase, sort⟩

theorem ReadingPager.new_on (tokenizer : Tokenizer) (toLowercase : String → String) (sort : Sorting.SliceSort Candidate)
    (store : BlockStore) :
    (ReadingPager.new tokenizer toLowercase sort).on store = GreedyPager.new store tokenizer toLowercase sort := by
  have hrecency : (fun session task limit => (recencyReads session task limit).answered store.answer) =
      recencyRetriever store := by
    funext session task limit
    unfold recencyReads recencyRetriever
    rw [Reads.answered_bind]
    refine bind_congr fun ids => ?_
    rw [Reads.answered_ite]
    rfl
  simp only [ReadingPager.new, ReadingPager.on, GreedyPager.new, List.map_cons, List.map_nil, hrecency]

/-! ### Among writers -/

/-- A store that other clients write to. -/
abbrev SharedStore := {st : LmdbStore // LmdbStore.Ran st}

namespace SharedStore

def reads (s : SharedStore) : BlockStore := s.1.blockStore s.2

/-- The store after a write is committed. -/
def commit (s : SharedStore) (op : LmdbStore.WriteOp) : Option SharedStore :=
  match h : s.1.exec op with
  | .ok st => some ⟨st, s.2.step h⟩
  | .error _ => none

end SharedStore

/-- The steps of a call among writers: its next read, or a write of another client. -/
abbrev callStep := Reads.step (ε := CallError) (α := PackedPrompt) (fun s : SharedStore => s.reads.answer) SharedStore.commit

/-- No write touches what the call has still to read. -/
abbrev CallUntouched := Reads.Untouched (ε := CallError) (α := PackedPrompt) (fun s : SharedStore => s.reads.answer)
  fun s op q => s.1.Touches op q

/-- A write leaves every read that it does not touch. -/
theorem SharedStore.commit_frame {s s' : SharedStore} {op : LmdbStore.WriteOp} {q : Query} (h : s.commit op = some s')
    (huntouched : ¬s.1.Touches op q) : s'.reads.answer q = s.reads.answer q := by
  obtain ⟨st, hran⟩ := s
  unfold SharedStore.commit at h
  split at h
  · rename_i st' hexec
    cases h
    simp only [SharedStore.reads, LmdbStore.blockStore_answer]
    exact (hran.answer_eq_iff hexec q).mpr huntouched
  · cases h

/-- Whatever other clients write in between, if no write touches what the call has still to read, the call has the
outcome it has alone on the store as it was at the start. -/
theorem packCall_undisturbed {r : ReadingPager} {k : ReadingPacker} {order : HashOrder} {clock : Timestamp}
    {request : PageRequest} {s s' : SharedStore} {acts : List (Option LmdbStore.WriteOp)}
    {outcome : Except CallError PackedPrompt}
    (h : Run callStep CallUntouched (s, packReads r k order clock request) acts (s', .done outcome)) :
    outcome = packCall (r.on s.reads) (k.on s.reads) order clock request := by
  rw [← answered_packReads]
  exact (Reads.answered_of_untouched h SharedStore.commit_frame).symm

/-! ### A block deleted before it is packed -/

/-- Block 7 in session 1, block 8 in session 2. -/
def twoNotes : SharedStore :=
  ⟨.storeAfter [.put ⟨1⟩ (sampleBlock ⟨7⟩ .fact [0x61] []), .put ⟨2⟩ (sampleBlock ⟨8⟩ .fact [0x62] [])],
    (LmdbStore.storeAfter_reachable (by decide +kernel)).ran⟩

def notesPager : ReadingPager := .new byteTokenizer (fun s => s) .insertion

def notesPacker : ReadingPacker := ⟨byteTokenizer, .default, fun _ => ""⟩

def notesRequest : PageRequest := ⟨⟨1⟩, "", ⟨"model", ⟨70, by decide⟩, .zero, .zero, "bytes", true⟩, []⟩

def notesReads : StoreReads CallError PackedPrompt :=
  packReads notesPager notesPacker .canonical .zero notesRequest

/-- The error of a call that has failed, or the text of one that has succeeded. -/
def verdict : StoreReads CallError PackedPrompt → Option (CallError ⊕ String)
  | .done (.ok prompt) => some (.inr prompt.rendered)
  | .done (.error e) => some (.inl e)
  | .ask _ _ => none

theorem done_of_verdict_inl {x : StoreReads CallError PackedPrompt} {e : CallError} (h : verdict x = some (.inl e)) :
    x = .done (.error e) := by
  unfold verdict at h
  split at h <;> cases h
  rfl

theorem done_of_verdict_inr {x : StoreReads CallError PackedPrompt} {text : String}
    (h : verdict x = some (.inr text)) : ∃ prompt, x = .done (.ok prompt) ∧ prompt.rendered = text := by
  unfold verdict at h
  split at h <;> cases h
  exact ⟨_, rfl, rfl⟩

/-- The call selects block 7; another client deletes it before the packer reads it again. -/
theorem packCall_loses_block :
    (∃ prompt, packCall (notesPager.on twoNotes.reads) (notesPacker.on twoNotes.reads) .canonical ⟨0, by decide⟩
      notesRequest = .ok prompt) ∧
    ∃ s' outcome, Run callStep (fun _ _ => True) (twoNotes, notesReads)
        [none, none, none, none, none, some (.delete ⟨7⟩), none] (s', .done outcome) ∧
      outcome = .error (.packer (.storage (.backend
        "selected block 00000000000000000000000000000007 missing from store"))) := by
  constructor
  · have hrun : ((packCall (notesPager.on twoNotes.reads) (notesPacker.on twoNotes.reads) .canonical ⟨0, by decide⟩
        notesRequest).toOption.map (·.rendered)) = some "## Retrieved\n\na\n\n" := by decide +kernel
    obtain ⟨prompt, hprompt, -⟩ := Option.map_eq_some_iff.mp hrun
    exact ⟨prompt, Loop.toOption_eq_some.mp hprompt⟩
  · have hrun : (Run.exec (fun t act => if true then callStep t act else none) (twoNotes, notesReads)
        [none, none, none, none, none, some (.delete ⟨7⟩), none]).bind (fun t => verdict t.2) =
        some (.inl (.packer (.storage (.backend
          "selected block 00000000000000000000000000000007 missing from store")))) := by decide +kernel
    obtain ⟨⟨s', x⟩, hexec, hverdict⟩ := Option.bind_eq_some_iff.mp hrun
    obtain rfl := done_of_verdict_inl hverdict
    exact ⟨s', _, Run.of_exec (fun _ _ _ => trivial) hexec, rfl⟩

/-! ### Writes beside the call -/

/-- Other clients use session 2 during the call, and delete block 7 after its last read. -/
theorem packCall_undisturbed_sample : ∃ s' prompt, Run callStep CallUntouched (twoNotes, notesReads)
      [none, some (.put ⟨2⟩ (sampleBlock ⟨9⟩ .fact [0x63] [])), none, some (.putEdge ⟨⟨9⟩, ⟨8⟩, .supports⟩), none,
        some (.delete ⟨8⟩), none, none, some (.purgeSession ⟨2⟩), none, some (.delete ⟨7⟩)] (s', .done (.ok prompt)) ∧
    prompt.rendered = "## Retrieved\n\na\n\n" ∧
    .ok prompt = packCall (notesPager.on twoNotes.reads) (notesPacker.on twoNotes.reads) .canonical ⟨0, by decide⟩
      notesRequest := by
  have hrun : (Run.exec (fun t act => if decide (CallUntouched t act) then callStep t act else none)
      (twoNotes, notesReads)
      [none, some (.put ⟨2⟩ (sampleBlock ⟨9⟩ .fact [0x63] [])), none, some (.putEdge ⟨⟨9⟩, ⟨8⟩, .supports⟩), none,
        some (.delete ⟨8⟩), none, none, some (.purgeSession ⟨2⟩), none, some (.delete ⟨7⟩)]).bind
          (fun t => verdict t.2) = some (.inr "## Retrieved\n\na\n\n") := by decide +kernel
  obtain ⟨⟨s', x⟩, hexec, hverdict⟩ := Option.bind_eq_some_iff.mp hrun
  obtain ⟨prompt, rfl, hrendered⟩ := done_of_verdict_inr hverdict
  have huntouched := Run.of_exec (fun _ _ => of_decide_eq_true) hexec
  exact ⟨s', prompt, huntouched, hrendered, packCall_undisturbed huntouched⟩

end Llm386
