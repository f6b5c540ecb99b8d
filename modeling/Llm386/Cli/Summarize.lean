import Llm386.Core.Text
import Llm386.Lmdb.Invariant

/-! # Summaries from the command line

`summarize` of `llm386-cli/src/commands.rs` on an LMDB store, with the truncating summarizer of `llm386-compress`.
The summary is stored under the hash of its text, so a block that is stored with that text already, whatever its kind
and its parents, takes its place. -/

namespace Llm386
open LmdbStore

/-! ### Summarizers -/

inductive SummarizerError
  | failed (message : String)
deriving DecidableEq

structure Summarizer where
  name : String
  summarize : List ContextBlock → Except SummarizerError String

def kindLabel : BlockKind → String
  | .system => "system"
  | .userMessage => "user"
  | .assistantMessage => "assistant"
  | .toolResult => "tool"
  | .summary => "summary"
  | .fact => "fact"
  | .documentChunk => "document"
  | .plan => "plan"
  | .state => "state"
  | .trace => "trace"

/-- `str::split_whitespace`. -/
def splitWhitespace (text : String) : List (List Char) := (text.toList.splitOnP isWhitespace).filter (· ≠ [])

/-- One bullet: the words of a text on a line, cut after `maxChars` characters. -/
def bullet (maxChars : Nat) (kind : BlockKind) (text : String) : String :=
  let oneline := [' '].intercalate (splitWhitespace text)
  let truncated := if oneline.length > maxChars then oneline.take maxChars ++ ['…'] else oneline
  "- " ++ kindLabel kind ++ ": " ++ String.ofList truncated ++ "\n"

/-- `utf8Error` is the text of a `Utf8Error`. -/
def truncatingSummarizer (utf8Error : Bytes → String) (maxChars : Nat) : Summarizer where
  name := "truncating"
  summarize blocks := blocks.foldlM (fun out block =>
    match String.fromUTF8? ⟨block.bytes.toArray⟩ with
    | none => .error (.failed ("non-utf8 block: " ++ utf8Error block.bytes))
    | some text => .ok (out ++ bullet maxChars block.kind text)) ""

/-! ### The command -/

structure SummarizeArgs where
  session : SessionId
  last : Option Nat
  storeSummary : Bool

inductive SummarizeError
  | store (e : StoreError)
  | summarizer (e : SummarizerError)

/-- What the command prints, the id it stores under, and the store it leaves. -/
structure Summarized where
  text : String
  stored : Option BlockId
  store : LmdbStore

/-- The blocks of the session in the order of their ids, or the last `n` of them. -/
def summarizedIds (st : LmdbStore) (session : SessionId) (last : Option Nat) : Except StoreError (List BlockId) := do
  let ids ← st.listSession session
  let ids := ids.insertionSort (· ≤ ·)
  pure (match last with
    | some n => ids.drop (ids.length - n)
    | none => ids)

def summaryBlock (contentHashOf : Bytes → ContentHash) (name : String) (now : Timestamp) (newId : BlockId)
    (ids : List BlockId) (text : String) : ContextBlock where
  id := newId
  kind := .summary
  bytes := asBytes text
  tokenCounts := ∅
  priority := 0
  createdAt := now
  updatedAt := now
  provenance := { source := some ("summarize:" ++ name), parents := ids, labels := [] }
  hash := contentHashOf (asBytes text)

def summarize (contentHashOf : Bytes → ContentHash) (st : LmdbStore) (args : SummarizeArgs) (summarizer : Summarizer)
    (now : Timestamp) (newId : BlockId) : Except SummarizeError Summarized := do
  let ids ← (summarizedIds st args.session args.last).mapError .store
  let blocks := ids.filterMap st.get
  let text ← (summarizer.summarize blocks).mapError .summarizer
  if args.storeSummary then
    let (stored, st') ← (st.put args.session
      (summaryBlock contentHashOf summarizer.name now newId ids text)).mapError .store
    pure ⟨text, some stored, st'⟩
  else pure ⟨text, none, st⟩

/-! ### What is linked -/

/-- A summary of exactly these blocks with that text. -/
structure IsSummaryOf (text : Bytes) (ids : List BlockId) (b : ContextBlock) : Prop where
  kind : b.kind = .summary
  bytes : b.bytes = text
  parents : b.provenance.parents = ids

/-- The session lists a summary of exactly these blocks. -/
def Linked (st : LmdbStore) (session : SessionId) (text : Bytes) (ids : List BlockId) : Prop :=
  ∃ listed, st.listSession session = .ok listed ∧
    ∃ id ∈ listed, ∃ b, st.get id = some b ∧ IsSummaryOf text ids b

/-- No block has the hash of the text, unless it is a summary of exactly these blocks with that text. -/
def Unclaimed (contentHashOf : Bytes → ContentHash) (st : LmdbStore) (text : Bytes) (ids : List BlockId) : Prop :=
  ∀ id b, st.get id = some b → b.hash = contentHashOf text → IsSummaryOf text ids b

variable {contentHashOf : Bytes → ContentHash} {st st' : LmdbStore} {session : SessionId} {text : Bytes}
  {ids : List BlockId} {id : BlockId} {b : ContextBlock}

theorem linked_of_listed {c : Contents} (h : st.IndexedBy c) (hid : id ∈ c.lists session)
    (hb : st.get id = some b) (hsummary : IsSummaryOf text ids b) : Linked st session text ids := by
  obtain ⟨listed, hlisted, hlisting⟩ := h.listSession_eq session
  exact ⟨listed, hlisted, id, hlisting.mem.mpr hid, b, hb, hsummary⟩

/-- A put of a summary links it exactly where its text is not taken. -/
theorem put_linked_iff (h : Reachable contentHashOf st) (hb : IsSummaryOf text ids b)
    (hhash : b.hash = contentHashOf text) (hput : st.put session b = .ok (id, st')) :
    Linked st' session text ids ↔ Unclaimed contentHashOf st text ids := by
  obtain ⟨c, hc, hashed⟩ := h.represents
  by_cases held : ∃ x, c.Holds x b.hash
  · obtain ⟨x, hx⟩ := held
    obtain ⟨u, hu, hshared⟩ := hc.put_held session hx
    rw [hput] at hu
    cases hu
    obtain ⟨a, ha, hahash⟩ := hx
    constructor
    · rintro ⟨listed, -, y, -, b', hb', hsummary⟩ z a' ha' hahash'
      rw [hshared.get_eq] at hb'
      rw [hc.get_eq] at ha'
      have hhash' : b'.hash = contentHashOf text := by rw [← hashed y b' hb', hsummary.bytes]
      obtain rfl : z = y := hc.hash_inj ⟨a', ha', hahash'⟩ ⟨b', hb', hhash'⟩
      rwa [Option.some.inj (ha'.symm.trans hb')]
    · intro hunclaimed
      refine linked_of_listed hshared.indexed (.inr ⟨rfl, rfl⟩) ((hshared.get_eq id).trans ha) ?_
      exact hunclaimed id a ((hc.get_eq id).trans ha) (hahash.trans hhash)
  · have new := not_exists.mp held
    rw [put_of_unindexed (hc.hash_eq_none.mpr new)] at hput
    cases hput
    constructor
    · intro _ z a ha hahash
      rw [hc.get_eq] at ha
      exact absurd ⟨a, ha, hahash.trans hhash.symm⟩ (new z)
    · intro _
      have hshared := hc.indexed.session_insert session b.id
      exact linked_of_listed ⟨hshared, hc.edges_from, hc.edges_to⟩ (.inr ⟨rfl, rfl⟩)
        Std.ExtTreeMap.getElem?_insert_self hb

/-- What the command stores is the summary block, put into the session. -/
theorem summarize_stores {args : SummarizeArgs} {summarizer : Summarizer} {now : Timestamp} {newId : BlockId}
    {out : Summarized} {text : String} (hstore : args.storeSummary = true)
    (hids : summarizedIds st args.session args.last = .ok ids)
    (htext : summarizer.summarize (ids.filterMap st.get) = .ok text)
    (hrun : summarize contentHashOf st args summarizer now newId = .ok out) :
    out.text = text ∧ ∃ id, out.stored = some id ∧
      st.put args.session (summaryBlock contentHashOf summarizer.name now newId ids text) = .ok (id, out.store) := by
  obtain ⟨ids', hids', hrun⟩ := Loop.bind_eq_ok.mp hrun
  rw [hids] at hids'
  cases hids'
  obtain ⟨text', htext', hrun⟩ := Loop.bind_eq_ok.mp hrun
  rw [htext] at htext'
  cases htext'
  rw [if_pos hstore] at hrun
  obtain ⟨⟨id, st'⟩, hput, hrun⟩ := Loop.bind_eq_ok.mp hrun
  cases hrun
  exact ⟨rfl, id, rfl, Loop.mapError_eq_ok.mp hput⟩

/-- Where the summary is stored, it is linked to what it summarises exactly where its text is not taken. -/
theorem summary_linked_iff {args : SummarizeArgs} {summarizer : Summarizer} {now : Timestamp} {newId : BlockId}
    {out : Summarized} {text : String} (h : Reachable contentHashOf st) (hstore : args.storeSummary = true)
    (hids : summarizedIds st args.session args.last = .ok ids)
    (htext : summarizer.summarize (ids.filterMap st.get) = .ok text)
    (hrun : summarize contentHashOf st args summarizer now newId = .ok out) :
    out.text = text ∧
    (Linked out.store args.session (asBytes text) ids ↔ Unclaimed contentHashOf st (asBytes text) ids) := by
  obtain ⟨hout, id, -, hput⟩ := summarize_stores hstore hids htext hrun
  exact ⟨hout, put_linked_iff h ⟨rfl, rfl, rfl⟩ rfl hput⟩

/-! ### Two texts with one bullet -/

/-- blake3 of the bodies below. -/
def bulletHash (bytes : Bytes) : ContentHash :=
  if bytes = [0x61, 0x0A] then
    ⟨BigEndian.encode 32 0x81c4b7f7e0549f1514e9cae97cf40cf133920418d3dc71bedbf60ec9bd6148cb, by simp⟩
  else if bytes = asBytes "- fact: a\n" then
    ⟨BigEndian.encode 32 0x4bb791d0c4079081720488c451a32a7a9622607a0090190145f63eb0b12d4d1f, by simp⟩
  else sampleHash bytes

/-- Session 1 with the fact `a` and its summary, and session 2 with the same fact and a line break after it. -/
def bulletOps : List WriteOp :=
  [.put ⟨1⟩ (sampleBlock ⟨7⟩ .fact [0x61] []),
    .put ⟨2⟩ { sampleBlock ⟨8⟩ .fact [0x61, 0x0A] [] with hash := bulletHash [0x61, 0x0A] },
    .put ⟨1⟩ (summaryBlock bulletHash "truncating" .zero ⟨9⟩ [⟨7⟩] "- fact: a\n")]

def bulletStore : LmdbStore := (empty.run bulletHash bulletOps).getD empty

theorem bulletStore_reachable : Reachable bulletHash bulletStore := .of_run (by decide +kernel)

/-- The summary of session 2, as the command leaves it. -/
def bulletSummary : Except SummarizeError Summarized :=
  summarize bulletHash bulletStore ⟨⟨2⟩, none, true⟩ (truncatingSummarizer (fun _ => "") 80) .zero ⟨10⟩

theorem bulletIds : summarizedIds bulletStore ⟨2⟩ none = .ok [⟨8⟩] := by decide +kernel

theorem bulletText : (truncatingSummarizer (fun _ => "") 80).summarize ([⟨8⟩].filterMap bulletStore.get) =
    .ok "- fact: a\n" := by decide +kernel

theorem bulletStored : bulletSummary.toOption.map (·.stored) = some (some ⟨9⟩) := by decide +kernel

theorem bulletSummary_ok : ∃ out, bulletSummary = .ok out ∧ out.stored = some ⟨9⟩ := by
  obtain ⟨out, hout, hid⟩ := Option.map_eq_some_iff.mp bulletStored
  exact ⟨out, Loop.toOption_eq_some.mp hout, hid⟩

/-- The bullet of session 2 is stored already, as the summary of the block of session 1. -/
theorem summary_taken : Reachable bulletHash bulletStore ∧ summarizedIds bulletStore ⟨2⟩ none = .ok [⟨8⟩] ∧
    ∃ out, bulletSummary = .ok out ∧ out.text = "- fact: a\n" ∧ out.stored = some ⟨9⟩ ∧
      ¬Linked out.store ⟨2⟩ (asBytes out.text) [⟨8⟩] := by
  obtain ⟨out, hout, hid⟩ := bulletSummary_ok
  refine ⟨bulletStore_reachable, bulletIds, out, hout, ?_⟩
  obtain ⟨htext, id, -, hput⟩ := summarize_stores rfl bulletIds bulletText hout
  refine ⟨htext, hid, fun hlinked => ?_⟩
  rw [htext] at hlinked
  have hunclaimed := (put_linked_iff bulletStore_reachable ⟨rfl, rfl, rfl⟩ rfl hput).mp hlinked
  obtain ⟨b, hb, hhash, hparents⟩ : ∃ b, bulletStore.get ⟨9⟩ = some b ∧ b.hash = bulletHash (asBytes "- fact: a\n") ∧
      b.provenance.parents = [⟨7⟩] := by
    have hget : (bulletStore.get ⟨9⟩).map (fun b => (b.hash, b.provenance.parents)) =
        some (bulletHash (asBytes "- fact: a\n"), [⟨7⟩]) := by decide +kernel
    obtain ⟨b, hb, heq⟩ := Option.map_eq_some_iff.mp hget
    exact ⟨b, hb, congrArg Prod.fst heq, congrArg Prod.snd heq⟩
  have hother := (hunclaimed ⟨9⟩ b hb hhash).parents
  rw [hparents] at hother
  exact absurd hother (by decide)

theorem summary_linked_iff_sample : ∃ out, bulletSummary = .ok out ∧ out.text = "- fact: a\n" ∧
    (Linked out.store ⟨2⟩ (asBytes "- fact: a\n") [⟨8⟩] ↔
      Unclaimed bulletHash bulletStore (asBytes "- fact: a\n") [⟨8⟩]) := by
  obtain ⟨out, hout, -⟩ := bulletSummary_ok
  exact ⟨out, hout, summary_linked_iff bulletStore_reachable rfl bulletIds bulletText hout⟩

end Llm386
