import Llm386.Core.Page

/-! # The simple packer

`SimplePacker::pack` of `llm386-packer/src/simple.rs`: the selected blocks, grouped by section, rendered in
canonical order with headers, notes and timestamps, and the count of the rendered text checked against the input
budget. -/

namespace Llm386

/-- A block as it appears in the packed prompt. -/
structure PackedBlock where
  blockId : BlockId
  section_ : SectionKind
  tokens : TokenCount
  score : Float32

/-- The final prompt. -/
structure PackedPrompt where
  model : String
  inputTokens : TokenCount
  blocks : List PackedBlock
  rendered : String

inductive PackerError
  | budgetExceeded (tokens budget : TokenCount)
  | storage (e : StoreError)
  | tokenizer (e : TokenizerError)
deriving DecidableEq

/-- Prompt-cache knobs: the sections whose messages are emitted as the stable prefix of a chat. -/
structure CacheOptions where
  stableSections : List SectionKind

def CacheOptions.default : CacheOptions := ⟨[.system, .background]⟩

/-- Optional knobs. The cache options only matter to `pack_chat`. -/
structure PackerOptions where
  includeTimestamps : Bool
  nowMs : Option Timestamp
  cache : CacheOptions

def PackerOptions.default : PackerOptions := ⟨false, none, .default⟩

/-- The packer. `utf8Error` is what the standard library says of bytes that are not UTF-8. -/
structure SimplePacker where
  store : BlockStore
  tokenizer : Tokenizer
  options : PackerOptions
  utf8Error : Bytes → String

/-- Canonical render order. -/
def SECTION_ORDER : List SectionKind :=
  [.system, .task, .state, .plan, .retrieved, .tools, .recent, .background, .slack]

def sectionLabel : SectionKind → String
  | .system => "System"
  | .task => "Task"
  | .state => "State"
  | .plan => "Plan"
  | .retrieved => "Retrieved"
  | .tools => "Tools"
  | .recent => "Recent"
  | .background => "Background"
  | .slack => "Slack"

/-- `n` in decimal with at least `width` digits. -/
def padded (width n : Nat) : String :=
  let digits := Nat.toDigits 10 n
  String.ofList (List.replicate (width - digits.length) '0' ++ digits)

/-- A unix-ms timestamp as ISO 8601 UTC, by days-from-epoch arithmetic. -/
def formatIso8601Utc (msSinceEpoch : Timestamp) : String :=
  let secs := msSinceEpoch.val / 1000
  let days := secs / 86400
  let sOfDay := secs % 86400
  let hour := sOfDay / 3600
  let minute := sOfDay / 60 % 60
  let second := sOfDay % 60
  let z := days + 719468
  let era := z / 146097
  let doe := z - era * 146097
  let yoe := (doe - doe / 1460 + doe / 36524 - doe / 146096) / 365
  let y := yoe + era * 400
  let doy := doe - (365 * yoe + yoe / 4 - yoe / 100)
  let mp := (5 * doy + 2) / 153
  let day := doy - (153 * mp + 2) / 5 + 1
  let (month, year) := if mp < 10 then (mp + 3, y) else (mp - 9, y + 1)
  padded 4 year ++ "-" ++ padded 2 month ++ "-" ++ padded 2 day ++ "T" ++ padded 2 hour ++ ":" ++ padded 2 minute ++
    ":" ++ padded 2 second ++ "Z"

example : formatIso8601Utc ⟨1777980720000, by decide⟩ = "2026-05-05T11:32:00Z" := by decide +kernel

/-- The inline notes of a plan; of two notes for one block the later one is kept. -/
def collectNotes (plan : PagePlan) : List (BlockId × String) :=
  (plan.selections.filterMap fun s => s.note.map fun n => (s.blockId, n)).reverse

/-- A note marker on its own line. -/
def noteText : Option String → String
  | some note => "[!] " ++ note ++ "\n"
  | none => ""

def headerText (s : SectionKind) : String := "## " ++ sectionLabel s ++ "\n\n"

namespace SimplePacker
variable (k : SimplePacker)

/-- The anchor of the options, or the system clock. -/
def nowMs (clock : Timestamp) : Timestamp := k.options.nowMs.getD clock

def loadBlock (id : BlockId) : Except PackerError ContextBlock := do
  match ← (k.store.get id).mapError .storage with
  | some block => pure block
  | none => .error (.storage (.backend ("selected block " ++ id.display ++ " missing from store")))

/-- The blocks of a section in id order; the sort is stable. -/
def sectionBlocks (loaded : List ContextBlock) (s : SectionKind) : List ContextBlock :=
  (loaded.filter (·.kind.defaultSection = s)).insertionSort (·.id ≤ ·.id)

def blockText (block : ContextBlock) : Except PackerError String :=
  match String.fromUTF8? ⟨block.bytes.toArray⟩ with
  | some body => .ok body
  | none => .error (.storage (.backend ("non-utf8 block " ++ block.id.display ++ ": " ++ k.utf8Error block.bytes)))

/-- What stands before the body of a block. -/
def blockPrefix (notes : List (BlockId × String)) (block : ContextBlock) : String :=
  noteText (notes.lookup block.id) ++
    if k.options.includeTimestamps then "[" ++ formatIso8601Utc block.createdAt ++ "] " else ""

/-- What stands before the task. -/
def taskPrefix (clock : Timestamp) : String :=
  headerText .task ++
    if k.options.includeTimestamps then "Current time: " ++ formatIso8601Utc (k.nowMs clock) ++ "\n\n" else ""

/-- The text so far and the manifest so far. -/
abbrev Rendered := String × List PackedBlock

def packBlock (notes : List (BlockId × String)) (s : SectionKind) (acc : Rendered) (block : ContextBlock) :
    Except PackerError Rendered := do
  let body ← k.blockText block
  let tokens ← (k.tokenizer.count block.bytes).mapError .tokenizer
  pure (acc.1 ++ (k.blockPrefix notes block ++ body ++ "\n\n"),
    acc.2 ++ [{ blockId := block.id, section_ := s, tokens, score := 0 }])

/-- The slack is never emitted, the task comes from the request. -/
def packSection (clock : Timestamp) (task : String) (loaded : List ContextBlock) (notes : List (BlockId × String))
    (acc : Rendered) (s : SectionKind) : Except PackerError Rendered :=
  match s with
  | .slack => .ok acc
  | .task => .ok (if task.isEmpty then acc else (acc.1 ++ (k.taskPrefix clock ++ task ++ "\n\n"), acc.2))
  | s =>
    let blocks := sectionBlocks loaded s
    if blocks.isEmpty then .ok acc
    else blocks.foldlM (k.packBlock notes s) (acc.1 ++ headerText s, acc.2)

def pack (clock : Timestamp) (request : PageRequest) (plan : PagePlan) : Except PackerError PackedPrompt := do
  let loaded ← plan.selected.mapM k.loadBlock
  let (rendered, blocks) ← SECTION_ORDER.foldlM (k.packSection clock request.task loaded (collectNotes plan)) ("", [])
  let total ← (k.tokenizer.count (asBytes rendered)).mapError .tokenizer
  if request.model.inputBudget < total then
    .error (.budgetExceeded total request.model.inputBudget)
  else
    pure { model := request.model.name, inputTokens := total, blocks, rendered }

end SimplePacker

end Llm386
