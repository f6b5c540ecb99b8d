import Llm386.Lib.Loop
import Llm386.Lib.Sorting
import Llm386.Packer.Simple

/-! # Chat prompts

`SimplePacker::pack_chat` of `llm386-packer/src/simple.rs`: the selected blocks as role-tagged messages, the
messages of the stable system-side sections first, and the index of the last of these as the cache boundary. -/

namespace Llm386

inductive ChatRole
  | system | user | assistant | tool
deriving DecidableEq

/-- One role-tagged message. -/
structure ChatMessage where
  role : ChatRole
  content : String
  /-- The section the message comes from. -/
  section_ : Option SectionKind
deriving DecidableEq

structure ChatPrompt where
  model : String
  inputTokens : TokenCount
  messages : List ChatMessage
  /-- Index of the last message of the stable prefix. -/
  cacheBoundary : Option Nat

/-- The sections that are sent as one system message each, in canonical order. -/
def SYSTEM_SIDE : List SectionKind := [.system, .state, .plan, .retrieved, .background]

/-- `usize::checked_sub`. -/
def checkedSub (a b : Nat) : Option Nat := if b ≤ a then some (a - b) else none

namespace SimplePacker
variable (k : SimplePacker)

/-- The system-side sections that are stable. -/
def stableSides : List SectionKind := SYSTEM_SIDE.filter (k.options.cache.stableSections.contains ·)

/-- The stable sections, then the rest. -/
def orderedSides : List SectionKind :=
  k.stableSides ++ SYSTEM_SIDE.filter (!k.options.cache.stableSections.contains ·)

def systemBody (notes : List (BlockId × String)) (block : ContextBlock) : Except PackerError String := do
  let body ← k.blockText block
  pure (k.blockPrefix notes block ++ body ++ "\n\n")

/-- The message of a system-side section. -/
def systemMessage (role : ChatRole) (notes : List (BlockId × String)) (s : SectionKind) (blocks : List ContextBlock) :
    Except PackerError ChatMessage := do
  let bodies ← blocks.mapM (k.systemBody notes)
  pure { role, content := trimEnd (headerText s ++ String.join bodies), section_ := some s }

/-- The messages so far, how many of them are stable, and whether all are. -/
structure SystemSide where
  messages : List ChatMessage
  stableMessageCount : Nat
  stillInStablePrefix : Bool

def packSide (role : ChatRole) (loaded : List ContextBlock) (notes : List (BlockId × String)) (st : SystemSide)
    (s : SectionKind) : Except PackerError SystemSide :=
  let blocks := sectionBlocks loaded s
  if blocks.isEmpty then .ok st
  else do
    let message ← k.systemMessage role notes s blocks
    if st.stillInStablePrefix && k.options.cache.stableSections.contains s then
      pure ⟨st.messages ++ [message], st.stableMessageCount + 1, st.stillInStablePrefix⟩
    else
      pure ⟨st.messages ++ [message], st.stableMessageCount, false⟩

/-- The time a block was created, in front of its body. -/
def stampText (block : ContextBlock) : String :=
  if k.options.includeTimestamps then "[" ++ formatIso8601Utc block.createdAt ++ "] " else ""

/-- The assistant's own messages carry no time, so that the model does not learn to write one. -/
def recentMessage (notes : List (BlockId × String)) (block : ContextBlock) : Except PackerError ChatMessage := do
  let body ← k.blockText block
  let role : ChatRole := if block.kind = .assistantMessage then .assistant else .user
  let content := if role = .assistant then body else k.stampText block ++ body
  pure { role, content := noteText (notes.lookup block.id) ++ content, section_ := some .recent }

def toolMessage (notes : List (BlockId × String)) (block : ContextBlock) : Except PackerError ChatMessage := do
  let body ← k.blockText block
  pure { role := .tool, content := noteText (notes.lookup block.id) ++ (k.stampText block ++ body), section_ := some .tools }

def taskMessages (clock : Timestamp) (task : String) : List ChatMessage :=
  if task.isEmpty then []
  else
    let anchor := if k.options.includeTimestamps then "Current time: " ++ formatIso8601Utc (k.nowMs clock) ++ "\n\n" else ""
    [{ role := .user, content := anchor ++ task, section_ := some .task }]

/-- The tokens of all message contents. -/
def countMessages (messages : List ChatMessage) : Except PackerError TokenCount :=
  messages.foldlM (fun total m => do
    let tokens ← (k.tokenizer.count (asBytes m.content)).mapError .tokenizer
    pure (total.saturatingAdd tokens)) .zero

def packChat (clock : Timestamp) (request : PageRequest) (plan : PagePlan) : Except PackerError ChatPrompt := do
  let loaded ← plan.selected.mapM k.loadBlock
  let notes := collectNotes plan
  let role : ChatRole := if request.model.supportsSystemRole then .system else .user
  let sides ← k.orderedSides.foldlM (k.packSide role loaded notes) ⟨[], 0, true⟩
  let recent ← (sectionBlocks loaded .recent).mapM (k.recentMessage notes)
  let tools ← (sectionBlocks loaded .tools).mapM (k.toolMessage notes)
  let messages := sides.messages ++ recent ++ tools ++ k.taskMessages clock request.task
  let total ← k.countMessages messages
  if request.model.inputBudget < total then
    .error (.budgetExceeded total request.model.inputBudget)
  else
    pure { model := request.model.name, inputTokens := total, messages,
           cacheBoundary := checkedSub sides.stableMessageCount 1 }

/-! ### The stable prefix -/

variable {k} {role : ChatRole} {loaded : List ContextBlock} {notes : List (BlockId × String)} {l : List SectionKind}
  {st st' : SystemSide} {clock : Timestamp} {request : PageRequest} {plan : PagePlan} {chat : ChatPrompt}

/-- The messages of the sections of `l` that have blocks. -/
def sideMessages (k : SimplePacker) (role : ChatRole) (loaded : List ContextBlock) (notes : List (BlockId × String))
    (l : List SectionKind) : Except PackerError (List ChatMessage) :=
  (l.filter fun s => !(sectionBlocks loaded s).isEmpty).mapM fun s =>
    k.systemMessage role notes s (sectionBlocks loaded s)

/-- A section without blocks changes nothing; another adds its message, and counts it while all are stable. -/
theorem packSide_inv {s : SectionKind} (h : k.packSide role loaded notes st s = .ok st') :
    ((sectionBlocks loaded s).isEmpty ∧ st' = st) ∨
    ((sectionBlocks loaded s).isEmpty = false ∧
      ∃ message, k.systemMessage role notes s (sectionBlocks loaded s) = .ok message ∧
        st' = if st.stillInStablePrefix && k.options.cache.stableSections.contains s then
            ⟨st.messages ++ [message], st.stableMessageCount + 1, st.stillInStablePrefix⟩
          else ⟨st.messages ++ [message], st.stableMessageCount, false⟩) := by
  unfold packSide at h
  cases hempty : (sectionBlocks loaded s).isEmpty with
  | true =>
    simp only [hempty, if_true] at h
    cases h
    exact .inl ⟨rfl, rfl⟩
  | false =>
    simp only [hempty, Bool.false_eq_true, if_false] at h
    obtain ⟨message, hmessage, h⟩ := Loop.bind_eq_ok.mp h
    refine .inr ⟨rfl, message, hmessage, ?_⟩
    split at h <;> rename_i hstable
    · cases h
      rw [if_pos hstable]
    · cases h
      rw [if_neg hstable]

/-- Over stable sections every message is counted. -/
theorem packSides_stable (hstable : ∀ s ∈ l, k.options.cache.stableSections.contains s = true)
    (hstill : st.stillInStablePrefix = true) (h : l.foldlM (k.packSide role loaded notes) st = .ok st') :
    ∃ added, k.sideMessages role loaded notes l = .ok added ∧ st'.messages = st.messages ++ added ∧
      st'.stableMessageCount = st.stableMessageCount + added.length := by
  unfold sideMessages
  induction l generalizing st with
  | nil =>
    cases h
    exact ⟨[], rfl, by simp, by simp⟩
  | cons s l ih =>
    rw [List.foldlM_cons] at h
    obtain ⟨mid, hstep, hrest⟩ := Loop.bind_eq_ok.mp h
    have htail : ∀ s' ∈ l, k.options.cache.stableSections.contains s' = true :=
      fun s' hs' => hstable s' (List.mem_cons_of_mem _ hs')
    rcases packSide_inv hstep with ⟨hempty, rfl⟩ | ⟨hempty, message, hmessage, hmid⟩
    · obtain ⟨added, hadded, hmessages, hcount⟩ := ih htail hstill hrest
      refine ⟨added, ?_, hmessages, hcount⟩
      rw [List.filter_cons_of_neg (by simp [hempty])]
      exact hadded
    · rw [hstill, hstable s List.mem_cons_self, Bool.and_self, if_pos rfl] at hmid
      obtain ⟨added, hadded, hmessages, hcount⟩ := ih htail (by rw [hmid]) hrest
      refine ⟨message :: added, ?_, ?_, ?_⟩
      · rw [List.filter_cons_of_pos (by simp [hempty]), List.mapM_cons, hmessage, Loop.ok_bind, hadded]
        rfl
      · rw [hmessages, hmid, List.append_assoc, List.singleton_append]
      · rw [hcount, hmid, List.length_cons]
        dsimp only
        omega

/-- Over the other sections messages are added and none is counted. -/
theorem packSides_unstable (hunstable : ∀ s ∈ l, k.options.cache.stableSections.contains s = false)
    (h : l.foldlM (k.packSide role loaded notes) st = .ok st') :
    ∃ added, k.sideMessages role loaded notes l = .ok added ∧ st'.messages = st.messages ++ added ∧
      st'.stableMessageCount = st.stableMessageCount := by
  unfold sideMessages
  induction l generalizing st with
  | nil =>
    cases h
    exact ⟨[], rfl, by simp, rfl⟩
  | cons s l ih =>
    rw [List.foldlM_cons] at h
    obtain ⟨mid, hstep, h⟩ := Loop.bind_eq_ok.mp h
    obtain ⟨added, hadded, hmessages, hcount⟩ := ih (fun s' hs' => hunstable s' (List.mem_cons_of_mem _ hs')) h
    rcases packSide_inv hstep with ⟨hempty, rfl⟩ | ⟨hempty, message, hmessage, hmid⟩
    · refine ⟨added, ?_, hmessages, hcount⟩
      rw [List.filter_cons_of_neg (by simp [hempty])]
      exact hadded
    · rw [hunstable s List.mem_cons_self, Bool.and_false, if_neg Bool.false_ne_true] at hmid
      refine ⟨message :: added, ?_, ?_, by rw [hcount, hmid]⟩
      · rw [List.filter_cons_of_pos (by simp [hempty]), List.mapM_cons, hmessage, Loop.ok_bind, hadded]
        rfl
      · rw [hmessages, hmid, List.append_assoc, List.singleton_append]

/-- A chat is made of the messages of the system-side sections that have blocks, stable ones first, of the recent
messages, the tool results and the task; the boundary is the last of the stable messages. -/
theorem packChat_parts (h : k.packChat clock request plan = .ok chat) :
    ∃ loaded added others recent tools, plan.selected.mapM k.loadBlock = .ok loaded ∧
      k.sideMessages (if request.model.supportsSystemRole then .system else .user) loaded (collectNotes plan) k.stableSides
        = .ok added ∧
      k.sideMessages (if request.model.supportsSystemRole then .system else .user) loaded (collectNotes plan)
        (SYSTEM_SIDE.filter (!k.options.cache.stableSections.contains ·)) = .ok others ∧
      (sectionBlocks loaded .recent).mapM (k.recentMessage (collectNotes plan)) = .ok recent ∧
      (sectionBlocks loaded .tools).mapM (k.toolMessage (collectNotes plan)) = .ok tools ∧
      chat.messages = added ++ others ++ recent ++ tools ++ k.taskMessages clock request.task ∧
      chat.cacheBoundary = checkedSub added.length 1 := by
  obtain ⟨loaded, hloaded, h⟩ := Loop.bind_eq_ok.mp h
  obtain ⟨sides, hsides, h⟩ := Loop.bind_eq_ok.mp h
  obtain ⟨recent, hrecent, h⟩ := Loop.bind_eq_ok.mp h
  obtain ⟨tools, htools, h⟩ := Loop.bind_eq_ok.mp h
  obtain ⟨total, -, h⟩ := Loop.bind_eq_ok.mp h
  rw [orderedSides, List.foldlM_append] at hsides
  obtain ⟨mid, hstable, hunstable⟩ := Loop.bind_eq_ok.mp hsides
  obtain ⟨added, hadded, hmid, hcount⟩ := packSides_stable (fun s hs => (List.mem_filter.mp hs).2) rfl hstable
  obtain ⟨others, hothers, hmessages, hsame⟩ :=
    packSides_unstable (fun s hs => by simpa using (List.mem_filter.mp hs).2) hunstable
  refine ⟨loaded, added, others, recent, tools, hloaded, hadded, hothers, hrecent, htools, ?_⟩
  split at h
  · cases h
  · cases h
    rw [hmessages, hmid, hsame, hcount]
    simp

/-- A chat begins with the messages of the stable sections that have blocks, and the boundary is the last of them. -/
theorem packChat_inv (h : k.packChat clock request plan = .ok chat) :
    ∃ loaded added rest, plan.selected.mapM k.loadBlock = .ok loaded ∧
      k.sideMessages (if request.model.supportsSystemRole then .system else .user) loaded (collectNotes plan) k.stableSides
        = .ok added ∧
      chat.messages = added ++ rest ∧ chat.cacheBoundary = checkedSub added.length 1 := by
  obtain ⟨loaded, added, others, recent, tools, hloaded, hadded, -, -, -, hmessages, hboundary⟩ := packChat_parts h
  refine ⟨loaded, added, others ++ recent ++ tools ++ k.taskMessages clock request.task, hloaded, hadded, ?_, hboundary⟩
  rw [hmessages]
  simp only [List.append_assoc]

/-! ### Two calls

What a provider caches is the stable prefix. It is a function of the blocks selected in the stable sections and
their notes: the order of the selection, the other sections, the task and the time do not reach it. -/

/-- The block under an id, where the store has one. -/
def block? (k : SimplePacker) (id : BlockId) : Option ContextBlock := (k.store.get id).toOption.join

/-- The selected ids whose block lies in a section. -/
def selectedIn (k : SimplePacker) (plan : PagePlan) (s : SectionKind) : List BlockId :=
  plan.selected.filter fun id => (k.block? id).any (·.kind.defaultSection = s)

/-- The stable sections that the plan selects blocks of. -/
def filledSides (k : SimplePacker) (plan : PagePlan) : List SectionKind :=
  k.stableSides.filter fun s => !(k.selectedIn plan s).isEmpty

/-- Two plans select the same blocks in the stable sections, in some order, with the same notes. -/
structure SameStable (k : SimplePacker) (plan plan' : PagePlan) : Prop where
  selected : ∀ s ∈ k.stableSides, (k.selectedIn plan s).Perm (k.selectedIn plan' s)
  notes : ∀ s ∈ k.stableSides, ∀ id ∈ k.selectedIn plan s,
    (collectNotes plan).lookup id = (collectNotes plan').lookup id

/-- The same packer with another anchor for the current time. -/
def withNow (k : SimplePacker) (now : Option Timestamp) : SimplePacker :=
  { k with options := { k.options with nowMs := now } }

theorem loadBlock_inv {id : BlockId} {b : ContextBlock} (h : k.loadBlock id = .ok b) : k.block? id = some b ∧ b.id = id := by
  obtain ⟨found, hfound, h⟩ := Loop.bind_eq_ok.mp h
  cases hget : k.store.get id with
  | error e =>
    rw [hget] at hfound
    cases hfound
  | ok found' =>
    rw [hget] at hfound
    cases hfound
    cases found with
    | none => cases h
    | some b' =>
      cases h
      exact ⟨by rw [block?, hget]; rfl, k.store.get_id hget⟩

theorem mem_loaded {ids : List BlockId} {b : ContextBlock} (h : ids.mapM k.loadBlock = .ok loaded) (hb : b ∈ loaded) :
    k.block? b.id = some b := by
  obtain ⟨id, -, hload⟩ := Loop.exists_of_mem_mapM h hb
  obtain ⟨hblock, rfl⟩ := loadBlock_inv hload
  exact hblock

/-- The loaded blocks of a section are those of the ids selected in it. -/
theorem loaded_ids {s : SectionKind} (h : plan.selected.mapM k.loadBlock = .ok loaded) :
    (loaded.filter (·.kind.defaultSection = s)).map (·.id) = k.selectedIn plan s := by
  have hall := Loop.mapM_eq_ok_iff.mp h
  unfold selectedIn
  clear h
  generalize plan.selected = ids at hall
  induction hall with
  | nil => rfl
  | @cons id b _ _ hb _ ih =>
    obtain ⟨hblock, hid⟩ := loadBlock_inv hb
    by_cases hs : b.kind.defaultSection = s
    · rw [List.filter_cons_of_pos (by simpa using hs), List.filter_cons_of_pos (by simp [hblock, hs]), List.map_cons,
        hid, ih]
    · rw [List.filter_cons_of_neg (by simpa using hs), List.filter_cons_of_neg (by simp [hblock, hs]), ih]

theorem loaded_filter {s : SectionKind} (h : plan.selected.mapM k.loadBlock = .ok loaded) :
    loaded.filter (·.kind.defaultSection = s) = (k.selectedIn plan s).filterMap k.block? := by
  rw [← loaded_ids h, List.filterMap_map]
  have hsome : ∀ b ∈ loaded.filter (·.kind.defaultSection = s), (k.block? ∘ (·.id)) b = some b :=
    fun b hb => mem_loaded h (List.mem_filter.mp hb).1
  rw [List.filterMap_congr hsome, List.filterMap_some]

theorem mem_selectedIn {s : SectionKind} {b : ContextBlock} (h : plan.selected.mapM k.loadBlock = .ok loaded)
    (hb : b ∈ sectionBlocks loaded s) : b.id ∈ k.selectedIn plan s := by
  rw [sectionBlocks, List.mem_insertionSort] at hb
  rw [← loaded_ids h]
  exact List.mem_map_of_mem hb

theorem isEmpty_sectionBlocks {s : SectionKind} (h : plan.selected.mapM k.loadBlock = .ok loaded) :
    (sectionBlocks loaded s).isEmpty = (k.selectedIn plan s).isEmpty := by
  rw [← loaded_ids h, List.isEmpty_map, sectionBlocks, Bool.eq_iff_iff, List.isEmpty_iff_length_eq_zero,
    List.isEmpty_iff_length_eq_zero, List.length_insertionSort]

/-- A section's blocks do not depend on the order of the selection. -/
theorem sectionBlocks_eq {loaded' : List ContextBlock} {plan' : PagePlan} {s : SectionKind}
    (h : plan.selected.mapM k.loadBlock = .ok loaded) (h' : plan'.selected.mapM k.loadBlock = .ok loaded')
    (hsame : (k.selectedIn plan s).Perm (k.selectedIn plan' s)) : sectionBlocks loaded s = sectionBlocks loaded' s := by
  have hperm : (loaded.filter (·.kind.defaultSection = s)).Perm (loaded'.filter (·.kind.defaultSection = s)) := by
    rw [loaded_filter h, loaded_filter h']
    exact hsame.filterMap _
  refine Sorting.insertionSort_eq_of_perm (fun _ _ _ _ => Iff.rfl) (fun a ha b hb hid => ?_) hperm
  have hblock := mem_loaded h (List.mem_filter.mp ha).1
  rw [hid, mem_loaded h (List.mem_filter.mp hb).1] at hblock
  exact (Option.some.inj hblock).symm

theorem systemMessage_congr {notes' : List (BlockId × String)} {s : SectionKind} {blocks : List ContextBlock}
    (hnotes : ∀ b ∈ blocks, notes.lookup b.id = notes'.lookup b.id) :
    k.systemMessage role notes s blocks = k.systemMessage role notes' s blocks := by
  have hbodies : blocks.mapM (k.systemBody notes) = blocks.mapM (k.systemBody notes') := by
    refine Loop.mapM_congr fun b hb => ?_
    unfold systemBody blockPrefix
    rw [hnotes b hb]
  rw [systemMessage, hbodies]
  rfl

/-- The stable messages of two plans that agree on the stable sections are the same. -/
theorem sideMessages_eq {loaded' : List ContextBlock} {plan' : PagePlan} (hsame : k.SameStable plan plan')
    (h : plan.selected.mapM k.loadBlock = .ok loaded) (h' : plan'.selected.mapM k.loadBlock = .ok loaded') :
    k.sideMessages role loaded (collectNotes plan) k.stableSides =
      k.sideMessages role loaded' (collectNotes plan') k.stableSides := by
  have hblocks : ∀ s ∈ k.stableSides, sectionBlocks loaded s = sectionBlocks loaded' s :=
    fun s hs => sectionBlocks_eq h h' (hsame.selected s hs)
  unfold sideMessages
  rw [List.filter_congr fun s hs => by rw [hblocks s hs]]
  refine Loop.mapM_congr fun s hs => ?_
  have hmem := (List.mem_filter.mp hs).1
  rw [← hblocks s hmem]
  exact systemMessage_congr fun b hb => hsame.notes s hmem b.id (mem_selectedIn h hb)

theorem length_sideMessages {added : List ChatMessage} (h : plan.selected.mapM k.loadBlock = .ok loaded)
    (hadded : k.sideMessages role loaded notes k.stableSides = .ok added) :
    added.length = (k.filledSides plan).length := by
  unfold sideMessages at hadded
  rw [← (Loop.mapM_eq_ok_iff.mp hadded).length_eq, filledSides]
  congr 1
  exact List.filter_congr fun s _ => by rw [isEmpty_sectionBlocks h]

/-- Two chats whose plans agree on the stable sections have the same boundary, at the last stable section that has
blocks, and the same messages up to it, whatever the tasks, the times and the rest of the plans are. -/
theorem packChat_prefix {now : Option Timestamp} {clock' : Timestamp} {request' : PageRequest} {plan' : PagePlan}
    {chat' : ChatPrompt} (hmodel : request.model = request'.model) (hsame : k.SameStable plan plan')
    (h : k.packChat clock request plan = .ok chat) (h' : (k.withNow now).packChat clock' request' plan' = .ok chat') :
    chat.cacheBoundary = checkedSub (k.filledSides plan).length 1 ∧ chat'.cacheBoundary = chat.cacheBoundary ∧
    ∀ n, chat.cacheBoundary = some n → n < chat.messages.length ∧ n < chat'.messages.length ∧
      chat.messages.take (n + 1) = chat'.messages.take (n + 1) := by
  obtain ⟨loaded, added, rest, hloaded, hadded, hmessages, hboundary⟩ := packChat_inv h
  obtain ⟨loaded', added', rest', hloaded', hadded', hmessages', hboundary'⟩ := packChat_inv h'
  have hlength := length_sideMessages hloaded hadded
  rw [hmodel, sideMessages_eq hsame hloaded hloaded'] at hadded
  cases hadded.symm.trans hadded'
  refine ⟨by rw [hboundary, hlength], by rw [hboundary, hboundary'], ?_⟩
  intro n hn
  have hcount : n + 1 = added.length := by
    rw [hboundary, checkedSub] at hn
    split at hn
    · cases hn
      omega
    · cases hn
  rw [hmessages, hmessages', hcount, List.take_left, List.take_left]
  simp only [List.length_append, and_true]
  omega

/-- A packer over a system prompt, a document and a user message. -/
def chatPacker : SimplePacker where
  store := .ofLists [sampleBlock ⟨1⟩ .system [0x61] [], sampleBlock ⟨2⟩ .documentChunk [0x62] [],
    sampleBlock ⟨3⟩ .userMessage [0x61] []] [] []
  tokenizer := byteTokenizer
  options := .default
  utf8Error _ := ""

def chatRequest (task : String) : PageRequest :=
  ⟨⟨1⟩, task, ⟨"model", ⟨90, by decide⟩, .zero, .zero, "bytes", true⟩, []⟩

def chatPlan (selected : List BlockId) : PagePlan := ⟨selected, [], [], .zero⟩

/-- A turn with the user message, and the next without it, in another order and with another task. -/
theorem packChat_prefix_sample :
    ∃ chat chat', chatPacker.packChat ⟨0, by decide⟩ (chatRequest "a") (chatPlan [⟨1⟩, ⟨3⟩, ⟨2⟩]) = .ok chat ∧
      (chatPacker.withNow (some ⟨5, by decide⟩)).packChat ⟨1, by decide⟩ (chatRequest "b") (chatPlan [⟨2⟩, ⟨1⟩]) = .ok chat' ∧
      chat.cacheBoundary = some 1 ∧ chat.messages.take 2 = chat'.messages.take 2 := by
  have hsame : chatPacker.SameStable (chatPlan [⟨1⟩, ⟨3⟩, ⟨2⟩]) (chatPlan [⟨2⟩, ⟨1⟩]) :=
    ⟨by decide +kernel, by decide +kernel⟩
  have hok : (chatPacker.packChat ⟨0, by decide⟩ (chatRequest "a") (chatPlan [⟨1⟩, ⟨3⟩, ⟨2⟩])).toOption.isSome := by
    decide +kernel
  have hok' : ((chatPacker.withNow (some ⟨5, by decide⟩)).packChat ⟨1, by decide⟩ (chatRequest "b")
      (chatPlan [⟨2⟩, ⟨1⟩])).toOption.isSome := by
    decide +kernel
  obtain ⟨chat, hchat⟩ := Option.isSome_iff_exists.mp hok
  obtain ⟨chat', hchat'⟩ := Option.isSome_iff_exists.mp hok'
  rw [Loop.toOption_eq_some] at hchat hchat'
  have hmodel : (chatRequest "a").model = (chatRequest "b").model := rfl
  obtain ⟨hboundary, -, htake⟩ := packChat_prefix hmodel hsame hchat hchat'
  have hfilled : checkedSub (chatPacker.filledSides (chatPlan [⟨1⟩, ⟨3⟩, ⟨2⟩])).length 1 = some 1 := by decide +kernel
  rw [hfilled] at hboundary
  exact ⟨chat, chat', hchat, hchat', hboundary, (htake 1 hboundary).2.2⟩

end SimplePacker
end Llm386
