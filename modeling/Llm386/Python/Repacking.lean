import Llm386.Core.Hex
import Llm386.Core.Registry
import Llm386.Packer.Notes
import Llm386.Pager.Outcome
import Llm386.Python.Retrievers

/-! # Plans that are packed again

`Store::page`, `Store::pack` and `Store::pack_with_plan` of `python/src/store.rs`. A plan leaves for Python with its
selections and comes back with its ids only; a second packing of it loses the notes, and nothing else. Recording the
call as a trace is left out. -/

namespace Llm386

/-! ### Plans and prompts in Python -/

/-- `section_kind_to_str`. -/
def sectionKindToStr : SectionKind → String
  | .system => "system"
  | .task => "task"
  | .state => "state"
  | .plan => "plan"
  | .retrieved => "retrieved"
  | .tools => "tools"
  | .recent => "recent"
  | .background => "background"
  | .slack => "slack"

/-- `chat_role_to_str`. -/
def chatRoleToStr : ChatRole → String
  | .system => "system"
  | .user => "user"
  | .assistant => "assistant"
  | .tool => "tool"

/-- `selection_reason_to_str`. -/
def selectionReasonToStr : SelectionReason → String
  | .pinned => "pinned"
  | .highRelevance => "high-relevance"
  | .recency => "recency"
  | .dependency => "dependency"
  | .globalFact => "global-fact"
  | .toolResult => "tool-result"

/-- The `Debug` form of an omission reason. -/
def omissionReasonDebug : OmissionReason → String
  | .budget => "Budget"
  | .stale => "Stale"
  | .redundant => "Redundant"
  | .lowScore => "LowScore"
  | .filteredByKind => "FilteredByKind"
  | .dependencyMissing => "DependencyMissing"
  | .compressed => "Compressed"
  | .contradicted => "Contradicted"
  | .supersededByDerived => "SupersededByDerived"

structure PySelection where
  blockId : String
  score : Float32
  reason : String
  note : Option String

def PySelection.fromRust (s : Selection) : PySelection :=
  ⟨s.blockId.display, s.score, selectionReasonToStr s.reason, s.note⟩

structure PyOmittedBlock where
  blockId : String
  reason : String
  score : Float32

def PyOmittedBlock.fromRust (o : OmittedBlock) : PyOmittedBlock :=
  ⟨o.blockId.display, omissionReasonDebug o.reason, o.score⟩

/-- The plan that Python sees. -/
structure PyPagePlan where
  selected : List String
  selections : List PySelection
  omitted : List PyOmittedBlock
  estimatedTokens : TokenCount

def PyPagePlan.fromRust (plan : PagePlan) : PyPagePlan where
  selected := plan.selected.map (·.display)
  selections := plan.selections.map .fromRust
  omitted := plan.omitted.map .fromRust
  estimatedTokens := plan.estimatedTokens

structure PyChatMessage where
  role : String
  content : String
  section_ : Option String

def PyChatMessage.fromRust (m : ChatMessage) : PyChatMessage :=
  ⟨chatRoleToStr m.role, m.content, m.section_.map sectionKindToStr⟩

structure PackResult where
  rendered : Option String
  messages : Option (List PyChatMessage)
  cacheBoundary : Option Nat

/-- What a call raises. -/
inductive Llm386Error
  | noTokenizer (tokenizer : TokenizerId) (model : String)
  | config (message : String)
  | page (e : PagerError)
  | pack (e : PackerError)
  | packChat (e : PackerError)
  | invalidBlockId (message : String)

/-! ### The calls -/

/-- The fields of the Python `Store` that its renderings are made from. -/
structure PythonPackStore extends PythonStore where
  models : ModelRegistry
  tokenizers : TokenizerId → Option Tokenizer
  packerOptions : PackerOptions
  /-- The registry of a store has a profile for every name. -/
  models_resolve : ∀ name, (models.resolve name).isSome

namespace PythonPackStore
variable (self : PythonPackStore) (p : Platform) (terms : TermOrder) (order : HashOrder) (utf8Error : Bytes → String)
  (clock : Timestamp) (store : BlockStore) (session : SessionId) (model task : String) (chat timestamps : Bool)

def profileAndTokenizer : Except Llm386Error (ModelProfile × Tokenizer) :=
  let profile := (self.models.resolve model).get (self.models_resolve model)
  match self.tokenizers profile.tokenizer with
  | some tokenizer => .ok (profile.toModelProfile, tokenizer)
  | none => .error (.noTokenizer profile.tokenizer profile.name)

def pageWith (profile : ModelProfile) (tokenizer : Tokenizer) : Except Llm386Error PagePlan := do
  let pager ← (self.makePager p terms store tokenizer).mapError .config
  (pager.page order ⟨session, task, profile, []⟩).mapError .page

def page : Except Llm386Error PyPagePlan := do
  let (profile, tokenizer) ← self.profileAndTokenizer model
  .fromRust <$> self.pageWith p terms order store session task profile tokenizer

/-- The packer of a call. -/
def packer (tokenizer : Tokenizer) : SimplePacker where
  store
  tokenizer
  options := if timestamps then { self.packerOptions with includeTimestamps := true } else self.packerOptions
  utf8Error

def render (request : PageRequest) (plan : PagePlan) (tokenizer : Tokenizer) : Except Llm386Error PackResult :=
  let packer := self.packer utf8Error store timestamps tokenizer
  if chat then do
    let chatPrompt ← (packer.packChat clock request plan).mapError .packChat
    pure ⟨none, some (chatPrompt.messages.map .fromRust), chatPrompt.cacheBoundary⟩
  else do
    let prompt ← (packer.pack clock request plan).mapError .pack
    pure ⟨some prompt.rendered, none, none⟩

def pack : Except Llm386Error PackResult := do
  let (profile, tokenizer) ← self.profileAndTokenizer model
  let plan ← self.pageWith p terms order store session task profile tokenizer
  self.render utf8Error clock store chat timestamps ⟨session, task, profile, []⟩ plan tokenizer

/-- Of the plan, the ids and the estimate are taken. -/
def packWithPlan (plan : PyPagePlan) : Except Llm386Error PackResult := do
  let (profile, tokenizer) ← self.profileAndTokenizer model
  let selected ← (plan.selected.mapM BlockId.parse).mapError .invalidBlockId
  self.render utf8Error clock store chat timestamps ⟨session, task, profile, []⟩
    ⟨selected, [], [], plan.estimatedTokens⟩ tokenizer

/-! ### The plan on its way back -/

variable {self p terms order utf8Error clock store session model task chat timestamps}

theorem parse_selected (ids : List BlockId) : (ids.map (·.display)).mapM BlockId.parse = .ok ids := by
  induction ids with
  | nil => rfl
  | cons id ids ih =>
    rw [List.map_cons, List.mapM_cons, BlockId.parse_display, Loop.ok_bind, ih]
    rfl

/-- What a second packing renders is the plan without its selections. -/
theorem packWithPlan_fromRust {profile : ModelProfile} {tokenizer : Tokenizer} {plan : PagePlan}
    (hmodel : self.profileAndTokenizer model = .ok (profile, tokenizer)) :
    self.packWithPlan utf8Error clock store session model task chat timestamps (.fromRust plan) =
      self.render utf8Error clock store chat timestamps ⟨session, task, profile, []⟩ (SimplePacker.bare plan)
        tokenizer := by
  rw [packWithPlan, hmodel, Loop.ok_bind]
  simp only [PyPagePlan.fromRust, parse_selected]
  rfl

theorem page_locked {profile : ModelProfile} {tokenizer : Tokenizer} {plan : PagePlan}
    (h : self.pageWith p terms order store session task profile tokenizer = .ok plan) :
    plan.selections.map (·.blockId) = plan.selected := by
  obtain ⟨pager, -, h⟩ := Loop.bind_eq_ok.mp h
  obtain ⟨fixed, scores, bySection, filled, final, hfixed, -, hsections, hfilled, hfinal, rfl⟩ :=
    GreedyPager.page_inv (Loop.mapError_eq_ok.mp h)
  exact GreedyPager.plan_lockstep (GreedyPager.filled_plain hfixed hsections hfilled) hfinal

/-- The prompt of one call is that of the other, as text or as a chat. -/
structure SameRendering (a b : PackResult) : Prop where
  rendered : a.rendered = b.rendered
  messages : a.messages = b.messages

variable {request : PageRequest} {plan : PagePlan} {tokenizer : Tokenizer} {result again : PackResult} {now : Timestamp}

theorem packer_fixed (utf8Error : Bytes → String) (store : BlockStore) (timestamps : Bool) (tokenizer : Tokenizer)
    (hnow : self.packerOptions.nowMs = some now) :
    (self.packer utf8Error store timestamps tokenizer).options.nowMs = some now := by
  rw [packer]
  split
  · exact hnow
  · exact hnow

/-- Where no selection has a note, the plan without its selections renders the same, at any time. -/
theorem render_bare {clock' : Timestamp} (hnow : self.packerOptions.nowMs = some now) (h : SimplePacker.Unnoted plan) :
    self.render utf8Error clock' store chat timestamps request (SimplePacker.bare plan) tokenizer =
      self.render utf8Error clock store chat timestamps request plan tokenizer := by
  have hfixed := packer_fixed utf8Error store timestamps tokenizer hnow
  rw [render, render, SimplePacker.pack_bare h, SimplePacker.packChat_bare h,
    SimplePacker.pack_of_fixed hfixed clock' clock, SimplePacker.packChat_of_fixed hfixed clock' clock]

/-- A plan that renders the same without its selections has no note. -/
theorem unnoted_of_render {clock' : Timestamp} (hnow : self.packerOptions.nowMs = some now)
    (hlock : plan.selections.map (·.blockId) = plan.selected)
    (h : self.render utf8Error clock store chat timestamps request plan tokenizer = .ok result)
    (hagain : self.render utf8Error clock' store chat timestamps request (SimplePacker.bare plan) tokenizer = .ok again)
    (hsame : SameRendering again result) : SimplePacker.Unnoted plan := by
  have hfixed := packer_fixed utf8Error store timestamps tokenizer hnow
  unfold render at h hagain
  cases chat with
  | true =>
    obtain ⟨prompt, hprompt, h⟩ := Loop.bind_eq_ok.mp h
    obtain ⟨bareOne, hbare, hagain⟩ := Loop.bind_eq_ok.mp hagain
    cases h
    cases hagain
    rw [Loop.mapError_eq_ok] at hprompt hbare
    rw [SimplePacker.packChat_of_fixed hfixed clock' clock] at hbare
    have hcontents := congrArg (List.map PyChatMessage.content) (Option.some.inj hsame.messages)
    rw [List.map_map, List.map_map] at hcontents
    exact SimplePacker.unnoted_of_packChat_bare hlock hprompt hbare hcontents
  | false =>
    obtain ⟨prompt, hprompt, h⟩ := Loop.bind_eq_ok.mp h
    obtain ⟨bareOne, hbare, hagain⟩ := Loop.bind_eq_ok.mp hagain
    cases h
    cases hagain
    rw [Loop.mapError_eq_ok] at hprompt hbare
    rw [SimplePacker.pack_of_fixed hfixed clock' clock] at hbare
    exact SimplePacker.unnoted_of_pack_bare hlock hprompt hbare (Option.some.inj hsame.rendered)

/-- The plan of a call, packed again for the same model and task, renders the same exactly where no selection of it
has a note. -/
theorem repack_faithful_iff {shown : PyPagePlan} (hnow : self.packerOptions.nowMs = some now)
    (hpage : self.page p terms order store session model task = .ok shown)
    (hpack : self.pack p terms order utf8Error clock store session model task chat timestamps = .ok result)
    (clock' : Timestamp) :
    (∃ again, self.packWithPlan utf8Error clock' store session model task chat timestamps shown = .ok again ∧
      SameRendering again result) ↔ ∀ sel ∈ shown.selections, sel.note = none := by
  obtain ⟨⟨profile, tokenizer⟩, hmodel, hpage⟩ := Loop.bind_eq_ok.mp hpage
  obtain ⟨plan, hplan, rfl⟩ := Loop.map_eq_ok.mp hpage
  rw [pack, hmodel, Loop.ok_bind] at hpack
  simp only [hplan, Loop.ok_bind] at hpack
  have hunnoted : (∀ sel ∈ (PyPagePlan.fromRust plan).selections, sel.note = none) ↔ SimplePacker.Unnoted plan :=
    List.forall_mem_map
  rw [packWithPlan_fromRust hmodel, hunnoted]
  constructor
  · rintro ⟨again, hagain, hsame⟩
    exact unnoted_of_render hnow (page_locked hplan) hpack hagain hsame
  · intro h
    exact ⟨result, (render_bare hnow h).trans hpack, rfl, rfl⟩

/-- A store with one model and a fixed anchor. -/
def fixedStore : PythonPackStore where
  toPythonStore := PythonStore.bareStore
  models := ModelRegistry.new.register
    ⟨⟨"model", ⟨91, by decide⟩, .zero, .zero, "bytes", true⟩, false, none⟩
  tokenizers _ := some byteTokenizer
  packerOptions := { PackerOptions.default with nowMs := some .zero }
  models_resolve := ModelRegistry.resolve_isSome (List.cons_ne_nil _ _)

/-- Two facts, the newer of which contradicts the older. -/
def disputed : BlockStore :=
  .ofLists [sampleBlock ⟨1⟩ .fact [0x61] [], sampleBlock ⟨2⟩ .fact [0x62] []] [(⟨1⟩, ⟨1⟩), (⟨1⟩, ⟨2⟩)]
    [⟨⟨2⟩, ⟨1⟩, .contradicts⟩]

/-- The default policies flag the contradiction, and the flag is not packed again. -/
theorem repack_loses_notes : ∃ shown result,
    fixedStore.page samplePlatform sampleTermOrder .canonical disputed ⟨1⟩ "model" "" = .ok shown ∧
    fixedStore.pack samplePlatform sampleTermOrder .canonical (fun _ => "") .zero disputed ⟨1⟩ "model" "" false false =
      .ok result ∧
    ¬∃ again, fixedStore.packWithPlan (fun _ => "") .zero disputed ⟨1⟩ "model" "" false false shown = .ok again ∧
      SameRendering again result := by
  have hrun : (do
      let shown ← fixedStore.page samplePlatform sampleTermOrder .canonical disputed ⟨1⟩ "model" ""
      let result ← fixedStore.pack samplePlatform sampleTermOrder .canonical (fun _ => "") .zero disputed ⟨1⟩ "model" ""
        false false
      let again ← fixedStore.packWithPlan (fun _ => "") .zero disputed ⟨1⟩ "model" "" false false shown
      pure (decide (again.rendered = result.rendered))).toOption = some false := by
    decide +kernel
  rw [Loop.toOption_eq_some] at hrun
  obtain ⟨shown, hshown, hrun⟩ := Loop.bind_eq_ok.mp hrun
  obtain ⟨result, hresult, hrun⟩ := Loop.bind_eq_ok.mp hrun
  obtain ⟨again, hagain, hrun⟩ := Loop.bind_eq_ok.mp hrun
  refine ⟨shown, result, hshown, hresult, ?_⟩
  rintro ⟨again', hagain', hsame⟩
  rw [hagain] at hagain'
  cases hagain'
  rw [hsame.rendered, decide_eq_true rfl] at hrun
  cases hrun

/-- One of them alone. -/
def undisputed : BlockStore := .ofLists [sampleBlock ⟨1⟩ .fact [0x61] []] [(⟨1⟩, ⟨1⟩)] []

theorem exists_packed (store : BlockStore) (chat : Bool) (notes : List (Option String)) (h : (do
      let shown ← fixedStore.page samplePlatform sampleTermOrder .canonical store ⟨1⟩ "model" ""
      let _ ← fixedStore.pack samplePlatform sampleTermOrder .canonical (fun _ => "") .zero store ⟨1⟩ "model" "" chat chat
      pure (shown.selections.map PySelection.note)).toOption = some notes) : ∃ shown result,
    fixedStore.page samplePlatform sampleTermOrder .canonical store ⟨1⟩ "model" "" = .ok shown ∧
    fixedStore.pack samplePlatform sampleTermOrder .canonical (fun _ => "") .zero store ⟨1⟩ "model" "" chat chat =
      .ok result ∧
    shown.selections.map PySelection.note = notes := by
  rw [Loop.toOption_eq_some] at h
  obtain ⟨shown, hshown, h⟩ := Loop.bind_eq_ok.mp h
  obtain ⟨result, hresult, h⟩ := Loop.bind_eq_ok.mp h
  exact ⟨shown, result, hshown, hresult, Except.ok.inj h⟩

/-- The fact alone is packed again as it was, the two facts are not. -/
theorem repack_faithful_iff_sample :
    (∃ shown result again,
      fixedStore.page samplePlatform sampleTermOrder .canonical undisputed ⟨1⟩ "model" "" = .ok shown ∧
      fixedStore.pack samplePlatform sampleTermOrder .canonical (fun _ => "") .zero undisputed ⟨1⟩ "model" "" true true =
        .ok result ∧
      fixedStore.packWithPlan (fun _ => "") ⟨1, by decide⟩ undisputed ⟨1⟩ "model" "" true true shown = .ok again ∧
      SameRendering again result) ∧
    ∃ shown result,
      fixedStore.page samplePlatform sampleTermOrder .canonical disputed ⟨1⟩ "model" "" = .ok shown ∧
      fixedStore.pack samplePlatform sampleTermOrder .canonical (fun _ => "") .zero disputed ⟨1⟩ "model" "" false false =
        .ok result ∧
      ¬∃ again, fixedStore.packWithPlan (fun _ => "") ⟨1, by decide⟩ disputed ⟨1⟩ "model" "" false false shown = .ok again ∧
        SameRendering again result := by
  constructor
  · obtain ⟨shown, result, hshown, hresult, hnotes⟩ := exists_packed undisputed true [none] (by decide +kernel)
    have hnone : ∀ sel ∈ shown.selections, sel.note = none := fun sel hsel =>
      List.mem_singleton.mp (hnotes ▸ List.mem_map_of_mem hsel)
    obtain ⟨again, hagain, hsame⟩ := (repack_faithful_iff rfl hshown hresult ⟨1, by decide⟩).mpr hnone
    exact ⟨shown, result, again, hshown, hresult, hagain, hsame⟩
  · obtain ⟨shown, result, hshown, hresult, hnotes⟩ := exists_packed disputed false
      [none, some ("contradicted by newer block " ++ (⟨2⟩ : BlockId).display)] (by decide +kernel)
    refine ⟨shown, result, hshown, hresult, fun hagain => ?_⟩
    have hnone := (repack_faithful_iff rfl hshown hresult ⟨1, by decide⟩).mp hagain
    have hmem : some ("contradicted by newer block " ++ (⟨2⟩ : BlockId).display) ∈ shown.selections.map PySelection.note :=
      hnotes ▸ List.mem_cons_of_mem _ List.mem_cons_self
    obtain ⟨sel, hsel, hnote⟩ := List.mem_map.mp hmem
    rw [hnone sel hsel] at hnote
    cases hnote

end PythonPackStore
end Llm386
