import Llm386.Packer.Chat

/-! # What a prompt renders

Both renderers group the selected blocks by section and enumerate the sections from fixed lists. Every selected block
is rendered once, in its section, in the order of the ids; besides the blocks there are only headers and the task. The
order of the selection and of the selections does not reach the result. -/

namespace Llm386.SimplePacker

variable {k : SimplePacker} {clock : Timestamp} {request : PageRequest} {plan plan' : PagePlan}
  {notes : List (BlockId × String)} {loaded : List ContextBlock} {s : SectionKind} {block : ContextBlock}

/-! ### Renderings -/

/-- The body of a block that is UTF-8. -/
def bodyOf (block : ContextBlock) : String := (String.fromUTF8? ⟨block.bytes.toArray⟩).getD ""

/-- The blocks that the plan selects in a section, in id order. -/
def chosen (k : SimplePacker) (plan : PagePlan) (s : SectionKind) : List ContextBlock :=
  sectionBlocks (plan.selected.filterMap k.block?) s

def renderBlock (k : SimplePacker) (notes : List (BlockId × String)) (block : ContextBlock) : String :=
  k.blockPrefix notes block ++ bodyOf block ++ "\n\n"

/-- A section as the header and its blocks. -/
def renderBlocks (k : SimplePacker) (notes : List (BlockId × String)) (s : SectionKind) (blocks : List ContextBlock) :
    String :=
  if blocks.isEmpty then "" else headerText s ++ String.join (blocks.map (k.renderBlock notes))

def renderSection (k : SimplePacker) (clock : Timestamp) (task : String) (notes : List (BlockId × String))
    (blocks : SectionKind → List ContextBlock) : SectionKind → String
  | .slack => ""
  | .task => if task.isEmpty then "" else k.taskPrefix clock ++ task ++ "\n\n"
  | s => k.renderBlocks notes s (blocks s)

/-- A system-side section as one message. -/
def renderSide (k : SimplePacker) (role : ChatRole) (notes : List (BlockId × String)) (s : SectionKind)
    (blocks : List ContextBlock) : ChatMessage :=
  { role, content := trimEnd (headerText s ++ String.join (blocks.map (k.renderBlock notes))), section_ := some s }

def renderRecent (k : SimplePacker) (notes : List (BlockId × String)) (block : ContextBlock) : ChatMessage :=
  if block.kind = .assistantMessage then
    { role := .assistant, content := noteText (notes.lookup block.id) ++ bodyOf block, section_ := some .recent }
  else
    { role := .user, content := noteText (notes.lookup block.id) ++ (k.stampText block ++ bodyOf block),
      section_ := some .recent }

def renderTool (k : SimplePacker) (notes : List (BlockId × String)) (block : ContextBlock) : ChatMessage :=
  { role := .tool, content := noteText (notes.lookup block.id) ++ (k.stampText block ++ bodyOf block),
    section_ := some .tools }

/-- The task as the last message, after the current time where the packer states it. -/
def renderTask (k : SimplePacker) (clock : Timestamp) (task : String) : ChatMessage where
  role := .user
  content :=
    (if k.options.includeTimestamps then "Current time: " ++ formatIso8601Utc (k.nowMs clock) ++ "\n\n" else "") ++ task
  section_ := some .task

/-! ### What a prompt is made of -/

/-- The manifest entry `a` comes before `b`: in an earlier section, or in the same one with no larger id. -/
def Precedes (a b : PackedBlock) : Prop :=
  SECTION_ORDER.idxOf a.section_ < SECTION_ORDER.idxOf b.section_ ∨ a.section_ = b.section_ ∧ a.blockId ≤ b.blockId

/-- The prompt lists every selected block once, in its section, in canonical order, and renders them in that order. -/
structure Renders (k : SimplePacker) (clock : Timestamp) (request : PageRequest) (plan : PagePlan)
    (prompt : PackedPrompt) : Prop where
  complete : (prompt.blocks.map (·.blockId)).Perm plan.selected
  placed : ∀ e ∈ prompt.blocks, ∃ b, k.store.get e.blockId = .ok (some b) ∧ b.kind.defaultSection = e.section_
  ordered : prompt.blocks.Pairwise Precedes
  listed : prompt.blocks.map (·.blockId) = SECTION_ORDER.flatMap fun s => (k.chosen plan s).map (·.id)
  rendered : prompt.rendered = String.join
    (SECTION_ORDER.map (k.renderSection clock request.task (collectNotes plan) (k.chosen plan)))

/-- The messages of a chat are those of the selected blocks, each in its section, and the task. -/
structure RendersChat (k : SimplePacker) (clock : Timestamp) (request : PageRequest) (plan : PagePlan)
    (chat : ChatPrompt) : Prop where
  messages : chat.messages =
    ((k.orderedSides.filter fun s => !(k.chosen plan s).isEmpty).map fun s =>
      k.renderSide (if request.model.supportsSystemRole then .system else .user) (collectNotes plan) s (k.chosen plan s)) ++
    (k.chosen plan .recent).map (k.renderRecent (collectNotes plan)) ++
    (k.chosen plan .tools).map (k.renderTool (collectNotes plan)) ++
    if request.task = "" then [] else [k.renderTask clock request.task]
  complete : ((k.orderedSides ++ [SectionKind.recent, .tools]).flatMap fun s => (k.chosen plan s).map (·.id)).Perm plan.selected
  placed : ∀ s, ∀ b ∈ k.chosen plan s, k.store.get b.id = .ok (some b) ∧ b.kind.defaultSection = s
  ordered : ∀ s, (k.chosen plan s).Pairwise (·.id ≤ ·.id)

/-- The notes of a plan agree on each block. -/
def OneNote (plan : PagePlan) : Prop :=
  ∀ sel ∈ plan.selections, ∀ sel' ∈ plan.selections, sel.blockId = sel'.blockId → ∀ note note',
    sel.note = some note → sel'.note = some note' → note = note'

/-- The same selection in another order. -/
structure Reordered (plan plan' : PagePlan) : Prop where
  selected : plan.selected.Perm plan'.selected
  selections : plan.selections.Perm plan'.selections

/-! ### The selected blocks -/

theorem taskMessages_eq (task : String) :
    k.taskMessages clock task = if task = "" then [] else [k.renderTask clock task] := by
  by_cases htask : task = "" <;> simp [taskMessages, renderTask, htask]

theorem blockText_inv {body : String} (h : k.blockText block = .ok body) : body = bodyOf block := by
  unfold blockText at h
  split at h
  · rename_i hbody
    cases h
    rw [bodyOf, hbody]
    rfl
  · cases h

theorem loaded_eq {ids : List BlockId} (h : ids.mapM k.loadBlock = .ok loaded) : loaded = ids.filterMap k.block? := by
  have hall := Loop.mapM_eq_ok_iff.mp h
  clear h
  induction hall with
  | nil => rfl
  | @cons id b ids loaded hb _ ih => rw [List.filterMap_cons_some (loadBlock_inv hb).1, ih]

theorem ids_loaded {ids : List BlockId} (h : ids.mapM k.loadBlock = .ok loaded) : loaded.map (·.id) = ids := by
  have hall := Loop.mapM_eq_ok_iff.mp h
  clear h
  induction hall with
  | nil => rfl
  | @cons id b ids loaded hb _ ih => rw [List.map_cons, (loadBlock_inv hb).2, ih]

theorem sectionBlocks_perm (loaded : List ContextBlock) (s : SectionKind) :
    (sectionBlocks loaded s).Perm (loaded.filter (·.kind.defaultSection = s)) := List.perm_insertionSort _ _

/-- No kind of block is sent as the task or as slack. -/
theorem sectionBlocks_eq_nil (hs : s = .task ∨ s = .slack) : sectionBlocks loaded s = [] := by
  have hnone : loaded.filter (·.kind.defaultSection = s) = [] := by
    refine List.filter_eq_nil_iff.mpr fun b _ => ?_
    rcases hs with rfl | rfl <;> cases b.kind <;> decide
  rw [sectionBlocks, hnone]
  rfl

/-- The sections of a list that has every section of a block hold all blocks. -/
theorem sections_perm {keys : List SectionKind} (hnodup : keys.Nodup) (hkeys : ∀ b ∈ loaded, b.kind.defaultSection ∈ keys) :
    (keys.flatMap fun s => sectionBlocks loaded s).Perm loaded :=
  (List.Perm.flatMap_left keys fun s _ => sectionBlocks_perm loaded s).trans
    (Sorting.flatMap_filter_perm (f := fun b : ContextBlock => b.kind.defaultSection) hnodup hkeys)

/-! ### `pack` -/

/-- The section and the id of a manifest entry. -/
def entryOf (e : PackedBlock) : SectionKind × BlockId := (e.section_, e.blockId)

/-- What a part of the prompt adds: its text, and a manifest entry for each of its blocks. -/
structure Adds (acc acc' : Rendered) (text : String) (blocks : List (SectionKind × BlockId)) : Prop where
  text : acc'.1 = acc.1 ++ text
  manifest : acc'.2.map entryOf = acc.2.map entryOf ++ blocks

theorem Adds.trans {acc acc₁ acc₂ : Rendered} {text text' : String} {blocks blocks' : List (SectionKind × BlockId)}
    (h : Adds acc acc₁ text blocks) (h' : Adds acc₁ acc₂ text' blocks') :
    Adds acc acc₂ (text ++ text') (blocks ++ blocks') where
  text := by rw [h'.text, h.text, String.append_assoc]
  manifest := by rw [h'.manifest, h.manifest, List.append_assoc]

theorem Adds.nothing (acc : Rendered) : Adds acc acc "" [] := ⟨by simp, by simp⟩

theorem packBlock_adds {acc acc' : Rendered} (h : k.packBlock notes s acc block = .ok acc') :
    Adds acc acc' (k.renderBlock notes block) [(s, block.id)] := by
  obtain ⟨body, hbody, h⟩ := Loop.bind_eq_ok.mp h
  obtain ⟨tokens, -, h⟩ := Loop.bind_eq_ok.mp h
  cases h
  rw [blockText_inv hbody]
  exact ⟨rfl, by simp [entryOf]⟩

theorem packBlocks_adds {blocks : List ContextBlock} {acc acc' : Rendered}
    (h : blocks.foldlM (k.packBlock notes s) acc = .ok acc') :
    Adds acc acc' (String.join (blocks.map (k.renderBlock notes))) (blocks.map fun b => (s, b.id)) := by
  induction blocks generalizing acc with
  | nil =>
    cases h
    exact .nothing _
  | cons block blocks ih =>
    obtain ⟨mid, hmid, h⟩ := Loop.foldlM_cons_eq_ok.mp h
    rw [List.map_cons, String.join_cons, List.map_cons, ← List.singleton_append]
    exact (packBlock_adds hmid).trans (ih h)

/-- A section adds its header and its blocks, the task its text. -/
theorem packSection_adds {task : String} {acc acc' : Rendered}
    (h : k.packSection clock task loaded notes acc s = .ok acc') :
    Adds acc acc' (k.renderSection clock task notes (sectionBlocks loaded) s)
      ((sectionBlocks loaded s).map fun b => (s, b.id)) := by
  have hsection : ∀ s, (if (sectionBlocks loaded s).isEmpty then Except.ok acc
      else (sectionBlocks loaded s).foldlM (k.packBlock notes s) (acc.1 ++ headerText s, acc.2)) = .ok acc' →
      Adds acc acc' (k.renderBlocks notes s (sectionBlocks loaded s)) ((sectionBlocks loaded s).map fun b => (s, b.id)) := by
    intro s h
    unfold renderBlocks
    split at h
    · rename_i hempty
      cases h
      rw [if_pos hempty, List.isEmpty_iff.mp hempty]
      exact .nothing _
    · rename_i hsome
      rw [if_neg hsome]
      exact (⟨rfl, (List.append_nil _).symm⟩ : Adds acc (acc.1 ++ headerText s, acc.2) (headerText s) []).trans
        (packBlocks_adds h)
  cases s with
  | slack =>
    cases h
    rw [sectionBlocks_eq_nil (Or.inr rfl)]
    exact .nothing _
  | task =>
    cases h
    rw [sectionBlocks_eq_nil (Or.inl rfl)]
    unfold renderSection
    split
    · exact .nothing _
    · exact ⟨rfl, (List.append_nil _).symm⟩
  | _ => exact hsection _ h

theorem packSections_adds {task : String} {l : List SectionKind} {acc acc' : Rendered}
    (h : l.foldlM (k.packSection clock task loaded notes) acc = .ok acc') :
    Adds acc acc' (String.join (l.map (k.renderSection clock task notes (sectionBlocks loaded))))
      (l.flatMap fun s => (sectionBlocks loaded s).map fun b => (s, b.id)) := by
  induction l generalizing acc with
  | nil =>
    cases h
    exact .nothing _
  | cons s l ih =>
    obtain ⟨mid, hmid, h⟩ := Loop.foldlM_cons_eq_ok.mp h
    rw [List.map_cons, String.join_cons, List.flatMap_cons]
    exact (packSection_adds hmid).trans (ih h)

theorem chosen_eq (h : plan.selected.mapM k.loadBlock = .ok loaded) : k.chosen plan = sectionBlocks loaded := by
  funext s
  rw [chosen, loaded_eq h]

theorem chosen_ordered (k : SimplePacker) (plan : PagePlan) (s : SectionKind) :
    (k.chosen plan s).Pairwise (·.id ≤ ·.id) := by
  have : Std.Total fun a b : ContextBlock => a.id ≤ b.id := ⟨fun a b => le_total a.id b.id⟩
  have : IsTrans ContextBlock fun a b => a.id ≤ b.id := ⟨fun _ _ _ => le_trans⟩
  exact List.pairwise_insertionSort _ _

theorem chosen_placed (hb : block ∈ k.chosen plan s) :
    k.store.get block.id = .ok (some block) ∧ block.kind.defaultSection = s := by
  obtain ⟨hmem, hs⟩ := List.mem_filter.mp ((sectionBlocks_perm _ s).mem_iff.mp hb)
  obtain ⟨id, -, hid⟩ := List.mem_filterMap.mp hmem
  refine ⟨?_, by simpa using hs⟩
  unfold block? at hid
  cases hget : k.store.get id with
  | error e =>
    rw [hget] at hid
    cases hid
  | ok found =>
    rw [hget] at hid
    cases found with
    | none => cases hid
    | some b =>
      cases hid
      rw [k.store.get_id hget, hget]

/-- The manifest of the sections, each in id order, is in canonical order. -/
theorem precedes_of_manifest {entries : List PackedBlock}
    (h : entries.map entryOf = SECTION_ORDER.flatMap fun s => (k.chosen plan s).map fun b => (s, b.id)) :
    entries.Pairwise Precedes := by
  let before (a b : SectionKind × BlockId) : Prop :=
    SECTION_ORDER.idxOf a.1 < SECTION_ORDER.idxOf b.1 ∨ a.1 = b.1 ∧ a.2 ≤ b.2
  have hsorted : (entries.map entryOf).Pairwise before := by
    rw [h, List.pairwise_flatMap]
    constructor
    · intro s _
      exact List.pairwise_map.mpr ((chosen_ordered k plan s).imp fun hab => .inr ⟨rfl, hab⟩)
    · have hsections : SECTION_ORDER.Pairwise fun s s' => SECTION_ORDER.idxOf s < SECTION_ORDER.idxOf s' := by decide
      refine hsections.imp fun hlt x hx y hy => ?_
      obtain ⟨b, -, rfl⟩ := List.mem_map.mp hx
      obtain ⟨b', -, rfl⟩ := List.mem_map.mp hy
      exact .inl hlt
  exact (@List.pairwise_map _ _ entryOf before _).mp hsorted

theorem pack_renders {prompt : PackedPrompt} (h : k.pack clock request plan = .ok prompt) :
    k.Renders clock request plan prompt := by
  obtain ⟨loaded, hloaded, h⟩ := Loop.bind_eq_ok.mp h
  obtain ⟨⟨text, entries⟩, hsections, h⟩ := Loop.bind_eq_ok.mp h
  obtain ⟨total, -, h⟩ := Loop.bind_eq_ok.mp h
  obtain ⟨htext, hmanifest⟩ := packSections_adds hsections
  have hchosen := chosen_eq hloaded
  split at h
  · cases h
  · cases h
    rw [← hchosen] at htext hmanifest
    simp only [List.map_nil, List.nil_append] at hmanifest
    have hlisted : entries.map (·.blockId) = SECTION_ORDER.flatMap fun s => (k.chosen plan s).map (·.id) := by
      have hids := congrArg (List.map Prod.snd) hmanifest
      simpa [List.map_map, List.map_flatMap, Function.comp_def, entryOf] using hids
    refine ⟨?_, fun e he => ?_, ?_, hlisted, by simpa using htext⟩
    · show (entries.map (·.blockId)).Perm plan.selected
      rw [hlisted, ← List.map_flatMap, hchosen, ← ids_loaded hloaded]
      exact (sections_perm (by decide) fun b _ => by cases b.kind <;> decide).map _
    · have hentry : entryOf e ∈ entries.map entryOf := List.mem_map_of_mem he
      rw [hmanifest] at hentry
      obtain ⟨s, -, hentry⟩ := List.mem_flatMap.mp hentry
      obtain ⟨b, hb, heq⟩ := List.mem_map.mp hentry
      obtain ⟨hs, hid⟩ := Prod.mk.inj heq
      obtain ⟨hget, hplaced⟩ := chosen_placed hb
      exact ⟨b, hid ▸ hget, hplaced.trans hs⟩
    · exact precedes_of_manifest hmanifest

/-! ### `pack_chat` -/

theorem systemMessage_inv {role : ChatRole} {blocks : List ContextBlock} {message : ChatMessage}
    (h : k.systemMessage role notes s blocks = .ok message) :
    message = { role, content := trimEnd (headerText s ++ String.join (blocks.map (k.renderBlock notes))),
                section_ := some s } := by
  obtain ⟨bodies, hbodies, h⟩ := Loop.bind_eq_ok.mp h
  have hbody : ∀ block text, k.systemBody notes block = .ok text → text = k.renderBlock notes block := by
    intro block text htext
    obtain ⟨body, hbody, htext⟩ := Loop.bind_eq_ok.mp htext
    cases htext
    rw [renderBlock, blockText_inv hbody]
  cases h
  rw [Loop.eq_map_of_mapM hbody hbodies]

theorem sideMessages_inv {role : ChatRole} {l : List SectionKind} {messages : List ChatMessage}
    (h : k.sideMessages role loaded notes l = .ok messages) :
    messages = (l.filter fun s => !(sectionBlocks loaded s).isEmpty).map fun s =>
      k.renderSide role notes s (sectionBlocks loaded s) :=
  Loop.eq_map_of_mapM (fun _ _ hmessage => systemMessage_inv hmessage) h

theorem recentMessage_inv {message : ChatMessage} (h : k.recentMessage notes block = .ok message) :
    message = k.renderRecent notes block := by
  obtain ⟨body, hbody, h⟩ := Loop.bind_eq_ok.mp h
  rw [blockText_inv hbody] at h
  unfold renderRecent
  by_cases hkind : block.kind = .assistantMessage
  · simp only [hkind, if_true] at h
    rw [if_pos hkind]
    cases h
    rfl
  · simp only [hkind, if_false, reduceCtorEq] at h
    rw [if_neg hkind]
    cases h
    rfl

theorem toolMessage_inv {message : ChatMessage} (h : k.toolMessage notes block = .ok message) :
    message = k.renderTool notes block := by
  obtain ⟨body, hbody, h⟩ := Loop.bind_eq_ok.mp h
  cases h
  rw [blockText_inv hbody]
  rfl

/-- The stable sections and the others are all of the system side. -/
theorem orderedSides_perm (k : SimplePacker) : k.orderedSides.Perm SYSTEM_SIDE := by
  unfold orderedSides stableSides
  exact List.filter_append_perm _ _

theorem packChat_renders {chat : ChatPrompt} (h : k.packChat clock request plan = .ok chat) :
    k.RendersChat clock request plan chat := by
  obtain ⟨loaded, added, others, recent, tools, hloaded, hadded, hothers, hrecent, htools, hmessages, -⟩ := packChat_parts h
  have hchosen := chosen_eq hloaded
  refine ⟨?_, ?_, fun s b hb => chosen_placed hb, chosen_ordered k plan⟩
  · rw [hmessages, taskMessages_eq, sideMessages_inv hadded, sideMessages_inv hothers,
      Loop.eq_map_of_mapM (fun _ _ => recentMessage_inv) hrecent,
      Loop.eq_map_of_mapM (fun _ _ => toolMessage_inv) htools, orderedSides, hchosen, List.filter_append, List.map_append]
  · have hkeys : (k.orderedSides ++ [SectionKind.recent, .tools]).Perm (SYSTEM_SIDE ++ [.recent, .tools]) :=
      (orderedSides_perm k).append_right _
    rw [hchosen, ← List.map_flatMap, ← ids_loaded hloaded]
    refine (sections_perm (hkeys.nodup_iff.mpr (by decide)) fun b _ => hkeys.mem_iff.mpr ?_).map _
    cases b.kind <;> decide

/-! ### The order of the selection -/

variable {notes' : List (BlockId × String)} {loaded' : List ContextBlock}

theorem collectNotes_lookup (hone : OneNote plan) (h : Reordered plan plan') (id : BlockId) :
    (collectNotes plan).lookup id = (collectNotes plan').lookup id := by
  refine Sorting.lookup_eq_of_perm ?_ ?_ id
  · exact (List.reverse_perm _).trans ((h.selections.filterMap _).trans (List.reverse_perm _).symm)
  · intro e he e' he' hid
    obtain ⟨sel, hsel, hnote⟩ := List.mem_filterMap.mp (List.mem_reverse.mp he)
    obtain ⟨sel', hsel', hnote'⟩ := List.mem_filterMap.mp (List.mem_reverse.mp he')
    obtain ⟨note, hsome, rfl⟩ := Option.map_eq_some_iff.mp hnote
    obtain ⟨note', hsome', rfl⟩ := Option.map_eq_some_iff.mp hnote'
    exact hone sel hsel sel' hsel' hid note note' hsome hsome'

/-- The same selection in another order loads the same blocks, and gives each section the same list. -/
theorem loaded_reordered (h : Reordered plan plan') (hloaded : plan.selected.mapM k.loadBlock = .ok loaded) :
    ∃ loaded', plan'.selected.mapM k.loadBlock = .ok loaded' ∧ sectionBlocks loaded' = sectionBlocks loaded := by
  obtain ⟨loaded', hloaded', -⟩ := Loop.mapM_perm h.selected hloaded
  refine ⟨loaded', hloaded', funext fun s => ?_⟩
  exact (sectionBlocks_eq hloaded hloaded' (h.selected.filter _)).symm

theorem blockPrefix_eq (hnotes : ∀ id, notes.lookup id = notes'.lookup id) : k.blockPrefix notes' = k.blockPrefix notes := by
  funext block
  rw [blockPrefix, blockPrefix, hnotes]

theorem packSection_eq {task : String} (hnotes : ∀ id, notes.lookup id = notes'.lookup id)
    (hblocks : sectionBlocks loaded' = sectionBlocks loaded) :
    k.packSection clock task loaded' notes' = k.packSection clock task loaded notes := by
  have hblock : k.packBlock notes' = k.packBlock notes := by
    funext s acc block
    unfold packBlock
    rw [blockPrefix_eq hnotes]
  funext acc s
  unfold packSection
  rw [hblocks, hblock]

theorem packSide_eq {role : ChatRole} (hnotes : ∀ id, notes.lookup id = notes'.lookup id)
    (hblocks : sectionBlocks loaded' = sectionBlocks loaded) :
    k.packSide role loaded' notes' = k.packSide role loaded notes := by
  funext st s
  unfold packSide
  dsimp only
  rw [hblocks, systemMessage_congr fun b _ => (hnotes b.id).symm]

theorem pack_reordered {prompt : PackedPrompt} (hone : OneNote plan) (hsame : Reordered plan plan')
    (h : k.pack clock request plan = .ok prompt) : k.pack clock request plan' = .ok prompt := by
  obtain ⟨loaded, hloaded, -⟩ := Loop.bind_eq_ok.mp h
  obtain ⟨loaded', hloaded', hblocks⟩ := loaded_reordered hsame hloaded
  rw [← h]
  unfold pack
  rw [hloaded, hloaded', Loop.ok_bind, Loop.ok_bind, packSection_eq (collectNotes_lookup hone hsame) hblocks]

theorem packChat_reordered {chat : ChatPrompt} (hone : OneNote plan) (hsame : Reordered plan plan')
    (h : k.packChat clock request plan = .ok chat) : k.packChat clock request plan' = .ok chat := by
  obtain ⟨loaded, hloaded, -⟩ := Loop.bind_eq_ok.mp h
  obtain ⟨loaded', hloaded', hblocks⟩ := loaded_reordered hsame hloaded
  have hnotes := collectNotes_lookup hone hsame
  have hrecent : k.recentMessage (collectNotes plan') = k.recentMessage (collectNotes plan) := by
    funext block
    unfold recentMessage
    rw [hnotes]
  have htool : k.toolMessage (collectNotes plan') = k.toolMessage (collectNotes plan) := by
    funext block
    unfold toolMessage
    rw [hnotes]
  rw [← h]
  unfold packChat
  rw [hloaded, hloaded', Loop.ok_bind, Loop.ok_bind, hblocks]
  simp only [packSide_eq hnotes hblocks, hrecent, htool]

/-- Both renderers render every selected block once, in its section and in id order, and nothing but headers and the
task besides; the order of the selection and of the selections is not seen. -/
theorem packing_exact (hone : OneNote plan) :
    (∀ prompt, k.pack clock request plan = .ok prompt → k.Renders clock request plan prompt ∧
      ∀ plan', Reordered plan plan' → k.pack clock request plan' = .ok prompt) ∧
    ∀ chat, k.packChat clock request plan = .ok chat → k.RendersChat clock request plan chat ∧
      ∀ plan', Reordered plan plan' → k.packChat clock request plan' = .ok chat :=
  ⟨fun _ h => ⟨pack_renders h, fun _ hsame => pack_reordered hone hsame h⟩,
    fun _ h => ⟨packChat_renders h, fun _ hsame => packChat_reordered hone hsame h⟩⟩

/-- A plan that notes the document. -/
def notedPlan (selected : List BlockId) : PagePlan :=
  ⟨selected, [⟨⟨2⟩, 0, .highRelevance, some "see"⟩], [], .zero⟩

theorem packing_exact_sample :
    ∃ prompt chat, chatPacker.pack ⟨0, by decide⟩ (chatRequest "a") (notedPlan [⟨3⟩, ⟨1⟩, ⟨2⟩]) = .ok prompt ∧
      chatPacker.packChat ⟨0, by decide⟩ (chatRequest "a") (notedPlan [⟨3⟩, ⟨1⟩, ⟨2⟩]) = .ok chat ∧
      prompt.blocks.map (·.blockId) = [⟨1⟩, ⟨3⟩, ⟨2⟩] ∧
      prompt.rendered = "## System\n\na\n\n## Task\n\na\n\n## Recent\n\na\n\n## Background\n\n[!] see\nb\n\n" ∧
      chat.messages = [⟨.system, "## System\n\na", some .system⟩, ⟨.system, "## Background\n\n[!] see\nb", some .background⟩,
        ⟨.user, "a", some .recent⟩, ⟨.user, "a", some .task⟩] ∧
      chatPacker.pack ⟨0, by decide⟩ (chatRequest "a") (notedPlan [⟨2⟩, ⟨3⟩, ⟨1⟩]) = .ok prompt ∧
      chatPacker.packChat ⟨0, by decide⟩ (chatRequest "a") (notedPlan [⟨2⟩, ⟨3⟩, ⟨1⟩]) = .ok chat := by
  have hone : OneNote (notedPlan [⟨3⟩, ⟨1⟩, ⟨2⟩]) := by
    intro sel hsel sel' hsel' _ note note' h h'
    rw [List.mem_singleton.mp hsel] at h
    rw [List.mem_singleton.mp hsel'] at h'
    exact Option.some.inj (h.symm.trans h')
  have hsame : Reordered (notedPlan [⟨3⟩, ⟨1⟩, ⟨2⟩]) (notedPlan [⟨2⟩, ⟨3⟩, ⟨1⟩]) := ⟨by decide, .refl _⟩
  have hok : (chatPacker.pack ⟨0, by decide⟩ (chatRequest "a") (notedPlan [⟨3⟩, ⟨1⟩, ⟨2⟩])).toOption.isSome := by
    decide +kernel
  have hok' : (chatPacker.packChat ⟨0, by decide⟩ (chatRequest "a") (notedPlan [⟨3⟩, ⟨1⟩, ⟨2⟩])).toOption.isSome := by
    decide +kernel
  obtain ⟨prompt, hprompt⟩ := Option.isSome_iff_exists.mp hok
  obtain ⟨chat, hchat⟩ := Option.isSome_iff_exists.mp hok'
  rw [Loop.toOption_eq_some] at hprompt hchat
  obtain ⟨hpack, hpackChat⟩ := packing_exact hone
  obtain ⟨hrenders, hreordered⟩ := hpack prompt hprompt
  obtain ⟨hrendersChat, hreorderedChat⟩ := hpackChat chat hchat
  refine ⟨prompt, chat, hprompt, hchat, ?_, ?_, ?_, hreordered _ hsame, hreorderedChat _ hsame⟩
  · rw [hrenders.listed]
    decide +kernel
  · rw [hrenders.rendered]
    decide +kernel
  · rw [hrendersChat.messages]
    decide +kernel

end Llm386.SimplePacker
