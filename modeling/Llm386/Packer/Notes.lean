import Llm386.Packer.Rendering

/-! # What notes leave in a prompt

A note is written before its block and has characters that no trimming removes. A rendering without the notes is
therefore the same exactly where no selected block has one: the prompts differ in their ink, the characters that are
not white space. -/

namespace Llm386

/-! ### Ink -/

/-- The characters that are not white space. -/
def ink (s : String) : Nat := s.toList.countP (!isWhitespace ·)

@[simp] theorem ink_empty : ink "" = 0 := rfl

@[simp] theorem ink_append (a b : String) : ink (a ++ b) = ink a + ink b := by
  rw [ink, String.toList_append, List.countP_append]
  rfl

theorem ink_join (l : List String) : ink (String.join l) = (l.map ink).sum := by
  induction l with
  | nil => rfl
  | cons s l ih => rw [String.join_cons, ink_append, ih, List.map_cons, List.sum_cons]

/-- Trimming takes white space only. -/
theorem ink_trimEnd (s : String) : ink (trimEnd s) = ink s := by
  have hcount : ∀ l : List Char, (l.rdropWhile isWhitespace).countP (!isWhitespace ·) = l.countP (!isWhitespace ·) := by
    intro l
    induction l using List.reverseRecOn with
    | nil => rfl
    | append_singleton l c ih =>
      by_cases hc : isWhitespace c = true
      · rw [List.rdropWhile_concat_pos _ _ _ hc, ih, List.countP_append]
        simp [hc]
      · rw [List.rdropWhile_concat_neg _ _ _ hc]
  rw [ink, trimEnd, String.toList_ofList, hcount]
  rfl

theorem ink_noteText (note : Option String) : ink (noteText note) = 0 ↔ note = none := by
  cases note with
  | none => exact iff_of_true rfl rfl
  | some note =>
    have hmark : ink "[!] " = 3 := by decide +kernel
    simp only [noteText, ink_append, hmark]
    constructor
    · intro h
      omega
    · intro h
      cases h

namespace SimplePacker

variable {k : SimplePacker} {clock : Timestamp} {request : PageRequest} {plan : PagePlan}
  {notes : List (BlockId × String)} {s : SectionKind} {block : ContextBlock}

/-! ### The ink of the notes -/

/-- The plan without what the packer reads besides the selected ids. -/
def bare (plan : PagePlan) : PagePlan := { plan with selections := [], omitted := [] }

/-- The ink of the notes of a section. -/
def marks (k : SimplePacker) (plan : PagePlan) (s : SectionKind) : Nat :=
  ((k.chosen plan s).map fun b => ink (noteText ((collectNotes plan).lookup b.id))).sum

theorem ink_renderBlock (k : SimplePacker) (notes : List (BlockId × String)) (block : ContextBlock) :
    ink (k.renderBlock notes block) = ink (k.renderBlock [] block) + ink (noteText (notes.lookup block.id)) := by
  have hnone : noteText (([] : List (BlockId × String)).lookup block.id) = "" := rfl
  simp only [renderBlock, blockPrefix, ink_append, hnone, ink_empty]
  omega

theorem sum_renderBlocks (k : SimplePacker) (notes : List (BlockId × String)) (blocks : List ContextBlock) :
    ((blocks.map (k.renderBlock notes)).map ink).sum = ((blocks.map (k.renderBlock [])).map ink).sum +
      (blocks.map fun b => ink (noteText (notes.lookup b.id))).sum := by
  rw [List.map_map, List.map_map, ← List.sum_map_add]
  exact congrArg List.sum (List.map_congr_left fun b _ => ink_renderBlock k notes b)

theorem ink_renderSection (k : SimplePacker) (clock : Timestamp) (task : String) (plan : PagePlan) (s : SectionKind) :
    ink (k.renderSection clock task (collectNotes plan) (k.chosen plan) s) =
      ink (k.renderSection clock task [] (k.chosen plan) s) + k.marks plan s := by
  have hblocks : ∀ s, ink (k.renderBlocks (collectNotes plan) s (k.chosen plan s)) =
      ink (k.renderBlocks [] s (k.chosen plan s)) + k.marks plan s := by
    intro s
    unfold renderBlocks marks
    split
    · rename_i hempty
      rw [List.isEmpty_iff.mp hempty]
      rfl
    · rw [ink_append, ink_append, ink_join, ink_join, sum_renderBlocks, Nat.add_assoc]
  have hnothing : ∀ s, s = .task ∨ s = .slack → k.marks plan s = 0 := by
    intro s hs
    rw [marks, chosen, sectionBlocks_eq_nil hs]
    rfl
  cases s with
  | task => rw [hnothing .task (.inl rfl)]; rfl
  | slack => rw [hnothing .slack (.inr rfl)]; rfl
  | _ => exact hblocks _

/-- What the notes add to a prompt. -/
theorem ink_rendered {prompt bareOne : PackedPrompt} (h : k.pack clock request plan = .ok prompt)
    (hbare : k.pack clock request (bare plan) = .ok bareOne) :
    ink prompt.rendered = ink bareOne.rendered + (SECTION_ORDER.map (k.marks plan)).sum := by
  have hnotes : collectNotes (bare plan) = [] := rfl
  have hchosen : k.chosen (bare plan) = k.chosen plan := rfl
  rw [(pack_renders h).rendered, (pack_renders hbare).rendered, hnotes, hchosen, ink_join, ink_join, List.map_map,
    List.map_map, ← List.sum_map_add]
  exact congrArg List.sum (List.map_congr_left fun s _ => ink_renderSection k clock request.task plan s)

/-! ### The ink of a chat -/

theorem ink_renderSide (k : SimplePacker) (role : ChatRole) (plan : PagePlan) (s : SectionKind) :
    ink (k.renderSide role (collectNotes plan) s (k.chosen plan s)).content =
      ink (k.renderSide role [] s (k.chosen plan s)).content + k.marks plan s := by
  rw [renderSide, renderSide, marks]
  simp only [ink_trimEnd, ink_append, ink_join]
  rw [sum_renderBlocks]
  omega

theorem ink_renderRecent (k : SimplePacker) (notes : List (BlockId × String)) (block : ContextBlock) :
    ink (k.renderRecent notes block).content =
      ink (k.renderRecent [] block).content + ink (noteText (notes.lookup block.id)) := by
  have hnone : noteText (([] : List (BlockId × String)).lookup block.id) = "" := rfl
  unfold renderRecent
  split
  · simp only [ink_append, hnone, ink_empty]
    omega
  · simp only [ink_append, hnone, ink_empty]
    omega

theorem ink_renderTool (k : SimplePacker) (notes : List (BlockId × String)) (block : ContextBlock) :
    ink (k.renderTool notes block).content =
      ink (k.renderTool [] block).content + ink (noteText (notes.lookup block.id)) := by
  have hnone : noteText (([] : List (BlockId × String)).lookup block.id) = "" := rfl
  simp only [renderTool, ink_append, hnone, ink_empty]
  omega

/-- All ink of a chat. -/
def chatInk (messages : List ChatMessage) : Nat := (messages.map fun m => ink m.content).sum

theorem chatInk_map_add {α : Type} {f g : α → ChatMessage} {h : α → Nat} {l : List α}
    (hfg : ∀ a ∈ l, ink (f a).content = ink (g a).content + h a) :
    chatInk (l.map f) = chatInk (l.map g) + (l.map h).sum := by
  rw [chatInk, chatInk, List.map_map, List.map_map, ← List.sum_map_add]
  exact congrArg List.sum (List.map_congr_left hfg)

@[simp] theorem chatInk_append (l l' : List ChatMessage) : chatInk (l ++ l') = chatInk l + chatInk l' := by
  simp [chatInk]

/-- What the notes add to a chat. -/
theorem ink_messages {chat bareOne : ChatPrompt} (h : k.packChat clock request plan = .ok chat)
    (hbare : k.packChat clock request (bare plan) = .ok bareOne) :
    chatInk chat.messages = chatInk bareOne.messages +
      (((k.orderedSides.filter fun s => !(k.chosen plan s).isEmpty).map (k.marks plan)).sum +
        k.marks plan .recent + k.marks plan .tools) := by
  have hnotes : collectNotes (bare plan) = [] := rfl
  have hchosen : k.chosen (bare plan) = k.chosen plan := rfl
  have hsides := chatInk_map_add (l := k.orderedSides.filter fun s => !(k.chosen plan s).isEmpty) fun s _ =>
    ink_renderSide k (if request.model.supportsSystemRole then .system else .user) plan s
  have hrecent := chatInk_map_add (l := k.chosen plan .recent) fun b _ => ink_renderRecent k (collectNotes plan) b
  have htools := chatInk_map_add (l := k.chosen plan .tools) fun b _ => ink_renderTool k (collectNotes plan) b
  rw [(packChat_renders h).messages, (packChat_renders hbare).messages, hnotes, hchosen]
  simp only [chatInk_append, hsides, hrecent, htools, marks]
  omega

/-! ### Renderings without the notes -/

/-- No selection has a note. -/
def Unnoted (plan : PagePlan) : Prop := ∀ sel ∈ plan.selections, sel.note = none

theorem collectNotes_of_unnoted (h : Unnoted plan) : collectNotes plan = [] := by
  rw [collectNotes, List.reverse_eq_nil_iff, List.filterMap_eq_nil_iff]
  intro sel hsel
  rw [h sel hsel]
  rfl

/-- Where the selected blocks have no marks, no selection of them has a note. -/
theorem unnoted_of_marks (k : SimplePacker) (hlock : plan.selections.map (·.blockId) = plan.selected)
    (hall : ∀ id ∈ plan.selected, ∃ s, k.marks plan s = 0 ∧ id ∈ (k.chosen plan s).map (·.id)) : Unnoted plan := by
  intro sel hsel
  have hid : sel.blockId ∈ plan.selected := hlock ▸ List.mem_map_of_mem hsel
  obtain ⟨s, hmarks, hchosen⟩ := hall sel.blockId hid
  obtain ⟨b, hb, heq⟩ := List.mem_map.mp hchosen
  have hnone := (ink_noteText _).mp (List.sum_eq_zero_iff.mp hmarks _ (List.mem_map_of_mem hb))
  rw [heq, List.lookup_eq_none_iff] at hnone
  cases hnote : sel.note with
  | none => rfl
  | some note =>
    have hentry : (sel.blockId, note) ∈ collectNotes plan :=
      List.mem_reverse.mpr (List.mem_filterMap.mpr ⟨sel, hsel, by rw [hnote]; rfl⟩)
    exact absurd (hnone _ hentry) (by simp)

/-- Where no selection has a note, the selections are not read. -/
theorem pack_bare (h : Unnoted plan) : k.pack clock request (bare plan) = k.pack clock request plan := by
  have hnotes : collectNotes (bare plan) = collectNotes plan := (collectNotes_of_unnoted h).symm
  rw [pack, pack, hnotes]
  rfl

theorem packChat_bare (h : Unnoted plan) : k.packChat clock request (bare plan) = k.packChat clock request plan := by
  have hnotes : collectNotes (bare plan) = collectNotes plan := (collectNotes_of_unnoted h).symm
  rw [packChat, packChat, hnotes]
  rfl

/-- A plan that renders to the same text without its selections has no note. -/
theorem unnoted_of_pack_bare {prompt bareOne : PackedPrompt} (hlock : plan.selections.map (·.blockId) = plan.selected)
    (h : k.pack clock request plan = .ok prompt) (hbare : k.pack clock request (bare plan) = .ok bareOne)
    (hsame : bareOne.rendered = prompt.rendered) : Unnoted plan := by
  have hink := ink_rendered h hbare
  rw [hsame, Nat.left_eq_add, List.sum_eq_zero_iff] at hink
  refine unnoted_of_marks k hlock fun id hid => ?_
  have hrenders := pack_renders h
  have hlisted := hrenders.complete.mem_iff.mpr hid
  rw [hrenders.listed] at hlisted
  obtain ⟨s, hs, hmem⟩ := List.mem_flatMap.mp hlisted
  exact ⟨s, hink _ (List.mem_map_of_mem hs), hmem⟩

theorem unnoted_of_packChat_bare {chat bareOne : ChatPrompt} (hlock : plan.selections.map (·.blockId) = plan.selected)
    (h : k.packChat clock request plan = .ok chat) (hbare : k.packChat clock request (bare plan) = .ok bareOne)
    (hsame : bareOne.messages.map (·.content) = chat.messages.map (·.content)) : Unnoted plan := by
  have hink := ink_messages h hbare
  have hcontents : ∀ messages, chatInk messages = ((messages.map (·.content)).map ink).sum := fun messages => by
    rw [chatInk, List.map_map]
    rfl
  rw [hcontents, hcontents, hsame, Nat.left_eq_add, Nat.add_eq_zero_iff, Nat.add_eq_zero_iff,
    List.sum_eq_zero_iff] at hink
  obtain ⟨⟨hsides, hrecent⟩, htools⟩ := hink
  refine unnoted_of_marks k hlock fun id hid => ?_
  obtain ⟨s, hs, hmem⟩ := List.mem_flatMap.mp ((packChat_renders h).complete.mem_iff.mpr hid)
  refine ⟨s, ?_, hmem⟩
  rcases List.mem_append.mp hs with hs | hs
  · have hsome : (!(k.chosen plan s).isEmpty) = true := by
      obtain ⟨b, hb, -⟩ := List.mem_map.mp hmem
      cases hchosen : k.chosen plan s with
      | nil =>
        rw [hchosen] at hb
        cases hb
      | cons b' l => rfl
    exact hsides _ (List.mem_map_of_mem (List.mem_filter.mpr ⟨hs, hsome⟩))
  · simp only [List.mem_cons, List.not_mem_nil, or_false] at hs
    rcases hs with rfl | rfl
    · exact hrecent
    · exact htools

/-! ### The time of a call -/

/-- A fixed anchor leaves nothing to the clock. -/
theorem nowMs_of_fixed {now : Timestamp} (hnow : k.options.nowMs = some now) (clock : Timestamp) : k.nowMs clock = now := by
  rw [nowMs, hnow]
  rfl

theorem pack_of_fixed {now : Timestamp} (hnow : k.options.nowMs = some now) (clock clock' : Timestamp) :
    k.pack clock request plan = k.pack clock' request plan := by
  have htask : k.taskPrefix clock = k.taskPrefix clock' := by
    rw [taskPrefix, taskPrefix, nowMs_of_fixed hnow, nowMs_of_fixed hnow]
  have hsection : ∀ loaded notes, k.packSection clock request.task loaded notes =
      k.packSection clock' request.task loaded notes := by
    intro loaded notes
    funext acc s
    cases s with
    | task => rw [packSection, packSection, htask]
    | _ => rfl
  unfold pack
  simp only [hsection]

theorem packChat_of_fixed {now : Timestamp} (hnow : k.options.nowMs = some now) (clock clock' : Timestamp) :
    k.packChat clock request plan = k.packChat clock' request plan := by
  have htask : k.taskMessages clock request.task = k.taskMessages clock' request.task := by
    rw [taskMessages, taskMessages, nowMs_of_fixed hnow, nowMs_of_fixed hnow]
  unfold packChat
  simp only [htask]

end SimplePacker
end Llm386
