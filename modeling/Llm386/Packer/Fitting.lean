import Llm386.Packer.Simple
import Llm386.Pager.Accounting

/-! # Plans that fit when packed

The pager charges the bodies of the blocks and the task; the packer counts the text it renders, which also has
headers, separators, notes and timestamps. For an additive tokenizer the two totals differ by exactly these. -/

namespace Llm386

/-- The tokens of a text are those of its parts; the count itself is capped at `u32::MAX`. -/
structure Tokenizer.Additive (tokenizer : Tokenizer) (weight : Bytes → Nat) : Prop where
  append : ∀ x y, weight (x ++ y) = weight x + weight y
  count : ∀ bytes, tokenizer.count bytes = .ok (.saturate (weight bytes))

theorem byteTokenizer_additive : byteTokenizer.Additive List.length where
  append _ _ := List.length_append
  count _ := rfl

/-- Stored counts are those of the tokenizer, and bodies are text. -/
structure BlockStore.Counted (store : BlockStore) (tokenizer : Tokenizer) : Prop where
  counts : ∀ {id b n}, store.get id = .ok (some b) → b.tokenCounts[tokenizer.id]? = some n →
    tokenizer.count b.bytes = .ok n
  utf8 : ∀ {id b}, store.get id = .ok (some b) → (String.fromUTF8? ⟨b.bytes.toArray⟩).isSome

theorem asBytes_append (a b : String) : asBytes (a ++ b) = asBytes a ++ asBytes b := by
  simp [asBytes, String.toByteArray_append]

namespace SimplePacker
variable {k : SimplePacker} {weight : Bytes → Nat} {clock : Timestamp} {task : String} {loaded : List ContextBlock}
  {notes : List (BlockId × String)}

/-- What the packer writes around the body of a block. -/
def blockFrame (k : SimplePacker) (weight : Bytes → Nat) (notes : List (BlockId × String)) (block : ContextBlock) : Nat :=
  weight (asBytes (k.blockPrefix notes block)) + weight (asBytes "\n\n")

/-- What the packer writes in a section besides the bodies and the task. -/
def sectionFrame (k : SimplePacker) (weight : Bytes → Nat) (clock : Timestamp) (task : String)
    (loaded : List ContextBlock) (notes : List (BlockId × String)) : SectionKind → Nat
  | .slack => 0
  | .task => if task.isEmpty then 0 else weight (asBytes (k.taskPrefix clock)) + weight (asBytes "\n\n")
  | s =>
    let blocks := sectionBlocks loaded s
    if blocks.isEmpty then 0
    else weight (asBytes (headerText s)) + (blocks.map (k.blockFrame weight notes)).sum

/-- The bodies and the task of a section. -/
def sectionContent (weight : Bytes → Nat) (task : String) (loaded : List ContextBlock) : SectionKind → Nat
  | .slack => 0
  | .task => if task.isEmpty then 0 else weight (asBytes task)
  | s => ((sectionBlocks loaded s).map fun b => weight b.bytes).sum

/-- The tokens of headers, separators, notes, timestamps and the current time. -/
def overhead (k : SimplePacker) (weight : Bytes → Nat) (clock : Timestamp) (request : PageRequest) (plan : PagePlan) :
    Nat :=
  match plan.selected.mapM k.loadBlock with
  | .ok loaded => (SECTION_ORDER.map (k.sectionFrame weight clock request.task loaded (collectNotes plan))).sum
  | .error _ => 0

section Render
variable (hadd : k.tokenizer.Additive weight)
include hadd

/-- A rendered block adds its frame and its body. -/
theorem packBlock_weight (notes : List (BlockId × String)) (s : SectionKind) (acc : Rendered) {block : ContextBlock}
    (hutf8 : (String.fromUTF8? ⟨block.bytes.toArray⟩).isSome) : ∃ acc', k.packBlock notes s acc block = .ok acc' ∧
      weight (asBytes acc'.1) = weight (asBytes acc.1) + (k.blockFrame weight notes block + weight block.bytes) := by
  obtain ⟨body, hbody⟩ := Option.isSome_iff_exists.mp hutf8
  refine ⟨_, by simp only [packBlock, blockText, hbody, hadd.count, Loop.ok_bind, Except.mapError]; rfl, ?_⟩
  simp only [asBytes_append, hadd.append, asBytes_of_fromUTF8 hbody, blockFrame]
  omega

theorem packBlocks_weight (notes : List (BlockId × String)) (s : SectionKind) {blocks : List ContextBlock}
    (acc : Rendered)
    (hutf8 : ∀ b ∈ blocks, (String.fromUTF8? ⟨b.bytes.toArray⟩).isSome) :
    ∃ acc', blocks.foldlM (k.packBlock notes s) acc = .ok acc' ∧ weight (asBytes acc'.1) =
      weight (asBytes acc.1) + ((blocks.map (k.blockFrame weight notes)).sum + (blocks.map fun b => weight b.bytes).sum) := by
  induction blocks generalizing acc with
  | nil => exact ⟨acc, rfl, by simp⟩
  | cons block blocks ih =>
    obtain ⟨u, hu, hweight⟩ := packBlock_weight hadd notes s acc (hutf8 block List.mem_cons_self)
    obtain ⟨acc', hacc, hrest⟩ := ih u fun b hb => hutf8 b (List.mem_cons_of_mem _ hb)
    refine ⟨acc', Loop.foldlM_cons_eq_ok.mpr ⟨u, hu, hacc⟩, ?_⟩
    simp only [List.map_cons, List.sum_cons]
    omega

/-- A rendered section adds its frame and its content. -/
theorem packSection_weight (clock : Timestamp) (task : String) (notes : List (BlockId × String)) (s : SectionKind)
    (acc : Rendered)
    (hutf8 : ∀ b ∈ loaded, (String.fromUTF8? ⟨b.bytes.toArray⟩).isSome) :
    ∃ acc', k.packSection clock task loaded notes acc s = .ok acc' ∧ weight (asBytes acc'.1) =
      weight (asBytes acc.1) + (k.sectionFrame weight clock task loaded notes s + sectionContent weight task loaded s) := by
  have hblocks : ∀ s, ∀ b ∈ sectionBlocks loaded s, (String.fromUTF8? ⟨b.bytes.toArray⟩).isSome := fun s b hb =>
    hutf8 b (List.mem_filter.mp ((List.perm_insertionSort _ _).mem_iff.mp hb)).1
  have hsection : ∀ s, ∃ acc' : Rendered, (if (sectionBlocks loaded s).isEmpty then .ok acc
      else (sectionBlocks loaded s).foldlM (k.packBlock notes s) (acc.1 ++ headerText s, acc.2)) = Except.ok acc' ∧
      weight (asBytes acc'.1) = weight (asBytes acc.1) +
        ((if (sectionBlocks loaded s).isEmpty then 0
          else weight (asBytes (headerText s)) + ((sectionBlocks loaded s).map (k.blockFrame weight notes)).sum) +
        ((sectionBlocks loaded s).map fun b => weight b.bytes).sum) := by
    intro s
    split
    · rename_i hempty
      exact ⟨acc, rfl, by simp [List.isEmpty_iff.mp hempty]⟩
    · obtain ⟨acc', hacc, hweight⟩ := packBlocks_weight hadd notes s
        (acc.1 ++ headerText s, acc.2) (hblocks s)
      refine ⟨acc', hacc, ?_⟩
      simp only [asBytes_append, hadd.append] at hweight
      omega
  cases s with
  | slack => exact ⟨acc, rfl, by simp [sectionFrame, sectionContent]⟩
  | task =>
    refine ⟨_, rfl, ?_⟩
    simp only [sectionFrame, sectionContent]
    split
    · rfl
    · simp only [asBytes_append, hadd.append]
      omega
  | _ => exact hsection _

end Render

/-! ### The whole prompt -/

/-- Each block is rendered in one section, so the contents of all sections are the task and the bodies. -/
theorem sum_sectionContent (weight : Bytes → Nat) (task : String) (loaded : List ContextBlock) :
    (SECTION_ORDER.map (sectionContent weight task loaded)).sum =
      (if task.isEmpty then 0 else weight (asBytes task)) + (loaded.map fun b => weight b.bytes).sum := by
  have hperm : ∀ s, ((sectionBlocks loaded s).map fun b => weight b.bytes).sum =
      ((loaded.filter (·.kind.defaultSection = s)).map fun b => weight b.bytes).sum := fun s =>
    ((List.perm_insertionSort _ _).map _).sum_eq
  have hsplit : ∀ l : List ContextBlock, (l.map fun b => weight b.bytes).sum =
      ([SectionKind.system, .state, .plan, .retrieved, .tools, .recent, .background].map fun s =>
        ((l.filter (·.kind.defaultSection = s)).map fun b => weight b.bytes).sum).sum := by
    intro l
    induction l with
    | nil => rfl
    | cons b l ih =>
      simp only [List.map_cons, List.sum_cons, ih, List.map_nil, List.sum_nil, List.filter_cons]
      cases b.kind <;> simp [BlockKind.defaultSection] <;> omega
  rw [hsplit loaded]
  simp only [SECTION_ORDER, List.map_cons, List.map_nil, List.sum_cons, List.sum_nil, sectionContent, hperm]
  omega

theorem loadBlock_ok {id : BlockId} {b : ContextBlock} (h : k.store.get id = .ok (some b)) :
    k.loadBlock id = .ok b := by
  simp only [loadBlock, h, Except.mapError, Loop.ok_bind]
  rfl

/-- Rendering stored blocks of text succeeds, and the count is that of the frames, the bodies and the task. -/
theorem pack_eq (hadd : k.tokenizer.Additive weight) (clock : Timestamp) (request : PageRequest) {plan : PagePlan}
    (hloaded : plan.selected.mapM k.loadBlock = .ok loaded)
    (hutf8 : ∀ b ∈ loaded, (String.fromUTF8? ⟨b.bytes.toArray⟩).isSome) :
    ∃ rendered blocks, let total : TokenCount := .saturate ((if request.task.isEmpty then 0 else weight (asBytes request.task)) +
        (loaded.map fun b => weight b.bytes).sum + k.overhead weight clock request plan)
      k.pack clock request plan = if request.model.inputBudget < total then
          .error (.budgetExceeded total request.model.inputBudget)
        else .ok ⟨request.model.name, total, blocks, rendered⟩ := by
  let frame := k.sectionFrame weight clock request.task loaded (collectNotes plan)
  let content := sectionContent weight request.task loaded
  let P : Rendered → List SectionKind → Prop := fun acc rest =>
    weight (asBytes acc.1) + (rest.map fun s => frame s + content s).sum =
      (SECTION_ORDER.map fun s => frame s + content s).sum
  have hempty : weight (asBytes "") = 0 := by
    have hsplit := hadd.append [] []
    have hnil : asBytes "" = [] := rfl
    rw [List.append_nil] at hsplit
    rw [hnil]
    omega
  obtain ⟨⟨rendered, blocks⟩, hrender, hweight⟩ := Loop.foldlM_total (P := P)
    (f := k.packSection clock request.task loaded (collectNotes plan)) (l := SECTION_ORDER) (s := ("", []))
    (fun s rest acc hP => by
      obtain ⟨acc', hacc, hweight⟩ := packSection_weight hadd clock request.task
        (collectNotes plan) s acc hutf8
      refine ⟨acc', hacc, ?_⟩
      simp only [P, frame, content, List.map_cons, List.sum_cons] at hP ⊢
      omega)
    (by simp [P, hempty])
  refine ⟨rendered, blocks, ?_⟩
  have htotal : weight (asBytes rendered) = (if request.task.isEmpty then 0 else weight (asBytes request.task)) +
      (loaded.map fun b => weight b.bytes).sum + k.overhead weight clock request plan := by
    have hsum := sum_sectionContent weight request.task loaded
    simp only [P, frame, content, List.map_nil, List.sum_nil, List.sum_map_add, Nat.add_zero] at hweight
    rw [overhead, hloaded]
    simp only
    omega
  simp only [pack, hloaded, hrender, Loop.ok_bind, hadd.count, htotal, Except.mapError]
  rfl

/-! ### A plan of the pager -/

/-- Costs capped at `u32::MAX` that add up below it are exact. -/
theorem sum_eq_of_saturate_lt {l : List Nat} (h : (l.map fun n => (TokenCount.saturate n).val).sum < 2 ^ 32 - 1) :
    (l.map fun n => (TokenCount.saturate n).val).sum = l.sum := by
  induction l with
  | nil => rfl
  | cons n l ih =>
    simp only [List.map_cons, List.sum_cons, TokenCount.saturate] at h ih ⊢
    have htail := ih (by omega)
    omega

theorem mapM_loadBlock {p : GreedyPager} (hstore : k.store = p.store) {ids : List BlockId}
    (hcosts : ∀ id ∈ ids, ∃ n, p.Costs id n) : ∃ loaded, ids.mapM k.loadBlock = .ok loaded ∧
      List.Forall₂ (fun id b => p.store.get id = .ok (some b)) ids loaded := by
  induction ids with
  | nil => exact ⟨[], rfl, .nil⟩
  | cons id ids ih =>
    obtain ⟨n, b, hb, -⟩ := hcosts id List.mem_cons_self
    have hget : p.store.get id = .ok (some b) := Loop.mapError_eq_ok.mp hb
    obtain ⟨loaded, hloaded, hall⟩ := ih fun x hx => hcosts x (List.mem_cons_of_mem _ hx)
    refine ⟨b :: loaded, ?_, .cons hget hall⟩
    rw [List.mapM_cons, loadBlock_ok (hstore ▸ hget), hloaded]
    rfl

/-- Where stored counts agree with the tokenizer, a block costs the weight of its body. -/
theorem tokensFor_eq {p : GreedyPager} (hadd : p.tokenizer.Additive weight) (hcounted : p.store.Counted p.tokenizer)
    {id : BlockId} {b : ContextBlock} (hget : p.store.get id = .ok (some b)) :
    p.tokensFor b = .ok (.saturate (weight b.bytes)) := by
  unfold GreedyPager.tokensFor
  split
  · rename_i n hn
    rw [Except.ok.inj ((hcounted.counts hget hn).symm.trans (hadd.count _))]
  · rw [hadd.count]
    rfl

theorem totalCost_eq {p : GreedyPager} (hadd : p.tokenizer.Additive weight) (hcounted : p.store.Counted p.tokenizer)
    {ids : List BlockId} (hall : List.Forall₂ (fun id b => p.store.get id = .ok (some b)) ids loaded) :
    p.totalCost ids = ((loaded.map fun b => weight b.bytes).map fun n => (TokenCount.saturate n).val).sum := by
  induction hall with
  | nil => rfl
  | @cons id b ids loaded hget _ ih =>
    have hcost : p.Costs id (.saturate (weight b.bytes)) :=
      ⟨b, by rw [GreedyPager.getBlock, hget]; rfl, tokensFor_eq hadd hcounted hget⟩
    simp [ih, hcost.tokenCost]

/-- Packing a plan of the pager exceeds the budget exactly when the task, the estimate and what the packer writes
around them do, and otherwise succeeds. -/
theorem pack_exceeds_iff {p : GreedyPager} {order : HashOrder} {request : PageRequest} {plan : PagePlan}
    (hadd : p.tokenizer.Additive weight) (hcounted : p.store.Counted p.tokenizer) (hstore : k.store = p.store)
    (htokenizer : k.tokenizer = p.tokenizer) (h : p.page order request = .ok plan) (clock : Timestamp) :
    ∃ task, p.taskTokens request.task = .ok task ∧
      let total : TokenCount :=
        .saturate (task.val + plan.estimatedTokens.val + k.overhead weight clock request plan)
      (request.model.inputBudget < total →
        ∃ n, k.pack clock request plan = .error (.budgetExceeded n request.model.inputBudget)) ∧
      (¬request.model.inputBudget < total → ∃ prompt, k.pack clock request plan = .ok prompt) := by
  obtain ⟨loaded, hloaded, hall⟩ := mapM_loadBlock hstore (GreedyPager.page_costed h)
  have hutf8 : ∀ b ∈ loaded, (String.fromUTF8? ⟨b.bytes.toArray⟩).isSome := by
    intro b hb
    obtain ⟨id, -, hget⟩ := Loop.exists_of_mem_mapM hloaded hb
    obtain ⟨found, hfound, hget⟩ := Loop.bind_eq_ok.mp hget
    cases found with
    | none => cases hget
    | some b' =>
      cases hget
      exact hcounted.utf8 (hstore ▸ Loop.mapError_eq_ok.mp hfound)
  obtain ⟨rendered, blocks, hpack⟩ :=
    pack_eq (k := k) (htokenizer ▸ hadd) clock request hloaded hutf8
  have htask : p.taskTokens request.task = .ok (.saturate (if request.task.isEmpty then 0 else weight (asBytes request.task))) := by
    unfold GreedyPager.taskTokens
    split
    · rfl
    · rw [hadd.count]
      rfl
  refine ⟨_, htask, ?_⟩
  -- The two totals are on the same side of the budget.
  have hside : request.model.inputBudget < TokenCount.saturate
      ((TokenCount.saturate (if request.task.isEmpty then 0 else weight (asBytes request.task))).val +
        plan.estimatedTokens.val + k.overhead weight clock request plan) ↔
      request.model.inputBudget < TokenCount.saturate ((if request.task.isEmpty then 0 else weight (asBytes request.task)) +
        (loaded.map fun b => weight b.bytes).sum + k.overhead weight clock request plan) := by
    by_cases hmax : request.model.inputBudget < TokenCount.max
    · obtain ⟨-, hexact, hwithin, -⟩ := GreedyPager.page_accounting hmax h
      rw [totalCost_eq hadd hcounted hall] at hexact
      rw [TokenCount.le_iff] at hwithin
      rw [TokenCount.lt_iff] at hmax
      have hsum := sum_eq_of_saturate_lt (l := loaded.map fun b => weight b.bytes)
        (by simp only [TokenCount.max] at hmax; omega)
      simp only [TokenCount.lt_iff, TokenCount.saturate, TokenCount.max] at hmax ⊢
      omega
    · simp only [TokenCount.lt_iff, TokenCount.saturate, TokenCount.max] at hmax ⊢
      omega
  simp only [hside]
  constructor
  · intro hover
    exact ⟨_, by rw [hpack, if_pos hover]⟩
  · intro hover
    exact ⟨_, by rw [hpack, if_neg hover]⟩

/-! ### A plan that exceeds the budget

One byte required and one byte of task fit in an input budget of three, but not their headers. -/

theorem ceilingPager_counted : GreedyPager.ceilingPager.store.Counted byteTokenizer := by
  have hall : ∀ b ∈ [sampleBlock ⟨1⟩ .fact [0x61] [], sampleBlock ⟨2⟩ .fact (List.replicate 50 0x61) [],
      sampleBlock ⟨3⟩ .fact [0x62] []],
      b.tokenCounts = ∅ ∧ (String.fromUTF8? ⟨b.bytes.toArray⟩).isSome = true := by
    simp only [List.forall_mem_cons]
    exact ⟨⟨rfl, by decide +kernel⟩, ⟨rfl, by decide +kernel⟩, ⟨rfl, by decide +kernel⟩, by simp⟩
  constructor
  · intro id b n hget hcount
    have hempty := (hall b (List.mem_of_find?_eq_some (Except.ok.inj hget))).1
    simp [hempty] at hcount
  · intro id b hget
    exact (hall b (List.mem_of_find?_eq_some (Except.ok.inj hget))).2

def ceilingPacker : SimplePacker := ⟨GreedyPager.ceilingPager.store, byteTokenizer, .default, fun _ => ""⟩

def tightRequest : PageRequest := { GreedyPager.ceilingRequest with model := ⟨"model", ⟨3, by decide⟩, .zero, .zero, "bytes", true⟩ }

theorem pack_exceeds_tight : GreedyPager.ceilingPager.tokenizer.Additive List.length ∧
    GreedyPager.ceilingPager.store.Counted GreedyPager.ceilingPager.tokenizer ∧
    ceilingPacker.store = GreedyPager.ceilingPager.store ∧
    ceilingPacker.tokenizer = GreedyPager.ceilingPager.tokenizer ∧
    ∃ plan, GreedyPager.ceilingPager.page .canonical tightRequest = .ok plan ∧
      ∃ n, ceilingPacker.pack ⟨0, by decide⟩ tightRequest plan = .error (.budgetExceeded n tightRequest.model.inputBudget) := by
  refine ⟨byteTokenizer_additive, ceilingPager_counted, rfl, rfl, ?_⟩
  have hrun : (GreedyPager.ceilingPager.page .canonical tightRequest).toOption.map
      (fun plan => match ceilingPacker.pack ⟨0, by decide⟩ tightRequest plan with
        | .error e => decide (e = .budgetExceeded ⟨29, by decide⟩ tightRequest.model.inputBudget)
        | .ok _ => false) = some true := by decide +kernel
  cases hplan : GreedyPager.ceilingPager.page .canonical tightRequest with
  | error e => simp [hplan, Except.toOption] at hrun
  | ok plan =>
    refine ⟨plan, rfl, ⟨29, by decide⟩, ?_⟩
    simp only [hplan, Except.toOption, Option.map_some, Option.some.injEq] at hrun
    split at hrun
    · rename_i e he
      rw [he, of_decide_eq_true hrun]
    · cases hrun

theorem pack_exceeds_sample : ∃ plan, GreedyPager.ceilingPager.page .canonical GreedyPager.ceilingRequest = .ok plan ∧
    plan.selected = [⟨1⟩, ⟨3⟩] ∧ ∃ task, GreedyPager.ceilingPager.taskTokens "a" = .ok task ∧
      (¬GreedyPager.ceilingRequest.model.inputBudget < TokenCount.saturate (task.val + plan.estimatedTokens.val +
          ceilingPacker.overhead List.length ⟨0, by decide⟩ GreedyPager.ceilingRequest plan) →
        ∃ prompt, ceilingPacker.pack ⟨0, by decide⟩ GreedyPager.ceilingRequest plan = .ok prompt) := by
  obtain ⟨plan, hplan, hselected⟩ := GreedyPager.exists_plan GreedyPager.ceilingPager .canonical
    GreedyPager.ceilingRequest [⟨1⟩, ⟨3⟩] (by decide +kernel)
  obtain ⟨task, htask, -, hfits⟩ := pack_exceeds_iff (k := ceilingPacker) byteTokenizer_additive ceilingPager_counted rfl rfl
    hplan ⟨0, by decide⟩
  exact ⟨plan, hplan, hselected, task, htask, hfits⟩

end SimplePacker

end Llm386
