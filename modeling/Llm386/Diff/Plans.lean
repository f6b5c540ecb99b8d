import Llm386.Core.Page
import Llm386.Lib.Loop

/-! # Diffs between plans

`llm386-diff/src/lib.rs`: which blocks a plan has beyond an earlier one, which it lost, and which both have and for
what reasons. The hash maps from ids to reasons are iterated in orders of their own. -/

namespace Llm386

/-! ### The code -/

/-- A block in a diff, with the reason for it in either plan. -/
structure DiffEntry where
  blockId : BlockId
  reasonPrev : Option SelectionReason
  reasonNext : Option SelectionReason
deriving DecidableEq

structure PromptDiff where
  added : List DiffEntry
  removed : List DiffEntry
  /-- Blocks of both plans, also those whose reason changed. -/
  kept : List DiffEntry
  tokenDelta : Int
deriving DecidableEq

def DiffEntry.reasonChanged (e : DiffEntry) : Bool := e.reasonPrev ≠ e.reasonNext

def PromptDiff.isNoop (d : PromptDiff) : Bool :=
  d.added.isEmpty && d.removed.isEmpty && d.kept.all fun e => !e.reasonChanged

/-- `HashMap<BlockId, SelectionReason>`. -/
abbrev ReasonMap := Std.ExtTreeMap BlockId SelectionReason compare

/-- The order in which a hash map is iterated. -/
structure ReasonOrder where
  entries : List (BlockId × SelectionReason) → List (BlockId × SelectionReason)
  perm : ∀ l, (entries l).Perm l

/-- The order of the ids. -/
def ReasonOrder.canonical : ReasonOrder := ⟨id, fun l => .refl l⟩

/-- Plans without selections date from before the field. -/
def reasonsById (plan : PagePlan) : ReasonMap :=
  if plan.selections.isEmpty then
    plan.selected.foldl (fun map id => map.insert id .highRelevance) ∅
  else
    let map := plan.selections.foldl (fun map sel => map.insert sel.blockId sel.reason) ∅
    plan.selected.foldl (fun map id => map.insertIfNew id .highRelevance) map

def tokenDelta (prev next : TokenCount) : Int := next.val - prev.val

/-- A block of the later plan goes to `kept` or to `added`. -/
def diffNext (prevReasons : ReasonMap) (acc : List DiffEntry × List DiffEntry) (e : BlockId × SelectionReason) :
    List DiffEntry × List DiffEntry :=
  match prevReasons[e.1]? with
  | some reasonPrev => (acc.1 ++ [⟨e.1, some reasonPrev, some e.2⟩], acc.2)
  | none => (acc.1, acc.2 ++ [⟨e.1, none, some e.2⟩])

/-- A block of the earlier plan goes to `removed` where the later one has it not. -/
def diffPrev (nextReasons : ReasonMap) (removed : List DiffEntry) (e : BlockId × SelectionReason) : List DiffEntry :=
  if e.1 ∈ nextReasons then removed else removed ++ [⟨e.1, some e.2, none⟩]

def sortByBlockId (entries : List DiffEntry) : List DiffEntry := entries.insertionSort (·.blockId ≤ ·.blockId)

def diffPlans (prevOrder nextOrder : ReasonOrder) (prev next : PagePlan) : PromptDiff :=
  let prevReasons := reasonsById prev
  let nextReasons := reasonsById next
  let (kept, added) := (nextOrder.entries nextReasons.toList).foldl (diffNext prevReasons) ([], [])
  let removed := (prevOrder.entries prevReasons.toList).foldl (diffPrev nextReasons) []
  ⟨sortByBlockId added, sortByBlockId removed, sortByBlockId kept, tokenDelta prev.estimatedTokens next.estimatedTokens⟩

/-! ### What a diff is to say -/

/-- The reason a plan gives for a block, if it has the block. -/
def PagePlan.reasonOf (plan : PagePlan) (id : BlockId) : Option SelectionReason :=
  match plan.selections.find? (·.blockId = id) with
  | some sel => some sel.reason
  | none => if id ∈ plan.selected then some .highRelevance else none

/-- The ids of a plan, in either of its lists. -/
def PagePlan.blockIds (plan : PagePlan) : List BlockId := plan.selected ++ plan.selections.map (·.blockId)

/-- No id carries two different reasons. -/
def PagePlan.OneReason (plan : PagePlan) : Prop :=
  ∀ s ∈ plan.selections, ∀ s' ∈ plan.selections, s.blockId = s'.blockId → s.reason = s'.reason

instance (plan : PagePlan) : Decidable plan.OneReason := by unfold PagePlan.OneReason; infer_instance

/-- The plans differ in the order of their lists alone, or in what they omit. -/
structure PagePlan.Rearranges (plan plan' : PagePlan) : Prop where
  selected : plan.selected.Perm plan'.selected
  selections : plan.selections.Perm plan'.selections
  tokens : plan.estimatedTokens = plan'.estimatedTokens

/-- The map from ids to reasons that a diff makes of another. -/
def PromptDiff.patch (d : PromptDiff) (reasons : BlockId → Option SelectionReason) : BlockId → Option SelectionReason :=
  let dropped := d.removed.foldl (fun map (e : DiffEntry) => Function.update map e.blockId none) reasons
  (d.added ++ d.kept).foldl (fun map (e : DiffEntry) => Function.update map e.blockId e.reasonNext) dropped

def DiffEntry.mirror (e : DiffEntry) : DiffEntry := ⟨e.blockId, e.reasonNext, e.reasonPrev⟩

/-- The diff in the other direction. -/
def PromptDiff.mirror (d : PromptDiff) : PromptDiff :=
  ⟨d.removed.map (·.mirror), d.added.map (·.mirror), d.kept.map (·.mirror), -d.tokenDelta⟩

def PromptDiff.entries (d : PromptDiff) : List DiffEntry := d.added ++ d.removed ++ d.kept

/-- Strictly ascending ids. -/
def Ascending (l : List DiffEntry) : Prop := l.Pairwise (·.blockId < ·.blockId)

/-- A diff is a patch from one plan to the other. -/
structure IsPatch (prev next : PagePlan) (d : PromptDiff) : Prop where
  added_ascending : Ascending d.added
  removed_ascending : Ascending d.removed
  kept_ascending : Ascending d.kept
  nodup : (d.entries.map (·.blockId)).Nodup
  mem_added : ∀ id, id ∈ d.added.map (·.blockId) ↔ id ∈ next.blockIds ∧ id ∉ prev.blockIds
  mem_removed : ∀ id, id ∈ d.removed.map (·.blockId) ↔ id ∈ prev.blockIds ∧ id ∉ next.blockIds
  mem_kept : ∀ id, id ∈ d.kept.map (·.blockId) ↔ id ∈ prev.blockIds ∧ id ∈ next.blockIds
  patch : d.patch prev.reasonOf = next.reasonOf
  isNoop_iff : d.isNoop = true ↔ prev.reasonOf = next.reasonOf

variable {plan prev next : PagePlan} {id : BlockId} {r : SelectionReason}
  {e : DiffEntry} {l l' : List DiffEntry} {d d' : PromptDiff}

/-! ### Reasons by id -/

theorem getElem?_insertIfNew_all (ids : List BlockId) (map : ReasonMap) :
    (ids.foldl (fun map id => map.insertIfNew id r) map)[id]? = map[id]?.or (if id ∈ ids then some r else none) := by
  induction ids generalizing map with
  | nil => simp
  | cons a ids ih =>
    rw [List.foldl_cons, ih, Std.ExtTreeMap.getElem?_insertIfNew]
    by_cases ha : a = id
    · subst ha
      by_cases hmem : a ∈ map
      · simp [hmem]
      · simp [hmem]
    · simp [ha, Ne.symm ha]

theorem reasonOf_eq_some (h : plan.OneReason) : plan.reasonOf id = some r ↔
    (∃ s ∈ plan.selections, s.blockId = id ∧ s.reason = r) ∨
      (∀ s ∈ plan.selections, s.blockId ≠ id) ∧ id ∈ plan.selected ∧ r = .highRelevance := by
  rw [PagePlan.reasonOf]
  cases hfind : plan.selections.find? (·.blockId = id) with
  | some sel =>
    have hsel : sel ∈ plan.selections := List.mem_of_find?_eq_some hfind
    have hid : sel.blockId = id := by simpa using List.find?_some hfind
    constructor
    · intro hr
      exact .inl ⟨sel, hsel, hid, Option.some.inj hr⟩
    · rintro (⟨s, hs, hsid, hr⟩ | ⟨hnone, -⟩)
      · exact congrArg some ((h sel hsel s hs (hid.trans hsid.symm)).trans hr)
      · exact absurd hid (hnone sel hsel)
  | none =>
    have hnone : ∀ s ∈ plan.selections, s.blockId ≠ id := by simpa using hfind
    constructor
    · intro hr
      by_cases hmem : id ∈ plan.selected
      · exact .inr ⟨hnone, hmem, by simpa [hmem] using hr.symm⟩
      · simp [hmem] at hr
    · rintro (⟨s, hs, hsid, -⟩ | ⟨-, hmem, rfl⟩)
      · exact absurd hsid (hnone s hs)
      · simp [hmem]

/-- A plan has a reason for the blocks in it. -/
theorem reasonOf_ne_none : plan.reasonOf id ≠ none ↔ id ∈ plan.blockIds := by
  rw [PagePlan.reasonOf, PagePlan.blockIds, List.mem_append]
  cases hfind : plan.selections.find? (·.blockId = id) with
  | some sel =>
    have hid : sel.blockId = id := by simpa using List.find?_some hfind
    simpa using Or.inr ⟨sel, List.mem_of_find?_eq_some hfind, hid⟩
  | none =>
    have hnone : ∀ s ∈ plan.selections, s.blockId ≠ id := by simpa using hfind
    simpa using fun s hs hid => absurd hid (hnone s hs)

theorem PagePlan.Rearranges.oneReason {plan' : PagePlan} (h : plan.Rearranges plan') (hone : plan.OneReason) :
    plan'.OneReason := fun s hs s' hs' =>
  hone s (h.selections.mem_iff.mpr hs) s' (h.selections.mem_iff.mpr hs')

theorem PagePlan.Rearranges.reasonOf_eq {plan' : PagePlan} (h : plan.Rearranges plan') (hone : plan.OneReason) :
    plan'.reasonOf = plan.reasonOf := by
  funext id
  ext r
  rw [reasonOf_eq_some (h.oneReason hone), reasonOf_eq_some hone]
  simp only [h.selections.mem_iff, h.selected.mem_iff]

theorem getElem?_reasonsById (h : plan.OneReason) : (reasonsById plan)[id]? = plan.reasonOf id := by
  rw [reasonsById]
  split
  case isTrue hempty =>
    rw [List.isEmpty_iff] at hempty
    rw [Loop.lookup_foldl (g := fun (m : ReasonMap) a => m[a]?) (k := fun x => x) (v := fun _ => some .highRelevance)
      (fun m x a => by simp [Std.ExtTreeMap.getElem?_insert]) fun _ _ _ => rfl]
    simp [PagePlan.reasonOf, hempty]
  case isFalse hfull =>
    rw [getElem?_insertIfNew_all, PagePlan.reasonOf]
    have hassign : ∀ (m : ReasonMap) (x : Selection) a, (m.insert x.blockId x.reason)[a]? =
        if x.blockId = a then some x.reason else m[a]? := fun m x a => by simp [Std.ExtTreeMap.getElem?_insert]
    cases hfind : plan.selections.find? (·.blockId = id) with
    | some sel =>
      have hsel : sel ∈ plan.selections := List.mem_of_find?_eq_some hfind
      have hid : sel.blockId = id := by simpa using List.find?_some hfind
      have hmem : id ∈ plan.selections.map (·.blockId) := List.mem_map.mpr ⟨sel, hsel, hid⟩
      have hall : ∀ s ∈ plan.selections, s.blockId = id → some s.reason = some sel.reason := fun s hs hsid =>
        congrArg some (h s hs sel hsel (hsid.trans hid.symm))
      rw [Loop.lookup_foldl (g := fun (m : ReasonMap) a => m[a]?) hassign hall, if_pos hmem]
      rfl
    | none =>
      have hnone : ∀ s ∈ plan.selections, s.blockId ≠ id := by simpa using hfind
      rw [Loop.lookup_foldl (g := fun (m : ReasonMap) a => m[a]?) (b := none) hassign fun s hs hid =>
        absurd hid (hnone s hs)]
      simp

/-! ### The loops -/

/-- The entry of a block of the later plan. -/
def joinNext (prevReasons : ReasonMap) (e : BlockId × SelectionReason) : DiffEntry := ⟨e.1, prevReasons[e.1]?, some e.2⟩

def joinPrev (nextReasons : ReasonMap) (e : BlockId × SelectionReason) : DiffEntry := ⟨e.1, some e.2, nextReasons[e.1]?⟩

theorem foldl_diffNext (m : ReasonMap) (entries : List (BlockId × SelectionReason))
    (acc : List DiffEntry × List DiffEntry) : entries.foldl (diffNext m) acc =
      (acc.1 ++ (entries.map (joinNext m)).filter (·.reasonPrev.isSome),
        acc.2 ++ (entries.map (joinNext m)).filter (·.reasonPrev.isNone)) := by
  induction entries generalizing acc with
  | nil => simp
  | cons e entries ih =>
    rw [List.foldl_cons, ih, diffNext, List.map_cons]
    cases hprev : m[e.1]? with
    | some reasonPrev => simp [joinNext, hprev]
    | none => simp [joinNext, hprev]

theorem foldl_diffPrev (m : ReasonMap) (entries : List (BlockId × SelectionReason)) (acc : List DiffEntry) :
    entries.foldl (diffPrev m) acc = acc ++ (entries.map (joinPrev m)).filter (·.reasonNext.isNone) := by
  induction entries generalizing acc with
  | nil => simp
  | cons e entries ih =>
    rw [List.foldl_cons, ih, diffPrev, List.map_cons]
    by_cases hmem : e.1 ∈ m
    · simp [joinPrev, hmem]
    · simp [joinPrev, hmem]

theorem ReasonOrder.mem_entries (order : ReasonOrder) (m : ReasonMap) {x : BlockId × SelectionReason} :
    x ∈ order.entries m.toList ↔ m[x.1]? = some x.2 := by
  rw [(order.perm _).mem_iff, Std.ExtTreeMap.mem_toList_iff_getElem?_eq_some]

theorem ReasonOrder.nodup_entries (order : ReasonOrder) (m : ReasonMap) :
    ((order.entries m.toList).map (·.1)).Nodup := by
  rw [((order.perm _).map _).nodup_iff, Std.ExtTreeMap.map_fst_toList_eq_keys]
  exact m.nodup_keys

theorem mem_joinNext {order : ReasonOrder} {m m' : ReasonMap} : e ∈ (order.entries m.toList).map (joinNext m') ↔
    e.reasonPrev = m'[e.blockId]? ∧ e.reasonNext = m[e.blockId]? ∧ e.reasonNext ≠ none := by
  rw [List.mem_map]
  constructor
  · rintro ⟨x, hx, rfl⟩
    exact ⟨rfl, ((order.mem_entries m).mp hx).symm, Option.some_ne_none _⟩
  · obtain ⟨id, reasonPrev, reasonNext⟩ := e
    rintro ⟨hprev, hnext, hsome⟩
    obtain ⟨r, rfl⟩ := Option.ne_none_iff_exists'.mp hsome
    exact ⟨(id, r), (order.mem_entries m).mpr hnext.symm, by rw [joinNext, ← hprev]⟩

theorem mem_joinPrev {order : ReasonOrder} {m m' : ReasonMap} : e ∈ (order.entries m.toList).map (joinPrev m') ↔
    e.reasonPrev = m[e.blockId]? ∧ e.reasonNext = m'[e.blockId]? ∧ e.reasonPrev ≠ none := by
  rw [List.mem_map]
  constructor
  · rintro ⟨x, hx, rfl⟩
    exact ⟨((order.mem_entries m).mp hx).symm, rfl, Option.some_ne_none _⟩
  · obtain ⟨id, reasonPrev, reasonNext⟩ := e
    rintro ⟨hprev, hnext, hsome⟩
    obtain ⟨r, rfl⟩ := Option.ne_none_iff_exists'.mp hsome
    exact ⟨(id, r), (order.mem_entries m).mpr hprev.symm, by rw [joinPrev, ← hnext]⟩

theorem mem_map_mirror : e ∈ l.map (·.mirror) ↔ e.mirror ∈ l := by
  rw [List.mem_map]
  exact ⟨fun ⟨x, hx, hxe⟩ => hxe ▸ hx, fun h => ⟨e.mirror, h, rfl⟩⟩

theorem mem_sortByBlockId : e ∈ sortByBlockId l ↔ e ∈ l := List.mem_insertionSort _

theorem ascending_sortByBlockId (h : (l.map (·.blockId)).Nodup) : Ascending (sortByBlockId l) := by
  have hsorted : (sortByBlockId l).Pairwise fun a b => a.blockId ≤ b.blockId := List.pairwise_insertionSort _ l
  have hnodup : ((sortByBlockId l).map (·.blockId)).Nodup :=
    ((List.perm_insertionSort _ l).map _).nodup_iff.mpr h
  exact (hsorted.and (List.pairwise_map.mp hnodup)).imp fun ⟨hle, hne⟩ => lt_of_le_of_ne hle hne

/-- Strictly ascending lists of the same entries are equal. -/
theorem Ascending.ext (h : Ascending l) (h' : Ascending l') (hmem : ∀ e, e ∈ l ↔ e ∈ l') : l = l' := by
  have hnodup : ∀ {l : List DiffEntry}, Ascending l → l.Nodup := fun h =>
    h.imp fun hlt heq => absurd (heq ▸ hlt) (lt_irrefl _)
  refine ((List.perm_ext_iff_of_nodup (hnodup h) (hnodup h')).mpr hmem).eq_of_pairwise ?_ h h'
  intro a b _ _ hab hba
  exact absurd hab hba.not_gt

/-! ### Diffs of two maps -/

/-- The diff joins two maps from ids to reasons. -/
structure Joins (prev next : BlockId → Option SelectionReason) (d : PromptDiff) : Prop where
  added : ∀ e, e ∈ d.added ↔ e.reasonPrev = prev e.blockId ∧ e.reasonNext = next e.blockId ∧
    e.reasonPrev = none ∧ e.reasonNext ≠ none
  removed : ∀ e, e ∈ d.removed ↔ e.reasonPrev = prev e.blockId ∧ e.reasonNext = next e.blockId ∧
    e.reasonPrev ≠ none ∧ e.reasonNext = none
  kept : ∀ e, e ∈ d.kept ↔ e.reasonPrev = prev e.blockId ∧ e.reasonNext = next e.blockId ∧
    e.reasonPrev ≠ none ∧ e.reasonNext ≠ none
  added_ascending : Ascending d.added
  removed_ascending : Ascending d.removed
  kept_ascending : Ascending d.kept

theorem diffPlans_joins (prevOrder nextOrder : ReasonOrder) (hprev : prev.OneReason) (hnext : next.OneReason) :
    Joins prev.reasonOf next.reasonOf (diffPlans prevOrder nextOrder prev next) := by
  have hids : ∀ {f : BlockId × SelectionReason → DiffEntry} {m : ReasonMap} {order : ReasonOrder}
      {p : DiffEntry → Bool}, (∀ x, (f x).blockId = x.1) → ((((order.entries m.toList).map f).filter p).map (·.blockId)).Nodup := by
    intro f m order p hf
    refine ((List.filter_sublist.map _).nodup ?_)
    rw [List.map_map]
    simpa [Function.comp_def, hf] using order.nodup_entries m
  simp only [diffPlans, foldl_diffNext, foldl_diffPrev, List.nil_append]
  constructor
  case added_ascending => exact ascending_sortByBlockId (hids fun _ => rfl)
  case removed_ascending => exact ascending_sortByBlockId (hids fun _ => rfl)
  case kept_ascending => exact ascending_sortByBlockId (hids fun _ => rfl)
  case added =>
    rintro ⟨id, reasonPrev, reasonNext⟩
    simp only [mem_sortByBlockId, List.mem_filter, mem_joinNext, getElem?_reasonsById hprev, getElem?_reasonsById hnext]
    simp only [Option.isNone_iff_eq_none]
    tauto
  case removed =>
    rintro ⟨id, reasonPrev, reasonNext⟩
    simp only [mem_sortByBlockId, List.mem_filter, mem_joinPrev, getElem?_reasonsById hprev, getElem?_reasonsById hnext]
    simp only [Option.isNone_iff_eq_none]
    tauto
  case kept =>
    rintro ⟨id, reasonPrev, reasonNext⟩
    simp only [mem_sortByBlockId, List.mem_filter, mem_joinNext, getElem?_reasonsById hprev, getElem?_reasonsById hnext]
    simp only [Option.isSome_iff_ne_none]
    tauto

namespace Joins
variable {f g : BlockId → Option SelectionReason}

theorem unique (h : Joins f g d) (h' : Joins f g d') (htokens : d.tokenDelta = d'.tokenDelta) : d = d' := by
  have hadded := h.added_ascending.ext h'.added_ascending fun e => (h.added e).trans (h'.added e).symm
  have hremoved := h.removed_ascending.ext h'.removed_ascending fun e => (h.removed e).trans (h'.removed e).symm
  have hkept := h.kept_ascending.ext h'.kept_ascending fun e => (h.kept e).trans (h'.kept e).symm
  cases d
  cases d'
  simp_all

theorem mirror (h : Joins f g d) : Joins g f d.mirror where
  added e := by
    rw [PromptDiff.mirror, mem_map_mirror, h.removed]
    simp only [DiffEntry.mirror]
    tauto
  removed e := by
    rw [PromptDiff.mirror, mem_map_mirror, h.added]
    simp only [DiffEntry.mirror]
    tauto
  kept e := by
    rw [PromptDiff.mirror, mem_map_mirror, h.kept]
    simp only [DiffEntry.mirror]
    tauto
  added_ascending := List.pairwise_map.mpr h.removed_ascending
  removed_ascending := List.pairwise_map.mpr h.added_ascending
  kept_ascending := List.pairwise_map.mpr h.kept_ascending

theorem id_mem_added (h : Joins f g d) : id ∈ d.added.map (·.blockId) ↔ f id = none ∧ g id ≠ none := by
  rw [List.mem_map]
  constructor
  · rintro ⟨e, he, rfl⟩
    obtain ⟨hf, hg, hnone, hsome⟩ := (h.added e).mp he
    exact ⟨hf ▸ hnone, hg ▸ hsome⟩
  · rintro ⟨hnone, hsome⟩
    exact ⟨⟨id, f id, g id⟩, (h.added _).mpr ⟨rfl, rfl, hnone, hsome⟩, rfl⟩

theorem id_mem_removed (h : Joins f g d) : id ∈ d.removed.map (·.blockId) ↔ f id ≠ none ∧ g id = none := by
  rw [List.mem_map]
  constructor
  · rintro ⟨e, he, rfl⟩
    obtain ⟨hf, hg, hsome, hnone⟩ := (h.removed e).mp he
    exact ⟨hf ▸ hsome, hg ▸ hnone⟩
  · rintro ⟨hsome, hnone⟩
    exact ⟨⟨id, f id, g id⟩, (h.removed _).mpr ⟨rfl, rfl, hsome, hnone⟩, rfl⟩

theorem id_mem_kept (h : Joins f g d) : id ∈ d.kept.map (·.blockId) ↔ f id ≠ none ∧ g id ≠ none := by
  rw [List.mem_map]
  constructor
  · rintro ⟨e, he, rfl⟩
    obtain ⟨hf, hg, hprev, hnext⟩ := (h.kept e).mp he
    exact ⟨hf ▸ hprev, hg ▸ hnext⟩
  · rintro ⟨hprev, hnext⟩
    exact ⟨⟨id, f id, g id⟩, (h.kept _).mpr ⟨rfl, rfl, hprev, hnext⟩, rfl⟩

theorem nodup (h : Joins f g d) : (d.entries.map (·.blockId)).Nodup := by
  have hnodup : ∀ {l : List DiffEntry}, Ascending l → (l.map (·.blockId)).Nodup := fun hl =>
    List.pairwise_map.mpr (hl.imp ne_of_lt)
  rw [PromptDiff.entries, List.map_append, List.map_append, List.nodup_append', List.nodup_append']
  refine ⟨⟨hnodup h.added_ascending, hnodup h.removed_ascending, ?_⟩, hnodup h.kept_ascending, ?_⟩
  · intro id hadded hremoved
    exact (h.id_mem_removed.mp hremoved).1 (h.id_mem_added.mp hadded).1
  · intro id hgone hkept
    obtain ⟨hprev, hnext⟩ := h.id_mem_kept.mp hkept
    rcases List.mem_append.mp hgone with hadded | hremoved
    · exact hprev (h.id_mem_added.mp hadded).1
    · exact hnext (h.id_mem_removed.mp hremoved).2

/-- Every entry carries the later map's reason, and where neither list has an id the maps agree. -/
theorem patch_eq (h : Joins f g d) : d.patch f = g := by
  funext id
  have hassign : ∀ (m : BlockId → Option SelectionReason) (e : DiffEntry) a,
      Function.update m e.blockId e.reasonNext a = if e.blockId = a then e.reasonNext else m a := fun m e a => by
    simp [Function.update_apply, eq_comm]
  have hclear : ∀ (m : BlockId → Option SelectionReason) (e : DiffEntry) a,
      Function.update m e.blockId none a = if e.blockId = a then none else m a := fun m e a => by
    simp [Function.update_apply, eq_comm]
  have hwritten : ∀ e ∈ d.added ++ d.kept, e.blockId = id → e.reasonNext = g id := by
    rintro e he rfl
    rcases List.mem_append.mp he with he | he
    · exact ((h.added e).mp he).2.1
    · exact ((h.kept e).mp he).2.1
  calc d.patch f id
    _ = if id ∈ (d.added ++ d.kept).map (·.blockId) then g id else
          (d.removed.foldl (fun m (e : DiffEntry) => Function.update m e.blockId none) f) id :=
        Loop.lookup_foldl (g := fun (m : BlockId → Option SelectionReason) a => m a) hassign hwritten
    _ = if id ∈ (d.added ++ d.kept).map (·.blockId) then g id else
          if id ∈ d.removed.map (·.blockId) then none else f id := by
        rw [Loop.lookup_foldl (g := fun (m : BlockId → Option SelectionReason) a => m a) (v := fun _ => none) hclear
          fun _ _ _ => rfl]
    _ = g id := by
        simp only [List.map_append, List.mem_append, h.id_mem_added, h.id_mem_kept, h.id_mem_removed]
        by_cases hf : f id = none <;> by_cases hg : g id = none <;> simp [hf, hg]

theorem isNoop_iff (h : Joins f g d) : d.isNoop = true ↔ f = g := by
  simp only [PromptDiff.isNoop, Bool.and_eq_true, List.isEmpty_iff, List.all_eq_true, DiffEntry.reasonChanged,
    Bool.not_eq_true', decide_eq_false_iff_not, not_not]
  constructor
  · rintro ⟨⟨hadded, hremoved⟩, hkept⟩
    funext id
    by_cases hf : f id = none
    · by_contra hg
      have hmem := h.id_mem_added.mpr ⟨hf, fun hnone => hg (hf.trans hnone.symm)⟩
      simp [hadded] at hmem
    · by_cases hg : g id = none
      · have hmem := h.id_mem_removed.mpr ⟨hf, hg⟩
        simp [hremoved] at hmem
      · exact hkept _ ((h.kept ⟨id, f id, g id⟩).mpr ⟨rfl, rfl, hf, hg⟩)
  · rintro rfl
    refine ⟨⟨List.eq_nil_iff_forall_not_mem.mpr fun e he => ?_, List.eq_nil_iff_forall_not_mem.mpr fun e he => ?_⟩,
      fun e he => ?_⟩
    · obtain ⟨hf, hg, hnone, hsome⟩ := (h.added e).mp he
      exact hsome (hg.trans (hf.symm.trans hnone))
    · obtain ⟨hf, hg, hsome, hnone⟩ := (h.removed e).mp he
      exact hsome (hf.trans (hg.symm.trans hnone))
    · obtain ⟨hf, hg, -⟩ := (h.kept e).mp he
      exact hf.trans hg.symm

end Joins

/-- A diff of two plans is a patch from one to the other. The diff in the other direction is its mirror image, and
neither the order of the plans' lists nor that of the hash maps matters. -/
theorem diffPlans_isPatch (prevOrder nextOrder : ReasonOrder) (hprev : prev.OneReason) (hnext : next.OneReason) :
    IsPatch prev next (diffPlans prevOrder nextOrder prev next) ∧
      (∀ order order', diffPlans order order' next prev = (diffPlans prevOrder nextOrder prev next).mirror) ∧
      ∀ prev' next' order order', prev.Rearranges prev' → next.Rearranges next' →
        diffPlans order order' prev' next' = diffPlans prevOrder nextOrder prev next := by
  have h := diffPlans_joins prevOrder nextOrder hprev hnext
  refine ⟨?_, fun order order' => ?_, fun prev' next' order order' hprev' hnext' => ?_⟩
  · refine ⟨h.added_ascending, h.removed_ascending, h.kept_ascending, h.nodup, fun id => ?_, fun id => ?_, fun id => ?_,
      h.patch_eq, h.isNoop_iff⟩
    · rw [h.id_mem_added, ← reasonOf_ne_none, ← reasonOf_ne_none, not_not, and_comm]
    · rw [h.id_mem_removed, ← reasonOf_ne_none, ← reasonOf_ne_none, not_not]
    · rw [h.id_mem_kept, ← reasonOf_ne_none, ← reasonOf_ne_none]
  · refine (diffPlans_joins order order' hnext hprev).unique h.mirror ?_
    exact (Int.neg_sub ..).symm
  · have h' := diffPlans_joins order order' (hprev'.oneReason hprev) (hnext'.oneReason hnext)
    rw [hprev'.reasonOf_eq hprev, hnext'.reasonOf_eq hnext] at h'
    refine h'.unique h ?_
    simp only [diffPlans, tokenDelta, hprev'.tokens, hnext'.tokens]

/-! ### Two turns -/

def turnPlan (selections : List (BlockId × SelectionReason)) (tokens : TokenCount) : PagePlan :=
  ⟨selections.map (·.1), selections.map fun e => ⟨e.1, 0, e.2, none⟩, [], tokens⟩

/-- A block comes, one goes, and one is pinned that was found before. -/
theorem diffPlans_isPatch_sample :
    let prev := turnPlan [(⟨3⟩, .highRelevance), (⟨1⟩, .recency)] ⟨20, by decide⟩
    let next := turnPlan [(⟨2⟩, .dependency), (⟨3⟩, .pinned)] ⟨30, by decide⟩
    (diffPlans .canonical .canonical prev next = ⟨[⟨⟨2⟩, none, some .dependency⟩], [⟨⟨1⟩, some .recency, none⟩],
      [⟨⟨3⟩, some .highRelevance, some .pinned⟩], 10⟩) ∧
    IsPatch prev next (diffPlans .canonical .canonical prev next) :=
  ⟨by decide +kernel, (diffPlans_isPatch .canonical .canonical (by decide) (by decide)).1⟩

end Llm386
