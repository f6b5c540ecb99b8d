import Llm386.Pager.Outcome

/-! # What reconciliation drops and annotates

The verdicts of all edges, read as a relation between the selected blocks: a source gives way to a selected
derivative, the loser of a contradiction to its winner. A block is dropped when it gives way to another one and is
not pinned; the pass is determined by this relation. -/

namespace Llm386

/-- `resolve_contradiction` between two stored blocks: `x` wins. -/
def ContextBlock.wins (x y : ContextBlock) : Bool :=
  match compare x.createdAt.val y.createdAt.val with
  | .gt => true
  | .lt => false
  | .eq =>
    match partialCmp x.priority y.priority with
    | some .gt => true
    | some .lt => false
    | _ => decide (y.id ≤ x.id)

/-- Blocks by time, then priority, then id. -/
def contradictionRanking : Ranking ContextBlock ℕ (ℤ ×ₗ ℤ ×ₗ ℤ) BlockId where
  tie b := b.createdAt.val
  key b := rankKey b.priority
  ident b := b.id

/-- The winner of a contradiction is the one that ranks above the other. -/
theorem ContextBlock.wins_iff {x y : ContextBlock} (hne : x.id ≠ y.id) :
    x.wins y = true ↔ contradictionRanking.Above x y := by
  have hid : compare x.id y.id = .gt ↔ y.id ≤ x.id := by
    rw [compare_gt_iff_gt]
    exact ⟨le_of_lt, fun hle => hle.lt_of_ne hne.symm⟩
  rw [Ranking.Above, Ranking.cmp]
  show _ ↔ (compare x.createdAt.val y.createdAt.val).then
    ((Ranking.keyCmp (rankKey x.priority) (rankKey y.priority)).then (compare x.id y.id)) = .gt
  rw [← partialCmp_getD, ContextBlock.wins]
  cases compare x.createdAt.val y.createdAt.val with
  | lt => simp
  | gt => simp
  | eq =>
    cases partialCmp x.priority y.priority with
    | none => simpa using hid.symm
    | some o =>
      cases o with
      | lt => simp
      | eq => simpa using hid.symm
      | gt => simp

theorem ContextBlock.wins_swap {x y : ContextBlock} (hne : x.id ≠ y.id) : y.wins x = !x.wins y := by
  have hxy := wins_iff hne
  have hyx := wins_iff hne.symm
  cases hx : x.wins y with
  | true =>
    have habove := hxy.mp hx
    simpa using mt hyx.mp habove.asymm
  | false =>
    have hbelow := (Ranking.above_or_above (R := contradictionRanking) hne).resolve_left fun h => by
      rw [hxy.mpr h] at hx
      cases hx
    simpa using hyx.mpr hbelow

namespace GreedyPager
variable {p : GreedyPager} {S P : List BlockId} {a b id : BlockId} {x y : ContextBlock}

/-! ### The relation -/

/-- `winner` wins a contradiction against `loser`. -/
def Beats (p : GreedyPager) (winner loser : BlockId) : Prop := p.resolveContradiction loser winner = .ok (loser, winner)

/-- The store has an edge of the kind from `a` to `b`. -/
def Linked (p : GreedyPager) (kind : EdgeKind) (a b : BlockId) : Prop :=
  ∃ es, p.store.edgesFrom a = .ok es ∧ ∃ e ∈ es, e.kind = kind ∧ e.toId = b

/-- The two blocks contradict each other, in either direction. -/
def Contradict (p : GreedyPager) (a b : BlockId) : Prop := p.Linked .contradicts a b ∨ p.Linked .contradicts b a

/-- Another selected block derives from `id`. -/
def HasDerivative (p : GreedyPager) (selected : List BlockId) (id : BlockId) : Prop :=
  ∃ other ∈ selected, other ≠ id ∧ p.Linked .derivedFrom other id

/-- `id` loses a contradiction against another selected block. -/
def HasLost (p : GreedyPager) (selected : List BlockId) (id : BlockId) : Prop :=
  ∃ other ∈ selected, other ≠ id ∧ p.Contradict id other ∧ p.Beats other id

theorem resolveContradiction_eq (ha : p.getBlock a = .ok (some x)) (hb : p.getBlock b = .ok (some y)) :
    p.resolveContradiction a b = .ok (if x.wins y then (b, a) else (a, b)) := by
  rw [resolveContradiction, ha, hb]
  rfl

/-- The winner does not depend on which of the two blocks comes first. -/
theorem resolveContradiction_comm (hne : a ≠ b) (ha : p.getBlock a = .ok (some x)) (hb : p.getBlock b = .ok (some y)) :
    p.resolveContradiction a b = p.resolveContradiction b a := by
  have hid : x.id ≠ y.id := by rwa [getBlock_id ha, getBlock_id hb]
  rw [resolveContradiction_eq ha hb, resolveContradiction_eq hb ha, ContextBlock.wins_swap hid]
  cases x.wins y <;> rfl

theorem beats_iff (ha : p.getBlock a = .ok (some x)) (hb : p.getBlock b = .ok (some y)) (hne : a ≠ b) :
    p.Beats a b ↔ contradictionRanking.Above x y := by
  have hid : x.id ≠ y.id := by rwa [getBlock_id ha, getBlock_id hb]
  rw [Beats, resolveContradiction_comm hne.symm hb ha, resolveContradiction_eq ha hb, ← ContextBlock.wins_iff hid]
  cases x.wins y with
  | true => simp
  | false => simp [hne]

/-- One of two stored blocks beats the other, whichever comes first. -/
theorem resolveContradiction_cases (hne : a ≠ b) (ha : p.getBlock a = .ok (some x))
    (hb : p.getBlock b = .ok (some y)) :
    p.resolveContradiction a b = .ok (b, a) ∧ p.Beats a b ∨ p.resolveContradiction a b = .ok (a, b) ∧ p.Beats b a := by
  have hcomm := resolveContradiction_comm hne ha hb
  have heq := resolveContradiction_eq ha hb
  cases hwins : x.wins y with
  | true =>
    rw [hwins, if_pos rfl] at heq
    exact Or.inl ⟨heq, by rw [Beats, ← hcomm, heq]⟩
  | false =>
    rw [hwins, if_neg Bool.false_ne_true] at heq
    exact Or.inr ⟨heq, heq⟩

/-! ### The verdicts -/

theorem edgeVerdict_eq_drop {e : Edge} {reason : OmissionReason} :
    p.edgeVerdict S P a e = .ok (.drop id reason) ↔
      (e.kind = .derivedFrom ∧ p.scoring.edgePolicy.derivedFrom = .suppressSource ∧ a ≠ id ∧ id ∈ S ∧ id ∉ P ∧
        e.toId = id ∧ reason = .supersededByDerived) ∨
      (e.kind = .contradicts ∧ p.scoring.edgePolicy.contradicts = .preferNewer ∧ a ≠ e.toId ∧ e.toId ∈ S ∧ id ∉ P ∧
        reason = .contradicted ∧ ∃ winner, p.resolveContradiction a e.toId = .ok (id, winner)) := by
  simp only [edgeVerdict]
  split
  · rename_i hsource
    obtain ⟨hkind, hmode, hne, hto, hpin⟩ := hsource
    simp only [pure, Except.pure, Except.ok.injEq, EdgeVerdict.drop.injEq, hkind, reduceCtorEq, false_and, or_false,
      true_and, hmode]
    constructor
    · rintro ⟨rfl, rfl⟩
      exact ⟨hne, hto, hpin, rfl, rfl⟩
    · rintro ⟨-, -, -, rfl, rfl⟩
      exact ⟨rfl, rfl⟩
  · rename_i hsource
    have hno : ¬(e.kind = .derivedFrom ∧ p.scoring.edgePolicy.derivedFrom = .suppressSource ∧ a ≠ id ∧ id ∈ S ∧
        id ∉ P ∧ e.toId = id ∧ reason = .supersededByDerived) := by
      rintro ⟨hkind, hmode, hne, hto, hpin, rfl, -⟩
      exact hsource ⟨hkind, hmode, hne, hto, hpin⟩
    rw [or_iff_right hno]
    split
    · rename_i hedge
      obtain ⟨hkind, hmode, hne, hto⟩ := hedge
      cases hresolve : p.resolveContradiction a e.toId with
      | error err => simp [bind, Except.bind]
      | ok found =>
        obtain ⟨loser, winner⟩ := found
        simp only [Loop.ok_bind, Except.ok.injEq, Prod.mk.injEq]
        split
        · rename_i hlost
          simp only [pure, Except.pure, Except.ok.injEq, EdgeVerdict.drop.injEq]
          constructor
          · rintro ⟨rfl, rfl⟩
            exact ⟨hkind, hlost.1, hne, hto, hlost.2, rfl, winner, rfl, rfl⟩
          · rintro ⟨-, -, -, -, -, rfl, _, rfl, -⟩
            exact ⟨rfl, rfl⟩
        · rename_i hlost
          simp only [pure, Except.pure, Except.ok.injEq, reduceCtorEq, false_iff]
          rintro ⟨-, hnewer, -, -, hpin, -, _, rfl, -⟩
          exact hlost ⟨hnewer, hpin⟩
    · rename_i hedge
      simp only [pure, Except.pure, Except.ok.injEq, reduceCtorEq, false_iff]
      rintro ⟨hkind, hmode, hne, hto, -⟩
      exact hedge ⟨hkind, by rw [hmode]; decide, hne, hto⟩

theorem edgeVerdict_eq_annotate {e : Edge} {note : String} :
    p.edgeVerdict S P a e = .ok (.annotate id note) ↔
      e.kind = .contradicts ∧ p.scoring.edgePolicy.contradicts ≠ .off ∧ a ≠ e.toId ∧ e.toId ∈ S ∧
        ¬(p.scoring.edgePolicy.contradicts = .preferNewer ∧ id ∉ P) ∧
        ∃ winner, p.resolveContradiction a e.toId = .ok (id, winner) ∧
          note = "contradicted by newer block " ++ winner.display := by
  simp only [edgeVerdict]
  split
  · rename_i hsource
    simp only [pure, Except.pure, Except.ok.injEq, reduceCtorEq, false_iff]
    rintro ⟨hkind, -⟩
    rw [hkind] at hsource
    cases hsource.1
  · split
    · rename_i hedge
      obtain ⟨hkind, hmode, hne, hto⟩ := hedge
      cases hresolve : p.resolveContradiction a e.toId with
      | error err => simp [bind, Except.bind]
      | ok found =>
        obtain ⟨loser, winner⟩ := found
        simp only [Loop.ok_bind, Except.ok.injEq, Prod.mk.injEq]
        split
        · rename_i hlost
          simp only [pure, Except.pure, Except.ok.injEq, reduceCtorEq, false_iff]
          rintro ⟨-, -, -, -, hkept, _, ⟨rfl, -⟩, -⟩
          exact hkept hlost
        · rename_i hlost
          simp only [pure, Except.pure, Except.ok.injEq, EdgeVerdict.annotate.injEq]
          constructor
          · rintro ⟨rfl, rfl⟩
            exact ⟨hkind, hmode, hne, hto, hlost, winner, ⟨rfl, rfl⟩, rfl⟩
          · rintro ⟨-, -, -, -, -, _, ⟨rfl, rfl⟩, rfl⟩
            exact ⟨rfl, rfl⟩
    · rename_i hedge
      simp only [pure, Except.pure, Except.ok.injEq, reduceCtorEq, false_iff]
      rintro ⟨hkind, hmode, hne, hto, -⟩
      exact hedge ⟨hkind, hmode, hne, hto⟩

theorem mem_allVerdicts {ids : List BlockId} {vs : List EdgeVerdict} (h : p.allVerdicts S P ids = .ok vs)
    {v : EdgeVerdict} :
    v ∈ vs ↔ ∃ id ∈ ids, ∃ es, p.store.edgesFrom id = .ok es ∧ ∃ e ∈ es, p.edgeVerdict S P id e = .ok v := by
  obtain ⟨vss, hvss, rfl⟩ := Loop.map_eq_ok.mp h
  rw [List.mem_flatten]
  constructor
  · rintro ⟨block, hblock, hv⟩
    obtain ⟨id, hid, hread⟩ := (Loop.mem_mapM_iff hvss).mp hblock
    obtain ⟨es, hes, hread⟩ := Loop.bind_eq_ok.mp hread
    obtain ⟨e, he, hverdict⟩ := (Loop.mem_mapM_iff hread).mp hv
    exact ⟨id, hid, es, Loop.mapError_eq_ok.mp hes, e, he, hverdict⟩
  · rintro ⟨id, hid, es, hes, e, he, hverdict⟩
    obtain ⟨block, hblock⟩ := Loop.exists_of_mapM hvss hid
    refine ⟨block, (Loop.mem_mapM_iff hvss).mpr ⟨id, hid, hblock⟩, ?_⟩
    obtain ⟨es', hes', hread⟩ := Loop.bind_eq_ok.mp hblock
    cases hes.symm.trans (Loop.mapError_eq_ok.mp hes')
    exact (Loop.mem_mapM_iff hread).mpr ⟨e, he, hverdict⟩

/-- Where the selected blocks are stored, some verdict on a contradiction goes against `id` exactly when `id` loses
one to another selected block. -/
theorem hasLost_iff (hstored : ∀ id ∈ S, ∃ b, p.getBlock id = .ok (some b)) :
    (∃ a ∈ S, ∃ es, p.store.edgesFrom a = .ok es ∧ ∃ e ∈ es, e.kind = .contradicts ∧ a ≠ e.toId ∧ e.toId ∈ S ∧
      ∃ winner, p.resolveContradiction a e.toId = .ok (id, winner)) ↔ id ∈ S ∧ p.HasLost S id := by
  constructor
  · rintro ⟨a, ha, es, hes, e, he, hkind, hne, hto, winner, hresolve⟩
    obtain ⟨x, hx⟩ := hstored a ha
    obtain ⟨y, hy⟩ := hstored e.toId hto
    have hlink : p.Linked .contradicts a e.toId := ⟨es, hes, e, he, hkind, rfl⟩
    rcases resolveContradiction_cases hne hx hy with ⟨heq, hbeats⟩ | ⟨heq, hbeats⟩
    · cases hresolve.symm.trans heq
      exact ⟨hto, a, ha, hne, Or.inr hlink, hbeats⟩
    · cases hresolve.symm.trans heq
      exact ⟨ha, e.toId, hto, hne.symm, Or.inl hlink, hbeats⟩
  · rintro ⟨hid, other, hother, hne, hlink, hbeats⟩
    obtain ⟨x, hx⟩ := hstored id hid
    obtain ⟨y, hy⟩ := hstored other hother
    rcases hlink with ⟨es, hes, e, he, hkind, rfl⟩ | ⟨es, hes, e, he, hkind, rfl⟩
    · exact ⟨id, hid, es, hes, e, he, hkind, hne.symm, hother, _, hbeats⟩
    · refine ⟨other, hother, es, hes, e, he, hkind, hne, hid, other, ?_⟩
      rw [resolveContradiction_comm hne hy hx]
      exact hbeats

/-- A verdict drops `id` when a selected block derives from it, or it has lost to one, and it is not pinned. -/
theorem dropped_iff_superseded (hstored : ∀ id ∈ S, ∃ b, p.getBlock id = .ok (some b)) {vs : List EdgeVerdict}
    (h : p.allVerdicts S P S = .ok vs) : EdgeVerdict.dropped vs id = true ↔ id ∈ S ∧ id ∉ P ∧
      (p.scoring.edgePolicy.derivedFrom = .suppressSource ∧ p.HasDerivative S id ∨
        p.scoring.edgePolicy.contradicts = .preferNewer ∧ p.HasLost S id) := by
  rw [EdgeVerdict.dropped_iff]
  constructor
  · rintro ⟨reason, hmem⟩
    obtain ⟨a, ha, es, hes, e, he, hverdict⟩ := (mem_allVerdicts h).mp hmem
    rcases edgeVerdict_eq_drop.mp hverdict with ⟨hkind, hmode, hne, hid, hpin, hto, -⟩ |
      ⟨hkind, hmode, hne, hto, hpin, -, winner, hresolve⟩
    · exact ⟨hid, hpin, Or.inl ⟨hmode, a, ha, hne, es, hes, e, he, hkind, hto⟩⟩
    · obtain ⟨hid, hlost⟩ := (hasLost_iff hstored).mp ⟨a, ha, es, hes, e, he, hkind, hne, hto, winner, hresolve⟩
      exact ⟨hid, hpin, Or.inr ⟨hmode, hlost⟩⟩
  · rintro ⟨hid, hpin, ⟨hmode, a, ha, hne, es, hes, e, he, hkind, hto⟩ | ⟨hmode, hlost⟩⟩
    · exact ⟨_, (mem_allVerdicts h).mpr ⟨a, ha, es, hes, e, he,
        edgeVerdict_eq_drop.mpr (Or.inl ⟨hkind, hmode, hne, hid, hpin, hto, rfl⟩)⟩⟩
    · obtain ⟨a, ha, es, hes, e, he, hkind, hne, hto, winner, hresolve⟩ := (hasLost_iff hstored).mpr ⟨hid, hlost⟩
      exact ⟨_, (mem_allVerdicts h).mpr ⟨a, ha, es, hes, e, he,
        edgeVerdict_eq_drop.mpr (Or.inr ⟨hkind, hmode, hne, hto, hpin, rfl, winner, hresolve⟩)⟩⟩

/-- A verdict annotates `id` when it has lost to a selected block and stays all the same. -/
theorem noted_iff_lost (hstored : ∀ id ∈ S, ∃ b, p.getBlock id = .ok (some b)) {vs : List EdgeVerdict}
    (h : p.allVerdicts S P S = .ok vs) : (EdgeVerdict.note vs id).isSome = true ↔
      id ∈ S ∧ p.HasLost S id ∧ (p.scoring.edgePolicy.contradicts = .flag ∨
        p.scoring.edgePolicy.contradicts = .preferNewer ∧ id ∈ P) := by
  have hmode : p.scoring.edgePolicy.contradicts ≠ .off ∧ ¬(p.scoring.edgePolicy.contradicts = .preferNewer ∧ id ∉ P) ↔
      p.scoring.edgePolicy.contradicts = .flag ∨ p.scoring.edgePolicy.contradicts = .preferNewer ∧ id ∈ P := by
    cases p.scoring.edgePolicy.contradicts <;> simp
  rw [← hmode, Option.isSome_iff_exists]
  constructor
  · rintro ⟨n, hn⟩
    obtain ⟨a, ha, es, hes, e, he, hverdict⟩ := (mem_allVerdicts h).mp (EdgeVerdict.note_mem hn)
    obtain ⟨hkind, hoff, hne, hto, hkept, winner, hresolve, -⟩ := edgeVerdict_eq_annotate.mp hverdict
    obtain ⟨hid, hlost⟩ := (hasLost_iff hstored).mp ⟨a, ha, es, hes, e, he, hkind, hne, hto, winner, hresolve⟩
    exact ⟨hid, hlost, hoff, hkept⟩
  · rintro ⟨hid, hlost, hoff, hkept⟩
    obtain ⟨a, ha, es, hes, e, he, hkind, hne, hto, winner, hresolve⟩ := (hasLost_iff hstored).mpr ⟨hid, hlost⟩
    exact EdgeVerdict.note_of_mem ((mem_allVerdicts h).mpr ⟨a, ha, es, hes, e, he,
      edgeVerdict_eq_annotate.mpr ⟨hkind, hoff, hne, hto, hkept, winner, hresolve, rfl⟩⟩)

/-- A note names another selected block that the noted one has lost to. -/
theorem note_names_winner (hstored : ∀ id ∈ S, ∃ b, p.getBlock id = .ok (some b)) {vs : List EdgeVerdict}
    (h : p.allVerdicts S P S = .ok vs) {note : String} (hnote : EdgeVerdict.note vs id = some note) :
    ∃ winner ∈ S, winner ≠ id ∧ p.Contradict id winner ∧ p.Beats winner id ∧
      note = "contradicted by newer block " ++ winner.display := by
  obtain ⟨a, ha, es, hes, e, he, hverdict⟩ := (mem_allVerdicts h).mp (EdgeVerdict.note_mem hnote)
  obtain ⟨hkind, -, hne, hto, -, winner, hresolve, rfl⟩ := edgeVerdict_eq_annotate.mp hverdict
  obtain ⟨x, hx⟩ := hstored a ha
  obtain ⟨y, hy⟩ := hstored e.toId hto
  have hlink : p.Linked .contradicts a e.toId := ⟨es, hes, e, he, hkind, rfl⟩
  rcases resolveContradiction_cases hne hx hy with ⟨heq, hbeats⟩ | ⟨heq, hbeats⟩
  · cases hresolve.symm.trans heq
    exact ⟨a, ha, hne, Or.inr hlink, hbeats, rfl⟩
  · cases hresolve.symm.trans heq
    exact ⟨e.toId, hto, hne.symm, Or.inl hlink, hbeats, rfl⟩

/-! ### The pass -/

/-- `id` has a reason to be dropped. -/
def Superseded (p : GreedyPager) (selected : List BlockId) (id : BlockId) : Prop :=
  p.scoring.edgePolicy.derivedFrom = .suppressSource ∧ p.HasDerivative selected id ∨
    p.scoring.edgePolicy.contradicts = .preferNewer ∧ p.HasLost selected id

theorem not_superseded_of_quiet (h : p.scoring.edgePolicy.reconciles = false) : ¬p.Superseded S id := by
  rw [EdgePolicy.reconciles, Bool.or_eq_false_iff] at h
  rintro (⟨hmode, -⟩ | ⟨hmode, -⟩)
  · simp [hmode] at h
  · simp [hmode] at h

open Classical in
/-- What the pass makes of `st`, in terms of the links between its blocks. -/
structure ReconciledBy (p : GreedyPager) (st st' : PageState) : Prop where
  selected : st'.selected = st.selected.filter fun id => id ∈ pinnedOf st ∨ ¬p.Superseded st.selected id
  omitted : ∃ gone, st'.omitted = st.omitted ++ gone ∧ (gone.map (·.blockId)).Nodup ∧
    gone.map (·.blockId) = st.selected.filter fun id => ¬(id ∈ pinnedOf st ∨ ¬p.Superseded st.selected id)
  tokens : st'.blockTokens.val + p.totalCost
    (st.selected.filter fun id => ¬(id ∈ pinnedOf st ∨ ¬p.Superseded st.selected id)) = st.blockTokens.val
  /-- The selections that stay are unchanged but for their notes: one that has lost a contradiction gets the note of a
  verdict, which names a winner, and the others keep the note they came in with. -/
  selections : ∃ verdict : BlockId → Option String,
    st'.selections = ((st.selections.filter fun sel => sel.blockId ∈ pinnedOf st ∨ ¬p.Superseded st.selected sel.blockId).map
      fun sel => { sel with note := (verdict sel.blockId).or sel.note }) ∧
    ∀ id ∈ st.selected, ((verdict id).isSome = true ↔ p.HasLost st.selected id ∧
        (p.scoring.edgePolicy.contradicts = .flag ∨ p.scoring.edgePolicy.contradicts = .preferNewer ∧ id ∈ pinnedOf st)) ∧
      ∀ note, verdict id = some note → ∃ winner ∈ st.selected, winner ≠ id ∧ p.Contradict id winner ∧ p.Beats winner id ∧
        note = "contradicted by newer block " ++ winner.display
  /-- Of two blocks that stay and contradict each other, the loser is pinned and annotated. -/
  consistent : p.scoring.edgePolicy.contradicts = .preferNewer → ∀ a ∈ st'.selected, ∀ b ∈ st'.selected, a ≠ b →
    p.Contradict a b → ∃ loser winner, ((loser, winner) = (a, b) ∨ (loser, winner) = (b, a)) ∧ p.Beats winner loser ∧
      loser ∈ pinnedOf st ∧ ∃ sel ∈ st'.selections, sel.blockId = loser ∧ sel.note.isSome = true

theorem Contradict.symm (h : p.Contradict a b) : p.Contradict b a := Or.symm h

/-- The verdicts can be reached where the edges of the selected blocks can be read. -/
theorem exists_verdicts (hstored : ∀ id ∈ S, ∃ b, p.getBlock id = .ok (some b))
    (hread : ∀ id ∈ S, ∃ es, p.store.edgesFrom id = .ok es) : ∃ vs, p.allVerdicts S P S = .ok vs := by
  have hedge : ∀ a ∈ S, ∀ e, ∃ v, p.edgeVerdict S P a e = .ok v := by
    intro a ha e
    simp only [edgeVerdict]
    split
    · exact ⟨_, rfl⟩
    · split
      · rename_i hedge
        obtain ⟨x, hx⟩ := hstored a ha
        obtain ⟨y, hy⟩ := hstored e.toId hedge.2.2.2
        rw [resolveContradiction_eq hx hy, Loop.ok_bind]
        split <;> split <;> exact ⟨_, rfl⟩
      · exact ⟨_, rfl⟩
  have hblock : ∀ a ∈ S, ∃ vs, p.blockVerdicts S P a = .ok vs := by
    intro a ha
    obtain ⟨es, hes⟩ := hread a ha
    obtain ⟨vs, hvs⟩ := Loop.exists_mapM (l := es) fun e _ => hedge a ha e
    exact ⟨vs, by rw [blockVerdicts, hes]; exact hvs⟩
  obtain ⟨vss, hvss⟩ := Loop.exists_mapM hblock
  exact ⟨vss.flatten, by rw [allVerdicts, hvss]; rfl⟩

/-- Reconciliation of distinct stored blocks, charged exactly: the pinned blocks and those that no selected block
supersedes stay in their order, the others are omitted once and their cost is taken back. -/
theorem reconcile_exact {st : PageState} (hcosts : ∀ id ∈ st.selected, ∃ n, p.Costs id n)
    (hlock : st.selections.map (·.blockId) = st.selected) (hnodup : st.selected.Nodup)
    (htokens : st.blockTokens.val = p.totalCost st.selected)
    (hread : ∀ id ∈ st.selected, ∃ es, p.store.edgesFrom id = .ok es) :
    ∃ st', p.reconcileEdges st = .ok st' ∧ p.ReconciledBy st st' := by
  classical
  have hstored : ∀ id ∈ st.selected, ∃ b, p.getBlock id = .ok (some b) := fun id hid => by
    obtain ⟨n, b, hb, -⟩ := hcosts id hid
    exact ⟨b, hb⟩
  obtain ⟨vs, hvs⟩ := exists_verdicts (P := pinnedOf st) hstored hread
  obtain ⟨st', hrun, hrec⟩ := reconcile_rebuilt hcosts hlock hvs
  have hdropped : ∀ id ∈ st.selected, EdgeVerdict.dropped vs id =
      decide ¬(id ∈ pinnedOf st ∨ ¬p.Superseded st.selected id) := by
    intro id hid
    rw [Bool.eq_iff_iff, dropped_iff_superseded hstored hvs, decide_eq_true_iff, not_or, not_not]
    exact and_iff_right hid
  have hkept : ∀ id ∈ st.selected, (!EdgeVerdict.dropped vs id) =
      decide (id ∈ pinnedOf st ∨ ¬p.Superseded st.selected id) := by
    intro id hid
    rw [hdropped id hid, decide_not, Bool.not_not]
  have hmem : ∀ sel ∈ st.selections, sel.blockId ∈ st.selected := fun sel hsel =>
    hlock ▸ List.mem_map_of_mem hsel
  have hgone := List.filter_congr hdropped
  have hselections := hrec.selections
  rw [List.filter_congr fun sel hsel => hkept sel.blockId (hmem sel hsel)] at hselections
  refine ⟨st', hrun, ?_, ?_, ?_, ?_, ?_⟩
  · rw [hrec.selected, List.filter_congr hkept]
  · obtain ⟨gone, homitted, hids, -⟩ := hrec.omitted
    refine ⟨gone, homitted, ?_, hids.trans hgone⟩
    rw [hids]
    exact hnodup.filter _
  · have hle : p.totalCost (st.selected.filter (EdgeVerdict.dropped vs)) ≤ p.totalCost st.selected :=
      (List.filter_sublist.map p.tokenCost).sum_le_sum fun _ _ => Nat.zero_le _
    rw [← hgone, hrec.tokens, htokens]
    exact Nat.sub_add_cancel hle
  · refine ⟨EdgeVerdict.note vs, hselections, fun id hid => ⟨?_, fun note => note_names_winner hstored hvs⟩⟩
    rw [noted_iff_lost hstored hvs]
    exact and_iff_right hid
  · intro hmode
    -- A loser that stays is pinned, so a verdict annotates it.
    have hpinned : ∀ loser ∈ st'.selected, p.HasLost st.selected loser → loser ∈ pinnedOf st ∧
        ∃ sel ∈ st'.selections, sel.blockId = loser ∧ sel.note.isSome = true := by
      intro loser hloser hlost
      rw [hrec.selected, List.filter_congr hkept] at hloser
      obtain ⟨hsel, hstays⟩ := List.mem_filter.mp hloser
      have hpin : loser ∈ pinnedOf st := (of_decide_eq_true hstays).resolve_right fun h => h (Or.inr ⟨hmode, hlost⟩)
      have hnote := (noted_iff_lost hstored hvs).mpr ⟨hsel, hlost, Or.inr ⟨hmode, hpin⟩⟩
      refine ⟨hpin, ?_⟩
      rw [← hlock] at hsel
      obtain ⟨sel, hmemSel, rfl⟩ := List.mem_map.mp hsel
      refine ⟨{ sel with note := (EdgeVerdict.note vs sel.blockId).or sel.note }, ?_, rfl, ?_⟩
      · rw [hselections]
        exact List.mem_map.mpr ⟨sel, List.mem_filter.mpr ⟨hmemSel, hstays⟩, rfl⟩
      · rw [Option.isSome_or, hnote, Bool.true_or]
    intro a ha b hb hne hcontra
    have hsub : ∀ id ∈ st'.selected, id ∈ st.selected := fun id hid =>
      (List.mem_filter.mp (hrec.selected ▸ hid)).1
    obtain ⟨x, hx⟩ := hstored a (hsub a ha)
    obtain ⟨y, hy⟩ := hstored b (hsub b hb)
    rcases resolveContradiction_cases hne hx hy with ⟨-, hbeats⟩ | ⟨-, hbeats⟩
    · obtain ⟨hpin, hnoted⟩ := hpinned b hb ⟨a, hsub a ha, hne, hcontra.symm, hbeats⟩
      exact ⟨b, a, Or.inr rfl, hbeats, hpin, hnoted⟩
    · obtain ⟨hpin, hnoted⟩ := hpinned a ha ⟨b, hsub b hb, hne.symm, hcontra, hbeats⟩
      exact ⟨a, b, Or.inl rfl, hbeats, hpin, hnoted⟩

/-- The contested facts as they are selected: the third one is superseded by the second. -/
def contestedState : PageState where
  selected := [⟨2⟩, ⟨1⟩, ⟨3⟩]
  selections := [⟨⟨2⟩, 1, .pinned, none⟩, ⟨⟨1⟩, 1, .pinned, none⟩, ⟨⟨3⟩, 0, .highRelevance, none⟩]
  omitted := []
  promptTotal := .saturate 3
  blockTokens := .saturate 3

/-- The two required facts, with a note on the second from before. -/
def notedState : PageState where
  selected := [⟨2⟩, ⟨1⟩]
  selections := [⟨⟨2⟩, 1, .pinned, some "earlier"⟩, ⟨⟨1⟩, 1, .pinned, none⟩]
  omitted := []
  promptTotal := .saturate 2
  blockTokens := .saturate 2

theorem contestedState_costs : ∀ id ∈ contestedState.selected, ∃ n, contestedPager.Costs id n := by
  intro id hid
  simp only [contestedState, List.mem_cons, List.not_mem_nil, or_false] at hid
  rcases hid with rfl | rfl | rfl <;> exact ⟨.saturate 1, _, rfl, rfl⟩

/-- The winner of a contradiction keeps the note that it came in with. -/
theorem reconcile_keeps_note :
    (∀ id ∈ notedState.selected, ∃ n, contestedPager.Costs id n) ∧
    notedState.selections.map (·.blockId) = notedState.selected ∧ notedState.selected.Nodup ∧
    notedState.blockTokens.val = contestedPager.totalCost notedState.selected ∧
    ∃ st', contestedPager.reconcileEdges notedState = .ok st' ∧
      ∃ sel ∈ st'.selections, sel.blockId = ⟨2⟩ ∧ sel.note.isSome = true ∧
        ¬contestedPager.HasLost notedState.selected ⟨2⟩ := by
  have hcosts : ∀ id ∈ notedState.selected, ∃ n, contestedPager.Costs id n := fun id hid =>
    contestedState_costs id (show id ∈ notedState.selected ++ [⟨3⟩] from List.mem_append_left _ hid)
  refine ⟨hcosts, rfl, by decide, by decide +kernel, ?_⟩
  have hrun : (contestedPager.reconcileEdges notedState).toOption.map (fun st' => st'.selections.map fun sel =>
      (sel.blockId, sel.note.isSome)) = some [(⟨2⟩, true), (⟨1⟩, true)] := by decide +kernel
  obtain ⟨st', hst', hlist⟩ := Option.map_eq_some_iff.mp hrun
  have hmem : ((⟨2⟩, true) : BlockId × Bool) ∈ st'.selections.map fun sel => (sel.blockId, sel.note.isSome) := by
    rw [hlist]
    exact List.mem_cons_self
  obtain ⟨sel, hsel, heq⟩ := List.mem_map.mp hmem
  obtain ⟨hid, hnote⟩ := Prod.mk.inj heq
  refine ⟨st', Loop.toOption_eq_some.mp hst', sel, hsel, hid, hnote, ?_⟩
  rintro ⟨other, hother, hne, -, hbeats⟩
  -- The first fact is as old, of the same priority and of the lower id.
  have hwins : ∀ other ∈ notedState.selected, other ≠ ⟨2⟩ →
      ((contestedPager.resolveContradiction ⟨2⟩ other).toOption == some (⟨2⟩, other)) = false := by decide +kernel
  have hfalse := hwins other hother hne
  rw [show contestedPager.resolveContradiction ⟨2⟩ other = .ok (⟨2⟩, other) from hbeats] at hfalse
  simp [Except.toOption] at hfalse

theorem reconcile_exact_sample : ∃ st', contestedPager.reconcileEdges contestedState = .ok st' ∧
    contestedPager.ReconciledBy contestedState st' ∧ st'.selected = [⟨2⟩, ⟨1⟩] := by
  obtain ⟨st', hrun, hexact⟩ := reconcile_exact contestedState_costs rfl (by decide) (by decide +kernel) fun id _ => ⟨_, rfl⟩
  have hselected : (contestedPager.reconcileEdges contestedState).toOption.map (·.selected) = some [⟨2⟩, ⟨1⟩] := by
    decide +kernel
  rw [hrun] at hselected
  exact ⟨st', hrun, hexact, Option.some.inj hselected⟩

end GreedyPager

end Llm386
