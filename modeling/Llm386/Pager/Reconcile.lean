import Llm386.Pager.Accounting

/-! # What reconciliation does to a selection

The edges of the selected blocks are judged one by one, and no verdict depends on another. A block is dropped when
some verdict drops it; a block that is kept carries the first note that a verdict gives it. -/

namespace Llm386

/-- What an edge out of a selected block says. -/
inductive EdgeVerdict
  | keep
  | drop (id : BlockId) (reason : OmissionReason)
  | annotate (id : BlockId) (note : String)

namespace EdgeVerdict

/-- The reason to drop `id`, if this verdict does. -/
def dropFor (id : BlockId) : EdgeVerdict → Option OmissionReason
  | .drop x reason => if id = x then some reason else none
  | _ => none

/-- The note on `id`, if this verdict leaves one. -/
def noteFor (id : BlockId) : EdgeVerdict → Option String
  | .annotate x note => if id = x then some note else none
  | _ => none

/-- Some verdict drops `id`. -/
def dropped (verdicts : List EdgeVerdict) (id : BlockId) : Bool := (verdicts.findSome? (dropFor id)).isSome

/-- The first note on `id`. -/
def note (verdicts : List EdgeVerdict) (id : BlockId) : Option String := verdicts.findSome? (noteFor id)

theorem dropped_iff {verdicts : List EdgeVerdict} {id : BlockId} :
    dropped verdicts id = true ↔ ∃ reason, .drop id reason ∈ verdicts := by
  rw [dropped, List.findSome?_isSome_iff]
  constructor
  · rintro ⟨v, hv, hsome⟩
    cases v with
    | drop x reason =>
      simp only [dropFor, Option.isSome_ite] at hsome
      exact ⟨reason, hsome ▸ hv⟩
    | _ => cases hsome
  · rintro ⟨reason, hv⟩
    exact ⟨_, hv, by simp [dropFor]⟩

theorem drop_mem {verdicts : List EdgeVerdict} {id : BlockId} {reason : OmissionReason}
    (h : verdicts.findSome? (dropFor id) = some reason) : .drop id reason ∈ verdicts := by
  obtain ⟨v, hv, hr⟩ := List.exists_of_findSome?_eq_some h
  cases v with
  | drop x r =>
    simp only [dropFor] at hr
    split at hr
    · rename_i hid
      cases hr
      exact hid ▸ hv
    · cases hr
  | _ => cases hr

theorem note_mem {verdicts : List EdgeVerdict} {id : BlockId} {n : String} (h : note verdicts id = some n) :
    .annotate id n ∈ verdicts := by
  obtain ⟨v, hv, hn⟩ := List.exists_of_findSome?_eq_some h
  cases v with
  | annotate x m =>
    simp only [noteFor] at hn
    split at hn
    · rename_i hid
      cases hn
      exact hid ▸ hv
    · cases hn
  | _ => cases hn

theorem note_of_mem {verdicts : List EdgeVerdict} {id : BlockId} {n : String} (h : .annotate id n ∈ verdicts) :
    ∃ m, note verdicts id = some m := by
  refine Option.isSome_iff_exists.mp (List.findSome?_isSome_iff.mpr ⟨_, h, ?_⟩)
  simp [noteFor]

end EdgeVerdict

theorem lookup_orInsert {ν : Type} (m : List (BlockId × ν)) (k k' : BlockId) (v : ν) :
    (orInsert m k v).lookup k' = (m.lookup k').or (if k' = k then some v else none) := by
  unfold orInsert
  split
  · rename_i hsome
    by_cases hk : k' = k
    · obtain ⟨w, hw⟩ := Option.isSome_iff_exists.mp hsome
      simp [hk, hw]
    · simp [hk]
  · rw [List.lookup_append]
    by_cases hk : k' = k
    · simp [hk]
    · simp [List.lookup_cons, beq_false_of_ne hk, hk]

namespace GreedyPager

/-- What a verdict adds to those so far. -/
def Verdicts.add (v : Verdicts) : EdgeVerdict → Verdicts
  | .keep => v
  | .drop id reason => { v with toRemove := orInsert v.toRemove id reason }
  | .annotate id note => { v with notes := orInsert v.notes id note }

theorem Verdicts.lookup_toRemove (vs : List EdgeVerdict) (v : Verdicts) (id : BlockId) :
    (vs.foldl Verdicts.add v).toRemove.lookup id = (v.toRemove.lookup id).or (vs.findSome? (EdgeVerdict.dropFor id)) := by
  induction vs generalizing v with
  | nil => simp
  | cons e vs ih =>
    rw [List.foldl_cons, ih, List.findSome?_cons]
    cases e with
    | drop x reason =>
      rw [Verdicts.add, lookup_orInsert, EdgeVerdict.dropFor]
      by_cases hid : id = x <;> cases List.lookup id v.toRemove <;> simp [hid]
    | _ => rfl

theorem Verdicts.lookup_notes (vs : List EdgeVerdict) (v : Verdicts) (id : BlockId) :
    (vs.foldl Verdicts.add v).notes.lookup id = (v.notes.lookup id).or (EdgeVerdict.note vs id) := by
  induction vs generalizing v with
  | nil => simp [EdgeVerdict.note]
  | cons e vs ih =>
    rw [List.foldl_cons, ih, EdgeVerdict.note, EdgeVerdict.note, List.findSome?_cons]
    cases e with
    | annotate x note =>
      rw [Verdicts.add, lookup_orInsert, EdgeVerdict.noteFor]
      by_cases hid : id = x <;> cases List.lookup id v.notes <;> simp [hid]
    | _ => rfl

variable {p : GreedyPager} {S S' P P' : List BlockId}

/-! ### Verdicts -/

/-- The verdict of one edge out of the selected block `id`, whatever the others say. -/
def edgeVerdict (p : GreedyPager) (selectedSet pinned : List BlockId) (id : BlockId) (e : Edge) :
    Except PagerError EdgeVerdict := do
  let policy := p.scoring.edgePolicy
  if e.kind = .derivedFrom ∧ policy.derivedFrom = .suppressSource ∧ id ≠ e.toId ∧ e.toId ∈ selectedSet ∧
      e.toId ∉ pinned then
    pure (.drop e.toId .supersededByDerived)
  else if e.kind = .contradicts ∧ policy.contradicts ≠ .off ∧ id ≠ e.toId ∧ e.toId ∈ selectedSet then
    let (loser, winner) ← p.resolveContradiction id e.toId
    if policy.contradicts = .preferNewer ∧ loser ∉ pinned then pure (.drop loser .contradicted)
    else pure (.annotate loser ("contradicted by newer block " ++ winner.display))
  else pure .keep

theorem judgeEdge_eq (id : BlockId) (v : Verdicts) (e : Edge) :
    p.judgeEdge S P id v e = v.add <$> p.edgeVerdict S P id e := by
  simp only [judgeEdge, edgeVerdict]
  split
  · rfl
  · split
    · cases p.resolveContradiction id e.toId with
      | error err => rfl
      | ok x =>
        simp only [Loop.ok_bind]
        split <;> rfl
    · rfl

/-- The verdicts of the edges out of one selected block. -/
def blockVerdicts (p : GreedyPager) (selectedSet pinned : List BlockId) (id : BlockId) :
    Except PagerError (List EdgeVerdict) := do
  let edges ← (p.store.edgesFrom id).mapError .storage
  edges.mapM (p.edgeVerdict selectedSet pinned id)

/-- The verdicts of all selected blocks. -/
def allVerdicts (p : GreedyPager) (selectedSet pinned ids : List BlockId) : Except PagerError (List EdgeVerdict) :=
  List.flatten <$> ids.mapM (p.blockVerdicts selectedSet pinned)

theorem judgeBlock_eq (id : BlockId) (v : Verdicts) :
    p.judgeBlock S P v id = (fun vs => vs.foldl Verdicts.add v) <$> p.blockVerdicts S P id := by
  unfold judgeBlock blockVerdicts
  cases (p.store.edgesFrom id).mapError PagerError.storage with
  | error e => rfl
  | ok edges =>
    simp only [Loop.ok_bind]
    rw [show p.judgeEdge S P id = fun v e => v.add <$> p.edgeVerdict S P id e from
      funext fun v => funext fun e => judgeEdge_eq id v e, Loop.foldlM_map_eq]

/-- The judging pass collects all verdicts, in the order of the selection. -/
theorem judge_eq (ids : List BlockId) (v : Verdicts) :
    ids.foldlM (p.judgeBlock S P) v = (fun vs => vs.foldl Verdicts.add v) <$> p.allVerdicts S P ids := by
  rw [show p.judgeBlock S P = fun v id => (fun vs => vs.foldl Verdicts.add v) <$> p.blockVerdicts S P id from
    funext fun v => funext fun id => judgeBlock_eq id v]
  have hread := Loop.foldlM_map_eq (l := ids) (s := v) (g := fun (v : Verdicts) vs => vs.foldl Verdicts.add v)
    (f := p.blockVerdicts S P)
  rw [hread, allVerdicts]
  cases ids.mapM (p.blockVerdicts S P) with
  | error e => rfl
  | ok vss =>
    show Except.ok _ = Except.ok _
    simp only [List.foldl_flatten]

/-- Verdicts look at the selection and the pinned blocks as sets. -/
theorem edgeVerdict_congr (hS : ∀ x, x ∈ S ↔ x ∈ S') (hP : ∀ x, x ∈ P ↔ x ∈ P') :
    p.edgeVerdict S P = p.edgeVerdict S' P' := by
  funext id e
  simp only [edgeVerdict, hS, hP]

/-- A permuted selection has its verdicts permuted. -/
theorem allVerdicts_perm (hS : S.Perm S') (hP : ∀ x, x ∈ P ↔ x ∈ P') {vs : List EdgeVerdict}
    (h : p.allVerdicts S P S = .ok vs) : ∃ vs', p.allVerdicts S' P' S' = .ok vs' ∧ vs.Perm vs' := by
  have hblock : p.blockVerdicts S P = p.blockVerdicts S' P' := by
    unfold blockVerdicts
    rw [edgeVerdict_congr (fun x => hS.mem_iff) hP]
  obtain ⟨vss, hvss, rfl⟩ := Loop.map_eq_ok.mp h
  obtain ⟨vss', hvss', hperm⟩ := Loop.mapM_perm hS hvss
  exact ⟨vss'.flatten, by rw [allVerdicts, ← hblock, hvss']; rfl, hperm.flatten⟩

/-! ### The rebuild -/

/-- What the rebuild keeps: the entries no verdict drops, each with the first note on it, the total less the cost of
the dropped ones. -/
theorem rebuild_eq (v : Verdicts) (xs : List (BlockId × Selection)) (st : PageState)
    (hcosts : ∀ x ∈ xs, ∃ n, p.Costs x.1 n) : ∃ st', xs.foldlM (p.rebuild v) st = .ok st' ∧
      st'.selected = st.selected ++ (xs.filter fun x => (v.toRemove.lookup x.1).isNone).map (·.1) ∧
      st'.selections = st.selections ++ (xs.filter fun x => (v.toRemove.lookup x.1).isNone).map (fun x =>
        { x.2 with note := (v.notes.lookup x.1).or x.2.note }) ∧
      (∃ gone, st'.omitted = st.omitted ++ gone ∧
        gone.map (·.blockId) = (xs.filter fun x => (v.toRemove.lookup x.1).isSome).map (·.1) ∧
        ∀ o ∈ gone, v.toRemove.lookup o.blockId = some o.reason) ∧
      st'.blockTokens.val = st.blockTokens.val -
        p.totalCost ((xs.filter fun x => (v.toRemove.lookup x.1).isSome).map (·.1)) := by
  induction xs generalizing st with
  | nil => exact ⟨st, rfl, by simp, by simp, ⟨[], by simp, rfl, by simp⟩, by simp⟩
  | cons x xs ih =>
    obtain ⟨n, b, hb, hn⟩ := hcosts x List.mem_cons_self
    have hcost : p.tokenCost x.1 = n.val := Costs.tokenCost ⟨b, hb, hn⟩
    cases hlost : v.toRemove.lookup x.1 with
    | some reason =>
      let st₁ : PageState :=
        { st.omit_ x.1 reason x.2.score with blockTokens := st.blockTokens.saturatingSub n }
      have hstep : p.rebuild v st x = .ok st₁ := by
        obtain ⟨id, sel⟩ := x
        simp only [rebuild, hlost, hb, hn, Loop.ok_bind]
        rfl
      obtain ⟨st', hrun, hselected, hselections, ⟨gone, homitted, hgone, hreasons⟩, htokens⟩ :=
        ih st₁ fun y hy => hcosts y (List.mem_cons_of_mem _ hy)
      refine ⟨st', Loop.foldlM_cons_eq_ok.mpr ⟨st₁, hstep, hrun⟩, ?_, ?_, ?_, ?_⟩
      · simpa [hlost, st₁, PageState.omit_] using hselected
      · simpa [hlost, st₁, PageState.omit_] using hselections
      · refine ⟨⟨x.1, reason, x.2.score⟩ :: gone, ?_, ?_, List.forall_mem_cons.mpr ⟨hlost, hreasons⟩⟩
        · simpa [st₁, PageState.omit_] using homitted
        · simpa [hlost] using hgone
      · simp only [List.filter_cons, hlost, Option.isSome_some, if_true, List.map_cons, totalCost_cons, hcost, htokens]
        exact Nat.sub_sub _ _ _
    | none =>
      let st₁ : PageState :=
        { st with
          selected := st.selected ++ [x.1]
          selections := st.selections ++ [{ x.2 with note := (v.notes.lookup x.1).or x.2.note }] }
      have hstep : p.rebuild v st x = .ok st₁ := by
        obtain ⟨id, sel⟩ := x
        simp only [rebuild, hlost]
        cases hnote : v.notes.lookup id <;> simp only [st₁, hnote] <;> rfl
      obtain ⟨st', hrun, hselected, hselections, ⟨gone, homitted, hgone, hreasons⟩, htokens⟩ :=
        ih st₁ fun y hy => hcosts y (List.mem_cons_of_mem _ hy)
      refine ⟨st', Loop.foldlM_cons_eq_ok.mpr ⟨st₁, hstep, hrun⟩, ?_, ?_, ?_, ?_⟩
      · simpa [hlost, st₁] using hselected
      · simpa [hlost, st₁] using hselections
      · exact ⟨gone, homitted, by simpa [hlost] using hgone, hreasons⟩
      · simpa [hlost, st₁] using htokens

/-! ### The pass -/

/-- The blocks that the request requires, as the pass finds them. -/
def pinnedOf (st : PageState) : List BlockId := (st.selections.filter (·.reason = .pinned)).map (·.blockId)

/-- What the pass makes of a selection without notes. -/
structure Reconciled (p : GreedyPager) (verdicts : List EdgeVerdict) (st st' : PageState) : Prop where
  selected : st'.selected = st.selected.filter fun id => !EdgeVerdict.dropped verdicts id
  selections : st'.selections = (st.selections.filter fun sel => !EdgeVerdict.dropped verdicts sel.blockId).map fun sel =>
    { sel with note := EdgeVerdict.note verdicts sel.blockId }
  omitted : ∃ gone, st'.omitted = st.omitted ++ gone ∧
    gone.map (·.blockId) = st.selected.filter (EdgeVerdict.dropped verdicts)
  tokens : st'.blockTokens.val = st.blockTokens.val - p.totalCost (st.selected.filter (EdgeVerdict.dropped verdicts))

theorem Reconciled.lockstep {verdicts : List EdgeVerdict} {st st' : PageState} (h : Reconciled p verdicts st st')
    (hlock : st.selections.map (·.blockId) = st.selected) : st'.selections.map (·.blockId) = st'.selected := by
  rw [h.selections, h.selected, ← hlock, List.map_map, List.filter_map]
  rfl

theorem Reconciled.notes {verdicts : List EdgeVerdict} {st st' : PageState} (h : Reconciled p verdicts st st') :
    ∀ sel ∈ st'.selections, sel.note = EdgeVerdict.note verdicts sel.blockId := by
  intro sel hsel
  rw [h.selections] at hsel
  obtain ⟨sel₀, -, rfl⟩ := List.mem_map.mp hsel
  rfl

theorem reconcile_verdicts {st st' : PageState} (h : p.reconcileEdges st = .ok st') :
    ∃ vs, p.allVerdicts st.selected (pinnedOf st) st.selected = .ok vs := by
  obtain ⟨v, hv, -⟩ := Loop.bind_eq_ok.mp h
  rw [judge_eq] at hv
  obtain ⟨vs, hvs, -⟩ := Loop.map_eq_ok.mp hv
  exact ⟨vs, hvs⟩

theorem reconcileEdges_eq {st : PageState} {v : Verdicts}
    (h : st.selected.foldlM (p.judgeBlock st.selected (pinnedOf st)) ⟨[], []⟩ = .ok v) :
    p.reconcileEdges st = if v.toRemove.isEmpty && v.notes.isEmpty then .ok st
      else (st.selected.zip st.selections).foldlM (p.rebuild v) { st with selected := [], selections := [] } := by
  show (st.selected.foldlM (p.judgeBlock st.selected (pinnedOf st)) ⟨[], []⟩ >>= fun v => _) = _
  rw [h]
  rfl

/-- What the pass makes of a selection: a note that was there before stays where no verdict leaves one. -/
structure Rebuilt (p : GreedyPager) (verdicts : List EdgeVerdict) (st st' : PageState) : Prop where
  selected : st'.selected = st.selected.filter fun id => !EdgeVerdict.dropped verdicts id
  selections : st'.selections = (st.selections.filter fun sel => !EdgeVerdict.dropped verdicts sel.blockId).map fun sel =>
    { sel with note := (EdgeVerdict.note verdicts sel.blockId).or sel.note }
  omitted : ∃ gone, st'.omitted = st.omitted ++ gone ∧
    gone.map (·.blockId) = st.selected.filter (EdgeVerdict.dropped verdicts) ∧
    ∀ o ∈ gone, .drop o.blockId o.reason ∈ verdicts
  tokens : st'.blockTokens.val = st.blockTokens.val - p.totalCost (st.selected.filter (EdgeVerdict.dropped verdicts))

theorem Rebuilt.reconciled {verdicts : List EdgeVerdict} {st st' : PageState} (h : Rebuilt p verdicts st st')
    (hnone : ∀ sel ∈ st.selections, sel.note = none) : Reconciled p verdicts st st' := by
  obtain ⟨gone, homitted, hgone, -⟩ := h.omitted
  refine { h with
    selections := h.selections.trans (List.map_congr_left fun sel hsel => ?_)
    omitted := ⟨gone, homitted, hgone⟩ }
  simp [hnone sel (List.mem_filter.mp hsel).1]

/-- The pass drops what some verdict drops, takes its cost out of the total and stamps the first notes. -/
theorem reconcile_rebuilt {st : PageState} (hcosts : ∀ id ∈ st.selected, ∃ n, p.Costs id n)
    (hlock : st.selections.map (·.blockId) = st.selected)
    {vs : List EdgeVerdict} (hvs : p.allVerdicts st.selected (pinnedOf st) st.selected = .ok vs) :
    ∃ st', p.reconcileEdges st = .ok st' ∧ Rebuilt p vs st st' := by
  let v : Verdicts := vs.foldl Verdicts.add ⟨[], []⟩
  have hjudge : st.selected.foldlM (p.judgeBlock st.selected (pinnedOf st)) ⟨[], []⟩ = .ok v := by
    rw [judge_eq, hvs]
    rfl
  have hremove : ∀ id, (v.toRemove.lookup id).isSome = EdgeVerdict.dropped vs id := fun id => by
    simp [v, Verdicts.lookup_toRemove, EdgeVerdict.dropped]
  have hkept : ∀ id, (v.toRemove.lookup id).isNone = !EdgeVerdict.dropped vs id := fun id => by
    rw [← hremove, Option.not_isSome]
  have hnote : ∀ id, v.notes.lookup id = EdgeVerdict.note vs id := fun id => by simp [v, Verdicts.lookup_notes]
  rw [reconcileEdges_eq hjudge]
  split
  · -- No verdict but to keep.
    rename_i hempty
    obtain ⟨hremoveNil, hnotesNil⟩ : v.toRemove = [] ∧ v.notes = [] := by simpa using hempty
    have hkeep : ∀ id, EdgeVerdict.dropped vs id = false := fun id => by rw [← hremove, hremoveNil]; rfl
    have hquiet : ∀ id, EdgeVerdict.note vs id = none := fun id => by rw [← hnote, hnotesNil]; rfl
    have hnil : st.selected.filter (EdgeVerdict.dropped vs) = [] := List.filter_eq_nil_iff.mpr fun id _ => by simp [hkeep]
    exact ⟨st, rfl, ⟨by simp [hkeep], by simp [hkeep, hquiet], ⟨[], by simp [hnil]⟩, by simp [hnil]⟩⟩
  · have hzip : st.selected.zip st.selections = st.selections.map fun sel => (sel.blockId, sel) := by
      rw [← hlock, zip_map_self]
    obtain ⟨st', hrun, hselected, hselections, ⟨gone, homitted, hgone, hreasons⟩, htokens⟩ :=
      rebuild_eq v (st.selected.zip st.selections) { st with selected := [], selections := [] }
        fun x hx => hcosts x.1 (List.of_mem_zip hx).1
    have hids : ∀ f : BlockId → Bool,
        ((st.selected.zip st.selections).filter fun x => f x.1).map (·.1) = st.selected.filter f := fun f => by
      rw [hzip, List.filter_map, List.map_map, ← hlock, List.filter_map]
      rfl
    simp only [hkept, hremove, hnote, List.nil_append] at hselected hselections hgone htokens
    rw [hids fun id => !EdgeVerdict.dropped vs id] at hselected
    rw [hids (EdgeVerdict.dropped vs)] at hgone htokens
    refine ⟨st', hrun, ⟨hselected, ?_, ⟨gone, homitted, hgone, fun o ho => ?_⟩, htokens⟩⟩
    · rw [hselections, hzip, List.filter_map, List.map_map]
      rfl
    · have hdrop := hreasons o ho
      rw [Verdicts.lookup_toRemove, List.lookup_nil, Option.none_or] at hdrop
      exact EdgeVerdict.drop_mem hdrop

theorem reconcile_eq {st : PageState} (hcosts : ∀ id ∈ st.selected, ∃ n, p.Costs id n)
    (hlock : st.selections.map (·.blockId) = st.selected) (hnone : ∀ sel ∈ st.selections, sel.note = none)
    {vs : List EdgeVerdict} (hvs : p.allVerdicts st.selected (pinnedOf st) st.selected = .ok vs) :
    ∃ st', p.reconcileEdges st = .ok st' ∧ Reconciled p vs st st' := by
  obtain ⟨st', hrun, hrebuilt⟩ := reconcile_rebuilt hcosts hlock hvs
  exact ⟨st', hrun, hrebuilt.reconciled hnone⟩

/-- The blocks that stay are those no verdict drops, whatever they cost. -/
theorem reconcile_filter {st st' : PageState} (hlock : st.selections.map (·.blockId) = st.selected)
    {vs : List EdgeVerdict} (hvs : p.allVerdicts st.selected (pinnedOf st) st.selected = .ok vs)
    (h : p.reconcileEdges st = .ok st') :
    st'.selected = st.selected.filter fun id => !EdgeVerdict.dropped vs id := by
  let v : Verdicts := vs.foldl Verdicts.add ⟨[], []⟩
  have hjudge : st.selected.foldlM (p.judgeBlock st.selected (pinnedOf st)) ⟨[], []⟩ = .ok v := by
    rw [judge_eq, hvs]
    rfl
  have hremove : ∀ id, EdgeVerdict.dropped vs id = (v.toRemove.lookup id).isSome := fun id => by
    simp [v, Verdicts.lookup_toRemove, EdgeVerdict.dropped]
  rw [reconcileEdges_eq hjudge] at h
  split at h
  · rename_i hempty
    obtain ⟨hremoveNil, -⟩ : v.toRemove = [] ∧ v.notes = [] := by simpa using hempty
    cases h
    simp [hremove, hremoveNil]
  · let kept : BlockId → Bool := fun id => !EdgeVerdict.dropped vs id
    let I : PageState → List (BlockId × Selection) → Prop := fun st' rest =>
      st'.selected ++ (rest.map (·.1)).filter kept = st.selected.filter kept
    have pass : ∀ x rest st₁ st₂, I st₁ (x :: rest) → p.rebuild v st₁ x = .ok st₂ → I st₂ rest := by
      intro x rest st₁ st₂ hI hstep
      rcases rebuild_inv hstep with ⟨reason, hlost, ⟨rfl, -⟩ | ⟨n, -, rfl⟩⟩ | ⟨hstays, note, rfl⟩
      · simpa [I, kept, hremove, hlost, PageState.omit_] using hI
      · simpa [I, kept, hremove, hlost, PageState.omit_] using hI
      · simpa [I, kept, hremove, hstays] using hI
    have start : I { st with selected := [], selections := [] } (st.selected.zip st.selections) := by
      have hlen : st.selected.length ≤ st.selections.length := by rw [← hlock, List.length_map]
      simp [I, List.map_fst_zip hlen]
    simpa [I] using Loop.foldlM_inv_rest pass start h

/-- A verdict never drops a pinned block. -/
theorem edgeVerdict_drop {id lost : BlockId} {e : Edge} {reason : OmissionReason}
    (h : p.edgeVerdict S P id e = .ok (.drop lost reason)) : lost ∉ P := by
  simp only [edgeVerdict] at h
  split at h
  · rename_i hsource
    cases h
    exact hsource.2.2.2.2
  · split at h
    · obtain ⟨⟨loser, winner⟩, -, h⟩ := Loop.bind_eq_ok.mp h
      split at h
      · rename_i hlost
        cases h
        exact hlost.2
      · cases h
    · cases h

theorem not_pinned_of_dropped {ids : List BlockId} {vs : List EdgeVerdict} (h : p.allVerdicts S P ids = .ok vs)
    {id : BlockId} (hdropped : EdgeVerdict.dropped vs id = true) : id ∉ P := by
  obtain ⟨reason, hmem⟩ := EdgeVerdict.dropped_iff.mp hdropped
  obtain ⟨vss, hvss, rfl⟩ := Loop.map_eq_ok.mp h
  obtain ⟨block, hblock, hmem⟩ := List.mem_flatten.mp hmem
  obtain ⟨source, -, hread⟩ := Loop.exists_of_mem_mapM hvss hblock
  obtain ⟨edges, -, hread⟩ := Loop.bind_eq_ok.mp hread
  obtain ⟨e, -, hverdict⟩ := Loop.exists_of_mem_mapM hread hmem
  exact edgeVerdict_drop hverdict

/-- Step 6 after the expansion, for a selection without notes: nothing, or the verdicts carried out. -/
theorem reconcile_inv {st st' : PageState} (hplain : Plain p st) (h : p.reconcileEdges st = .ok st') :
    ∃ vs, p.allVerdicts st.selected (pinnedOf st) st.selected = .ok vs ∧ Reconciled p vs st st' := by
  obtain ⟨vs, hvs⟩ := reconcile_verdicts h
  obtain ⟨final, hfinal, hrec⟩ := reconcile_eq hplain.costed hplain.lockstep hplain.unnoted hvs
  rw [h] at hfinal
  cases hfinal
  exact ⟨vs, hvs, hrec⟩

end GreedyPager

end Llm386
