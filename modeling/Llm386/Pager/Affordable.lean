import Llm386.Pager.Accounting
import Llm386.Pager.Expansion
import Llm386.Pager.Together

/-! # Dependencies that all fit

Where everything that the selection depends on within the depth can be read and fits, the walk takes all of it, in whatever
order it meets the edges: no pull is refused, so no pull takes the place of another. -/

namespace Llm386.GreedyPager
open PageState BreadthFirst

variable {p : GreedyPager} {budget : TokenCount} {order : HashOrder} {st : PageState} {new pulled : List BlockId}
  {w : ExpandState} {dep : BlockId} {k : Nat}

/-- The blocks within `n` pulls of the selection. -/
def within (p : GreedyPager) (st : PageState) (n : Nat) : Set BlockId := ball p.pulls {id | id ∈ st.selected} n

theorem mem_within_zero {id : BlockId} : id ∈ p.within st 0 ↔ id ∈ st.selected := Iff.rfl

theorem mem_within_succ {id : BlockId} {n : Nat} :
    id ∈ p.within st (n + 1) ↔ id ∈ p.within st n ∨ ∃ x ∈ p.within st n, id ∈ p.pulls x := Iff.rfl

theorem mem_pulls {a b : BlockId} {block : ContextBlock} {deps : List BlockId} (hget : p.getBlock a = .ok (some block))
    (hdeps : p.dependencies .canonical 0 block a = .ok deps) : b ∈ p.pulls a ↔ (∃ n, p.Costs b n) ∧ b ∈ deps := by
  constructor
  · rintro ⟨hn, block', deps', hget', hdeps', hb⟩
    cases hget.symm.trans hget'
    cases hdeps.symm.trans hdeps'
    exact ⟨hn, hb⟩
  · exact fun hb => ⟨hb.1, block, deps, hget, hdeps, hb.2⟩

/-- All that the selection depends on within the depth can be read, and `new`, what of it is not selected, fits. -/
structure Affordable (p : GreedyPager) (budget : TokenCount) (st : PageState) (new : List BlockId) : Prop where
  nodup : new.Nodup
  all : ∀ id, id ∈ new ↔ id ∉ st.selected ∧ id ∈ p.within st p.scoring.edgePolicy.effectiveDepth
  room : st.promptTotal.val + p.totalCost new ≤ budget.val
  readable : ∀ n < p.scoring.edgePolicy.effectiveDepth, ∀ id ∈ p.within st n, p.Readable id

/-- The selection extended by `pulled`, each charged. -/
structure Extended (p : GreedyPager) (st : PageState) (pulled : List BlockId) (st' : PageState) : Prop where
  selected : st'.selected = st.selected ++ pulled
  selections : st'.selections = st.selections ++ pulled.map fun id => ⟨id, 0, .dependency, none⟩
  promptTotal : st'.promptTotal = .saturate (st.promptTotal.val + p.totalCost pulled)
  blockTokens : st'.blockTokens = .saturate (st.blockTokens.val + p.totalCost pulled)

theorem Extended.refl (st : PageState) : Extended p st [] st where
  selected := (List.append_nil _).symm
  selections := (List.append_nil _).symm
  promptTotal := (saturate_val st.promptTotal).symm
  blockTokens := (saturate_val st.blockTokens).symm

theorem Extended.push {st' : PageState} (h : Extended p st pulled st') {n : TokenCount} (hcost : p.Costs dep n) :
    Extended p st (pulled ++ [dep]) (st'.push dep n 0 .dependency) where
  selected := by simp [PageState.push, h.selected]
  selections := by simp [PageState.push, h.selections]
  promptTotal := by simp [PageState.push, h.promptTotal, saturate_saturatingAdd, hcost.tokenCost, Nat.add_assoc]
  blockTokens := by simp [PageState.push, h.blockTokens, saturate_saturatingAdd, hcost.tokenCost, Nat.add_assoc]

/-- The walk so far: the selection is extended by blocks of `new`, and what is queued is as near as its depth says. -/
structure Walked (p : GreedyPager) (st : PageState) (new pulled : List BlockId) (w : ExpandState) : Prop
    extends Extended p st pulled w.toPageState where
  nodup : pulled.Nodup
  among : ∀ id ∈ pulled, id ∈ new
  seen : ∀ id ∈ w.selected, id ∈ w.visited
  queued : ∀ e ∈ w.frontier, e.1 ∈ p.within st e.2

/-- A dependency of a block `k` pulls away: gone, or stored and one pull further. -/
def Next (p : GreedyPager) (st : PageState) (k : Nat) (dep : BlockId) : Prop :=
  p.getBlock dep = .ok none ∨ ∃ n, p.Costs dep n ∧ dep ∈ p.within st (k + 1)

theorem totalCost_le_of_subset {ids ids' : List BlockId} (hnodup : ids.Nodup) (hsub : ∀ id ∈ ids, id ∈ ids') :
    p.totalCost ids ≤ p.totalCost ids' := by
  obtain ⟨l, hperm, hsublist⟩ := hnodup.subperm hsub
  rw [totalCost, totalCost, ← (hperm.map p.tokenCost).sum_eq]
  exact (hsublist.map p.tokenCost).sum_le_sum fun _ _ => Nat.zero_le _

theorem Walked.nodup_append (hw : Walked p st new pulled w) (hfresh : dep ∉ pulled) : (pulled ++ [dep]).Nodup := by
  refine List.nodup_append.mpr ⟨hw.nodup, List.nodup_singleton _, ?_⟩
  rintro id hid _ hdep rfl
  exact hfresh (List.mem_singleton.mp hdep ▸ hid)

/-- Every dependency fits while those to come do. -/
theorem Walked.fits (h : Affordable p budget st new) (hw : Walked p st new pulled w) (hnew : dep ∈ new)
    (hfresh : dep ∉ pulled) {n : TokenCount} (hcost : p.Costs dep n) : w.Fits budget n := by
  have hamong : ∀ id ∈ pulled ++ [dep], id ∈ new :=
    List.forall_mem_append.mpr ⟨hw.among, List.forall_mem_singleton.mpr hnew⟩
  have hle := totalCost_le_of_subset (p := p) (hw.nodup_append hfresh) hamong
  have hroom := h.room
  simp only [totalCost_append, totalCost_cons, totalCost_nil, hcost.tokenCost] at hle
  rw [PageState.Fits, hw.promptTotal, saturate_saturatingAdd, TokenCount.le_iff]
  simp only [TokenCount.saturate]
  omega

/-- A dependency is seen before, gone or pulled in: it is never refused. -/
theorem Walked.pullDep (h : Affordable p budget st new) (hk : k < p.scoring.edgePolicy.effectiveDepth)
    (hdep : p.Next st k dep) (hw : Walked p st new pulled w) : ¬p.Refuses budget w dep ∧
      ∃ w' pulled', p.pullDep budget k w dep = .ok w' ∧ Walked p st new pulled' w' := by
  unfold GreedyPager.pullDep
  by_cases hseen : dep ∈ w.visited
  · rw [if_pos hseen]
    exact ⟨fun hrefused => hrefused.1 hseen, w, pulled, rfl, hw⟩
  · rw [if_neg hseen]
    rcases hdep with hgone | ⟨n, hcost, hnear⟩
    · refine ⟨fun ⟨_, n, hcost, _⟩ => hcost.not_missing hgone, { w with visited := dep :: w.visited }, pulled, ?_, ?_⟩
      · rw [hgone]
        rfl
      · exact { hw with seen := fun id hid => List.mem_cons_of_mem _ (hw.seen id hid) }
    · have hold : dep ∉ w.selected := fun hsel => hseen (hw.seen dep hsel)
      rw [hw.selected, List.mem_append, not_or] at hold
      have hnew : dep ∈ new := (h.all dep).mpr ⟨hold.1, ball_mono hk hnear⟩
      have hfits := hw.fits h hnew hold.2 hcost
      obtain ⟨b, hb, hn⟩ := hcost
      refine ⟨fun ⟨_, m, hm, hno⟩ => hno (hm.unique ⟨b, hb, hn⟩ ▸ hfits), { w with
        toPageState := w.push dep n 0 .dependency
        visited := dep :: w.visited
        frontier := w.frontier ++ [(dep, k + 1)] }, pulled ++ [dep], ?_, ?_⟩
      · rw [hb]
        show (p.tokensFor b >>= fun tokens => _) = _
        rw [hn]
        show (if w.Fits budget n then _ else _) = _
        rw [if_pos hfits]
        rfl
      · refine { hw.toExtended.push ⟨b, hb, hn⟩ with nodup := hw.nodup_append hold.2, among := ?_, seen := ?_, queued := ?_ }
        · exact List.forall_mem_append.mpr ⟨hw.among, List.forall_mem_singleton.mpr hnew⟩
        · exact List.forall_mem_append.mpr ⟨fun id hid => List.mem_cons_of_mem _ (hw.seen id hid),
            List.forall_mem_singleton.mpr List.mem_cons_self⟩
        · exact List.forall_mem_append.mpr ⟨hw.queued, List.forall_mem_singleton.mpr hnear⟩

/-- The dependencies of a readable block, in the order of this run. -/
theorem Readable.dependencies (order : HashOrder) {id : BlockId} {block : ContextBlock} (h : p.Readable id)
    (hnear : id ∈ p.within st k) (hget : p.getBlock id = .ok (some block)) (reads : Nat) :
    ∃ deps, p.dependencies order reads block id = .ok deps ∧ ∀ dep ∈ deps, p.Next st k dep := by
  rcases h with hgone | ⟨block', deps, hget', hdeps, hread⟩
  · rw [hgone] at hget
    cases hget
  · rw [hget] at hget'
    cases hget'
    obtain ⟨deps', hdeps', hperm⟩ := dependencies_perm order reads hdeps
    refine ⟨deps', hdeps', fun dep hdep => ?_⟩
    have hdep := hperm.mem_iff.mpr hdep
    rcases hread dep hdep with hnone | ⟨n, hn⟩
    · exact Or.inl hnone
    · exact Or.inr ⟨n, hn, mem_ball_succ_of_next hnear ((mem_pulls hget hdeps).mpr ⟨⟨n, hn⟩, hdep⟩)⟩

/-- One pass of the walk gets through and refuses nothing. -/
theorem Walked.expandBlock (order : HashOrder) (h : Affordable p budget st new) {entry : BlockId × Nat}
    (hnear : entry.1 ∈ p.within st entry.2) (hw : Walked p st new pulled w) : p.RoomyVisit order budget w entry ∧
      ∃ w' pulled', p.expandBlock order budget w entry = .ok w' ∧ Walked p st new pulled' w' := by
  obtain ⟨id, k⟩ := entry
  by_cases hdeep : p.scoring.edgePolicy.effectiveDepth ≤ k
  · refine ⟨fun _ _ _ hk => absurd hk (Nat.not_lt.mpr hdeep), w, pulled, ?_, hw⟩
    simp only [GreedyPager.expandBlock, if_pos hdeep]
    rfl
  · have hk := Nat.lt_of_not_le hdeep
    have hreadable := h.readable k hk id hnear
    let Q (w : ExpandState) (rest : List BlockId) : Prop :=
      (∃ pulled, Walked p st new pulled w) ∧ ∀ dep ∈ rest, p.Next st k dep
    have pass : ∀ dep rest u, Q u (dep :: rest) → ¬p.Refuses budget u dep ∧
        ∃ u', p.pullDep budget k u dep = .ok u' ∧ Q u' rest := by
      rintro dep rest u ⟨⟨pulled, hu⟩, hnext⟩
      obtain ⟨hroomy, u', pulled', hu', hwalked⟩ := hu.pullDep h hk (hnext dep List.mem_cons_self)
      exact ⟨hroomy, u', hu', ⟨pulled', hwalked⟩, fun d hd => hnext d (List.mem_cons_of_mem _ hd)⟩
    have hstart : ∀ deps, (∀ dep ∈ deps, p.Next st k dep) → Q { w with reads := w.reads + 1 } deps :=
      fun deps hdeps => ⟨⟨pulled, { hw with }⟩, hdeps⟩
    constructor
    · intro block deps hget _ hdeps x hx
      obtain ⟨deps', hdeps', hnext⟩ := hreadable.dependencies order hnear hget w.reads
      cases hdeps.symm.trans hdeps'
      obtain ⟨rest, hQ⟩ := Loop.inv_of_visited (P := Q) (fun dep rest u u' hQ hstep => by
        obtain ⟨-, u₁, hu₁, hnext⟩ := pass dep rest u hQ
        cases hstep.symm.trans hu₁
        exact hnext) (hstart deps hnext) hx
      exact (pass x.2 rest x.1 hQ).1
    · simp only [GreedyPager.expandBlock, if_neg hdeep]
      cases hget : p.getBlock id with
      | error e =>
        rcases hreadable with hgone | ⟨block, -, hsome, -⟩
        · simp [hgone] at hget
        · simp [hsome] at hget
      | ok found =>
        cases found with
        | none => exact ⟨w, pulled, rfl, hw⟩
        | some block =>
          obtain ⟨deps, hdeps, hnext⟩ := hreadable.dependencies order hnear hget w.reads
          obtain ⟨w', hw', ⟨pulled', hwalked⟩, -⟩ :=
            Loop.foldlM_total (fun dep rest u hQ => (pass dep rest u hQ).2) (hstart deps hnext)
          refine ⟨w', pulled', ?_, hwalked⟩
          simp only [Loop.ok_bind, hdeps]
          exact hw'

/-- The walk gets through and refuses nothing. -/
theorem Walked.expandLoop (order : HashOrder) (h : Affordable p budget st new) (fuel : Nat) (hw : Walked p st new pulled w) :
    p.WalkAll order budget (p.RoomyVisit order budget) fuel w ∧
      ∃ w' pulled', p.expandLoop order budget fuel w = .ok w' ∧ Walked p st new pulled' w' := by
  induction fuel generalizing w pulled with
  | zero => exact ⟨trivial, w, pulled, rfl, hw⟩
  | succ fuel ih =>
    cases hqueue : w.frontier with
    | nil =>
      refine ⟨fun entry rest heq => ?_, w, pulled, ?_, hw⟩
      · rw [hqueue] at heq
        cases heq
      · simp only [GreedyPager.expandLoop, hqueue]
    | cons entry rest =>
      have hpop : Walked p st new pulled { w with frontier := rest } :=
        { hw with queued := fun e he => hw.queued e (hqueue ▸ List.mem_cons_of_mem _ he) }
      obtain ⟨hroomy, w₁, pulled₁, hw₁, hwalked⟩ :=
        hpop.expandBlock order h (hw.queued entry (hqueue ▸ List.mem_cons_self))
      obtain ⟨hall, w', pulled', hw', hdone⟩ := ih hwalked
      refine ⟨fun entry' rest' heq => ?_, w', pulled', ?_, hdone⟩
      · rw [hqueue] at heq
        cases heq
        refine ⟨hroomy, fun st' hst' => ?_⟩
        rw [hw₁] at hst'
        cases hst'
        exact hall
      · simp only [GreedyPager.expandLoop, hqueue, hw₁, Loop.ok_bind, hw']

/-- Dependencies that all fit are pulled in by every order. -/
theorem Affordable.expandEdges (order : HashOrder) (hcosts : ∀ id ∈ st.selected, ∃ n, p.Costs id n)
    (h : Affordable p budget st new) :
    ∃ st' pulled, p.expandEdges order budget st = .ok st' ∧ pulled.Perm new ∧ Extended p st pulled st' := by
  have hstart : Walked p st new [] (expandStart st) :=
    { Extended.refl st with
      nodup := List.nodup_nil
      among := fun _ hid => (List.not_mem_nil hid).elim
      seen := fun _ hid => hid
      queued := fun e he => by
        obtain ⟨id, hid, rfl⟩ := List.mem_map.mp he
        exact hid }
  obtain ⟨hroomy, w, pulled, hrun, hwalked⟩ := hstart.expandLoop order h (expandFuel st)
  by_cases hdepth : p.scoring.edgePolicy.effectiveDepth = 0
  · have hnone : new = [] := List.eq_nil_iff_forall_not_mem.mpr fun id hid => by
      obtain ⟨hold, hnear⟩ := (h.all id).mp hid
      rw [hdepth] at hnear
      exact hold hnear
    refine ⟨st, [], ?_, hnone ▸ .refl _, .refl st⟩
    rw [GreedyPager.expandEdges, if_pos hdepth]
    rfl
  · have hexpand : p.expandEdges order budget st = .ok w.toPageState := by
      rw [GreedyPager.expandEdges, if_neg hdepth]
      show (p.expandLoop order budget (expandFuel st) (expandStart st) >>= fun done => _) = _
      rw [hrun]
      rfl
    refine ⟨w.toPageState, pulled, hexpand, ?_, hwalked.toExtended⟩
    obtain ⟨hall, -⟩ := expandEdges_roomy hcosts (fun _ => hroomy) hexpand
    refine (List.perm_ext_iff_of_nodup hwalked.nodup h.nodup).mpr fun id => ⟨hwalked.among id, fun hid => ?_⟩
    obtain ⟨hold, hnear⟩ := (h.all id).mp hid
    have hsel := (hall id).mpr hnear
    rw [hwalked.selected, List.mem_append] at hsel
    exact hsel.resolve_left hold

end Llm386.GreedyPager
