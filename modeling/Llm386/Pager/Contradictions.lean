import Llm386.Pager.Superseded

/-! # Contradictions as an order

Between two stored blocks the winner of a contradiction is the later one, then the one of higher priority, then the
one of larger id. A priority that is NaN decides nothing, so the id decides; where the id of such a block lies between
those of two blocks that their priorities rank the other way, the three beat each other in a circle. Without such a
block the winners are ordered, and some block of every selection is beaten by none. -/

namespace Llm386.GreedyPager

variable {p : GreedyPager} {ids : List BlockId}

/-- A block with a NaN priority between two others of its time: the smaller id has the higher priority. -/
def Torn (p : GreedyPager) (ids : List BlockId) : Prop :=
  ∃ a ∈ ids, ∃ b ∈ ids, ∃ c ∈ ids, ∃ x y z, p.getBlock a = .ok (some x) ∧ p.getBlock b = .ok (some y) ∧
    p.getBlock c = .ok (some z) ∧ x.createdAt = y.createdAt ∧ y.createdAt = z.createdAt ∧ y.priority.isNaN = true ∧
    partialCmp x.priority z.priority = some .gt ∧ a < b ∧ b < c

/-- Contradictions between the blocks of `ids` have one winner each, and the winners are ordered. -/
structure StrictlyOrdered (p : GreedyPager) (ids : List BlockId) : Prop where
  comm : ∀ a ∈ ids, ∀ b ∈ ids, a ≠ b → p.resolveContradiction a b = p.resolveContradiction b a
  total : ∀ a ∈ ids, ∀ b ∈ ids, a ≠ b → p.Beats a b ∨ p.Beats b a
  asymm : ∀ a ∈ ids, ∀ b ∈ ids, a ≠ b → p.Beats a b → ¬p.Beats b a
  trans : ∀ a ∈ ids, ∀ b ∈ ids, ∀ c ∈ ids, a ≠ b → b ≠ c → a ≠ c → p.Beats a b → p.Beats b c → p.Beats a c
  /-- A selection of such blocks keeps one of them, whatever edges contradict. -/
  keeps : p.scoring.edgePolicy.contradicts = .preferNewer → p.scoring.edgePolicy.derivedFrom ≠ .suppressSource →
    ∀ st st', st.selected ≠ [] → (∀ id ∈ st.selected, id ∈ ids) → st.selections.map (·.blockId) = st.selected →
      p.reconcileEdges st = .ok st' → st'.selected ≠ []

/-- The stored blocks of `ids`. -/
def blocksOf (p : GreedyPager) (ids : List BlockId) : Set ContextBlock := {x | ∃ a ∈ ids, p.getBlock a = .ok (some x)}

theorem blocksOf_injOn : Set.InjOn contradictionRanking.ident (p.blocksOf ids) := by
  rintro x ⟨a, -, hx⟩ y ⟨b, -, hy⟩ hid
  have hab : a = b := by rw [← getBlock_id hx, ← getBlock_id hy]; exact hid
  rw [hab, hy] at hx
  cases hx
  rfl

/-- A torn set of blocks is a gap in their ranking. -/
theorem torn_iff : p.Torn ids ↔ contradictionRanking.Gap (p.blocksOf ids) := by
  have hgt : ∀ x z : Float32, partialCmp x z = some .gt ↔
      ∃ k l, rankKey x = some k ∧ rankKey z = some l ∧ l < k := by
    intro x z
    by_cases hnum : IsNumber x ∧ IsNumber z
    · rw [partialCmp_eq hnum.1 hnum.2, rankKey_of_number hnum.1, rankKey_of_number hnum.2, Option.some.injEq,
        compare_gt_iff_gt]
      simp
    · rw [partialCmp_eq_none (not_and_or.mp hnum)]
      simp only [reduceCtorEq, false_iff]
      rintro ⟨k, l, hk, hl, -⟩
      exact (not_and_or.mp hnum).elim (fun h => by rw [rankKey_eq_none.mpr h] at hk; cases hk)
        fun h => by rw [rankKey_eq_none.mpr h] at hl; cases hl
  have htime : ∀ x y : ContextBlock, x.createdAt = y.createdAt ↔
      contradictionRanking.tie x = contradictionRanking.tie y := by
    intro x y
    refine ⟨congrArg Timestamp.val, fun h => ?_⟩
    have hval : ∀ s t : Timestamp, s.val = t.val → s = t := by
      rintro ⟨_, _⟩ ⟨_, _⟩ rfl
      rfl
    exact hval _ _ h
  have hnan : ∀ y : ContextBlock, y.priority.isNaN = true ↔ contradictionRanking.key y = none := by
    intro y
    rw [contradictionRanking, rankKey_eq_none, isNumber_iff, Bool.not_eq_false]
  constructor
  · rintro ⟨a, ha, b, hb, c, hc, x, y, z, hx, hy, hz, hxy, hyz, hkey, hrank, hab, hbc⟩
    refine ⟨x, ⟨a, ha, hx⟩, y, ⟨b, hb, hy⟩, z, ⟨c, hc, hz⟩, (htime x y).mp hxy, (htime y z).mp hyz, (hnan y).mp hkey,
      (hgt _ _).mp hrank, ?_, ?_⟩
    · show x.id < y.id
      rwa [getBlock_id hx, getBlock_id hy]
    · show y.id < z.id
      rwa [getBlock_id hy, getBlock_id hz]
  · rintro ⟨x, ⟨a, ha, hx⟩, y, ⟨b, hb, hy⟩, z, ⟨c, hc, hz⟩, hxy, hyz, hkey, hrank, hab, hbc⟩
    refine ⟨a, ha, b, hb, c, hc, x, y, z, hx, hy, hz, (htime x y).mpr hxy, (htime y z).mpr hyz, (hnan y).mpr hkey,
      (hgt _ _).mpr hrank, ?_, ?_⟩
    · rw [← getBlock_id hx, ← getBlock_id hy]
      exact hab
    · rw [← getBlock_id hy, ← getBlock_id hz]
      exact hbc

/-- Where the winners are ordered, a block that beats all it contradicts stays. -/
theorem reconcile_keeps_top (hstored : ∀ id ∈ ids, ∃ b, p.getBlock id = .ok (some b)) (htorn : ¬p.Torn ids)
    (hmode : p.scoring.edgePolicy.derivedFrom ≠ .suppressSource) {st st' : PageState} (hne : st.selected ≠ [])
    (hsub : ∀ id ∈ st.selected, id ∈ ids) (hlock : st.selections.map (·.blockId) = st.selected)
    (h : p.reconcileEdges st = .ok st') : st'.selected ≠ [] := by
  obtain ⟨id₀, hid₀⟩ := List.exists_mem_of_ne_nil _ hne
  have : Nonempty ContextBlock := ⟨(hstored id₀ (hsub id₀ hid₀)).choose⟩
  choose! block hblock using hstored
  have hmem : ∀ x ∈ st.selected.map block, x ∈ p.blocksOf ids := by
    intro x hx
    obtain ⟨id, hid, rfl⟩ := List.mem_map.mp hx
    exact ⟨id, hsub id hid, hblock id (hsub id hid)⟩
  have hgap : ¬contradictionRanking.Gap (p.blocksOf ids) := fun hgap => htorn (torn_iff.mpr hgap)
  obtain ⟨t, ht, htop⟩ := Ranking.exists_top (R := contradictionRanking) (l := st.selected.map block) (by simpa using hne)
    fun x hx y hy z hz hxy hyz => hxy.trans blocksOf_injOn hgap (hmem x hx) (hmem y hy) (hmem z hz) hyz
  obtain ⟨id, hid, rfl⟩ := List.mem_map.mp ht
  obtain ⟨vs, hvs⟩ := reconcile_verdicts h
  have hkept : EdgeVerdict.dropped vs id ≠ true := by
    rw [Ne, dropped_iff_superseded (fun id hid => ⟨block id, hblock id (hsub id hid)⟩) hvs]
    rintro ⟨-, -, ⟨hsource, -⟩ | ⟨-, other, hother, hdiff, -, hbeats⟩⟩
    · exact hmode hsource
    · have habove := (beats_iff (hblock other (hsub other hother)) (hblock id (hsub id hid)) hdiff).mp hbeats
      exact htop _ (List.mem_map_of_mem hother) habove
  rw [reconcile_filter hlock hvs h]
  exact List.ne_nil_of_mem (List.mem_filter.mpr ⟨hid, by simpa using hkept⟩)

/-- Contradictions between stored blocks have ordered winners exactly when the blocks are not torn. -/
theorem contradictions_ordered (hstored : ∀ id ∈ ids, ∃ b, p.getBlock id = .ok (some b)) :
    p.StrictlyOrdered ids ↔ ¬p.Torn ids := by
  have hranked : ∀ a ∈ ids, ∀ b ∈ ids, a ≠ b → ∀ x y, p.getBlock a = .ok (some x) → p.getBlock b = .ok (some y) →
      (p.Beats a b ↔ contradictionRanking.Above x y) := fun a _ b _ hne x y hx hy => beats_iff hx hy hne
  constructor
  · rintro hordered hgap
    obtain ⟨x, ⟨a, ha, hx⟩, y, ⟨b, hb, hy⟩, z, ⟨c, hc, hz⟩, hxy, hyz, hkey, ⟨k, l, hk, hl, hlt⟩, hab, hbc⟩ := torn_iff.mp hgap
    have hid : ∀ {u v : ContextBlock} {d e : BlockId}, p.getBlock d = .ok (some u) → p.getBlock e = .ok (some v) →
        contradictionRanking.ident u < contradictionRanking.ident v → d ≠ e := by
      rintro u v d e hu hv hlt rfl
      rw [hu] at hv
      cases hv
      exact lt_irrefl _ hlt
    have hne := hid hx hy hab
    have hne' := hid hy hz hbc
    have hne'' := hid hx hz (hab.trans hbc)
    -- `a` beats `c` by priority, `c` beats `b` and `b` beats `a` by id.
    have hac : p.Beats a c := (beats_iff hx hz hne'').mpr
      ((Ranking.above_of_keys (hxy.trans hyz) hk hl).mpr (Or.inl hlt))
    have hcb : p.Beats c b := (beats_iff hz hy hne'.symm).mpr
      ((Ranking.above_of_missing hyz.symm (Or.inr hkey)).mpr hbc)
    have hba : p.Beats b a := (beats_iff hy hx hne.symm).mpr
      ((Ranking.above_of_missing hxy.symm (Or.inl hkey)).mpr hab)
    exact hordered.asymm a ha b hb hne (hordered.trans a ha c hc b hb hne'' hne'.symm hne hac hcb) hba
  · intro htorn
    have hgap : ¬contradictionRanking.Gap (p.blocksOf ids) := fun hgap => htorn (torn_iff.mpr hgap)
    refine ⟨fun a ha b hb hne => ?_, fun a ha b hb hne => ?_, fun a ha b hb hne h h' => ?_,
      fun a ha b hb c hc hab hbc hac h h' => ?_, fun _ hmode st st' => reconcile_keeps_top hstored htorn hmode⟩
    · obtain ⟨x, hx⟩ := hstored a ha
      obtain ⟨y, hy⟩ := hstored b hb
      exact resolveContradiction_comm hne hx hy
    · obtain ⟨x, hx⟩ := hstored a ha
      obtain ⟨y, hy⟩ := hstored b hb
      exact (resolveContradiction_cases hne hx hy).imp And.right And.right
    · obtain ⟨x, hx⟩ := hstored a ha
      obtain ⟨y, hy⟩ := hstored b hb
      exact ((beats_iff hx hy hne).mp h).asymm ((beats_iff hy hx hne.symm).mp h')
    · obtain ⟨x, hx⟩ := hstored a ha
      obtain ⟨y, hy⟩ := hstored b hb
      obtain ⟨z, hz⟩ := hstored c hc
      exact (beats_iff hx hz hac).mpr (((beats_iff hx hy hab).mp h).trans blocksOf_injOn hgap ⟨a, ha, hx⟩ ⟨b, hb, hy⟩
        ⟨c, hc, hz⟩ ((beats_iff hy hz hbc).mp h'))

/-! ### Three facts in a circle -/

/-- Three facts of one time that contradict each other, under a policy that keeps the winners. -/
def tornPager (priority : Float32) : GreedyPager :=
  { GreedyPager.new (.ofLists [{ sampleBlock ⟨1⟩ .fact [0x61] [] with priority := 1 },
      { sampleBlock ⟨2⟩ .fact [0x62] [] with priority }, { sampleBlock ⟨3⟩ .fact [0x63] [] with priority := 0.5 }]
      [(⟨1⟩, ⟨1⟩), (⟨1⟩, ⟨2⟩), (⟨1⟩, ⟨3⟩)]
      [⟨⟨1⟩, ⟨2⟩, .contradicts⟩, ⟨⟨2⟩, ⟨3⟩, .contradicts⟩, ⟨⟨3⟩, ⟨1⟩, .contradicts⟩]) byteTokenizer (fun s => s) .insertion with
    scoring := { ScoringPolicy.default with
      edgePolicy := { EdgePolicy.default with derivedFrom := .off, contradicts := .preferNewer } } }

def tornRequest : PageRequest := ⟨⟨1⟩, "", ⟨"model", .saturate 100, .zero, .zero, "bytes", true⟩, []⟩

theorem contradictions_circle : (tornPager (0 / 0)).Beats ⟨1⟩ ⟨3⟩ ∧ (tornPager (0 / 0)).Beats ⟨3⟩ ⟨2⟩ ∧
    (tornPager (0 / 0)).Beats ⟨2⟩ ⟨1⟩ ∧ ¬(tornPager (0 / 0)).StrictlyOrdered [⟨1⟩, ⟨2⟩, ⟨3⟩] ∧
    ∃ plan, (tornPager (0 / 0)).page .canonical tornRequest = .ok plan ∧ plan.selected = [] ∧
      plan.omitted.map (·.reason) = [.contradicted, .contradicted, .contradicted] := by
  have hbeats : ∀ w l : BlockId, ((tornPager (0 / 0)).resolveContradiction l w).toOption = some (l, w) →
      (tornPager (0 / 0)).Beats w l := fun _ _ h => Loop.toOption_eq_some.mp h
  have h13 := hbeats ⟨1⟩ ⟨3⟩ (by decide +kernel)
  have h32 := hbeats ⟨3⟩ ⟨2⟩ (by decide +kernel)
  have h21 := hbeats ⟨2⟩ ⟨1⟩ (by decide +kernel)
  refine ⟨h13, h32, h21, fun hordered => ?_, ?_⟩
  · have h12 := hordered.trans ⟨1⟩ (by decide) ⟨3⟩ (by decide) ⟨2⟩ (by decide) (by decide) (by decide) (by decide) h13 h32
    exact hordered.asymm ⟨1⟩ (by decide) ⟨2⟩ (by decide) (by decide) h12 h21
  · have hrun : ((tornPager (0 / 0)).page .canonical tornRequest).toOption.map
        (fun plan => (plan.selected, plan.omitted.map (·.reason))) =
        some ([], [.contradicted, .contradicted, .contradicted]) := by decide +kernel
    obtain ⟨plan, hplan, hresult⟩ := Option.map_eq_some_iff.mp hrun
    obtain ⟨hselected, homitted⟩ := Prod.mk.inj hresult
    exact ⟨plan, Loop.toOption_eq_some.mp hplan, hselected, homitted⟩

theorem contradictions_ordered_sample : (tornPager 0.7).StrictlyOrdered [⟨1⟩, ⟨2⟩, ⟨3⟩] := by
  have hstored : ∀ id ∈ [⟨1⟩, ⟨2⟩, ⟨3⟩], ∃ b, (tornPager 0.7).getBlock id = .ok (some b) := by
    intro id hid
    simp only [List.mem_cons, List.not_mem_nil, or_false] at hid
    rcases hid with rfl | rfl | rfl <;> exact ⟨_, rfl⟩
  refine (contradictions_ordered hstored).mpr ?_
  rintro ⟨a, -, b, hb, c, -, x, y, z, -, hy, -, -, -, hnan, -⟩
  have hall : ∀ id ∈ [⟨1⟩, ⟨2⟩, (⟨3⟩ : BlockId)], ((tornPager 0.7).store.get id).toOption.join.any (·.priority.isNaN) = false := by
    decide +kernel
  have hget := Loop.mapError_eq_ok.mp hy
  have hnum := hall b hb
  rw [hget] at hnum
  exact Bool.false_ne_true (hnum.symm.trans hnan)

end Llm386.GreedyPager
