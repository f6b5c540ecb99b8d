import Llm386.Pager.Ordering
import Llm386.Pager.Sections

/-! # The order of the retrievers

The merged scores keep the best score of each block. Whatever order the retrievers answer in, each block has the same
score up to the sign of a zero, so the candidates of each section are sorted alike, and each section takes and leaves
the same blocks. -/

namespace Llm386.GreedyPager

variable {p : GreedyPager} {order order' : HashOrder} {request : PageRequest} {required : List BlockId}
  {cands cands' : List RetrievalCandidate} {scores scores' : List (BlockId × Float32)}

/-! ### The best scores -/

/-- The merged scores of `cands`: each block that is not required, with the greatest of its scores. -/
structure Best (required : List BlockId) (cands : List RetrievalCandidate) (scores : List (BlockId × Float32)) : Prop where
  merged : Merged required scores
  listed : ∀ cand ∈ cands, cand.blockId ∉ required → cand.blockId ∈ scores.map (·.1)
  attained : ∀ e ∈ scores, ∃ cand ∈ cands, cand.blockId = e.1 ∧ cand.score = e.2
  greatest : ∀ e ∈ scores, ∀ cand ∈ cands, cand.blockId = e.1 → orderKey cand.score ≤ orderKey e.2

theorem Best.attained_concat (h : Best required cands scores) (cand : RetrievalCandidate) :
    ∀ e ∈ scores, ∃ c ∈ cands ++ [cand], c.blockId = e.1 ∧ c.score = e.2 := by
  intro e he
  obtain ⟨c, hc, hid⟩ := h.attained e he
  exact ⟨c, List.mem_append_left _ hc, hid⟩

variable {cand : RetrievalCandidate}

/-- A required block is passed over. -/
theorem Best.skip (h : Best required cands scores) (hreq : cand.blockId ∈ required) :
    Best required (cands ++ [cand]) scores where
  merged := h.merged
  listed := by
    rw [List.forall_mem_append, List.forall_mem_singleton]
    exact ⟨h.listed, fun hfresh => absurd hreq hfresh⟩
  attained := h.attained_concat cand
  greatest e he := by
    rw [List.forall_mem_append, List.forall_mem_singleton]
    exact ⟨h.greatest e he, fun hid => absurd (hid ▸ hreq) (h.merged.fresh e he)⟩

/-- A block that is listed keeps the greater score. -/
theorem Best.raise (h : Best required cands scores) (hnum : ∀ c ∈ cands, IsNumber c.score) (hcand : IsNumber cand.score)
    (hold : cand.blockId ∈ scores.map (·.1)) (hmerged : Merged required (scores.map fun (e : BlockId × Float32) =>
      if e.1 = cand.blockId ∧ e.2 < cand.score then (e.1, cand.score) else e)) :
    Best required (cands ++ [cand]) (scores.map fun (e : BlockId × Float32) =>
      if e.1 = cand.blockId ∧ e.2 < cand.score then (e.1, cand.score) else e) where
  merged := hmerged
  listed := by
    have hids : (scores.map fun (e : BlockId × Float32) =>
        if e.1 = cand.blockId ∧ e.2 < cand.score then (e.1, cand.score) else e).map (·.1) = scores.map (·.1) := by
      rw [List.map_map]
      refine List.map_congr_left fun e _ => ?_
      rw [Function.comp_apply]
      split <;> rfl
    rw [hids, List.forall_mem_append, List.forall_mem_singleton]
    exact ⟨h.listed, fun _ => hold⟩
  attained e he := by
    obtain ⟨e, hmem, rfl⟩ := List.mem_map.mp he
    split
    · rename_i hupdate
      exact ⟨cand, List.mem_append_right _ (List.mem_singleton_self _), hupdate.1.symm, rfl⟩
    · exact h.attained_concat cand e hmem
  greatest e he := by
    obtain ⟨e, hmem, rfl⟩ := List.mem_map.mp he
    obtain ⟨b, hb, -, hscore⟩ := h.attained e hmem
    have hnumber : IsNumber e.2 := hscore ▸ hnum b hb
    rw [List.forall_mem_append, List.forall_mem_singleton]
    by_cases hupdate : e.1 = cand.blockId ∧ e.2 < cand.score
    · rw [if_pos hupdate]
      have hlt := (lt_iff_orderKey hnumber hcand).mp hupdate.2
      exact ⟨fun c hc hid => (h.greatest e hmem c hc hid).trans hlt.le, fun _ => le_rfl⟩
    · rw [if_neg hupdate]
      refine ⟨h.greatest e hmem, fun hid => not_lt.mp fun hlt => ?_⟩
      exact hupdate ⟨hid.symm, (lt_iff_orderKey hnumber hcand).mpr hlt⟩

/-- A block that is not listed is added. -/
theorem Best.add (h : Best required cands scores) (hreq : cand.blockId ∉ required)
    (hnew : cand.blockId ∉ scores.map (·.1)) (hmerged : Merged required (scores ++ [(cand.blockId, cand.score)])) :
    Best required (cands ++ [cand]) (scores ++ [(cand.blockId, cand.score)]) where
  merged := hmerged
  listed := by
    rw [List.map_append, List.forall_mem_append, List.forall_mem_singleton]
    exact ⟨fun c hc hfresh => List.mem_append_left _ (h.listed c hc hfresh),
      fun _ => List.mem_append_right _ (List.mem_singleton_self _)⟩
  attained := by
    rw [List.forall_mem_append, List.forall_mem_singleton]
    exact ⟨h.attained_concat cand, cand, List.mem_append_right _ (List.mem_singleton_self _), rfl, rfl⟩
  greatest := by
    rw [List.forall_mem_append, List.forall_mem_singleton, List.forall_mem_append, List.forall_mem_singleton]
    refine ⟨fun e he => ?_, fun c hc hid => ?_, fun _ => le_rfl⟩
    · rw [List.forall_mem_append, List.forall_mem_singleton]
      refine ⟨h.greatest e he, fun hid => absurd ?_ hnew⟩
      exact hid.symm ▸ List.mem_map_of_mem he
    · have hid' : c.blockId = cand.blockId := hid
      have hlisted := h.listed c hc (by rw [hid']; exact hreq)
      rw [hid'] at hlisted
      exact absurd hlisted hnew

theorem Best.mergeScore (h : Best required cands scores) (hnum : ∀ c ∈ cands, IsNumber c.score)
    (hcand : IsNumber cand.score) :
    Best required (cands ++ [cand]) (GreedyPager.mergeScore required scores cand) := by
  have hmerged := h.merged.mergeScore cand
  unfold GreedyPager.mergeScore at hmerged ⊢
  by_cases hreq : cand.blockId ∈ required
  · rw [if_pos hreq]
    exact h.skip hreq
  · rw [if_neg hreq] at hmerged ⊢
    by_cases hold : cand.blockId ∈ scores.map (·.1)
    · rw [if_pos hold] at hmerged ⊢
      exact h.raise hnum hcand hold hmerged
    · rw [if_neg hold] at hmerged ⊢
      exact h.add hreq hold hmerged

theorem mergeScores_best (hnum : ∀ c ∈ cands, IsNumber c.score) :
    Best required cands (cands.foldl (GreedyPager.mergeScore required) []) := by
  induction cands using List.reverseRecOn with
  | nil => exact ⟨⟨List.nodup_nil, by simp⟩, by simp, by simp, by simp⟩
  | append_singleton cands cand ih =>
    rw [List.forall_mem_append, List.forall_mem_singleton] at hnum
    rw [List.foldl_concat]
    exact (ih hnum.1).mergeScore hnum.1 hnum.2

/-- The same candidates in another order give each block the same score, up to the sign of a zero. -/
theorem Best.sameValue (h : Best required cands scores) (h' : Best required cands' scores')
    (hsame : ∀ cand, cand ∈ cands ↔ cand ∈ cands') (hnum : ∀ cand ∈ cands, IsNumber cand.score) {e : BlockId × Float32}
    (he : e ∈ scores) : ∃ e' ∈ scores', e'.1 = e.1 ∧ SameValue e.2 e'.2 := by
  obtain ⟨cand, hc, hid, hscore⟩ := h.attained e he
  have hlisted := h'.listed cand ((hsame cand).mp hc) (hid ▸ h.merged.fresh e he)
  obtain ⟨e', he', hid'⟩ := List.mem_map.mp hlisted
  obtain ⟨cand', hc', hid'', hscore'⟩ := h'.attained e' he'
  have hback := (hsame cand').mpr hc'
  refine ⟨e', he', hid'.trans hid, sameValue_of_orderKey (hscore ▸ hnum cand hc) (hscore' ▸ hnum cand' hback) ?_⟩
  refine le_antisymm ?_ ?_
  · exact hscore ▸ h'.greatest e' he' cand ((hsame cand).mp hc) hid'.symm
  · exact hscore' ▸ h.greatest e he cand' hback (hid''.trans (hid'.trans hid))

/-! ### What the retrievers answer -/

/-- All answers of the retrievers, in their order. -/
def answers (p : GreedyPager) (request : PageRequest) : Except PagerError (List (List RetrievalCandidate)) :=
  p.retrievers.mapM fun retriever => (retriever request.sessionId request.task RETRIEVAL_LIMIT).mapError .retrieval

theorem gather_eq (p : GreedyPager) (request : PageRequest) : p.gather request =
    (fun found : List (List RetrievalCandidate) => found.flatten.foldl (mergeScore request.requiredBlocks) []) <$>
      p.answers request := by
  have hmap := Loop.foldlM_map_eq (s := []) (l := p.retrievers) (g := fun scores cands =>
      cands.foldl (mergeScore request.requiredBlocks) scores)
    (f := fun retriever : Retriever => (retriever request.sessionId request.task RETRIEVAL_LIMIT).mapError PagerError.retrieval)
  simp only [List.foldl_flatten]
  rw [answers, ← hmap, gather]
  rfl

/-- The retrievers score with numbers, and so are the scores of the candidates. -/
def NumberScores (p : GreedyPager) (request : PageRequest) : Prop :=
  ∀ retriever ∈ p.retrievers, ∀ cands, retriever request.sessionId request.task RETRIEVAL_LIMIT = .ok cands →
    ∀ cand ∈ cands, IsNumber cand.score ∧
      ∀ s c, p.loadCandidate (cand.blockId, cand.score) = .ok (some (s, c)) → IsNumber c.score

/-- The same pager with its retrievers in another order. -/
def withRetrievers (p : GreedyPager) (retrievers : List Retriever) : GreedyPager := { p with retrievers }

variable {retrievers : List Retriever} {found : List (List RetrievalCandidate)}

theorem NumberScores.answer (h : p.NumberScores request) (hfound : p.answers request = .ok found)
    {cand : RetrievalCandidate} (hc : cand ∈ found.flatten) : IsNumber cand.score ∧
      ∀ s c, p.loadCandidate (cand.blockId, cand.score) = .ok (some (s, c)) → IsNumber c.score := by
  obtain ⟨cands, hcands, hmem⟩ := List.mem_flatten.mp hc
  obtain ⟨retriever, hretriever, hanswer⟩ := Loop.exists_of_mem_mapM hfound hcands
  exact h retriever hretriever cands (Loop.mapError_eq_ok.mp hanswer) cand hmem

/-- The merged scores of the retrievers in any order are the best of the same answers. -/
theorem gather_best (h : p.NumberScores request) (hretrievers : retrievers.Perm p.retrievers)
    (hscores : p.gather request = .ok scores) : ∃ found scores', p.answers request = .ok found ∧
      Best request.requiredBlocks found.flatten scores ∧
      (p.withRetrievers retrievers).gather request = .ok scores' ∧ ∃ cands', Best request.requiredBlocks cands' scores' ∧
      ∀ cand, cand ∈ found.flatten ↔ cand ∈ cands' := by
  rw [gather_eq, Loop.map_eq_ok] at hscores
  obtain ⟨found, hfound, rfl⟩ := hscores
  obtain ⟨found', hfound', hperm⟩ := Loop.mapM_perm hretrievers.symm hfound
  have hsame : ∀ cand, cand ∈ found.flatten ↔ cand ∈ found'.flatten := fun cand => hperm.flatten.mem_iff
  have hnum : ∀ cand ∈ found.flatten, IsNumber cand.score := fun cand hc => (h.answer hfound hc).1
  refine ⟨found, _, hfound, mergeScores_best hnum, ?_, found'.flatten,
    mergeScores_best fun cand hc => hnum cand ((hsame cand).mpr hc), hsame⟩
  rw [gather_eq, Loop.map_eq_ok]
  exact ⟨found', hfound', rfl⟩

/-! ### The candidates of a section -/

variable {bySection bySection' : SectionKind → List Candidate} {s : SectionKind}

/-- How a candidate ranks: by score per token, then by score, then by id. -/
def rankOf (cand : Candidate) : ((ℤ ×ₗ ℤ ×ₗ ℤ) ×ₗ (ℤ ×ₗ ℤ ×ₗ ℤ)) ×ₗ BlockId :=
  toLex (toLex (orderKey (scorePerToken cand), orderKey cand.score), cand.id)

/-- A candidate without its score. -/
def bare (cand : Candidate) : Candidate := { cand with score := 0 }

/-- The same candidate, but for the sign of a zero score. -/
structure SameCandidate (a b : Candidate) : Prop where
  bare : bare a = bare b
  score : SameValue a.score b.score

theorem SameCandidate.rank {a b : Candidate} (h : SameCandidate a b) : rankOf a = rankOf b := by
  obtain ⟨hid, htokens, -, -⟩ := Candidate.mk.inj h.bare
  have hlt := a.tokens.isLt
  have hquot := (h.score.div_ofNat (n := max a.tokens.val 1) (by omega) (by omega)).orderKey_eq
  rw [rankOf, rankOf, hid, h.score.orderKey_eq]
  congr 3
  rw [scorePerToken, hquot, scorePerToken, htokens]

theorem candidateCmp_of_numbers {a b : Candidate} (ha : IsNumber a.score) (hb : IsNumber b.score) :
    candidateCmp a b = compare (rankOf b) (rankOf a) := by
  rw [candidateCmp, partialCmp_eq (isNumber_scorePerToken.mpr hb) (isNumber_scorePerToken.mpr ha), partialCmp_eq hb ha]
  rfl

/-- An entry with the same score, up to the sign of a zero, loads the same candidate. -/
theorem loadCandidate_same {e e' : BlockId × Float32} (hid : e'.1 = e.1) (hvalue : SameValue e.2 e'.2) {cand : Candidate}
    (h : p.loadCandidate e = .ok (some (s, cand))) :
    ∃ cand', p.loadCandidate e' = .ok (some (s, cand')) ∧ SameCandidate cand cand' := by
  unfold loadCandidate at h ⊢
  rw [hid]
  obtain ⟨found, hget, h⟩ := Loop.bind_eq_ok.mp h
  rw [hget, Loop.ok_bind]
  cases found with
  | none => cases h
  | some block =>
    obtain ⟨n, hn, h⟩ := Loop.bind_eq_ok.mp h
    cases h
    let words := if p.scoring.redundancyThreshold.isSome then some (p.wordSet block.bytes) else none
    refine ⟨⟨block.id, n, e'.2 + p.scoring.priorityWeight * clamp block.priority 0 1, words⟩, ?_, rfl, hvalue.add _⟩
    simp only [hn]
    rfl

/-- Whether an entry loads depends on its id only. -/
theorem loadCandidate_total {e e' : BlockId × Float32} (hid : e'.1 = e.1) {o : Option (SectionKind × Candidate)}
    (h : p.loadCandidate e = .ok o) : ∃ o', p.loadCandidate e' = .ok o' := by
  unfold loadCandidate at h ⊢
  rw [hid]
  obtain ⟨found, hget, h⟩ := Loop.bind_eq_ok.mp h
  rw [hget, Loop.ok_bind]
  cases found with
  | none => exact ⟨none, rfl⟩
  | some block =>
    obtain ⟨n, hn, -⟩ := Loop.bind_eq_ok.mp h
    exact ⟨_, by simp only [hn]; rfl⟩

/-- Scores whose entries pair up, with the same values up to the signs of zeros. -/
def Paired (scores scores' : List (BlockId × Float32)) : Prop :=
  ∀ e ∈ scores, ∃ e' ∈ scores', e'.1 = e.1 ∧ SameValue e.2 e'.2

theorem loadSections_total (hpaired : Paired scores' scores) (h : p.loadSections scores = .ok bySection) :
    ∃ bySection', p.loadSections scores' = .ok bySection' := by
  obtain ⟨loaded, hloaded, -⟩ := loadSections_inv h
  have hall : ∀ e ∈ scores', ∃ o, p.loadCandidate e = .ok o := by
    intro e he
    obtain ⟨e', he', hid, -⟩ := hpaired e he
    obtain ⟨o, ho⟩ := Loop.exists_of_mapM hloaded he'
    exact loadCandidate_total hid.symm ho
  obtain ⟨loaded', hloaded'⟩ := Loop.exists_mapM hall
  unfold loadSections
  rw [hloaded']
  exact ⟨_, rfl⟩

theorem paired_mem (hpaired : Paired scores scores') (h : p.loadSections scores = .ok bySection)
    (h' : p.loadSections scores' = .ok bySection') {cand : Candidate} (hc : cand ∈ bySection s) :
    ∃ cand' ∈ bySection' s, SameCandidate cand cand' := by
  obtain ⟨e, he, hload⟩ := (mem_section_iff h).mp hc
  obtain ⟨e', he', hid, hvalue⟩ := hpaired e he
  obtain ⟨cand', hload', hsame⟩ := loadCandidate_same hid hvalue hload
  exact ⟨cand', (mem_section_iff h').mpr ⟨e', he', hload'⟩, hsame⟩

/-- Candidates whose scores are numbers are sorted best first. -/
theorem section_sorted (hscores : (scores.map (·.1)).Nodup) (h : p.loadSections scores = .ok bySection)
    (hnum : ∀ cand ∈ bySection s, IsNumber cand.score) :
    (bySection s).Pairwise fun a b => rankOf b < rankOf a := by
  have hnodup := section_ids_nodup hscores h s
  obtain ⟨loaded, -, h⟩ := Loop.bind_eq_ok.mp h
  cases h
  dsimp only at hnum hnodup ⊢
  generalize ((loaded.filterMap id).filter (·.1 = s)).map (·.2) = cands at hnum hnodup ⊢
  have hmem : ∀ cand ∈ cands, IsNumber cand.score := fun cand hc => hnum cand ((p.sort.perm _ _).mem_iff.mpr hc)
  -- On numbers the comparison is the order of the ranks.
  have hle : ∀ a ∈ cands, ∀ b ∈ cands, (candidateCmp a b ≠ .gt ↔ rankOf b ≤ rankOf a) := by
    intro a ha b hb
    rw [candidateCmp_of_numbers (hmem a ha) (hmem b hb), ne_eq, compare_gt_iff_gt, not_lt]
  have htotal : Sorting.TotalOn candidateCmp cands := by
    refine ⟨fun a ha b hb => ?_, fun a ha b hb c hc hab hbc => ?_⟩
    · rw [candidateCmp_of_numbers (hmem a ha) (hmem b hb), candidateCmp_of_numbers (hmem b hb) (hmem a ha)]
      exact Std.OrientedCmp.eq_swap
    · exact (hle a ha c hc).mpr (((hle b hb c hc).mp hbc).trans ((hle a ha b hb).mp hab))
  have hsorted : (p.sortCandidates cands).Pairwise fun a b => rankOf b ≤ rankOf a := by
    refine List.Pairwise.imp_of_mem (fun {a b} ha hb hab => ?_) (p.sort.sorted _ _ htotal)
    exact (hle a ((p.sort.perm _ _).mem_iff.mp ha) b ((p.sort.perm _ _).mem_iff.mp hb)).mp hab
  have hdistinct : (p.sortCandidates cands).Pairwise fun a b => a.id ≠ b.id := List.pairwise_map.mp hnodup
  refine (hsorted.and hdistinct).imp fun {a b} hab => lt_of_le_of_ne hab.1 fun heq => ?_
  exact hab.2 (congrArg (fun r => (ofLex r).2) heq).symm

/-- Paired scores give each section the same candidates in the same order, but for the signs of zeros. -/
theorem section_bare (hpaired : Paired scores scores') (hpaired' : Paired scores' scores)
    (hscores : (scores.map (·.1)).Nodup) (hscores' : (scores'.map (·.1)).Nodup)
    (h : p.loadSections scores = .ok bySection) (h' : p.loadSections scores' = .ok bySection')
    (hnum : ∀ cand ∈ bySection s, IsNumber cand.score) (hnum' : ∀ cand ∈ bySection' s, IsNumber cand.score) :
    (bySection s).map bare = (bySection' s).map bare := by
  let view (cand : Candidate) := (rankOf cand, bare cand)
  have hview : ∀ {a b : Candidate}, SameCandidate a b → view a = view b := fun hab => Prod.ext hab.rank hab.bare
  have hsorted := section_sorted hscores h hnum
  have hsorted' := section_sorted hscores' h' hnum'
  have hranks : ((bySection s).map view).Pairwise fun x y => y.1 < x.1 := List.pairwise_map.mpr hsorted
  have hranks' : ((bySection' s).map view).Pairwise fun x y => y.1 < x.1 := List.pairwise_map.mpr hsorted'
  have hperm : ((bySection s).map view).Perm ((bySection' s).map view) := by
    refine (List.perm_ext_iff_of_nodup (hranks.imp fun hlt heq => ?_) (hranks'.imp fun hlt heq => ?_)).mpr fun x => ?_
    · exact hlt.ne' (congrArg Prod.fst heq)
    · exact hlt.ne' (congrArg Prod.fst heq)
    · constructor
      · intro hx
        obtain ⟨cand, hc, rfl⟩ := List.mem_map.mp hx
        obtain ⟨cand', hc', hsame⟩ := paired_mem hpaired h h' hc
        exact hview hsame ▸ List.mem_map_of_mem hc'
      · intro hx
        obtain ⟨cand, hc, rfl⟩ := List.mem_map.mp hx
        obtain ⟨cand', hc', hsame⟩ := paired_mem hpaired' h' h hc
        exact hview hsame ▸ List.mem_map_of_mem hc'
  have heq := hperm.eq_of_pairwise (fun x y _ _ hxy hyx => absurd hxy hyx.asymm) hranks hranks'
  simpa [List.map_map, Function.comp_def, view] using congrArg (List.map Prod.snd) heq

/-! ### The fill does not see the scores -/

variable {cap budget start : TokenCount} {l l' : List Candidate}

theorem charged_bare (n : TokenCount) (l : List Candidate) : charged n (l.map bare) = charged n l := by
  rw [charged, charged, List.foldl_map]
  rfl

theorem ids_bare (l : List Candidate) : (l.map bare).map (·.id) = l.map (·.id) := by
  rw [List.map_map]
  rfl

theorem resembles_bare (taken : List Candidate) (cand : Candidate) :
    p.resembles (taken.map bare) (bare cand) = p.resembles taken cand := by
  unfold resembles
  rw [List.flatMap_map]
  rfl

theorem greedy_bare (p : GreedyPager) (cap : TokenCount) (l : List Candidate) :
    p.greedy cap (l.map bare) = (p.greedy cap l).map bare ∧ p.leftOut cap (l.map bare) = p.leftOut cap l := by
  obtain ⟨hfill, hrefused⟩ := Filling.run_map (p.Welcomes cap) (p.Welcomes cap) bare
    (fun taken cand => by rw [Welcomes, Welcomes, resembles_bare, charged_bare]; rfl) l
  refine ⟨hfill, ?_⟩
  rw [leftOut, hrefused, List.map_map, leftOut]
  refine List.map_congr_left fun x _ => ?_
  rw [Function.comp_apply, resembles_bare]
  rfl

theorem system_bare (budget start : TokenCount) (l : List Candidate) :
    systemTaken budget start (l.map bare) = (systemTaken budget start l).map bare ∧
      systemLeft budget start (l.map bare) = systemLeft budget start l := by
  obtain ⟨hfill, hrefused⟩ := Filling.run_map (Under budget start) (Under budget start) bare
    (fun taken cand => by rw [Under, Under, charged_bare]; rfl) l
  refine ⟨hfill, ?_⟩
  rw [systemLeft, hrefused, List.map_map, systemLeft]
  rfl

end Llm386.GreedyPager
