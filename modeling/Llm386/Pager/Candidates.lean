import Llm386.Pager.Passes

/-! # The candidates of a plan

The merged scores name each block once and no required block, so the candidates of all sections together name each
block once, whatever order the maps are iterated in. -/

namespace Llm386.GreedyPager

variable {p : GreedyPager} {order : HashOrder}

/-- The merged scores so far: distinct ids, none of them required. -/
structure Merged (required : List BlockId) (scores : List (BlockId × Float32)) : Prop where
  nodup : (scores.map (·.1)).Nodup
  fresh : ∀ e ∈ scores, e.1 ∉ required

theorem Merged.mergeScore {required : List BlockId} {scores : List (BlockId × Float32)} (h : Merged required scores)
    (cand : RetrievalCandidate) : Merged required (mergeScore required scores cand) := by
  unfold GreedyPager.mergeScore
  split
  · exact h
  · rename_i hreq
    split
    · have hkeys : (scores.map fun (e : BlockId × Float32) =>
          if e.1 = cand.blockId ∧ e.2 < cand.score then (e.1, cand.score) else e).map (·.1) = scores.map (·.1) := by
        rw [List.map_map]
        refine List.map_congr_left fun e _ => ?_
        rw [Function.comp_apply]
        split <;> rfl
      refine ⟨hkeys ▸ h.nodup, fun e he => ?_⟩
      have hid : e.1 ∈ scores.map (·.1) := hkeys ▸ List.mem_map_of_mem he
      obtain ⟨e', he', hid⟩ := List.mem_map.mp hid
      exact hid ▸ h.fresh e' he'
    · rename_i hnew
      refine ⟨?_, fun e he => ?_⟩
      · rw [List.map_append, List.nodup_append]
        refine ⟨h.nodup, List.nodup_singleton _, fun a ha b hb => ?_⟩
        have hb : b = cand.blockId := List.mem_singleton.mp hb
        exact fun heq => hnew (hb ▸ heq ▸ ha)
      · rcases List.mem_append.mp he with he | he
        · exact h.fresh e he
        · obtain rfl := List.mem_singleton.mp he
          exact hreq

theorem Merged.mergeScores {required : List BlockId} (cands : List RetrievalCandidate)
    {scores : List (BlockId × Float32)} (h : Merged required scores) :
    Merged required (cands.foldl (GreedyPager.mergeScore required) scores) := by
  induction cands generalizing scores with
  | nil => exact h
  | cons cand cands ih => exact ih (h.mergeScore cand)

theorem gather_merged {request : PageRequest} {scores : List (BlockId × Float32)} (h : p.gather request = .ok scores) :
    Merged request.requiredBlocks scores := by
  refine Loop.foldlM_inv (P := Merged request.requiredBlocks) (fun retriever _ s t hs ht => ?_)
    (s := []) ⟨List.nodup_nil, fun _ he => by cases he⟩ h
  obtain ⟨cands, -, ht⟩ := Loop.bind_eq_ok.mp ht
  cases ht
  exact hs.mergeScores cands

/-- What a list of scores loads. -/
theorem mem_loaded_iff {scores : List (BlockId × Float32)} {loaded : List (Option (SectionKind × Candidate))}
    (h : scores.mapM p.loadCandidate = .ok loaded) {x : SectionKind × Candidate} :
    x ∈ loaded.filterMap id ↔ ∃ entry ∈ scores, p.loadCandidate entry = .ok (some x) := by
  have hall := Loop.mapM_eq_ok_iff.mp h
  clear h
  induction hall with
  | nil => simp
  | @cons entry o scores loaded hload _ ih =>
    cases o with
    | none =>
      rw [List.exists_mem_cons_iff, hload]
      simpa using ih
    | some y =>
      rw [List.exists_mem_cons_iff, hload, Except.ok.injEq, Option.some.injEq, eq_comm]
      exact List.mem_cons.trans (or_congr Iff.rfl ih)

/-- The ids it loads are ids of the scores, in their order. -/
theorem loaded_ids_sublist {scores : List (BlockId × Float32)} {loaded : List (Option (SectionKind × Candidate))}
    (h : scores.mapM p.loadCandidate = .ok loaded) :
    ((loaded.filterMap id).map (·.2.id)).Sublist (scores.map (·.1)) := by
  have hall := Loop.mapM_eq_ok_iff.mp h
  clear h
  induction hall with
  | nil => simp
  | @cons entry o scores loaded hload _ ih =>
    cases o with
    | none => exact ih.cons _
    | some y =>
      obtain ⟨-, -, -, -, hid, -⟩ := loadCandidate_inv hload
      simpa [hid] using ih

variable {scores : List (BlockId × Float32)} {bySection : SectionKind → List Candidate}

theorem mem_section_iff (h : p.loadSections scores = .ok bySection) {s : SectionKind} {cand : Candidate} :
    cand ∈ bySection s ↔ ∃ entry ∈ scores, p.loadCandidate entry = .ok (some (s, cand)) := by
  obtain ⟨loaded, hloaded, hperm⟩ := loadSections_inv h
  rw [(hperm s).mem_iff, ← mem_loaded_iff hloaded, List.mem_map]
  constructor
  · rintro ⟨x, hx, rfl⟩
    obtain ⟨hmem, hs⟩ := List.mem_filter.mp hx
    obtain rfl : x.1 = s := by simpa using hs
    exact hmem
  · exact fun hx => ⟨(s, cand), List.mem_filter.mpr ⟨hx, by simp⟩, rfl⟩

theorem section_ids_nodup (hscores : (scores.map (·.1)).Nodup) (h : p.loadSections scores = .ok bySection)
    (s : SectionKind) : ((bySection s).map (·.id)).Nodup := by
  obtain ⟨loaded, hloaded, hperm⟩ := loadSections_inv h
  rw [((hperm s).map _).nodup_iff, List.map_map]
  exact ((List.filter_sublist.map _).trans (loaded_ids_sublist hloaded)).nodup hscores

/-- A block is a candidate of one section only. -/
theorem section_unique (hscores : (scores.map (·.1)).Nodup) (h : p.loadSections scores = .ok bySection)
    {s s' : SectionKind} {cand cand' : Candidate} (hc : cand ∈ bySection s) (hc' : cand' ∈ bySection s')
    (hid : cand.id = cand'.id) : s = s' := by
  obtain ⟨entry, hmem, hload⟩ := (mem_section_iff h).mp hc
  obtain ⟨entry', hmem', hload'⟩ := (mem_section_iff h).mp hc'
  obtain ⟨-, -, -, -, hentry, -⟩ := loadCandidate_inv hload
  obtain ⟨-, -, -, -, hentry', -⟩ := loadCandidate_inv hload'
  have heq : entry = entry' :=
    List.inj_on_of_nodup_map hscores hmem hmem' (hentry.symm.trans (hid.trans hentry'))
  rw [heq, hload'] at hload
  cases hload
  rfl

/-- The candidates of distinct sections name each block once. -/
theorem sections_ids_nodup (hscores : (scores.map (·.1)).Nodup) (h : p.loadSections scores = .ok bySection)
    {ss : List SectionKind} (hss : ss.Nodup) : ((ss.flatMap bySection).map (·.id)).Nodup := by
  rw [List.map_flatMap, List.nodup_flatMap]
  refine ⟨fun s _ => section_ids_nodup hscores h s, hss.imp fun hne id hs hs' => ?_⟩
  obtain ⟨cand, hc, hcid⟩ := List.mem_map.mp hs
  obtain ⟨cand', hc', hcid'⟩ := List.mem_map.mp hs'
  exact hne (section_unique hscores h hc hc' (hcid.trans hcid'.symm))

/-- The sections filled in step 5, in the order of the map: each once, and never the system section. -/
theorem order_sections_nodup (bySection : SectionKind → List Candidate) :
    (.system :: order.sections (variableSections bySection)).Nodup := by
  have hperm := order.sections_perm (variableSections bySection)
  rw [List.nodup_cons, hperm.mem_iff, hperm.nodup_iff]
  refine ⟨fun hs => ?_, (by decide : SectionKind.all.Nodup).filter _⟩
  simpa using (List.mem_filter.mp hs).2

/-- A candidate is not a required block. -/
theorem candidate_not_required {request : PageRequest} (hmerged : Merged request.requiredBlocks scores)
    (h : p.loadSections (order.scores scores) = .ok bySection) {s : SectionKind} {cand : Candidate}
    (hc : cand ∈ bySection s) : cand.id ∉ request.requiredBlocks := by
  obtain ⟨entry, hmem, hload⟩ := (mem_section_iff h).mp hc
  obtain ⟨-, -, -, -, hid, -⟩ := loadCandidate_inv hload
  exact hid ▸ hmerged.fresh entry ((order.scores_perm scores).mem_iff.mp hmem)

theorem order_scores_nodup {required : List BlockId} (hmerged : Merged required scores) :
    ((order.scores scores).map (·.1)).Nodup :=
  (((order.scores_perm scores).map _).nodup_iff).mpr hmerged.nodup

end Llm386.GreedyPager
