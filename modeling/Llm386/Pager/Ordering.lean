import Llm386.Core.Rounding
import Llm386.Lib.Sorting
import Llm386.Pager.Candidates

/-! # The order of the candidates

Candidates are compared by score per token, then by score, then by id, and a NaN compares equal to every score. Where
every score is a number this is a total order. A NaN breaks it where its id lies between those of two candidates that
their scores rank against their ids. -/

namespace Llm386.GreedyPager

variable {p : GreedyPager} {cands : List Candidate} {a b c : Candidate}

/-! ### The comparison as a ranking -/

/-- A candidate ranks by score per token and score, unless its score is a NaN. -/
def candidateRanking : Ranking Candidate Unit ((ℤ ×ₗ ℤ ×ₗ ℤ) ×ₗ (ℤ ×ₗ ℤ ×ₗ ℤ)) BlockId where
  tie _ := ()
  key c := (rankKey c.score).map fun k => toLex (orderKey (scorePerToken c), k)
  ident c := c.id

theorem isNumber_scorePerToken : IsNumber (scorePerToken c) ↔ IsNumber c.score := by
  have hlt := c.tokens.isLt
  exact isNumber_div_ofNat (by omega) (by omega)

theorem candidateKey_eq_none : candidateRanking.key c = none ↔ ¬IsNumber c.score := by
  rw [candidateRanking, Option.map_eq_none_iff, rankKey_eq_none]

theorem candidateKey_of_number (h : IsNumber c.score) :
    candidateRanking.key c = some (toLex (orderKey (scorePerToken c), orderKey c.score)) := by
  show (rankKey c.score).map _ = _
  rw [rankKey_of_number h]
  rfl

theorem scores_compare (a b : Candidate) :
    ((partialCmp (scorePerToken a) (scorePerToken b)).getD .eq).then ((partialCmp a.score b.score).getD .eq) =
      Ranking.keyCmp (candidateRanking.key a) (candidateRanking.key b) := by
  rw [partialCmp_getD, partialCmp_getD]
  by_cases ha : IsNumber a.score
  · by_cases hb : IsNumber b.score
    · rw [candidateKey_of_number ha, candidateKey_of_number hb, rankKey_of_number ha, rankKey_of_number hb,
        rankKey_of_number (isNumber_scorePerToken.mpr ha), rankKey_of_number (isNumber_scorePerToken.mpr hb)]
      rfl
    · rw [candidateKey_eq_none.mpr hb, rankKey_eq_none.mpr hb,
        rankKey_eq_none.mpr (isNumber_scorePerToken.not.mpr hb)]
      simp
  · rw [candidateKey_eq_none.mpr ha, rankKey_eq_none.mpr ha, rankKey_eq_none.mpr (isNumber_scorePerToken.not.mpr ha)]
    rfl

theorem candidateCmp_eq (a b : Candidate) : candidateCmp a b = candidateRanking.cmp b a := by
  rw [candidateCmp, scores_compare, Ranking.cmp]
  rfl

theorem candidateCmp_above : candidateCmp a b ≠ .gt ↔ ¬candidateRanking.Above b a := by
  rw [candidateCmp_eq, Ranking.Above]

/-! ### Total orders -/

/-- The comparison orders the candidates of a list totally. -/
structure Ordered (cands : List Candidate) : Prop where
  total : ∀ a ∈ cands, ∀ b ∈ cands, candidateCmp b a = (candidateCmp a b).swap
  antisymm : ∀ a ∈ cands, ∀ b ∈ cands, candidateCmp a b ≠ .gt → candidateCmp b a ≠ .gt → a = b
  trans : ∀ a ∈ cands, ∀ b ∈ cands, ∀ c ∈ cands, candidateCmp a b ≠ .gt → candidateCmp b c ≠ .gt →
    candidateCmp a c ≠ .gt

/-- `a` has a better score per token than `b`, or the same and a better score. -/
def Outscores (a b : Candidate) : Prop :=
  partialCmp (scorePerToken a) (scorePerToken b) = some .gt ∨
    partialCmp (scorePerToken a) (scorePerToken b) = some .eq ∧ partialCmp a.score b.score = some .gt

/-- A candidate without a score whose id lies between those of two candidates, the better of which has the lower id. -/
def Tangled (cands : List Candidate) : Prop :=
  ∃ a ∈ cands, ∃ b ∈ cands, ∃ c ∈ cands, ¬IsNumber b.score ∧ Outscores a c ∧ a.id < b.id ∧ b.id < c.id

theorem outscores_iff : Outscores a b ↔ ∃ k l, candidateRanking.key a = some k ∧ candidateRanking.key b = some l ∧ l < k := by
  by_cases ha : IsNumber a.score
  · by_cases hb : IsNumber b.score
    · rw [Outscores, partialCmp_eq ha hb, partialCmp_eq (isNumber_scorePerToken.mpr ha) (isNumber_scorePerToken.mpr hb),
        candidateKey_of_number ha, candidateKey_of_number hb]
      simp only [Option.some.injEq, compare_gt_iff_gt, compare_eq_iff_eq]
      constructor
      · rintro (hlt | ⟨heq, hlt⟩)
        · exact ⟨_, _, rfl, rfl, Prod.Lex.toLex_lt_toLex.mpr (Or.inl hlt)⟩
        · exact ⟨_, _, rfl, rfl, Prod.Lex.toLex_lt_toLex.mpr (Or.inr ⟨heq.symm, hlt⟩)⟩
      · rintro ⟨_, _, rfl, rfl, hlt⟩
        exact (Prod.Lex.toLex_lt_toLex.mp hlt).imp_right fun hlt => ⟨hlt.1.symm, hlt.2⟩
    · rw [Outscores, partialCmp_eq_none (Or.inr hb), partialCmp_eq_none (Or.inr (isNumber_scorePerToken.not.mpr hb)),
        candidateKey_eq_none.mpr hb]
      simp
  · rw [Outscores, partialCmp_eq_none (Or.inl ha), partialCmp_eq_none (Or.inl (isNumber_scorePerToken.not.mpr ha)),
      candidateKey_eq_none.mpr ha]
    simp

theorem tangled_iff : Tangled cands ↔ candidateRanking.Gap {x | x ∈ cands} := by
  constructor
  · rintro ⟨a, ha, b, hb, c, hc, hnan, hbetter, hab, hbc⟩
    exact ⟨a, ha, b, hb, c, hc, rfl, rfl, candidateKey_eq_none.mpr hnan, outscores_iff.mp hbetter, hab, hbc⟩
  · rintro ⟨a, ha, b, hb, c, hc, -, -, hnan, hbetter, hab, hbc⟩
    exact ⟨a, ha, b, hb, c, hc, candidateKey_eq_none.mp hnan, outscores_iff.mpr hbetter, hab, hbc⟩

theorem ids_injOn (h : (cands.map (·.id)).Nodup) : Set.InjOn candidateRanking.ident {x | x ∈ cands} :=
  fun _ ha _ hb hid => List.inj_on_of_nodup_map h ha hb hid

theorem ordered_iff (h : (cands.map (·.id)).Nodup) : Ordered cands ↔ ¬Tangled cands := by
  have hinj := ids_injOn h
  -- Of two candidates one is above the other or they are the same.
  have hsame : ∀ a ∈ cands, ∀ b ∈ cands, ¬candidateRanking.Above b a → ¬candidateRanking.Above a b → a = b := by
    intro a ha b hb hba hab
    by_contra hne
    rcases Ranking.above_or_above (fun hid => hne (hinj ha hb hid)) with habove | habove
    · exact hab habove
    · exact hba habove
  have hnot : ∀ a ∈ cands, ∀ b ∈ cands, ¬candidateRanking.Above b a → a = b ∨ candidateRanking.Above a b := by
    intro a ha b hb hba
    by_cases hab : candidateRanking.Above a b
    · exact Or.inr hab
    · exact Or.inl (hsame a ha b hb hba hab)
  rw [tangled_iff, ← Ranking.transitive_iff hinj]
  constructor
  · intro hordered a ha b hb c hc hab hbc
    have hac := hordered.trans a ha b hb c hc (candidateCmp_above.mpr hab.asymm) (candidateCmp_above.mpr hbc.asymm)
    rcases hnot a ha c hc (candidateCmp_above.mp hac) with rfl | habove
    · exact absurd hbc hab.asymm
    · exact habove
  · intro htrans
    refine ⟨fun a _ b _ => ?_, fun a ha b hb hab hba => ?_, fun a ha b hb c hc hab hbc => ?_⟩
    · rw [candidateCmp_eq, candidateCmp_eq, candidateRanking.cmp_swap b a]
    · exact hsame a ha b hb (candidateCmp_above.mp hab) (candidateCmp_above.mp hba)
    · rcases hnot a ha b hb (candidateCmp_above.mp hab) with rfl | hab'
      · exact hbc
      · rcases hnot b hb c hc (candidateCmp_above.mp hbc) with rfl | hbc'
        · exact hab
        · exact candidateCmp_above.mpr (htrans a ha b hb c hc hab' hbc').asymm

/-- A list that is ordered totally is sorted alike from every order. -/
theorem Ordered.sort_perm (h : Ordered cands) {cands' : List Candidate} (hperm : cands'.Perm cands) :
    p.sortCandidates cands' = p.sortCandidates cands :=
  Sorting.SliceSort.sortBy_eq_of_perm ⟨h.total, h.trans⟩ h.antisymm hperm

/-- Candidates with distinct ids are ordered totally, and sorted alike from every order, exactly when no NaN stands
between two that their scores rank against their ids. -/
theorem sortCandidates_ordered (p : GreedyPager) (h : (cands.map (·.id)).Nodup) :
    Ordered cands ∧ (∀ cands', cands'.Perm cands → p.sortCandidates cands' = p.sortCandidates cands) ↔
      ¬Tangled cands := by
  rw [← ordered_iff h]
  exact ⟨And.left, fun hordered => ⟨hordered, fun _ => hordered.sort_perm⟩⟩

/-! ### A NaN between two scores

Three facts that a retriever scores alike. The priority of the second is a NaN, those of the others are in the order of
the ids. A list as short as this is sorted by insertion. -/

def tangledPager : GreedyPager :=
  GreedyPager.new (.ofLists [{ sampleBlock ⟨1⟩ .fact [0x61] [] with priority := 1 },
    { sampleBlock ⟨2⟩ .fact [0x62] [] with priority := Float32.nan }, sampleBlock ⟨3⟩ .fact [0x63] []] [] [])
    byteTokenizer (fun s => s) .insertion

def tangledCandidates : List Candidate :=
  [⟨⟨1⟩, .saturate 1, 1.5, none⟩, ⟨⟨2⟩, .saturate 1, Float32.nan, none⟩, ⟨⟨3⟩, .saturate 1, 1, none⟩]

theorem sortCandidates_tangled :
    ([⟨1⟩, ⟨2⟩, ⟨3⟩] : List BlockId).mapM (fun id => (tangledPager.loadCandidate (id, 1)).toOption) =
      some (tangledCandidates.map fun c => some (.retrieved, c)) ∧
    ¬Ordered tangledCandidates ∧
    (tangledPager.sortCandidates tangledCandidates).map (·.id) = [⟨2⟩, ⟨1⟩, ⟨3⟩] ∧
    (tangledPager.sortCandidates tangledCandidates.reverse).map (·.id) = [⟨3⟩, ⟨2⟩, ⟨1⟩] := by
  refine ⟨by decide +kernel, fun hordered => ?_, by decide +kernel, by decide +kernel⟩
  have hcircle := hordered.trans ⟨⟨1⟩, .saturate 1, 1.5, none⟩ (by decide +kernel) ⟨⟨3⟩, .saturate 1, 1, none⟩
    (by decide +kernel) ⟨⟨2⟩, .saturate 1, Float32.nan, none⟩ (by decide +kernel) (by decide +kernel) (by decide +kernel)
  exact hcircle (by decide +kernel)

theorem sortCandidates_ordered_sample : Ordered tangledCandidates ∧
    (∀ cands', cands'.Perm tangledCandidates →
      tangledPager.sortCandidates cands' = tangledPager.sortCandidates tangledCandidates) ↔ ¬Tangled tangledCandidates :=
  sortCandidates_ordered tangledPager (by decide +kernel)

end Llm386.GreedyPager
