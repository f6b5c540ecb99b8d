import Llm386.Lib.Sorting
import Llm386.Lib.Truncation
import Llm386.Lmdb.BlockStore
import Llm386.Pager.Scored

/-! # What the limit keeps

Every retriever that reads the session takes its candidates in the order of `list_session`, oldest id first, sorts
them stably by score, and cuts. So of the candidates whose score the cut goes through it keeps the oldest. -/

namespace Llm386

/-! ### The retrievers -/

/-- The retrievers that cut the candidates of a session, with their parameters. -/
inductive SessionRanker
  | session (score : Float32)
  | recency (halfLifeSecs : Option Float32)
  | lexical (minWordLen : Nat)
  | bm25 (cfg : Bm25)

namespace SessionRanker

def retriever (p : Platform) (order : TermOrder) (store : BlockStore) : SessionRanker → Retriever
  | session score => sessionRetriever store score
  | recency halfLifeSecs => decayRetriever p halfLifeSecs store
  | lexical minWordLen => lexicalRetriever p minWordLen store
  | bm25 cfg => bm25Retriever p cfg order store

/-- The scored candidates of a session before the sort and the cut, oldest first. -/
def candidates (p : Platform) (order : TermOrder) (store : BlockStore) (s : SessionId) (task : String) :
    SessionRanker → Except RetrievalError (List RetrievalCandidate)
  | session score => do
    let ids ← (store.listSession s).mapError storeErr
    pure (ids.map fun id => { blockId := id, score })
  | recency halfLifeSecs => recencyCandidates p halfLifeSecs store s
  | lexical minWordLen => lexicalCandidates p minWordLen store s task
  | bm25 cfg => bm25Candidates p cfg order store s task

end SessionRanker

/-! ### The property -/

/-- The preference of the pager: score descending, ties newest id first. -/
def preferenceCmp (a b : RetrievalCandidate) : Ordering :=
  ((partialCmp b.score a.score).getD .eq).then (compare b.blockId a.blockId)

/-- `kept` is the best of `all`, and nothing left out ties with, and is newer than, something kept. -/
structure KeepsNewest (limit : Nat) (all kept : List RetrievalCandidate) : Prop where
  first : kept.Perm ((all.insertionSort fun a b => preferenceCmp a b ≠ .gt).take limit)
  newest : ∀ c ∈ kept, ∀ d ∈ all, d ∉ kept → partialCmp d.score c.score = some .eq → ¬c.blockId < d.blockId

/-- What the retriever returns under a limit is the best of what it returns under any limit large enough. -/
def TruncatesToNewest (r : Retriever) (session : SessionId) (task : String) (limit : Nat) : Prop :=
  ∀ kept, r session task limit = .ok kept → ∃ all, (∀ n, all.length ≤ n → r session task n = .ok all) ∧
    KeepsNewest limit all kept

/-- Fewer than `limit` candidates score better than `v`, and more than `limit` score as well. -/
def ScoreStraddles (cands : List RetrievalCandidate) (limit : Nat) : Prop :=
  ∃ v ∈ cands, cands.countP (fun c => partialCmp v.score c.score = some .lt) < limit ∧
    limit < cands.countP fun c => partialCmp c.score v.score ≠ some .lt

instance (cands : List RetrievalCandidate) (limit : Nat) : Decidable (ScoreStraddles cands limit) :=
  inferInstanceAs (Decidable (∃ v ∈ cands, _))

/-- `list_session` lists ids in ascending order, as both backends do. -/
def ListsAscending (store : BlockStore) : Prop :=
  ∀ session ids, store.listSession session = .ok ids → ids.Pairwise (· < ·)

theorem LmdbStore.listsAscending {st : LmdbStore} (h : LmdbStore.Ran st) : ListsAscending (st.blockStore h) :=
  fun _ _ => LmdbStore.listSession_ascending

/-! ### Scores in order -/

/-- The scores compare as the places of a line, a NaN compared as equal. -/
def InOrder (place : Float32 → ℤ ×ₗ ℤ ×ₗ ℤ) (cands : List RetrievalCandidate) : Prop :=
  ∀ a ∈ cands, ∀ b ∈ cands, (partialCmp a.score b.score).getD .eq = compare (place a.score) (place b.score)

variable {cands : List RetrievalCandidate} {place : Float32 → ℤ ×ₗ ℤ ×ₗ ℤ} {limit : Nat}

theorem inOrder_of_numbers (h : ∀ c ∈ cands, IsNumber c.score) : InOrder orderKey cands := by
  intro a ha b hb
  rw [partialCmp_eq (h a ha) (h b hb)]
  rfl

/-- Scores that all compare as equal. -/
theorem inOrder_of_flat (h : ∀ a ∈ cands, ∀ b ∈ cands, (partialCmp a.score b.score).getD .eq = .eq) :
    InOrder (fun _ => 0) cands := by
  intro a ha b hb
  rw [h a ha b hb, compare_eq_iff_eq.mpr rfl]

theorem partialCmp_self (x : Float32) : (partialCmp x x).getD .eq = .eq := by
  rw [partialCmp_getD]
  cases rankKey x with
  | none => rfl
  | some k => exact compare_eq_iff_eq.mpr rfl

theorem insertionSort_congr {α : Type} {r s : α → α → Prop} [DecidableRel r] [DecidableRel s] {l : List α}
    (h : ∀ a ∈ l, ∀ b ∈ l, (r a b ↔ s a b)) : l.insertionSort r = l.insertionSort s := by
  have hmap := List.map_insertionSort (r := r) (s := s) (fun a => a) l h
  simpa using hmap

theorem rankAndTruncate_eq (h : InOrder place cands) :
    rankAndTruncate limit cands = (Truncation.byRank (fun c => place c.score) cands).take limit := by
  rw [rankAndTruncate, Truncation.byRank]
  congr 1
  refine insertionSort_congr fun a ha b hb => ?_
  rw [h b hb a ha, ne_eq, compare_gt_iff_gt, not_lt]

theorem preferred_eq (h : InOrder place cands) : (cands.insertionSort fun a b => preferenceCmp a b ≠ .gt) =
    Truncation.newestFirst (fun c => place c.score) (·.blockId) cands := by
  rw [Truncation.newestFirst, Truncation.byRank]
  refine insertionSort_congr fun a ha b hb => ?_
  rw [preferenceCmp, h b hb a ha, ← compare_toLex, ne_eq, compare_gt_iff_gt, not_lt]

theorem straddles_iff (h : InOrder place cands) :
    ScoreStraddles cands limit ↔ Truncation.Straddles (fun c => place c.score) cands limit := by
  have hlt : ∀ a ∈ cands, ∀ b ∈ cands, (partialCmp a.score b.score = some .lt ↔ place a.score < place b.score) := by
    intro a ha b hb
    rw [← compare_lt_iff_lt, ← h a ha b hb]
    cases partialCmp a.score b.score with
    | none => simp
    | some o => simp
  refine exists_congr fun v => and_congr_right fun hv => ?_
  have hbetter : cands.countP (fun c => partialCmp v.score c.score = some .lt) =
      cands.countP fun c => place v.score < place c.score :=
    List.countP_congr fun c hc => by simpa using hlt v hv c hc
  have hsame : cands.countP (fun c => partialCmp c.score v.score ≠ some .lt) =
      cands.countP fun c => place v.score ≤ place c.score :=
    List.countP_congr fun c hc => by simpa using (hlt c hc v hv).not
  rw [hbetter, hsame]

theorem mem_rankAndTruncate {c : RetrievalCandidate} (h : c ∈ rankAndTruncate limit cands) : c ∈ cands :=
  (List.mem_insertionSort _).mp (List.mem_of_mem_take h)

/-- Under a limit as high as their number all candidates come back, best first. -/
theorem rankAndTruncate_all {n : Nat} (hn : cands.length ≤ n) :
    rankAndTruncate n cands = rankAndTruncate cands.length cands := by
  rw [rankAndTruncate, rankAndTruncate, List.take_of_length_le (by rwa [List.length_insertionSort]),
    List.take_of_length_le (by rw [List.length_insertionSort])]

theorem rankAndTruncate_perm : (rankAndTruncate cands.length cands).Perm cands := by
  rw [rankAndTruncate, List.take_of_length_le (by rw [List.length_insertionSort])]
  exact List.perm_insertionSort _ _

/-- Sorted by the preference, the candidates come in one order whatever order they had. -/
theorem preferred_all (h : InOrder place cands) (ascending : cands.Pairwise fun a b => a.blockId < b.blockId) :
    ((rankAndTruncate cands.length cands).insertionSort fun a b => preferenceCmp a b ≠ .gt) =
      Truncation.newestFirst (fun c => place c.score) (·.blockId) cands := by
  rw [← preferred_eq h]
  have hids : (cands.map (·.blockId)).Nodup := List.pairwise_map.mpr (ascending.imp fun h => h.ne)
  have hmem : ∀ c ∈ rankAndTruncate cands.length cands, c ∈ cands := fun c => mem_rankAndTruncate
  let key (c : RetrievalCandidate) := OrderDual.toDual (toLex (place c.score, c.blockId))
  have hkey : ∀ a ∈ rankAndTruncate cands.length cands, ∀ b ∈ rankAndTruncate cands.length cands,
      (preferenceCmp a b ≠ .gt ↔ key a ≤ key b) := by
    intro a ha b hb
    rw [preferenceCmp, h b (hmem b hb) a (hmem a ha), ← compare_toLex, ne_eq, compare_gt_iff_gt, not_lt]
    rfl
  refine Sorting.insertionSort_eq_of_perm hkey (fun a ha b hb heq => ?_) rankAndTruncate_perm
  have hid : a.blockId = b.blockId := congrArg (fun k => (ofLex (OrderDual.ofDual k)).2) heq
  exact List.inj_on_of_nodup_map hids (hmem a ha) (hmem b hb) hid

/-- The stable cut keeps the best and the newest exactly when no score lies on both sides of it. -/
theorem keepsNewest_iff (h : InOrder place cands) (ascending : cands.Pairwise fun a b => a.blockId < b.blockId) :
    KeepsNewest limit (rankAndTruncate cands.length cands) (rankAndTruncate limit cands) ↔
      ¬ScoreStraddles cands limit := by
  have hcut : (rankAndTruncate limit cands).Perm
      (((rankAndTruncate cands.length cands).insertionSort fun a b => preferenceCmp a b ≠ .gt).take limit) ↔
        ¬ScoreStraddles cands limit := by
    rw [preferred_all h ascending, rankAndTruncate_eq h, straddles_iff h]
    exact Truncation.take_byRank_perm_iff ascending
  refine ⟨fun hkeeps => hcut.mp hkeeps.first, fun hclean => ⟨hcut.mpr hclean, ?_⟩⟩
  intro c hc d hd hdropped hscore
  have hperm := hcut.mpr hclean
  rw [preferred_all h ascending] at hperm
  have hdmem : d ∈ cands := mem_rankAndTruncate hd
  have hplace : place d.score = place c.score := by
    rw [← compare_eq_iff_eq, ← h d hdmem c (mem_rankAndTruncate hc), hscore]
    rfl
  have hall : d ∈ Truncation.newestFirst (fun c => place c.score) (·.blockId) cands :=
    (Truncation.byRank_perm _ cands).mem_iff.mpr hdmem
  rw [← List.take_append_drop limit (Truncation.newestFirst _ _ cands), List.mem_append] at hall
  have hdrop := hall.resolve_left fun hkept => hdropped (hperm.mem_iff.mpr hkept)
  exact (Truncation.ident_lt_of_dropped (hperm.mem_iff.mp hc) hdrop hplace).not_gt

/-! ### The candidates of each retriever -/

/-- What is collected from ascending ids, at most one for each, has ascending ids. -/
theorem ascending_of_mapM {β : Type} {ident : β → BlockId} {f : BlockId → Except RetrievalError (Option β)}
    {ids : List BlockId} {found : List (Option β)} (ascending : ids.Pairwise (· < ·))
    (hf : ∀ id c, f id = .ok (some c) → ident c = id) (h : ids.mapM f = .ok found) :
    (found.filterMap id).Pairwise fun a b => ident a < ident b := by
  have hall := Loop.mapM_eq_ok_iff.mp h
  clear h
  induction hall with
  | nil => exact List.Pairwise.nil
  | @cons x o ids found hx hall ih =>
    obtain ⟨hfirst, hrest⟩ := List.pairwise_cons.mp ascending
    cases o with
    | none => exact ih hrest
    | some c =>
      refine List.pairwise_cons.mpr ⟨fun d hd => ?_, ih hrest⟩
      obtain ⟨o, ho, rfl⟩ := List.mem_filterMap.mp hd
      obtain ⟨y, hy, hfy⟩ := Loop.exists_of_mem_mapM (Loop.mapM_eq_ok_iff.mpr hall) ho
      rw [hf x c hx, hf y d hfy]
      exact hfirst y hy

/-- Candidates as a retriever collects them before its sort: oldest first, with scores that can be ordered. -/
structure WellScored (cands : List RetrievalCandidate) : Prop where
  ascending : cands.Pairwise fun a b => a.blockId < b.blockId
  inOrder : ∃ place, InOrder place cands

theorem wellScored_nil : WellScored [] := ⟨List.Pairwise.nil, orderKey, fun _ ha => by cases ha⟩

/-- Candidates read off ascending ids, with scores that are numbers. -/
theorem wellScored_map {ids : List BlockId} {score : BlockId → Float32} (ascending : ids.Pairwise (· < ·))
    (hnum : ∀ id ∈ ids, IsNumber (score id)) :
    WellScored (ids.map fun id => { blockId := id, score := score id }) := by
  refine ⟨List.pairwise_map.mpr ascending, orderKey, inOrder_of_numbers fun c hc => ?_⟩
  obtain ⟨id, hid, rfl⟩ := List.mem_map.mp hc
  exact hnum id hid

theorem isNumber_zero : IsNumber 0 := by
  rw [isNumber_iff]
  decide +kernel

theorem isNumber_one : IsNumber 1 := by
  rw [isNumber_iff]
  decide +kernel

theorem zero_lt_one : orderKey 0 < orderKey 1 := by decide +kernel

theorem isNumber_clamp_unit {x : Float32} (h : IsNumber x) : IsNumber (clamp x 0 1) :=
  isNumber_clamp h isNumber_zero isNumber_one

theorem isNumber_quotient {m n : Nat} (hm : m < 2 ^ 64) (hpos : 0 < n) (hn : n < 2 ^ 64) :
    IsNumber (Float32.ofNat m / Float32.ofNat n) := by
  obtain ⟨s, M, E, hM, hfinite⟩ := ofNat_finite hpos hn
  exact isNumber_div (isFinite_ofNat hm) (isFinite_ofNat hn).1 (by simp [hfinite])

theorem timestampMs_lt (id : BlockId) : id.timestampMs < 2 ^ 48 := Nat.mod_lt _ (by positivity)

/-! ### Recency -/

/-- The newest timestamp of a session is one of its timestamps. -/
theorem foldl_max_lt {ids : List BlockId} {m : Nat} (hm : m < 2 ^ 48) :
    ids.foldl (fun m id => max m id.timestampMs) m < 2 ^ 48 := by
  induction ids generalizing m with
  | nil => exact hm
  | cons id ids ih => exact ih (max_lt hm (timestampMs_lt id))

theorem isNumber_f32Max {a b : Float32} (hb : IsNumber b) : IsNumber (f32MaxOf a b) ∧ ¬f32MaxOf a b < b := by
  have hself : ¬b < b := by
    rw [lt_iff_orderKey hb hb]
    exact lt_irrefl _
  unfold f32MaxOf
  split_ifs with hnan hlt
  · exact ⟨hb, hself⟩
  · exact ⟨hb, hself⟩
  · exact ⟨isNumber_iff.mpr (by simpa using hnan), hlt⟩

theorem isNumber_decayScore (p : Platform) (halfLifeSecs : Option Float32) {minTs maxTs : Nat} (hmax : maxTs < 2 ^ 48)
    (id : BlockId) : IsNumber (decayScore p halfLifeSecs minTs maxTs id) := by
  cases halfLifeSecs with
  | none =>
    have hts := timestampMs_lt id
    exact isNumber_clamp_unit (isNumber_quotient (by omega) (by omega) (by omega))
  | some hSecs =>
    obtain ⟨hnum, hge⟩ := isNumber_f32Max (a := hSecs * 1000) isNumber_one
    have hage := isFinite_ofNat (n := maxTs - id.timestampMs) (by omega)
    have hdiv := isNumber_div hage hnum (ne_zero_of_not_lt hnum isNumber_one zero_lt_one hge)
    exact isNumber_clamp_unit (p.exp2_number _ (isNumber_neg hdiv))

variable {p : Platform} {store : BlockStore} {s : SessionId} {task : String}

theorem recency_wellScored {halfLifeSecs : Option Float32} (sorted : ListsAscending store)
    (h : recencyCandidates p halfLifeSecs store s = .ok cands) : WellScored cands := by
  obtain ⟨ids, hids, h⟩ := Loop.bind_eq_ok.mp h
  split at h
  · cases h
    exact wellScored_nil
  · cases h
    exact wellScored_map (sorted s ids (Loop.mapError_eq_ok.mp hids))
      fun id _ => isNumber_decayScore p halfLifeSecs (foldl_max_lt (by omega)) id

/-! ### Lexical -/

theorem lexicalCandidate_some {minWordLen : Nat} {taskTokens : List String} {id : BlockId} {c : RetrievalCandidate}
    (h : lexicalCandidate p minWordLen store taskTokens id = .ok (some c)) : c.blockId = id ∧ IsNumber c.score := by
  obtain ⟨text, -, h⟩ := Loop.bind_eq_ok.mp h
  cases text with
  | none => cases h
  | some text =>
    simp only at h
    split at h
    · cases h
    · rename_i hwords
      split at h
      · cases h
      · cases h
        have hpos : 0 < (tokenize p minWordLen text).dedup.length :=
          List.length_pos_iff.mpr fun hnil => hwords (by rw [hnil]; rfl)
        exact ⟨rfl, isNumber_clamp_unit (isNumber_quotient (by omega) (by omega) (by omega))⟩

theorem lexical_wellScored {minWordLen : Nat} (sorted : ListsAscending store)
    (h : lexicalCandidates p minWordLen store s task = .ok cands) : WellScored cands := by
  unfold lexicalCandidates at h
  simp only at h
  split at h
  · cases h
    exact wellScored_nil
  · obtain ⟨ids, hids, h⟩ := Loop.bind_eq_ok.mp h
    obtain ⟨found, hfound, h⟩ := Loop.bind_eq_ok.mp h
    cases h
    refine ⟨ascending_of_mapM (sorted s ids (Loop.mapError_eq_ok.mp hids))
      (fun id c hc => (lexicalCandidate_some hc).1) hfound, orderKey, inOrder_of_numbers fun c hc => ?_⟩
    obtain ⟨o, ho, rfl⟩ := List.mem_filterMap.mp hc
    obtain ⟨id, -, hid⟩ := Loop.exists_of_mem_mapM hfound ho
    exact (lexicalCandidate_some hid).2

/-! ### BM25 -/

theorem bm25Doc_some {cfg : Bm25} {query : List String} {id : BlockId} {doc : Bm25Doc}
    (h : bm25Doc p cfg store query id = .ok (some doc)) : doc.id = id := by
  obtain ⟨text, -, h⟩ := Loop.bind_eq_ok.mp h
  cases text with
  | none => cases h
  | some text =>
    simp only at h
    split at h
    · cases h
    · cases h
      rfl

/-- The greatest raw score is a number, and no raw score that is a number exceeds it. -/
theorem maxRaw_spec (raws : List (BlockId × Float32)) {m : Float32} (hm : IsNumber m) :
    IsNumber (raws.foldl (fun m x => if m < x.2 then x.2 else m) m) ∧
      orderKey m ≤ orderKey (raws.foldl (fun m x => if m < x.2 then x.2 else m) m) ∧
      ∀ x ∈ raws, IsNumber x.2 → orderKey x.2 ≤ orderKey (raws.foldl (fun m x => if m < x.2 then x.2 else m) m) := by
  induction raws generalizing m with
  | nil => exact ⟨hm, le_rfl, fun x hx => by cases hx⟩
  | cons x raws ih =>
    -- A NaN is never greater.
    have hnext : IsNumber (if m < x.2 then x.2 else m) ∧ orderKey m ≤ orderKey (if m < x.2 then x.2 else m) ∧
        (IsNumber x.2 → orderKey x.2 ≤ orderKey (if m < x.2 then x.2 else m)) := by
      by_cases hx : IsNumber x.2
      · have hlt := lt_iff_orderKey hm hx
        split_ifs with h
        · exact ⟨hx, (hlt.mp h).le, fun _ => le_rfl⟩
        · exact ⟨hm, le_rfl, fun _ => not_lt.mp (hlt.not.mp h)⟩
      · have hlt : ¬m < x.2 := not_lt_of_nan (Or.inr hx)
        rw [if_neg hlt]
        exact ⟨hm, le_rfl, fun h => absurd h hx⟩
    obtain ⟨hnum, hle, hall⟩ := ih hnext.1
    rw [List.foldl_cons]
    refine ⟨hnum, hnext.2.1.trans hle, fun y hy hynum => ?_⟩
    rcases List.mem_cons.mp hy with rfl | hy
    · exact (hnext.2.2 hynum).trans hle
    · exact hall y hy hynum

/-- A positive number is finite or infinite. -/
theorem unpack_of_pos {x : Float32} (hx : IsNumber x) (hpos : orderKey 0 < orderKey x) :
    x.toModel.unpack = .infinity .positive ∨ ∃ m e h, x.toModel.unpack = .finite .positive m e h := by
  have hzero : orderKey 0 = toLex (0, toLex (0, 0)) := by decide +kernel
  rw [hzero, orderKey] at hpos
  rw [IsNumber] at hx
  cases hu : x.toModel.unpack with
  | notANumber => exact absurd hu hx
  | zero s => simp [hu, unpackedKey] at hpos
  | infinity s =>
    cases s with
    | positive => exact Or.inl rfl
    | negative => simp [hu, unpackedKey, Prod.Lex.toLex_lt_toLex] at hpos
  | finite s m e h =>
    cases s with
    | positive => exact Or.inr ⟨m, e, h, rfl⟩
    | negative => simp [hu, unpackedKey, Prod.Lex.toLex_lt_toLex] at hpos

/-- Over an infinite maximum every positive raw score becomes a zero or a NaN. -/
theorem div_infinite {x y : Float32} (hx : IsNumber x) (hpos : orderKey 0 < orderKey x)
    (hy : y.toModel.unpack = .infinity .positive) :
    ¬IsNumber (x / y) ∨ ∃ s, (x / y).toModel.unpack = .zero s := by
  have hdiv : (x / y).toModel.unpack =
      (Float32.Model.pack (.div .binary32 x.toModel.unpack y.toModel.unpack)).unpack := rfl
  rw [IsNumber, hdiv, hy]
  rcases unpack_of_pos hx hpos with hinf | ⟨m, e, h, hfin⟩
  · rw [hinf]
    exact Or.inl fun hne => hne ((unpack_pack_isNaN _).mpr rfl)
  · rw [hfin]
    exact Or.inr ⟨_, unpack_pack_zero _⟩

theorem orderKey_of_zero {x : Float32} {s : Float.Model.UnpackedFloat.Sign} (h : x.toModel.unpack = .zero s) :
    orderKey x = orderKey 0 := by
  have hzero : orderKey 0 = toLex (0, toLex (0, 0)) := by decide +kernel
  rw [hzero, orderKey, h]
  rfl

/-- The unit clamp leaves zeros and NaNs as they are. -/
theorem clamp_unit_of_flat {x : Float32} (h : ¬IsNumber x ∨ ∃ s, x.toModel.unpack = .zero s) :
    rankKey (clamp x 0 1) = none ∨ rankKey (clamp x 0 1) = some (orderKey 0) := by
  rcases h with hnan | ⟨s, hs⟩
  · rw [clamp, if_neg (not_lt_of_nan (Or.inl hnan)), if_neg (not_lt_of_nan (Or.inr hnan))]
    exact Or.inl (rankKey_eq_none.mpr hnan)
  · have hnum : IsNumber x := by simp [IsNumber, hs]
    have hlow : ¬x < 0 := by
      rw [lt_iff_orderKey hnum isNumber_zero, orderKey_of_zero hs]
      exact lt_irrefl _
    have hhigh : ¬(1 : Float32) < x := by
      rw [lt_iff_orderKey isNumber_one hnum, orderKey_of_zero hs]
      exact zero_lt_one.asymm
    rw [clamp, if_neg hlow, if_neg hhigh, rankKey_of_number hnum, orderKey_of_zero hs]
    exact Or.inr rfl

/-- Normalized scores are numbers, unless a raw score is infinite; then all compare as equal. -/
theorem normalizeScores_inOrder (raws : List (BlockId × Float32)) : ∃ place, InOrder place (normalizeScores raws) := by
  obtain ⟨hnum, -, hmax⟩ := maxRaw_spec raws isNumber_zero
  unfold normalizeScores
  simp only
  generalize raws.foldl (fun m x => if m < x.2 then x.2 else m) 0 = maxRaw at hnum hmax
  split_ifs with hpos
  · rw [lt_iff_orderKey isNumber_zero hnum] at hpos
    have hscored : ∀ c ∈ (raws.filter fun x => 0 < x.2).map
        (fun x => ({ blockId := x.1, score := clamp (x.2 / maxRaw) 0 1 } : RetrievalCandidate)),
        ∃ raw, c.score = clamp (raw / maxRaw) 0 1 ∧ IsNumber raw ∧ orderKey 0 < orderKey raw ∧
          orderKey raw ≤ orderKey maxRaw := by
      intro c hc
      obtain ⟨x, hx, rfl⟩ := List.mem_map.mp hc
      obtain ⟨hmem, hgt⟩ := List.mem_filter.mp hx
      have hgt : (0 : Float32) < x.2 := by simpa using hgt
      have hxnum : IsNumber x.2 := by
        by_contra hnan
        exact not_lt_of_nan (Or.inr hnan) hgt
      exact ⟨x.2, rfl, hxnum, (lt_iff_orderKey isNumber_zero hxnum).mp hgt, hmax x hmem hxnum⟩
    rcases unpack_of_pos hnum hpos with hinf | ⟨m, e, hm, hfin⟩
    · refine ⟨_, inOrder_of_flat fun a ha b hb => ?_⟩
      obtain ⟨x, hx, hxnum, hxpos, -⟩ := hscored a ha
      obtain ⟨y, hy, hynum, hypos, -⟩ := hscored b hb
      rw [partialCmp_getD, hx, hy]
      rcases clamp_unit_of_flat (div_infinite hxnum hxpos hinf) with ha | ha <;>
        rcases clamp_unit_of_flat (div_infinite hynum hypos hinf) with hb | hb <;> rw [ha, hb]
      · rfl
      · rfl
      · rfl
      · exact compare_eq_iff_eq.mpr rfl
    · refine ⟨orderKey, inOrder_of_numbers fun c hc => ?_⟩
      obtain ⟨x, hx, hxnum, hxpos, hxle⟩ := hscored c hc
      rw [hx]
      refine isNumber_clamp_unit (isNumber_div ⟨hxnum, fun s hs => ?_⟩ hnum (by simp [hfin]))
      rcases unpack_of_pos hxnum hxpos with hxinf | ⟨m', e', hm', hxfin⟩
      · rw [orderKey, orderKey, hxinf, hfin] at hxle
        simp [unpackedKey, Prod.Lex.toLex_le_toLex] at hxle
      · rw [hxfin] at hs
        cases hs
  · exact ⟨orderKey, fun a ha => by cases ha⟩

theorem bm25_wellScored {cfg : Bm25} {order : TermOrder} (sorted : ListsAscending store)
    (h : bm25Candidates p cfg order store s task = .ok cands) : WellScored cands := by
  unfold bm25Candidates at h
  simp only at h
  split at h
  · cases h
    exact wellScored_nil
  · obtain ⟨ids, hids, h⟩ := Loop.bind_eq_ok.mp h
    obtain ⟨found, hfound, h⟩ := Loop.bind_eq_ok.mp h
    cases h
    refine ⟨?_, normalizeScores_inOrder _⟩
    have hdocs := ascending_of_mapM (sorted s ids (Loop.mapError_eq_ok.mp hids))
      (fun id doc hdoc => bm25Doc_some hdoc) hfound
    unfold normalizeScores
    simp only
    split_ifs
    · refine List.pairwise_map.mpr (List.Pairwise.filter _ ?_)
      exact List.pairwise_map.mpr hdocs
    · exact List.Pairwise.nil

/-! ### The cut of a retriever -/

/-- A flat score leaves the sort nothing to do. -/
theorem rankAndTruncate_flat {ids : List BlockId} {score : Float32} :
    rankAndTruncate limit (ids.map fun id => { blockId := id, score }) =
      (ids.take limit).map fun id => { blockId := id, score } := by
  have hflat : (ids.map fun id => ({ blockId := id, score } : RetrievalCandidate)).Pairwise
      fun a b => (partialCmp b.score a.score).getD .eq ≠ .gt := by
    refine List.pairwise_map.mpr (List.pairwise_of_forall fun a b => ?_)
    rw [partialCmp_self]
    decide
  rw [rankAndTruncate, List.Pairwise.insertionSort_eq hflat, List.map_take]

theorem SessionRanker.retriever_eq (r : SessionRanker) (order : TermOrder) :
    r.retriever p order store s task limit = rankAndTruncate limit <$> r.candidates p order store s task := by
  cases r with
  | session score =>
    show sessionRetriever store score s task limit = _
    unfold sessionRetriever SessionRanker.candidates
    cases (store.listSession s).mapError storeErr with
    | error e => rfl
    | ok ids =>
      simp only [Loop.ok_bind]
      exact congrArg Except.ok rankAndTruncate_flat.symm
  | recency halfLifeSecs => exact bind_pure_comp _ _
  | lexical minWordLen => exact bind_pure_comp _ _
  | bm25 cfg => exact bind_pure_comp _ _

theorem SessionRanker.wellScored (r : SessionRanker) {order : TermOrder} (sorted : ListsAscending store)
    (h : r.candidates p order store s task = .ok cands) : WellScored cands := by
  cases r with
  | session score =>
    obtain ⟨ids, hids, h⟩ := Loop.bind_eq_ok.mp h
    cases h
    refine ⟨List.pairwise_map.mpr (sorted s ids (Loop.mapError_eq_ok.mp hids)), _, inOrder_of_flat fun a ha b hb => ?_⟩
    obtain ⟨x, -, rfl⟩ := List.mem_map.mp ha
    obtain ⟨y, -, rfl⟩ := List.mem_map.mp hb
    exact partialCmp_self score
  | recency halfLifeSecs => exact recency_wellScored sorted h
  | lexical minWordLen => exact lexical_wellScored sorted h
  | bm25 cfg => exact bm25_wellScored sorted h

/-- What a limit keeps is the best with ties newest first exactly when no score of the session's candidates lies on
both sides of the cut. -/
theorem truncates_to_newest_iff (p : Platform) (order : TermOrder) (r : SessionRanker) {store : BlockStore}
    (sorted : ListsAscending store) (s : SessionId) (task : String) (limit : Nat) :
    TruncatesToNewest (r.retriever p order store) s task limit ↔
      ∀ cands, r.candidates p order store s task = .ok cands → ¬ScoreStraddles cands limit := by
  unfold TruncatesToNewest
  simp only [r.retriever_eq]
  constructor
  · intro htrunc cands hcands
    have hscored := r.wellScored sorted hcands
    obtain ⟨place, hplace⟩ := hscored.inOrder
    obtain ⟨all, hall, hkeeps⟩ := htrunc _ (by rw [hcands]; rfl)
    have hlong := hall (max all.length cands.length) (le_max_left _ _)
    rw [hcands] at hlong
    have heq : rankAndTruncate cands.length cands = all :=
      (rankAndTruncate_all (le_max_right _ _)).symm.trans (Except.ok.inj hlong)
    rw [← keepsNewest_iff hplace hscored.ascending, heq]
    exact hkeeps
  · intro hclean kept hkept
    cases hcands : r.candidates p order store s task with
    | error e =>
      rw [hcands] at hkept
      cases hkept
    | ok cands =>
      rw [hcands] at hkept
      cases hkept
      have hscored := r.wellScored sorted hcands
      obtain ⟨place, hplace⟩ := hscored.inOrder
      refine ⟨rankAndTruncate cands.length cands, fun n hn => ?_,
        (keepsNewest_iff hplace hscored.ascending).mpr (hclean cands hcands)⟩
      rw [rankAndTruncate_perm.length_eq] at hn
      exact congrArg Except.ok (rankAndTruncate_all hn)

/-- A session that lists two ids, a second apart. -/
def twoListed : BlockStore := .ofLists [] [(⟨1⟩, ⟨⟨1, by decide⟩⟩), (⟨1⟩, ⟨⟨1000 * 2 ^ 80, by decide⟩⟩)] []

/-- Of two blocks with the flat score the older one is kept. -/
theorem session_keeps_oldest : ¬TruncatesToNewest (sessionRetriever twoListed 0.5) ⟨1⟩ "" 1 := by
  intro h
  obtain ⟨all, hall, hkeeps⟩ := h [⟨⟨⟨1, by decide⟩⟩, 0.5⟩] rfl
  have hboth : all = [⟨⟨⟨1, by decide⟩⟩, 0.5⟩, ⟨⟨⟨1000 * 2 ^ 80, by decide⟩⟩, 0.5⟩] := by
    have hlong := hall (max all.length 2) (le_max_left _ _)
    have htake : ([⟨⟨1, by decide⟩⟩, ⟨⟨1000 * 2 ^ 80, by decide⟩⟩] : List BlockId).take (max all.length 2) = _ :=
      List.take_of_length_le (le_max_right _ _)
    have hids : twoListed.listSession ⟨1⟩ = .ok [⟨⟨1, by decide⟩⟩, ⟨⟨1000 * 2 ^ 80, by decide⟩⟩] := rfl
    unfold sessionRetriever at hlong
    rw [hids] at hlong
    simp only [Except.mapError, Loop.ok_bind, htake] at hlong
    exact (Except.ok.inj hlong).symm
  refine hkeeps.newest ⟨⟨⟨1, by decide⟩⟩, 0.5⟩ (by simp) ⟨⟨⟨1000 * 2 ^ 80, by decide⟩⟩, 0.5⟩ (by simp [hboth])
    (by simp) ?_ (by decide +kernel)
  decide +kernel

/-- `exp2` at 0 and at -1. -/
def samplePlatform : Platform where
  exp2 x := if x < 0 then 0.5 else 1
  ln x := x
  isAlphanumeric c := c.isAlphanum
  toLowercase s := s.toLower
  sort := .insertion
  exp2_number x _ := by
    split
    · exact isNumber_iff.mpr (by decide +kernel)
    · exact isNumber_one

def sampleTermOrder : TermOrder := ⟨fun _ l => l, fun _ l => .refl l⟩

theorem twoListed_ascending : ListsAscending twoListed := by
  intro s ids h
  have hids : ids = (([(⟨1⟩, ⟨⟨1, by decide⟩⟩), (⟨1⟩, ⟨⟨1000 * 2 ^ 80, by decide⟩⟩)] :
      List (SessionId × BlockId)).filter (·.1 = s)).map (·.2) := (Except.ok.inj h).symm
  rw [hids]
  refine List.pairwise_map.mpr (List.Pairwise.filter _ ?_)
  decide +kernel

/-- With a half-life of one second the two scores differ, and the newer block is kept. -/
theorem truncates_to_newest_sample :
    (decayRetriever samplePlatform (some 1) twoListed ⟨1⟩ "" 1).map (·.map (·.blockId.timestampMs)) = .ok [1000] ∧
      TruncatesToNewest (decayRetriever samplePlatform (some 1) twoListed) ⟨1⟩ "" 1 := by
  refine ⟨by decide +kernel, ?_⟩
  refine (truncates_to_newest_iff samplePlatform sampleTermOrder (.recency (some 1)) twoListed_ascending ⟨1⟩ "" 1).mpr ?_
  intro cands hcands hstraddle
  have hclean : ((recencyCandidates samplePlatform (some 1) twoListed ⟨1⟩).map fun cands =>
      decide (ScoreStraddles cands 1)) = .ok false := by decide +kernel
  rw [show recencyCandidates samplePlatform (some 1) twoListed ⟨1⟩ = .ok cands from hcands, Except.map] at hclean
  simp [hstraddle] at hclean

end Llm386
