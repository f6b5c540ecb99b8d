import Llm386.Pager.Merging
import Llm386.Pager.Truncated

/-! # Python retrievers

`Store::make_pager` and `Store::add_python_retriever` of `python/src/store.rs`, with `build_retrievers` of
`llm386-config/src/lib.rs`. The retrievers of the configuration and those of Python replace the pager's default, and
where there are none of either the default stays. -/

namespace Llm386
open GreedyPager

/-! ### The pager of a store -/

/-- A `[[retriever]]` entry. -/
structure RetrieverEntry where
  kind : String
  halfLifeSecs : Option Float32
  minWordLen : Option Nat
  k1 : Option Float32
  b : Option Float32
  score : Option Float32

def buildRetriever (p : Platform) (order : TermOrder) (store : BlockStore) (entry : RetrieverEntry) :
    Except String Retriever :=
  if entry.kind = "recency" then .ok (decayRetriever p (entry.halfLifeSecs.map (f32MaxOf · 0)) store)
  else if entry.kind = "lexical" then .ok (lexicalRetriever p (entry.minWordLen.getD 3) store)
  else if entry.kind = "bm25" then
    .ok (bm25Retriever p ⟨entry.k1.getD 1.2, entry.b.getD 0.75, entry.minWordLen.getD 2⟩ order store)
  else if entry.kind = "session" then .ok (sessionRetriever store ((entry.score.map (clamp · 0 1)).getD 0.5))
  else .error ("unknown retriever kind `" ++ entry.kind ++ "`; expected one of: recency, lexical, bm25, session")

/-- `none` where nothing is configured. -/
def buildRetrievers (p : Platform) (order : TermOrder) (entries : List RetrieverEntry) (store : BlockStore) :
    Except String (Option (List Retriever)) :=
  if entries.isEmpty then .ok none else some <$> entries.mapM (buildRetriever p order store)

/-- The fields of the Python `Store` that its pagers are made from. -/
structure PythonStore where
  retrieverEntries : List RetrieverEntry
  pythonRetrievers : List Retriever
  sectionBudgets : Option SectionBudgetTable
  edgePolicy : Option EdgePolicy

namespace PythonStore

def addPythonRetriever (self : PythonStore) (r : Retriever) : PythonStore :=
  { self with pythonRetrievers := self.pythonRetrievers ++ [r] }

def makePager (p : Platform) (order : TermOrder) (self : PythonStore) (store : BlockStore) (tokenizer : Tokenizer) :
    Except String GreedyPager := do
  let pager := GreedyPager.new store tokenizer p.toLowercase p.sort
  let built ← buildRetrievers p order self.retrieverEntries store
  let retrievers := built.getD [] ++ self.pythonRetrievers
  let pager := if retrievers.isEmpty then pager else pager.withRetrievers retrievers
  let pager := match self.sectionBudgets with
    | some budgets => { pager with budgets }
    | none => pager
  let pager := match self.edgePolicy with
    | some edgePolicy => { pager with scoring := { pager.scoring with edgePolicy } }
    | none => pager
  pure pager

/-! ### Its retrievers -/

variable {p : Platform} {order : TermOrder} {self : PythonStore} {store : BlockStore} {tokenizer : Tokenizer}
  {r : Retriever} {pager before : GreedyPager} {request : PageRequest}

/-- The retrievers that replace the default. -/
def configured (p : Platform) (order : TermOrder) (self : PythonStore) (store : BlockStore) :
    Except String (List Retriever) := do
  let built ← buildRetrievers p order self.retrieverEntries store
  pure (built.getD [] ++ self.pythonRetrievers)

theorem makePager_retrievers (h : self.makePager p order store tokenizer = .ok pager) :
    ∃ retrievers, self.configured p order store = .ok retrievers ∧
      pager.retrievers = if retrievers.isEmpty then [recencyRetriever store] else retrievers := by
  obtain ⟨built, hbuilt, h⟩ := Loop.bind_eq_ok.mp h
  refine ⟨built.getD [] ++ self.pythonRetrievers, by rw [configured, hbuilt]; rfl, ?_⟩
  cases h
  cases self.sectionBudgets <;> cases self.edgePolicy
  all_goals
    cases (built.getD [] ++ self.pythonRetrievers).isEmpty
    · rfl
    · rfl

theorem makePager_total {retrievers : List Retriever} (h : self.configured p order store = .ok retrievers) :
    ∃ pager, self.makePager p order store tokenizer = .ok pager := by
  obtain ⟨built, hbuilt, -⟩ := Loop.bind_eq_ok.mp h
  exact ⟨_, by rw [makePager, hbuilt, Loop.ok_bind]; rfl⟩

theorem configured_add {retrievers : List Retriever} (h : self.configured p order store = .ok retrievers) :
    (self.addPythonRetriever r).configured p order store = .ok (retrievers ++ [r]) := by
  obtain ⟨built, hbuilt, h⟩ := Loop.bind_eq_ok.mp h
  cases h
  have hentries : (self.addPythonRetriever r).retrieverEntries = self.retrieverEntries := rfl
  rw [configured, hentries, hbuilt, Loop.ok_bind, addPythonRetriever, ← List.append_assoc]
  rfl

theorem configured_isEmpty {retrievers : List Retriever} (h : self.configured p order store = .ok retrievers) :
    retrievers = [] ↔ self.retrieverEntries = [] ∧ self.pythonRetrievers = [] := by
  obtain ⟨built, hbuilt, h⟩ := Loop.bind_eq_ok.mp h
  cases h
  rw [List.append_eq_nil_iff]
  refine and_congr_left fun _ => ?_
  unfold buildRetrievers at hbuilt
  cases hentries : self.retrieverEntries with
  | nil =>
    rw [hentries] at hbuilt
    cases hbuilt
    simp
  | cons entry entries =>
    rw [hentries] at hbuilt
    obtain ⟨retrievers, hretrievers, rfl⟩ := Loop.map_eq_ok.mp hbuilt
    have hlen := (Loop.mapM_eq_ok_iff.mp hretrievers).length_eq
    cases retrievers with
    | nil => cases hlen
    | cons retriever retrievers => simp

/-! ### What the new retriever adds -/

/-- Every candidate is still there, with a score at least as high. -/
def Grows (scores scores' : List (BlockId × Float32)) : Prop := ∀ e ∈ scores, ∃ e' ∈ scores', e'.1 = e.1 ∧ e.2 ≤ e'.2

/-- Every candidate that is not required is among the others, with a score at least as high. -/
def Covers (required : List BlockId) (cands cands' : List RetrievalCandidate) : Prop :=
  ∀ cand ∈ cands, cand.blockId ∉ required → ∃ cand' ∈ cands', cand'.blockId = cand.blockId ∧ cand.score ≤ cand'.score

/-- What the default retriever finds is among the candidates. -/
def DefaultCovered (store : BlockStore) (request : PageRequest) (cands : List RetrievalCandidate) : Prop :=
  ∀ found, recencyRetriever store request.sessionId request.task RETRIEVAL_LIMIT = .ok found →
    Covers request.requiredBlocks found cands

/-- The answers of the retriever are scored with numbers. -/
def ScoresNumbers (request : PageRequest) (retriever : Retriever) : Prop :=
  ∀ cands, retriever request.sessionId request.task RETRIEVAL_LIMIT = .ok cands → ∀ cand ∈ cands, IsNumber cand.score

variable {required : List BlockId} {cands cands' : List RetrievalCandidate} {scores scores' : List (BlockId × Float32)}
  {found : List (List RetrievalCandidate)}

theorem grows_iff (h : Best required cands scores) (h' : Best required cands' scores')
    (hnum : ∀ cand ∈ cands, IsNumber cand.score) (hnum' : ∀ cand ∈ cands', IsNumber cand.score) :
    Grows scores scores' ↔ Covers required cands cands' := by
  constructor
  · intro hgrows cand hcand hreq
    obtain ⟨e, he, hid⟩ := List.mem_map.mp (h.listed cand hcand hreq)
    obtain ⟨e', he', hid', hle⟩ := hgrows e he
    obtain ⟨top, htop, -, hscore⟩ := h.attained e he
    obtain ⟨cand', hcand', hid'', hscore'⟩ := h'.attained e' he'
    rw [← hscore, ← hscore', le_iff_orderKey (hnum top htop) (hnum' cand' hcand')] at hle
    refine ⟨cand', hcand', hid''.trans (hid'.trans hid), ?_⟩
    rw [le_iff_orderKey (hnum cand hcand) (hnum' cand' hcand')]
    exact (hscore ▸ h.greatest e he cand hcand hid.symm).trans hle
  · intro hcovers e he
    obtain ⟨cand, hcand, hid, hscore⟩ := h.attained e he
    obtain ⟨cand', hcand', hid', hle⟩ := hcovers cand hcand (hid ▸ h.merged.fresh e he)
    rw [le_iff_orderKey (hnum cand hcand) (hnum' cand' hcand')] at hle
    have hreq' : cand'.blockId ∉ required := by
      rw [hid', hid]
      exact h.merged.fresh e he
    obtain ⟨e', he', hentry⟩ := List.mem_map.mp (h'.listed cand' hcand' hreq')
    obtain ⟨top, htop, -, hscore'⟩ := h'.attained e' he'
    refine ⟨e', he', hentry.trans (hid'.trans hid), ?_⟩
    rw [← hscore, ← hscore', le_iff_orderKey (hnum cand hcand) (hnum' top htop)]
    exact hle.trans (hscore' ▸ h'.greatest e' he' cand' hcand' hentry.symm)

theorem answers_numbers (hnum : ∀ retriever ∈ pager.retrievers, ScoresNumbers request retriever)
    (h : pager.answers request = .ok found) : ∀ cand ∈ found.flatten, IsNumber cand.score := by
  intro cand hcand
  obtain ⟨cands, hcands, hmem⟩ := List.mem_flatten.mp hcand
  obtain ⟨retriever, hretriever, hanswer⟩ := Loop.exists_of_mem_mapM h hcands
  exact hnum retriever hretriever cands (Loop.mapError_eq_ok.mp hanswer) cand hmem

theorem answers_add {after : GreedyPager} (hafter : after.retrievers = pager.retrievers ++ [r])
    (h : pager.answers request = .ok found) (hr : r request.sessionId request.task RETRIEVAL_LIMIT = .ok cands) :
    after.answers request = .ok (found ++ [cands]) := by
  unfold answers at h ⊢
  rw [hafter, List.mapM_append, h, Loop.ok_bind, List.mapM_cons, hr]
  rfl

theorem covers_append (hnum : ∀ cand ∈ cands, IsNumber cand.score) : Covers required cands (cands ++ cands') :=
  fun cand hcand _ => ⟨cand, List.mem_append_left _ hcand, rfl,
    (le_iff_orderKey (hnum cand hcand) (hnum cand hcand)).mpr le_rfl⟩

/-- A new Python retriever that answers keeps every candidate and lowers no score exactly where it does not replace
the default, or finds itself what the default found. -/
theorem python_retriever_grows_iff (hbefore : self.makePager p order store tokenizer = .ok before)
    (hscores : before.gather request = .ok scores) (hr : r request.sessionId request.task RETRIEVAL_LIMIT = .ok cands)
    (hnum : ∀ retriever ∈ before.retrievers ++ [r], ScoresNumbers request retriever) :
    ∃ after scores', (self.addPythonRetriever r).makePager p order store tokenizer = .ok after ∧
      after.gather request = .ok scores' ∧
      (Grows scores scores' ↔ self.retrieverEntries ≠ [] ∨ self.pythonRetrievers ≠ [] ∨
        DefaultCovered store request cands) := by
  rw [List.forall_mem_append, List.forall_mem_singleton] at hnum
  obtain ⟨retrievers, hconfigured, hretrievers⟩ := makePager_retrievers hbefore
  have hadded : (self.addPythonRetriever r).configured p order store = .ok (retrievers ++ [r]) :=
    configured_add hconfigured
  obtain ⟨after, hafter⟩ : ∃ after, (self.addPythonRetriever r).makePager p order store tokenizer = .ok after :=
    makePager_total hadded
  obtain ⟨retrievers', hconfigured', hretrievers'⟩ := makePager_retrievers hafter
  rw [hadded] at hconfigured'
  cases hconfigured'
  rw [if_neg (by simp)] at hretrievers'
  rw [gather_eq, Loop.map_eq_ok] at hscores
  obtain ⟨found, hfound, rfl⟩ := hscores
  have hnumbers := answers_numbers hnum.1 hfound
  have hbest : Best request.requiredBlocks found.flatten _ := mergeScores_best hnumbers
  have hempty := configured_isEmpty hconfigured
  by_cases hnone : retrievers = []
  · -- the new retriever takes the place of the default
    obtain ⟨hentries, hpython⟩ := hempty.mp hnone
    rw [hnone] at hretrievers hretrievers'
    have hdefault : ∃ default, recencyRetriever store request.sessionId request.task RETRIEVAL_LIMIT = .ok default ∧
        found = [default] := by
      unfold answers at hfound
      rw [hretrievers, if_pos List.isEmpty_nil, List.mapM_cons] at hfound
      obtain ⟨default, hdefault, hrest⟩ := Loop.bind_eq_ok.mp hfound
      cases hrest
      exact ⟨default, Loop.mapError_eq_ok.mp hdefault, rfl⟩
    obtain ⟨default, hdefault, rfl⟩ := hdefault
    have hanswers : after.answers request = .ok [cands] := by
      unfold answers
      rw [hretrievers', List.nil_append, List.mapM_cons, hr]
      rfl
    have hnumbers' : ∀ cand ∈ [cands].flatten, IsNumber cand.score := by
      rw [List.flatten_singleton]
      exact hnum.2 cands hr
    refine ⟨after, _, hafter, by rw [gather_eq, Loop.map_eq_ok]; exact ⟨_, hanswers, rfl⟩, ?_⟩
    rw [grows_iff hbest (mergeScores_best hnumbers') hnumbers hnumbers', List.flatten_singleton, List.flatten_singleton]
    constructor
    · intro hcovers
      refine .inr (.inr fun default' hdefault' => ?_)
      rw [hdefault] at hdefault'
      cases hdefault'
      exact hcovers
    · rintro (h | h | h)
      · exact absurd hentries h
      · exact absurd hpython h
      · exact h default hdefault
  · have hold : after.retrievers = before.retrievers ++ [r] := by
      rw [hretrievers', hretrievers, if_neg (by simpa using hnone)]
    have hanswers := answers_add hold hfound hr
    have hnumbers' : ∀ cand ∈ (found ++ [cands]).flatten, IsNumber cand.score := by
      rw [List.flatten_append, List.flatten_singleton, List.forall_mem_append]
      exact ⟨hnumbers, hnum.2 cands hr⟩
    refine ⟨after, _, hafter, by rw [gather_eq, Loop.map_eq_ok]; exact ⟨_, hanswers, rfl⟩, ?_⟩
    rw [grows_iff hbest (mergeScores_best hnumbers') hnumbers hnumbers', List.flatten_append, List.flatten_singleton]
    refine iff_of_true (covers_append hnumbers) ?_
    by_cases hentries : self.retrieverEntries = []
    · exact .inr (.inl fun hpython => hnone (hempty.mpr ⟨hentries, hpython⟩))
    · exact .inl hentries

/-- A session that lists one block. -/
def oneListed : BlockStore := .ofLists [] [(⟨1⟩, ⟨1⟩)] []

/-- A store without a configuration. -/
def bareStore : PythonStore := ⟨[], [], none, none⟩

def anyRequest : PageRequest := ⟨⟨1⟩, "", ⟨"model", .zero, .zero, .zero, "bytes", true⟩, []⟩

/-- The first Python retriever, which finds nothing, takes away what the default found. -/
theorem first_replaces_default : ∃ before after scores scores',
    bareStore.makePager samplePlatform sampleTermOrder oneListed byteTokenizer = .ok before ∧
    (bareStore.addPythonRetriever fun _ _ _ => .ok []).makePager samplePlatform sampleTermOrder oneListed byteTokenizer =
      .ok after ∧
    before.gather anyRequest = .ok scores ∧ after.gather anyRequest = .ok scores' ∧
    scores.map (·.1) = [⟨1⟩] ∧ scores' = [] ∧ ¬Grows scores scores' := by
  refine ⟨_, _, _, [], rfl, rfl, rfl, rfl, rfl, rfl, fun hgrows => ?_⟩
  obtain ⟨e', he', -⟩ := hgrows _ (List.mem_singleton_self _)
  cases he'

/-- The pager of a store with a session retriever of score 0.5. -/
def halfPager : GreedyPager :=
  { GreedyPager.new oneListed byteTokenizer samplePlatform.toLowercase samplePlatform.sort with
    retrievers := [sessionRetriever oneListed 0.5] }

/-- Beside it, one of score 0.25. -/
theorem python_retriever_grows_iff_sample : ∃ after scores',
    ((bareStore.addPythonRetriever (sessionRetriever oneListed 0.5)).addPythonRetriever
      (sessionRetriever oneListed 0.25)).makePager samplePlatform sampleTermOrder oneListed byteTokenizer = .ok after ∧
    after.gather anyRequest = .ok scores' ∧ Grows [(⟨1⟩, 0.5)] scores' := by
  have hscored : ∀ score ∈ [(0.5 : Float32), 0.25], ScoresNumbers anyRequest (sessionRetriever oneListed score) := by
    intro score hscore cands hcands cand hcand
    obtain rfl : cands = [⟨⟨1⟩, score⟩] := (Except.ok.inj hcands).symm
    have hfinite : ∀ score ∈ [(0.5 : Float32), 0.25], score.isNaN = false := by decide +kernel
    rw [List.mem_singleton.mp hcand, isNumber_iff]
    exact hfinite score hscore
  have hnum : ∀ retriever ∈ halfPager.retrievers ++ [sessionRetriever oneListed 0.25],
      ScoresNumbers anyRequest retriever := by
    rw [List.forall_mem_append, List.forall_mem_singleton, halfPager, List.forall_mem_singleton]
    exact ⟨hscored 0.5 (by simp), hscored 0.25 (by simp)⟩
  have hbefore : (bareStore.addPythonRetriever (sessionRetriever oneListed 0.5)).makePager samplePlatform sampleTermOrder
      oneListed byteTokenizer = .ok halfPager := rfl
  have hscores : halfPager.gather anyRequest = .ok [(⟨1⟩, 0.5)] := rfl
  obtain ⟨after, scores', hafter, hscores', hgrows⟩ := python_retriever_grows_iff hbefore hscores rfl hnum
  exact ⟨after, scores', hafter, hscores', hgrows.mpr (.inr (.inl (List.cons_ne_nil _ _)))⟩

end PythonStore
end Llm386
