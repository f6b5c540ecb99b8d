import Llm386.Lib.Loop
import Llm386.Pager.Greedy

/-! # Retrievers

The session and the recency retriever of `llm386-pager/src/retrievers.rs`, and `GreedyPager::new`, which starts
from the latter. -/

namespace Llm386

def storeErr (e : StoreError) : RetrievalError := .failed ("store: " ++ e.display)

/-- Every block of the session with one flat score. -/
def sessionRetriever (store : BlockStore) (score : Float32) : Retriever := fun session _ limit => do
  let ids ← (store.listSession session).mapError storeErr
  pure ((ids.take limit).map fun id => { blockId := id, score })

/-- Linear recency of one id within the span of its session. -/
def recencyScore (minTs maxTs : Nat) (id : BlockId) : Float32 :=
  clamp (Float32.ofNat (id.timestampMs - minTs) / Float32.ofNat (max (maxTs - minTs) 1)) 0 1

/-- Every block of the session scored by its age, newest first. -/
def recencyRetriever (store : BlockStore) : Retriever := fun session _ limit => do
  let ids ← (store.listSession session).mapError storeErr
  if ids.isEmpty then
    pure []
  else
    let minTs := ids.foldl (fun m id => min m id.timestampMs) (2 ^ 64 - 1)
    let maxTs := ids.foldl (fun m id => max m id.timestampMs) 0
    let cands : List RetrievalCandidate := ids.map fun id => { blockId := id, score := recencyScore minTs maxTs id }
    let sorted := cands.insertionSort fun a b => (partialCmp b.score a.score).getD .eq ≠ .gt
    pure (sorted.take limit)

/-- A retriever that draws its candidates from the session it is asked about. -/
def SessionScoped (store : BlockStore) (r : Retriever) : Prop :=
  ∀ session task limit cands, r session task limit = .ok cands →
    ∀ c ∈ cands, ∃ ids, store.listSession session = .ok ids ∧ c.blockId ∈ ids

theorem sessionRetriever_scoped (store : BlockStore) (score : Float32) :
    SessionScoped store (sessionRetriever store score) := by
  intro session task limit cands h c hc
  obtain ⟨ids, hids, h⟩ := Loop.bind_eq_ok.mp h
  cases h
  obtain ⟨id, hid, rfl⟩ := List.mem_map.mp hc
  exact ⟨ids, Loop.mapError_eq_ok.mp hids, List.mem_of_mem_take hid⟩

theorem recencyRetriever_scoped (store : BlockStore) : SessionScoped store (recencyRetriever store) := by
  intro session task limit cands h c hc
  obtain ⟨ids, hids, h⟩ := Loop.bind_eq_ok.mp h
  split at h
  · cases h
    cases hc
  · cases h
    have hmem := (List.perm_insertionSort _ _).mem_iff.mp (List.mem_of_mem_take hc)
    obtain ⟨id, hid, rfl⟩ := List.mem_map.mp hmem
    exact ⟨ids, Loop.mapError_eq_ok.mp hids, hid⟩

/-- `GreedyPager::new`: recency retrieval and the default policies. -/
def GreedyPager.new (store : BlockStore) (tokenizer : Tokenizer) (toLowercase : String → String)
    (sort : Sorting.SliceSort Candidate) : GreedyPager where
  store
  tokenizer
  scoring := .default
  budgets := .default
  retrievers := [recencyRetriever store]
  toLowercase
  sort

end Llm386
