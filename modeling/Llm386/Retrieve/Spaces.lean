import Llm386.Retrieve.Sharing

/-! # Embedding spaces

`OpenAiEmbedder` of `llm386-retrieve-ann/src/openai.rs` reports one name for every model, so retrievers with different
models find each other's vectors in a cache that they share. Where no retriever looks up a block that another model's
retriever has put there, each has vectors of its own model only. -/

namespace Llm386

/-! ### The embedder -/

/-- One vector of a response. -/
structure EmbeddingDatum where
  index : UInt32
  embedding : List Float32

structure OpenAiEmbedder where
  model : String

namespace OpenAiEmbedder

/-- The service's response to a model and inputs. -/
abbrev Endpoint := String → List String → Except EmbedderError (List EmbeddingDatum)

variable (e : OpenAiEmbedder) (post : Endpoint)

def name (_ : OpenAiEmbedder) : String := "openai-embeddings"

/-- The vectors in the order of their indices. -/
def postEmbeddings (inputs : List String) : Except EmbedderError (List (List Float32)) := do
  let data ← post e.model inputs
  pure ((data.insertionSort fun a b => a.index ≤ b.index).map (·.embedding))

def embed (text : String) : Except EmbedderError (List Float32) := do
  let vecs ← e.postEmbeddings post [text]
  match vecs.getLast? with
  | some v => pure v
  | none => .error (.failed "empty response")

def embedBatch (texts : List String) : Except EmbedderError (List (List Float32)) :=
  if texts.isEmpty then .ok [] else e.postEmbeddings post texts

def embedder : Embedder := ⟨e.name, e.embed post, e.embedBatch post⟩

/-- Every vector of a response is one that the model has produced. -/
def Produces (post : Endpoint) (produced : String → List Float32 → Prop) : Prop :=
  ∀ model inputs data, post model inputs = .ok data → ∀ d ∈ data, produced model d.embedding

variable {e : OpenAiEmbedder} {post : Endpoint} {produced : String → List Float32 → Prop}

/-- A batch gives vectors of the embedder's own model. -/
theorem serves (h : Produces post produced) (view : BlockStore) :
    (e.embedder post).Serves view fun _ => produced e.model := by
  intro ts vs hvs x hx id b _ _
  have hvs : e.embedBatch post ts = .ok vs := hvs
  unfold embedBatch at hvs
  split at hvs
  · cases hvs
    simp at hx
  · obtain ⟨data, hdata, hsorted⟩ := Loop.bind_eq_ok.mp hvs
    cases hsorted
    obtain ⟨d, hd, hv⟩ := List.mem_map.mp (List.of_mem_zip hx).2
    exact hv ▸ h _ _ _ hdata d ((List.mem_insertionSort _).mp hd)

end OpenAiEmbedder

/-! ### The vectors of a retriever -/

namespace AnnState
variable {setup : AnnSetup} {models : Nat → OpenAiEmbedder} {produced : String → List Float32 → Prop}

/-- Each retriever has its own embedder, and the service answers with what the model has produced. -/
def UsesOpenAi (models : Nat → OpenAiEmbedder) (produced : String → List Float32 → Prop) : AnnAction → Prop
  | .retrieve i embedder _ _ _ | .search i embedder _ _ _ =>
    ∃ post, OpenAiEmbedder.Produces post produced ∧ embedder = (models i).embedder post
  | _ => True

/-- What the cache has for these blocks was put there by a retriever with the same model. -/
def OwnWriter {h : Hnsw} (models : Nat → OpenAiEmbedder) (st : AnnState h) (i : Nat) (view : BlockStore) (ids : List BlockId) :
    Prop :=
  ∀ id ∈ ids, ∀ b, view.get id = .ok (some b) →
    ∀ j, st.writer (EmbeddingCache.makeKey (models i).name b.hash) = some j → (models j).model = (models i).model

/-- A retriever with the shared cache looks up no block whose vector another model's retriever has put there. -/
def SameModel (setup : AnnSetup) (models : Nat → OpenAiEmbedder) (st : AnnState setup.hnsw) : AnnAction → Prop
  | .retrieve i embedder view _ call =>
    setup.cached i = true → OwnWriter models st i view (st.retrieved setup i embedder view call)
  | .search i embedder view call _ =>
    setup.cached i = true → OwnWriter models st i view (st.searched setup i embedder view call)
  | _ => True

/-- Whatever a retriever scores, which is what it has in memory, and whatever it has indexed, its own model has
produced. -/
structure OwnVectors (setup : AnnSetup) (models : Nat → OpenAiEmbedder) (produced : String → List Float32 → Prop)
    (st : AnnState setup.hnsw) : Prop where
  memory : ∀ i, OwnMemory (fun _ => produced (models i).model) (st.memory i)
  slot : ∀ i ix, st.slot i = some ix →
    HnswAnnRetriever.OverOwn setup.efConstruction (fun _ => produced (models i).model) ix

/-- Beside it, every entry of the cache is what its writer's model has produced, and all writers have the cache. -/
structure Attributed (setup : AnnSetup) (models : Nat → OpenAiEmbedder) (produced : String → List Float32 → Prop)
    (st : AnnState setup.hnsw) : Prop extends OwnVectors setup models produced st where
  entries : ∀ (key raw : Bytes), st.cache.db[key]? = some raw → ∃ j v, st.writer key = some j ∧
    produced (models j).model v ∧ raw = EmbeddingCache.encodeVec v
  writers : ∀ key j, st.writer key = some j → setup.cached j = true

variable {st st' : AnnState setup.hnsw} {i : Nat} {view : BlockStore} {ids : List BlockId}

theorem Attributed.hits (h : Attributed setup models produced st) (hwriter : OwnWriter models st i view ids) :
    OwnHits (models i).name (fun _ => produced (models i).model) view ids st.cache := by
  intro id hid b raw hb hraw
  obtain ⟨j, v, hj, hv, rfl⟩ := h.entries _ _ hraw
  exact ⟨v, hwriter id hid b hb j hj ▸ hv, rfl⟩

/-- A call that puts vectors of its own model is the writer of the entries it has changed. -/
theorem Attributed.grow (h : Attributed setup models produced st) {name : String} {cache : Option EmbeddingCache}
    (hgrown : LinearAnnRetriever.CacheGrown name (fun _ => produced (models i).model) view ids (st.cacheOf setup i) cache)
    {key raw : Bytes} (hraw : (st.keepCache setup i cache).cache.db[key]? = some raw) :
    ∃ j v, (st.keepCache setup i cache).writer key = some j ∧ produced (models j).model v ∧
      raw = EmbeddingCache.encodeVec v := by
  have hgrown := keepCache_grown hgrown key
  cases cache with
  | none => exact h.entries key raw hraw
  | some cache =>
    by_cases hsame : cache.db[key]? = st.cache.db[key]?
    · obtain ⟨j, v, hj, hv, heq⟩ := h.entries key raw (hsame ▸ hraw)
      exact ⟨j, v, (if_pos hsame).trans hj, hv, heq⟩
    · obtain ⟨id, -, b, v, -, hv, -, hnew⟩ := hgrown.resolve_left hsame
      exact ⟨i, v, if_neg hsame, hv, Option.some.inj (hraw.symm.trans hnew)⟩

theorem Attributed.growWriters (h : Attributed setup models produced st) {name : String} {own : BlockId → List Float32 → Prop}
    {cache : Option EmbeddingCache} (hgrown : LinearAnnRetriever.CacheGrown name own view ids (st.cacheOf setup i) cache)
    (key : Bytes) (j : Nat) (hj : (st.keepCache setup i cache).writer key = some j) : setup.cached j = true := by
  cases cache with
  | none => exact h.writers key j hj
  | some cache =>
    obtain ⟨before, hbefore, -⟩ := hgrown.some
    rcases keepCache_writer hj with hold | rfl
    · exact h.writers key j hold
    · exact cached_of_cacheOf hbefore

theorem sharedByHash_produced (model : String) : SharedByHash view fun _ => produced model :=
  fun _ _ _ _ _ _ _ _ hv => hv

/-- One call that meets the condition keeps the vectors apart. -/
theorem attributed_step (h : Attributed setup models produced st) {a : AnnAction} (huses : UsesOpenAi models produced a)
    (hsame : SameModel setup models st a) (hstep : step setup st a = some st') : Attributed setup models produced st' := by
  cases a with
  | write op =>
    cases hstep
    unfold AnnState.write
    split
    · exact ⟨⟨h.memory, h.slot⟩, h.entries, h.writers⟩
    · exact h
  | retrieve i embedder view faults call =>
    obtain ⟨post, hpost, rfl⟩ := huses
    cases hstep
    have hits : ∀ cache, st.cacheOf setup i = some cache → OwnHits ((models i).embedder post).name
        (fun _ => produced (models i).model) view (st.retrieved setup i ((models i).embedder post) view call) cache := by
      intro cache hcache
      rw [cacheOf_eq_some hcache]
      exact h.hits (hsame (cached_of_cacheOf hcache))
    obtain ⟨hfilling, -⟩ := retrieve_filling faults (sharedByHash_produced (models i).model)
      (OpenAiEmbedder.serves hpost view) (h.memory i) hits
    refine ⟨⟨ownMemory_update h.memory hfilling.memory, fun j ix hix => h.slot j ix ?_⟩, fun key raw hraw =>
      h.grow hfilling.persistent hraw, h.growWriters hfilling.persistent⟩
    rwa [← keepCache_slot]
  | clearCache i =>
    cases hstep
    exact ⟨⟨ownMemory_update h.memory fun id v hv => by (cases hv), h.slot⟩, h.entries, h.writers⟩
  | search i embedder view call stop =>
    obtain ⟨post, hpost, rfl⟩ := huses
    cases hstep
    have hits : ∀ cache, st.cacheOf setup i = some cache → OwnHits ((models i).embedder post).name
        (fun _ => produced (models i).model) view (st.searched setup i ((models i).embedder post) view call) cache := by
      intro cache hcache
      rw [cacheOf_eq_some hcache]
      exact h.hits (hsame (cached_of_cacheOf hcache))
    rcases search_cases stop (OpenAiEmbedder.serves hpost view) hits with
      heq | ⟨cache, hgrown, heq | ⟨built, hbuilt, heq⟩⟩
    · rw [heq]
      exact h
    · rw [heq]
      refine ⟨⟨fun j => ?_, fun j ix hix => h.slot j ix ?_⟩, fun key raw hraw => h.grow hgrown hraw,
        h.growWriters hgrown⟩
      · rw [keepCache_memory]
        exact h.memory j
      · rwa [keepCache_slot] at hix
    · rw [heq]
      refine ⟨⟨fun j => ?_, fun j ix hix => ?_⟩, fun key raw hraw => h.grow hgrown hraw,
        h.growWriters hgrown⟩
      · dsimp only
        rw [keepCache_memory]
        exact h.memory j
      · dsimp only at hix
        rw [Function.update_apply] at hix
        split at hix
        · rename_i hj
          rw [hj]
          exact hbuilt ix hix
        · exact h.slot j ix hix
  | invalidateIndex i =>
    cases hstep
    refine ⟨⟨h.memory, fun j ix hix => ?_⟩, h.entries, h.writers⟩
    dsimp only at hix
    rw [Function.update_apply] at hix
    split at hix
    · cases hix
    · exact h.slot j ix hix

theorem attributed_fresh : Attributed setup models produced (fresh setup.hnsw) where
  memory i id v hv := by cases hv
  slot i ix hix := by cases hix
  entries key raw hraw := by simp [fresh] at hraw
  writers key j hj := by cases hj

/-- Where no retriever looks up what another model's retriever has put in the cache, each scores and indexes vectors of
its own model. -/
theorem vectors_own {actions : List AnnAction} (hrun : Run (step setup) (fun st a => UsesOpenAi models produced a ∧
    SameModel setup models st a) (fresh setup.hnsw) actions st) : OwnVectors setup models produced st :=
  (hrun.invariant attributed_fresh fun h ha hstep => attributed_step h ha.1 ha.2 hstep).toOwnVectors

/-- Retrievers that share the cache and have one model meet the condition. -/
theorem Attributed.sameModel (h : Attributed setup models produced st)
    (hone : ∀ i j, setup.cached i = true → setup.cached j = true → (models i).model = (models j).model) (a : AnnAction) :
    SameModel setup models st a := by
  cases a with
  | retrieve i embedder view faults call => exact fun hi _ _ _ _ j hj => hone j i (h.writers _ j hj) hi
  | search i embedder view call stop => exact fun hi _ _ _ _ j hj => hone j i (h.writers _ j hj) hi
  | write | clearCache | invalidateIndex => trivial

/-- Where all retrievers that share the cache have one model, in every run each scores and indexes vectors of its own. -/
theorem oneModel_own (hone : ∀ i j, setup.cached i = true → setup.cached j = true → (models i).model = (models j).model)
    {actions : List AnnAction}
    (hrun : Run (step setup) (fun _ a => UsesOpenAi models produced a) (fresh setup.hnsw) actions st) :
    OwnVectors setup models produced st :=
  (hrun.invariant attributed_fresh fun {_ a _} h ha hstep => attributed_step h ha (h.sameModel hone a) hstep).toOwnVectors

/-- Retriever 0 is configured with one model, the others with another. -/
def twoModels (i : Nat) : OpenAiEmbedder :=
  if i = 0 then ⟨"text-embedding-3-small"⟩ else ⟨"text-embedding-3-large"⟩

/-- The models differ in their dimension. -/
def modelVector (model : String) : List Float32 := if model = "text-embedding-3-small" then [1] else [1, 1]

def modelEndpoint : OpenAiEmbedder.Endpoint := fun model inputs => .ok (inputs.map fun _ => ⟨0, modelVector model⟩)

theorem modelEndpoint_produces : OpenAiEmbedder.Produces modelEndpoint fun model v => v = modelVector model := by
  intro model inputs data hdata d hd
  cases hdata
  obtain ⟨x, -, rfl⟩ := List.mem_map.mp hd
  rfl

/-- A call of a retriever for the one stored block. -/
def modelCall (i : Nat) : AnnAction := .retrieve i ((twoModels i).embedder modelEndpoint) oneView .none oneCall

theorem modelCall_uses (i : Nat) : UsesOpenAi twoModels (fun model v => v = modelVector model) (modelCall i) :=
  ⟨modelEndpoint, modelEndpoint_produces, rfl⟩

/-- The state after calls of these retrievers, one after the other. -/
def afterCalls (is : List Nat) : AnnState sampleSetup.hnsw :=
  is.foldl (fun st i => st.retrieve sampleSetup i ((twoModels i).embedder modelEndpoint) oneView .none oneCall) oneBlock

/-- The retriever of the one model finds the vector of the other and keeps it as its own. -/
theorem retrieve_mixes : ∃ st,
    Run (step sampleSetup) (fun _ a => UsesOpenAi twoModels (fun model v => v = modelVector model) a)
      (fresh sampleSetup.hnsw)
      [.write (.put ⟨1⟩ (sampleBlock ⟨7⟩ .fact [0x61] [])), modelCall 0, modelCall 1] st ∧
    ¬OwnVectors sampleSetup twoModels (fun model v => v = modelVector model) st := by
  have hput : Run (step sampleSetup) (fun _ a => UsesOpenAi twoModels (fun model v => v = modelVector model) a)
      (fresh sampleSetup.hnsw) [.write (.put ⟨1⟩ (sampleBlock ⟨7⟩ .fact [0x61] []))] oneBlock := .next .start trivial rfl
  refine ⟨afterCalls [0, 1], (hput.next (modelCall_uses 0) rfl).next (modelCall_uses 1) rfl, fun hown => ?_⟩
  have hlength : (((afterCalls [0, 1]).memory 1).lookup ⟨7⟩).map List.length = some 1 := by decide +kernel
  obtain ⟨v, hv, hshort⟩ := Option.map_eq_some_iff.mp hlength
  rw [hown.memory 1 _ v hv] at hshort
  revert hshort
  decide

/-- Two retrievers of one model share its vectors. -/
theorem vectors_own_sample : ∃ st,
    Run (step sampleSetup) (fun st a => UsesOpenAi twoModels (fun model v => v = modelVector model) a ∧
        SameModel sampleSetup twoModels st a) (fresh sampleSetup.hnsw)
      [.write (.put ⟨1⟩ (sampleBlock ⟨7⟩ .fact [0x61] [])), modelCall 1, modelCall 2] st ∧
    ((st.memory 2).lookup ⟨7⟩).map List.length = some 2 ∧
    OwnVectors sampleSetup twoModels (fun model v => v = modelVector model) st := by
  have hput : Run (step sampleSetup) (fun st a => UsesOpenAi twoModels (fun model v => v = modelVector model) a ∧
      SameModel sampleSetup twoModels st a) (fresh sampleSetup.hnsw)
      [.write (.put ⟨1⟩ (sampleBlock ⟨7⟩ .fact [0x61] []))] oneBlock := .next .start ⟨trivial, trivial⟩ rfl
  have hfirst : SameModel sampleSetup twoModels oneBlock (modelCall 1) := fun _ id _ b _ j hj => by cases hj
  have hsecond : SameModel sampleSetup twoModels (afterCalls [1]) (modelCall 2) := by
    intro _ id _ b _ j hj
    have hcall : (oneBlock.keepCache sampleSetup 1 (oneBlock.answer sampleSetup 1 ((twoModels 1).embedder modelEndpoint)
      oneView .none oneCall).2.persistent).writer _ = some j := hj
    obtain hold | rfl := keepCache_writer hcall
    · cases hold
    · rfl
  have hrun := (hput.next ⟨modelCall_uses 1, hfirst⟩ rfl).next (u := afterCalls [1, 2]) ⟨modelCall_uses 2, hsecond⟩ rfl
  exact ⟨_, hrun, by decide +kernel, vectors_own hrun⟩

end AnnState
end Llm386
