import Llm386.Lmdb.BlockStore
import Llm386.Retrieve.Linear

/-! # Retrievers that share an embedding cache

Any number of `LinearAnnRetriever` and `HnswAnnRetriever` over one LMDB store and one `EmbeddingCache`, with the calls
of all of them in one sequence. Where all embedders compute the same function under one name, a linear retriever
answers as one without caches. -/

namespace Llm386

/-! ### Building an index -/

namespace HnswAnnRetriever
open LinearAnnRetriever (ToEmbed Embedded embedded_of_batch CacheGrown)

variable {r : HnswAnnRetriever} {store : BlockStore} {own : BlockId → List Float32 → Prop} {ids : List BlockId}
  {cache cache' : Option EmbeddingCache} {acc acc' : Gathered} {session : SessionId}

/-- A vector as it enters an index. -/
def toPoint (x : BlockId × List Float32) : Point := ⟨unitNormalize x.2⟩

/-- The points are the blocks' own vectors, and what is to embed is stored. -/
structure Gathered.Own (own : BlockId → List Float32 → Prop) (store : BlockStore) (ids : List BlockId) (acc : Gathered) :
    Prop where
  points : ∃ vecs : List (BlockId × List Float32), acc.blockIds = vecs.map (·.1) ∧ acc.points = vecs.map toPoint ∧
    ∀ x ∈ vecs, own x.1 x.2
  toEmbed : ∀ x ∈ acc.toEmbed, ToEmbed store ids x

/-- An index over the blocks' own vectors. -/
def OverOwn (efConstruction : Nat) {h : Hnsw} (own : BlockId → List Float32 → Prop) (ix : IndexedSession h) : Prop :=
  ∃ vecs : List (BlockId × List Float32), ix.blockIds = vecs.map (·.1) ∧ (∀ x ∈ vecs, own x.1 x.2) ∧
    ix.index = h.build efConstruction Point.distance (vecs.map toPoint) (List.range (min vecs.length (2 ^ 32 - 1)))

theorem Gathered.Own.point {id : BlockId} {v : List Float32} (h : acc.Own own store ids) (hv : own id v) :
    Gathered.Own own store ids { acc with
      blockIds := acc.blockIds ++ [id], points := acc.points ++ [⟨unitNormalize v⟩] } := by
  obtain ⟨vecs, hids, hpoints, hown⟩ := h.points
  refine ⟨⟨vecs ++ [(id, v)], by simp [hids], by simp [hpoints, toPoint], fun x hx => ?_⟩, h.toEmbed⟩
  rcases List.mem_append.mp hx with hx | hx
  · exact hown x hx
  · obtain rfl := List.mem_singleton.mp hx
    exact hv

theorem gatherBlock_own (hits : ∀ c, cache = some c → OwnHits r.embedder.name own store ids c) {id : BlockId}
    (hid : id ∈ ids) (hacc : acc.Own own store ids) (h : r.gatherBlock store cache acc id = .ok acc') :
    acc'.Own own store ids := by
  obtain ⟨found, hfound, h⟩ := Loop.bind_eq_ok.mp h
  have hget := Loop.mapError_eq_ok.mp hfound
  cases found with
  | none =>
    cases h
    exact hacc
  | some block =>
    obtain ⟨hit, hhit, h⟩ := Loop.bind_eq_ok.mp h
    cases hit with
    | some v =>
      cases h
      refine hacc.point ?_
      cases cache with
      | none => cases hhit
      | some c => exact (hits c rfl).get hid hget (Loop.mapError_eq_ok.mp hhit)
    | none =>
      dsimp only at h
      split at h
      · cases h
        exact hacc
      · rename_i text htext
        cases h
        refine ⟨hacc.points, fun x hx => ?_⟩
        rcases List.mem_append.mp hx with hx | hx
        · exact hacc.toEmbed x hx
        · obtain rfl := List.mem_singleton.mp hx
          exact ⟨hid, block, hget, rfl, htext⟩

/-- The puts of a build. -/
def putAll (name : String) (embedded : List ((BlockId × ContentHash × String) × List Float32)) (cache : EmbeddingCache) :
    EmbeddingCache :=
  embedded.foldl (fun c x => c.put name x.1.2.1 x.2) cache

theorem grown_putAll {name : String} {embedded : List ((BlockId × ContentHash × String) × List Float32)}
    (hembedded : Embedded own store ids embedded) {c c' : EmbeddingCache} (h : Grown name own store ids c c') :
    Grown name own store ids c (putAll name embedded c') := by
  induction embedded generalizing c' with
  | nil => exact h
  | cons x embedded ih =>
    obtain ⟨hstored, hv⟩ := hembedded x List.mem_cons_self
    obtain ⟨hid, b, hb, hhash, -⟩ := hstored
    have hput := h.put hid hb hv
    rw [← hhash] at hput
    exact ih (fun y hy => hembedded y (List.mem_cons_of_mem _ hy)) hput

theorem embedMissing_own (hserves : r.embedder.Serves store own) (hacc : acc.Own own store ids)
    (h : r.embedMissing cache acc = .ok (acc', cache')) :
    (∃ vecs : List (BlockId × List Float32), acc'.blockIds = vecs.map (·.1) ∧ acc'.points = vecs.map toPoint ∧
      ∀ x ∈ vecs, own x.1 x.2) ∧ CacheGrown r.embedder.name own store ids cache cache' := by
  unfold embedMissing at h
  split at h
  · cases h
    exact ⟨hacc.points, .refl⟩
  · obtain ⟨vecs, hvecs, h⟩ := Loop.bind_eq_ok.mp h
    have hembedded := embedded_of_batch hserves hacc.toEmbed (Loop.mapError_eq_ok.mp hvecs)
    obtain ⟨old, hids, hpoints, hown⟩ := hacc.points
    cases h
    refine ⟨⟨old ++ (acc.toEmbed.zip vecs).map fun x => (x.1.1, x.2), ?_, ?_, fun x hx => ?_⟩, ?_⟩
    · simp [hids]
    · simp [hpoints, toPoint]
    · rcases List.mem_append.mp hx with hx | hx
      · exact hown x hx
      · obtain ⟨y, hy, rfl⟩ := List.mem_map.mp hx
        exact (hembedded y hy).2
    · cases cache with
      | none => trivial
      | some c => exact grown_putAll hembedded .refl

/-- The listed ids. -/
def listed (store : BlockStore) (session : SessionId) : List BlockId :=
  match store.listSession session with
  | .ok ids => ids
  | .error _ => []

/-- What is gathered of the listed blocks. -/
theorem gather_own (hits : ∀ c, cache = some c → OwnHits r.embedder.name own store ids c)
    (h : ids.foldlM (r.gatherBlock store cache) ⟨[], [], []⟩ = .ok acc) : acc.Own own store ids :=
  Loop.foldlM_inv (P := Gathered.Own own store ids) (fun _ hid _ _ hacc hstep => gatherBlock_own hits hid hacc hstep)
    ⟨⟨[], rfl, rfl, by simp⟩, fun x hx => by cases hx⟩ h

/-- A build puts vectors of listed blocks in the cache, and its index is over vectors of their own. -/
theorem buildIndex_own {built : Option (IndexedSession r.hnsw)}
    (h : r.buildIndex store cache session = .ok (built, cache')) (hserves : r.embedder.Serves store own)
    (hits : ∀ c, cache = some c → OwnHits r.embedder.name own store (listed store session) c) :
    (∀ ix, built = some ix → OverOwn r.efConstruction own ix) ∧
      CacheGrown r.embedder.name own store (listed store session) cache cache' := by
  obtain ⟨ids, hids, h⟩ := Loop.bind_eq_ok.mp h
  have hlisted : listed store session = ids := by rw [listed, Loop.mapError_eq_ok.mp hids]
  rw [hlisted] at hits ⊢
  split at h
  · cases h
    exact ⟨fun ix hix => by (cases hix), .refl⟩
  · obtain ⟨acc, hgather, h⟩ := Loop.bind_eq_ok.mp h
    obtain ⟨⟨acc', cache''⟩, hembed, h⟩ := Loop.bind_eq_ok.mp h
    obtain ⟨⟨vecs, hblocks, hpoints, hown⟩, hgrown⟩ := embedMissing_own hserves (gather_own hits hgather) hembed
    cases h
    refine ⟨fun ix hix => ?_, hgrown⟩
    unfold indexOf at hix
    split at hix
    · cases hix
    · cases hix
      refine ⟨vecs, hblocks, hown, ?_⟩
      dsimp only
      rw [hpoints, hblocks, List.length_map]

/-- What a build leaves in the cache where its put fails after `n` others. -/
def abandonedBuild (r : HnswAnnRetriever) (store : BlockStore) (cache : Option EmbeddingCache) (session : SessionId) (n : Nat) :
    Except RetrievalError (Option EmbeddingCache) := do
  let ids ← (store.listSession session).mapError storeErr
  let acc ← ids.foldlM (r.gatherBlock store cache) ⟨[], [], []⟩
  let vecs ← (r.embedder.embedBatch (acc.toEmbed.map (·.2.2))).mapError fun e => .failed ("embed batch: " ++ e.display)
  pure (cache.map (putAll r.embedder.name ((acc.toEmbed.zip vecs).take n)))

theorem abandonedBuild_own {n : Nat} (h : r.abandonedBuild store cache session n = .ok cache')
    (hserves : r.embedder.Serves store own)
    (hits : ∀ c, cache = some c → OwnHits r.embedder.name own store (listed store session) c) :
    CacheGrown r.embedder.name own store (listed store session) cache cache' := by
  obtain ⟨ids, hids, h⟩ := Loop.bind_eq_ok.mp h
  obtain ⟨acc, hgather, h⟩ := Loop.bind_eq_ok.mp h
  obtain ⟨vecs, hvecs, h⟩ := Loop.bind_eq_ok.mp h
  have hlisted : listed store session = ids := by rw [listed, Loop.mapError_eq_ok.mp hids]
  rw [hlisted] at hits ⊢
  have hembedded := embedded_of_batch hserves (gather_own hits hgather).toEmbed (Loop.mapError_eq_ok.mp hvecs)
  cases h
  cases cache with
  | none => trivial
  | some c => exact grown_putAll (fun x hx => hembedded x (List.mem_of_mem_take hx)) .refl

end HnswAnnRetriever

/-! ### The calls of all retrievers -/

/-- The retrievers, by number: those in `cached` have the shared cache. -/
structure AnnSetup where
  hnsw : Hnsw
  efConstruction : Nat
  cached : Nat → Bool

/-- A call of an HNSW retriever. -/
abbrev AnnSetup.hnswRetriever (setup : AnnSetup) (embedder : Embedder) : HnswAnnRetriever :=
  ⟨setup.hnsw, embedder, setup.efConstruction⟩

/-- What the retrievers share, and what each keeps. -/
structure AnnState (h : Hnsw) where
  store : LmdbStore
  ran : LmdbStore.Ran store
  /-- Every block that was put so far. -/
  puts : List (BlockId × Bytes)
  cache : EmbeddingCache
  /-- The retriever that last changed an entry of the cache. -/
  writer : Bytes → Option Nat
  memory : Nat → Memory
  slot : Nat → Option (IndexedSession h)

/-- A write of the store, a call with the answers that it gets from its embedder and the store, or a reset. A search may
be stopped by a put that fails. -/
inductive AnnAction
  | write (op : LmdbStore.WriteOp)
  | retrieve (i : Nat) (embedder : Embedder) (view : BlockStore) (faults : CacheFaults) (call : RetrieveCall)
  | clearCache (i : Nat)
  | search (i : Nat) (embedder : Embedder) (view : BlockStore) (call : RetrieveCall) (stop : Option Nat)
  | invalidateIndex (i : Nat)

/-- The blocks that an operation puts. -/
def LmdbStore.WriteOp.puts : LmdbStore.WriteOp → List (BlockId × Bytes)
  | .put _ block => [(block.id, block.bytes)]
  | .putEdge _ | .delete _ | .purgeSession _ => []

namespace AnnState

/-- Nothing stored, nothing cached. -/
def fresh (h : Hnsw) : AnnState h := ⟨.empty, .empty, [], ⟨∅⟩, fun _ => none, fun _ => [], fun _ => none⟩

variable (setup : AnnSetup) (st : AnnState setup.hnsw)

/-- The shared cache, where the retriever has it. -/
def cacheOf (i : Nat) : Option EmbeddingCache := if setup.cached i then some st.cache else none

/-- The shared cache after a call. -/
def keepCache (i : Nat) : Option EmbeddingCache → AnnState setup.hnsw
  | none => st
  | some cache =>
    { st with cache, writer := fun key => if cache.db[key]? = st.cache.db[key]? then st.writer key else some i }

def write (op : LmdbStore.WriteOp) : AnnState setup.hnsw :=
  match h : st.store.exec op with
  | .ok store => { st with store, ran := st.ran.step h, puts := st.puts ++ op.puts }
  | .error _ => st

/-- What a call of a linear retriever starts from. -/
def cachesOf (i : Nat) : Caches := ⟨st.memory i, st.cacheOf setup i⟩

/-- The answer of a call of a linear retriever, and the caches it leaves. -/
def answer (i : Nat) (embedder : Embedder) (view : BlockStore) (faults : CacheFaults) (call : RetrieveCall) :
    Except RetrievalError (List RetrievalCandidate) × Caches :=
  Failing.exec ((LinearAnnRetriever.mk embedder).retrieve faults view call.session call.task call.limit) (st.cachesOf setup i)

def retrieve (i : Nat) (embedder : Embedder) (view : BlockStore) (faults : CacheFaults) (call : RetrieveCall) :
    AnnState setup.hnsw :=
  let after := (st.answer setup i embedder view faults call).2
  { st.keepCache setup i after.persistent with memory := Function.update st.memory i after.memory }

/-- The end of a build that ran through. -/
def install (i : Nat) :
    Except RetrievalError (Option (IndexedSession setup.hnsw) × Option EmbeddingCache) → AnnState setup.hnsw
  | .ok (built, cache) => { st.keepCache setup i cache with slot := Function.update st.slot i built }
  | .error _ => st

/-- The end of a build that a put has stopped. -/
def abandon (i : Nat) : Except RetrievalError (Option EmbeddingCache) → AnnState setup.hnsw
  | .ok cache => st.keepCache setup i cache
  | .error _ => st

def search (i : Nat) (embedder : Embedder) (view : BlockStore) (call : RetrieveCall) (stop : Option Nat) :
    AnnState setup.hnsw :=
  match (setup.hnswRetriever embedder).check (st.slot i) call, stop with
  | .build _, none => st.install setup i ((setup.hnswRetriever embedder).buildIndex view (st.cacheOf setup i) call.session)
  | .build _, some n =>
    st.abandon setup i ((setup.hnswRetriever embedder).abandonedBuild view (st.cacheOf setup i) call.session n)
  | _, _ => st

def step (st : AnnState setup.hnsw) : AnnAction → Option (AnnState setup.hnsw)
  | .write op => some (st.write setup op)
  | .retrieve i embedder view faults call => some (st.retrieve setup i embedder view faults call)
  | .clearCache i => some { st with memory := Function.update st.memory i [] }
  | .search i embedder view call stop => some (st.search setup i embedder view call stop)
  | .invalidateIndex i => some { st with slot := Function.update st.slot i none }

/-- The blocks whose vectors a search looks up: the listed ones, where it builds an index. -/
def searched (i : Nat) (embedder : Embedder) (view : BlockStore) (call : RetrieveCall) : List BlockId :=
  match (setup.hnswRetriever embedder).check (st.slot i) call with
  | .build _ => HnswAnnRetriever.listed view call.session
  | _ => []

/-- The blocks whose vectors a call of a linear retriever looks up. -/
def retrieved (i : Nat) (embedder : Embedder) (view : BlockStore) (call : RetrieveCall) : List BlockId :=
  (LinearAnnRetriever.mk embedder).lookedUp view (st.memory i) call.session call.task

/-! ### One call -/

variable {setup : AnnSetup} {st : AnnState setup.hnsw} {own : BlockId → List Float32 → Prop} {i : Nat} {embedder : Embedder}
  {view : BlockStore} {faults : CacheFaults} {call : RetrieveCall} {stop : Option Nat}

open LinearAnnRetriever (CacheGrown Filling Answered)

theorem retrieve_filling (faults : CacheFaults) (hshared : SharedByHash view own) (hserves : embedder.Serves view own)
    (hmemory : OwnMemory own (st.memory i)) (hits : ∀ cache, st.cacheOf setup i = some cache →
      OwnHits embedder.name own view (st.retrieved setup i embedder view call) cache) :
    Filling ⟨embedder⟩ own view (st.retrieved setup i embedder view call) (st.cachesOf setup i)
        (st.answer setup i embedder view faults call).2 ∧
      ∀ cands, (st.answer setup i embedder view faults call).1 = .ok cands →
        Answered ⟨embedder⟩ view call.session call.task call.limit (st.answer setup i embedder view faults call).2.memory
          cands := by
  have hmeets := LinearAnnRetriever.retrieve_meets ⟨embedder⟩ faults (st.cachesOf setup i) call.session call.task call.limit
    hshared hserves hmemory hits _ rfl
  unfold answer
  split at hmeets
  · rename_i cands c hexec
    rw [hexec]
    exact ⟨hmeets.1, fun cands' h => Except.ok.inj h ▸ hmeets.2⟩
  · rename_i e c hexec
    rw [hexec]
    exact ⟨hmeets, fun cands' h => by cases h⟩

theorem cacheOf_eq_some {cache : EmbeddingCache} (h : st.cacheOf setup i = some cache) : cache = st.cache := by
  unfold cacheOf at h
  split at h
  · exact (Option.some.inj h).symm
  · cases h

theorem cached_of_cacheOf {cache : EmbeddingCache} (h : st.cacheOf setup i = some cache) : setup.cached i = true := by
  unfold cacheOf at h
  split at h
  · assumption
  · cases h

/-- What a call has done to the shared cache. -/
theorem keepCache_grown {name : String} {ids : List BlockId} {cache : Option EmbeddingCache}
    (h : CacheGrown name own view ids (st.cacheOf setup i) cache) :
    Grown name own view ids st.cache (st.keepCache setup i cache).cache := by
  cases cache with
  | none => exact .refl
  | some cache =>
    obtain ⟨cache', hsome, hgrown⟩ := h.some
    rw [← cacheOf_eq_some hsome]
    exact hgrown

/-- A call becomes the writer of an entry, or leaves its writer. -/
theorem keepCache_writer {cache : Option EmbeddingCache} {key : Bytes} {j : Nat}
    (h : (st.keepCache setup i cache).writer key = some j) : st.writer key = some j ∨ j = i := by
  cases cache with
  | none => exact .inl h
  | some cache =>
    simp only [keepCache] at h
    split at h
    · exact .inl h
    · exact .inr (Option.some.inj h).symm

@[simp] theorem keepCache_store (cache : Option EmbeddingCache) : (st.keepCache setup i cache).store = st.store := by
  cases cache <;> rfl

@[simp] theorem keepCache_puts (cache : Option EmbeddingCache) : (st.keepCache setup i cache).puts = st.puts := by
  cases cache <;> rfl

@[simp] theorem keepCache_memory (cache : Option EmbeddingCache) : (st.keepCache setup i cache).memory = st.memory := by
  cases cache <;> rfl

@[simp] theorem keepCache_slot (cache : Option EmbeddingCache) : (st.keepCache setup i cache).slot = st.slot := by
  cases cache <;> rfl

theorem search_cases (stop : Option Nat) (hserves : embedder.Serves view own) (hits : ∀ cache, st.cacheOf setup i = some cache →
      OwnHits embedder.name own view (st.searched setup i embedder view call) cache) :
    st.search setup i embedder view call stop = st ∨ ∃ cache,
      CacheGrown embedder.name own view (st.searched setup i embedder view call) (st.cacheOf setup i) cache ∧
      (st.search setup i embedder view call stop = st.keepCache setup i cache ∨ ∃ built,
        (∀ ix, built = some ix → HnswAnnRetriever.OverOwn setup.efConstruction own ix) ∧
        st.search setup i embedder view call stop =
          { st.keepCache setup i cache with slot := Function.update st.slot i built }) := by
  unfold searched at hits ⊢
  unfold search
  cases hcheck : (setup.hnswRetriever embedder).check (st.slot i) call with
  | build taskVec =>
    rw [hcheck] at hits
    dsimp only at hits ⊢
    cases stop with
    | none =>
      cases hbuilt : (setup.hnswRetriever embedder).buildIndex view (st.cacheOf setup i) call.session with
      | error e => exact .inl rfl
      | ok result =>
        obtain ⟨built, cache⟩ := result
        obtain ⟨hown, hgrown⟩ := HnswAnnRetriever.buildIndex_own hbuilt hserves hits
        exact .inr ⟨cache, hgrown, .inr ⟨built, hown, rfl⟩⟩
    | some n =>
      dsimp only
      cases hcache : (setup.hnswRetriever embedder).abandonedBuild view (st.cacheOf setup i) call.session n with
      | error e => exact .inl rfl
      | ok cache =>
        have hgrown := HnswAnnRetriever.abandonedBuild_own hcache hserves hits
        exact .inr ⟨cache, hgrown, .inl rfl⟩
  | _ => exact .inl rfl

/-! ### One vector for each text -/

/-- The texts of the blocks that were put. -/
def texts {h : Hnsw} (st : AnnState h) (id : BlockId) : Option String :=
  (st.puts.lookup id).bind fun bytes => String.fromUTF8? ⟨bytes.toArray⟩

/-- What the store answers, where it answers. -/
structure Views (store : LmdbStore) (view : BlockStore) : Prop where
  get : ∀ {id found}, view.get id = .ok found → found = store.get id
  listSession : ∀ {session ids}, view.listSession session = .ok ids → store.listSession session = .ok ids

/-- The embedder has the one name and computes the one function, and the store answers what it holds. -/
structure Plain (name : String) (f : String → List Float32) (store : LmdbStore) (embedder : Embedder) (view : BlockStore) :
    Prop where
  name : embedder.name = name
  computes : embedder.Computes f
  views : Views store view

/-- A put is of one of `contents`, under its hash and a new id; all retrievers have the same embedder. -/
def OneEmbedder (contentHashOf : Bytes → ContentHash) (contents : Set Bytes) (name : String) (f : String → List Float32)
    {h : Hnsw} (st : AnnState h) : AnnAction → Prop
  | .write (.put _ b) => contentHashOf b.bytes = b.hash ∧ b.bytes ∈ contents ∧ b.id ∉ st.puts.map (·.1)
  | .retrieve _ embedder view _ _ | .search _ embedder view _ _ => Plain name f st.store embedder view
  | _ => True

/-- Stored blocks are as they were put, and the caches hold vectors of their texts. -/
structure HoldsTexts (contentHashOf : Bytes → ContentHash) (contents : Set Bytes) (name : String)
    (f : String → List Float32) {h : Hnsw} (st : AnnState h) : Prop where
  reachable : LmdbStore.Reachable contentHashOf st.store
  put : ∀ {id b}, st.store.get id = some b → st.puts.lookup id = some b.bytes ∧ b.bytes ∈ contents
  entries : ∀ hash raw, st.cache.db[EmbeddingCache.makeKey name hash]? = some raw →
    ∃ t, asBytes t ∈ contents ∧ contentHashOf (asBytes t) = hash ∧ raw = EmbeddingCache.encodeVec (f t)
  memory : ∀ i, OwnMemory (OfText f st.texts) (st.memory i)

variable {contentHashOf : Bytes → ContentHash} {contents : Set Bytes} {name : String} {f : String → List Float32}
  {hnsw : Hnsw} {st st' : AnnState hnsw}

theorem HoldsTexts.hash (h : HoldsTexts contentHashOf contents name f st) {id : BlockId} {b : ContextBlock}
    (hb : st.store.get id = some b) : contentHashOf b.bytes = b.hash := by
  obtain ⟨c, hc, hashed⟩ := h.reachable.represents
  exact hashed id b (hc.get_eq id ▸ hb)

theorem HoldsTexts.text (h : HoldsTexts contentHashOf contents name f st) {id : BlockId} {b : ContextBlock}
    (hb : st.store.get id = some b) : textOf b = st.texts id := by
  rw [texts, (h.put hb).1]
  rfl

theorem HoldsTexts.hasTexts (h : HoldsTexts contentHashOf contents name f st) (hinj : Set.InjOn contentHashOf contents)
    (hview : Views st.store view) : HasTexts view st.texts where
  get hb := h.text (hview.get hb).symm
  listed {session ids} hids id hid hnone := by
    obtain ⟨c, hc, -⟩ := h.reachable.represents
    obtain ⟨ids', hids', hlisting⟩ := hc.listSession_eq session
    cases (hview.listSession hids).symm.trans hids'
    obtain ⟨b, hb⟩ := c.listed_stored (hlisting.mem.mp hid)
    rw [← hc.get_eq, ← hview.get hnone] at hb
    cases hb
  hash {i j a b} ha hb hhash := by
    have ha := (hview.get ha).symm
    have hb := (hview.get hb).symm
    have hbytes : a.bytes = b.bytes :=
      hinj (h.put ha).2 (h.put hb).2 ((h.hash ha).trans (hhash.trans (h.hash hb).symm))
    rw [textOf, textOf, hbytes]

theorem HoldsTexts.hits (h : HoldsTexts contentHashOf contents name f st) (hinj : Set.InjOn contentHashOf contents)
    (hview : Views st.store view) (ids : List BlockId) : OwnHits name (OfText f st.texts) view ids st.cache := by
  intro id _ b raw hb hraw
  have hb := (hview.get hb).symm
  obtain ⟨t, ht, hhash, rfl⟩ := h.entries b.hash raw (hraw)
  have hbytes : asBytes t = b.bytes := hinj ht (h.put hb).2 (hhash.trans (h.hash hb).symm)
  refine ⟨f t, ?_, rfl⟩
  rw [OfText, ← h.text hb, textOf, ← hbytes, fromUTF8?_asBytes]
  rfl

/-- Vectors of texts keep the caches right. -/
theorem HoldsTexts.grow (h : HoldsTexts contentHashOf contents name f st)
    (hview : Views st.store view) {ids : List BlockId} (hstore : st'.store = st.store) (hputs : st'.puts = st.puts)
    (hgrown : Grown name (OfText f st.texts) view ids st.cache st'.cache)
    (hmemory : ∀ i, OwnMemory (OfText f st.texts) (st'.memory i)) : HoldsTexts contentHashOf contents name f st' where
  reachable := hstore ▸ h.reachable
  put := by
    rw [hstore, hputs]
    exact h.put
  entries hash raw hraw := by
    rcases hgrown (EmbeddingCache.makeKey name hash) with hsame | ⟨id, -, b, v, hb, hv, hkey, hnew⟩
    · exact h.entries hash raw (hsame ▸ hraw)
    · rw [hnew] at hraw
      have hb := (hview.get hb).symm
      obtain ⟨t, ht, rfl⟩ := Option.map_eq_some_iff.mp hv
      rw [← h.text hb] at ht
      have hbytes := asBytes_of_fromUTF8 ht
      refine ⟨t, hbytes ▸ (h.put hb).2, ?_, (Option.some.inj hraw).symm⟩
      rw [hbytes, h.hash hb, EmbeddingCache.makeKey_hash_inj hkey]
  memory i := by
    have htexts : st'.texts = st.texts := by
      unfold texts
      rw [hputs]
    rw [htexts]
    exact hmemory i

/-- A put keeps the texts of the blocks that were put before. -/
theorem ofText_append {added : List (BlockId × Bytes)} (hputs : st'.puts = st.puts ++ added) {id : BlockId}
    {v : List Float32} (h : OfText f st.texts id v) : OfText f st'.texts id v := by
  obtain ⟨t, ht, rfl⟩ := Option.map_eq_some_iff.mp h
  obtain ⟨bytes, hbytes, htext⟩ := Option.bind_eq_some_iff.mp ht
  rw [OfText, texts, hputs, List.lookup_append, hbytes]
  exact congrArg (Option.map f) htext

theorem HoldsTexts.write {st : AnnState setup.hnsw} (h : HoldsTexts contentHashOf contents name f st) {op : LmdbStore.WriteOp}
    (hop : OneEmbedder contentHashOf contents name f st (.write op)) :
    HoldsTexts contentHashOf contents name f (st.write setup op) := by
  unfold AnnState.write
  split
  · rename_i store hexec
    have hfresh : ∀ s b, op = .put s b → st.puts.lookup b.id = none := by
      rintro s b rfl
      rw [List.lookup_eq_none_iff]
      intro x hx
      have hne : b.id ≠ x.1 := fun heq => hop.2.2 (heq ▸ List.mem_map_of_mem hx)
      simpa using hne
    have hadmissible : LmdbStore.Admissible contentHashOf st.store op := by
      cases op with
      | put s b =>
        refine ⟨hop.1, .inl ?_⟩
        rw [Option.isNone_iff_eq_none]
        by_contra hstored
        obtain ⟨a, ha⟩ := Option.ne_none_iff_exists'.mp hstored
        cases (hfresh s b rfl).symm.trans (h.put ha).1
      | putEdge e => trivial
      | delete id => trivial
      | purgeSession s => trivial
    refine ⟨h.reachable.step hadmissible hexec, fun {id b} hb => ?_, h.entries, 
      fun i id v hv => ofText_append rfl (h.memory i id v hv)⟩
    rw [List.lookup_append]
    rcases LmdbStore.exec_get hexec hb with hold | ⟨s, rfl, rfl⟩
    · rw [(h.put hold).1]
      exact ⟨rfl, (h.put hold).2⟩
    · rw [hfresh s b rfl]
      exact ⟨by simp [LmdbStore.WriteOp.puts], hop.2.1⟩
  · exact h

/-- The memory after a call holds what the call leaves, for its own retriever. -/
theorem ownMemory_update {own : Nat → BlockId → List Float32 → Prop} {memory : Nat → Memory}
    (h : ∀ j, OwnMemory (own j) (memory j)) {after : Memory} (hafter : OwnMemory (own i) after) (j : Nat) :
    OwnMemory (own j) (Function.update memory i after j) := by
  rw [Function.update_apply]
  split
  · rename_i heq
    rw [heq]
    exact hafter
  · exact h j

/-- One step keeps the caches right. -/
theorem holdsTexts_step {st st' : AnnState setup.hnsw} (hinj : Set.InjOn contentHashOf contents)
    (h : HoldsTexts contentHashOf contents name f st) {a : AnnAction} (ha : OneEmbedder contentHashOf contents name f st a)
    (hstep : step setup st a = some st') :
    HoldsTexts contentHashOf contents name f st' := by
  cases a with
  | write op =>
    cases hstep
    exact h.write ha
  | retrieve i embedder view faults call =>
    obtain ⟨rfl, hcomputes, hviews⟩ := ha
    have htexts := h.hasTexts hinj hviews
    cases hstep
    obtain ⟨hfilling, -⟩ := retrieve_filling faults htexts.sharedByHash (hcomputes.serves htexts) (h.memory i)
      fun cache hcache => cacheOf_eq_some hcache ▸ h.hits hinj hviews _
    exact h.grow hviews (keepCache_store _) (keepCache_puts _) (keepCache_grown hfilling.persistent)
      (ownMemory_update h.memory hfilling.memory)
  | clearCache i =>
    cases hstep
    exact ⟨h.reachable, h.put, h.entries, ownMemory_update h.memory fun id v hv => by cases hv⟩
  | search i embedder view call stop =>
    obtain ⟨rfl, hcomputes, hviews⟩ := ha
    have htexts := h.hasTexts hinj hviews
    cases hstep
    rcases search_cases stop (hcomputes.serves htexts) fun cache hcache => cacheOf_eq_some hcache ▸ h.hits hinj hviews _ with
      hsame | ⟨cache, hgrown, hsearch | ⟨built, -, hsearch⟩⟩
    · rw [hsame]
      exact h
    · rw [hsearch]
      exact h.grow hviews (keepCache_store _) (keepCache_puts _) (keepCache_grown hgrown)
        fun j => by rw [keepCache_memory]; exact h.memory j
    · rw [hsearch]
      exact h.grow hviews (keepCache_store _) (keepCache_puts _) (keepCache_grown hgrown)
        fun j => by dsimp only; rw [keepCache_memory]; exact h.memory j
  | invalidateIndex i =>
    cases hstep
    exact ⟨h.reachable, h.put, h.entries, h.memory⟩

theorem holdsTexts_fresh : HoldsTexts contentHashOf contents name f (fresh hnsw) where
  reachable := .empty
  put hb := by simp [fresh, LmdbStore.get, LmdbStore.empty] at hb
  entries hash raw hraw := by simp [fresh] at hraw
  memory i id v hv := by cases hv

theorem views_blockStore (ran : LmdbStore.Ran st.store) : Views st.store (st.store.blockStore ran) :=
  ⟨fun h => (Except.ok.inj h).symm, fun h => h⟩

/-- The text of the block stored under an id, where it has one. -/
def storedText (st : AnnState hnsw) (id : BlockId) : Option String := (st.store.get id).bind textOf

theorem stored_hasTexts (ran : LmdbStore.Ran st.store) (h : HasTexts (st.store.blockStore ran) st.texts) :
    HasTexts (st.store.blockStore ran) st.storedText where
  get hb := by rw [storedText, Except.ok.inj hb, Option.bind_some]
  listed := h.listed
  hash := h.hash

/-- After any calls, failed ones among them, a linear retriever answers as one without caches: with the session's
texts ranked by their own vectors. -/
theorem caches_transparent {st : AnnState setup.hnsw} {actions : List AnnAction} {cands : List RetrievalCandidate}
    (hinj : Set.InjOn contentHashOf contents)
    (hrun : Run (step setup) (OneEmbedder contentHashOf contents name f) (fresh setup.hnsw) actions st)
    (hplain : Plain name f st.store embedder view) (hok : (st.answer setup i embedder view faults call).1 = .ok cands) :
    (Failing.exec ((LinearAnnRetriever.mk (LinearAnnRetriever.plainEmbedder name f)).retrieve .none
      (st.store.blockStore st.ran) call.session call.task call.limit) ⟨[], none⟩).1 = .ok cands ∧
      cands = LinearAnnRetriever.ownAnswer f st.storedText (st.store.blockStore st.ran) call.session call.task call.limit := by
  have hholds : HoldsTexts contentHashOf contents name f st :=
    hrun.invariant holdsTexts_fresh fun h ha hstep => holdsTexts_step hinj h ha hstep
  obtain ⟨rfl, hcomputes, hviews⟩ := hplain
  have htexts := hholds.hasTexts hinj hviews
  obtain ⟨hfilling, hanswered⟩ := retrieve_filling faults htexts.sharedByHash (hcomputes.serves htexts) (hholds.memory i)
    fun cache hcache => cacheOf_eq_some hcache ▸ hholds.hits hinj hviews _
  have hcands := hanswered cands hok
  have hanswers : LinearAnnRetriever.Answers (st.store.blockStore st.ran) := by
    obtain ⟨c, hc, -⟩ := hholds.reachable.represents
    refine ⟨fun id => ⟨_, rfl⟩, fun session => ?_⟩
    obtain ⟨ids, hids, -⟩ := hc.listSession_eq session
    exact ⟨ids, hids⟩
  have hstored := hholds.hasTexts hinj (views_blockStore st.ran)
  have hfresh : (Failing.exec ((LinearAnnRetriever.mk (LinearAnnRetriever.plainEmbedder embedder.name f)).retrieve .none
      (st.store.blockStore st.ran) call.session call.task call.limit) ⟨[], none⟩).1 = .ok cands := by
    rw [LinearAnnRetriever.retrieve_fresh hstored hanswers, hcands.eq_own htexts hcomputes hfilling.memory]
    unfold LinearAnnRetriever.ownAnswer
    split
    · rfl
    · rename_i htask
      obtain ⟨ids, hids⟩ := hcands.listed htask
      have hlist : (st.store.blockStore st.ran).listSession call.session = .ok ids := hviews.listSession hids
      rw [hids, hlist]
  refine ⟨hfresh, Except.ok.inj (hfresh.symm.trans ?_)⟩
  exact LinearAnnRetriever.retrieve_fresh (stored_hasTexts st.ran hstored) hanswers

open HnswAnnRetriever (exactSearch flatEmbedder)

/-- All retrievers have the shared cache. -/
def sampleSetup : AnnSetup := ⟨exactSearch, 32, fun _ => true⟩

/-- One block is stored. -/
def oneBlock : AnnState sampleSetup.hnsw := (fresh sampleSetup.hnsw).write sampleSetup (.put ⟨1⟩ (sampleBlock ⟨7⟩ .fact [0x61] []))

def oneView : BlockStore := oneBlock.store.blockStore oneBlock.ran

def oneCall : RetrieveCall := ⟨⟨1⟩, "a", 10⟩

/-- A retriever finds in the shared cache what another has put there, and answers with the one block. -/
theorem caches_transparent_sample : ∃ st,
    Run (step sampleSetup) (OneEmbedder sampleHash {[0x61]} "flat" fun _ => [1]) (fresh sampleSetup.hnsw)
      [.write (.put ⟨1⟩ (sampleBlock ⟨7⟩ .fact [0x61] [])), .retrieve 0 flatEmbedder oneView .none oneCall] st ∧
    (st.answer sampleSetup 1 flatEmbedder oneView .none oneCall).1 = .ok [⟨⟨7⟩, 1⟩] ∧
    (Failing.exec ((LinearAnnRetriever.mk (LinearAnnRetriever.plainEmbedder "flat" fun _ => [1])).retrieve .none
      (st.store.blockStore st.ran) oneCall.session oneCall.task oneCall.limit) ⟨[], none⟩).1 = .ok [⟨⟨7⟩, 1⟩] ∧
    LinearAnnRetriever.ownAnswer (fun _ => [1]) st.storedText (st.store.blockStore st.ran) oneCall.session oneCall.task
      oneCall.limit = [⟨⟨7⟩, 1⟩] := by
  have hput : OneEmbedder sampleHash {[0x61]} "flat" (fun _ => [1]) (fresh sampleSetup.hnsw)
      (.write (.put ⟨1⟩ (sampleBlock ⟨7⟩ .fact [0x61] []))) := ⟨rfl, rfl, by simp [fresh]⟩
  have hplain : Plain "flat" (fun _ => [1]) oneBlock.store flatEmbedder oneView :=
    ⟨rfl, ⟨fun h => (Except.ok.inj h).symm, fun h => (Except.ok.inj h).symm⟩, views_blockStore oneBlock.ran⟩
  have hrun : Run (step sampleSetup) (OneEmbedder sampleHash {[0x61]} "flat" fun _ => [1]) (fresh sampleSetup.hnsw)
      [.write (.put ⟨1⟩ (sampleBlock ⟨7⟩ .fact [0x61] [])), .retrieve 0 flatEmbedder oneView .none oneCall]
      (oneBlock.retrieve sampleSetup 0 flatEmbedder oneView .none oneCall) := .next (.next .start hput rfl) hplain rfl
  have hok : ((oneBlock.retrieve sampleSetup 0 flatEmbedder oneView .none oneCall).answer sampleSetup 1
      flatEmbedder oneView .none oneCall).1.toOption = some [⟨⟨7⟩, 1⟩] := by decide +kernel
  rw [Loop.toOption_eq_some] at hok
  obtain ⟨hfresh, hown⟩ := caches_transparent (by simp) hrun hplain hok
  exact ⟨_, hrun, hok, hfresh, hown.symm⟩

end AnnState

end Llm386
