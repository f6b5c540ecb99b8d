import Llm386.Lib.Loop
import Llm386.Lib.Runs
import Llm386.Pager.Retrievers
import Llm386.Retrieve.Embedding

/-! # The HNSW retriever under concurrent calls

`HnswAnnRetriever` of `llm386-retrieve-ann/src/hnsw.rs`. One slot behind a lock holds the index of one session. A
call checks the slot, builds an index outside the lock where the slot is not for its session, installs it, and
queries whatever the slot then holds; each of these is a step, and the steps of any number of calls interleave. -/

namespace Llm386

/-- The `instant-distance` index: built from points with values, searched for the values nearest to a point. -/
structure Hnsw where
  Map : Type
  build (efConstruction : Nat) (distance : Point → Point → Float32) (points : List Point) (values : List Nat) : Map
  search : Map → Point → List (Nat × Float32)
  search_mem : ∀ {ef distance points values query item}, item ∈ search (build ef distance points values) query →
    item.1 ∈ values

/-- The index of one session. Its values point into the list of ids. -/
structure IndexedSession (h : Hnsw) where
  session : SessionId
  index : h.Map
  blockIds : List BlockId
  inRange : ∀ query, ∀ item ∈ h.search index query, item.1 < blockIds.length

structure HnswAnnRetriever where
  hnsw : Hnsw
  embedder : Embedder
  efConstruction : Nat

/-- One call of `retrieve`. -/
structure RetrieveCall where
  session : SessionId
  task : String
  limit : Nat

namespace HnswAnnRetriever
variable (r : HnswAnnRetriever)

/-! ### Building an index -/

/-- The ids with a vector, their points, and the blocks still to embed. -/
structure Gathered where
  blockIds : List BlockId
  points : List Point
  toEmbed : List (BlockId × ContentHash × String)

/-- What the cache has for a block. -/
def cached (cache : Option EmbeddingCache) (block : ContextBlock) : Except RetrievalError (Option (List Float32)) :=
  match cache with
  | none => .ok none
  | some persistent =>
    (persistent.get r.embedder.name block.hash).mapError fun e => .failed ("cache get: " ++ e.display)

/-- A block that is gone, or is neither cached nor text, is left out. -/
def gatherBlock (store : BlockStore) (cache : Option EmbeddingCache) (acc : Gathered) (id : BlockId) :
    Except RetrievalError Gathered := do
  match ← (store.get id).mapError storeErr with
  | none => pure acc
  | some block =>
    match ← r.cached cache block with
    | some v => pure { acc with blockIds := acc.blockIds ++ [id], points := acc.points ++ [⟨unitNormalize v⟩] }
    | none =>
      match String.fromUTF8? ⟨block.bytes.toArray⟩ with
      | none => pure acc
      | some text => pure { acc with toEmbed := acc.toEmbed ++ [(id, block.hash, text)] }

/-- The new vectors go to the cache and to the points. -/
def embedMissing (cache : Option EmbeddingCache) (acc : Gathered) :
    Except RetrievalError (Gathered × Option EmbeddingCache) := do
  if acc.toEmbed.isEmpty then pure (acc, cache)
  else
    let vecs ← (r.embedder.embedBatch (acc.toEmbed.map (·.2.2))).mapError fun e => .failed ("embed batch: " ++ e.display)
    let embedded := acc.toEmbed.zip vecs
    pure ({ acc with
        blockIds := acc.blockIds ++ embedded.map (·.1.1)
        points := acc.points ++ embedded.map fun x => ⟨unitNormalize x.2⟩ },
      cache.map fun persistent => embedded.foldl (fun c x => c.put r.embedder.name x.1.2.1 x.2) persistent)

/-- The index over the gathered points, where there are any. -/
def indexOf (session : SessionId) (acc : Gathered) : Option (IndexedSession r.hnsw) :=
  if acc.blockIds.isEmpty then none
  else
    some {
      session
      index := r.hnsw.build r.efConstruction Point.distance acc.points (List.range (min acc.blockIds.length (2 ^ 32 - 1)))
      blockIds := acc.blockIds
      inRange := fun _ _ h => lt_of_lt_of_le (List.mem_range.mp (r.hnsw.search_mem h)) (Nat.min_le_left ..) }

def buildIndex (store : BlockStore) (cache : Option EmbeddingCache) (session : SessionId) :
    Except RetrievalError (Option (IndexedSession r.hnsw) × Option EmbeddingCache) := do
  let ids ← (store.listSession session).mapError storeErr
  if ids.isEmpty then pure (none, cache)
  else
    let acc ← ids.foldlM (r.gatherBlock store cache) ⟨[], [], []⟩
    let (acc, cache) ← r.embedMissing cache acc
    pure (r.indexOf session acc, cache)

/-! ### Querying -/

/-- Cosine similarity of unit vectors at a Euclidean distance. -/
def cosine (d : Float32) : Float32 := clamp (1 - 0.5 * d * d) 0 1

/-- The nearest blocks of the index, with their scores. -/
def queryIndex {h : Hnsw} (state : IndexedSession h) (taskVec : List Float32) (limit : Nat) : List RetrievalCandidate :=
  (((h.search state.index ⟨taskVec⟩).attach.map fun item =>
    (state.blockIds.get ⟨item.val.1, state.inRange _ _ item.property⟩, cosine item.val.2)).take limit).map
      fun x => { blockId := x.1, score := x.2 }

/-! ### The steps of the calls -/

/-- What a call has yet to do. -/
inductive Phase (h : Hnsw)
  | start
  /-- The slot was not for its session. -/
  | build (taskVec : List Float32)
  /-- It has built an index, or found nothing to index. -/
  | install (taskVec : List Float32) (built : Option (IndexedSession h))
  | query (taskVec : List Float32)
  | done (result : Except RetrievalError (List RetrievalCandidate))

/-- The slot, what the retriever reads, the calls, and every id that a listing has returned so far. -/
structure Shared (h : Hnsw) where
  slot : Option (IndexedSession h)
  store : BlockStore
  cache : Option EmbeddingCache
  calls : List (RetrieveCall × Phase h)
  listed : List (SessionId × BlockId)

/-- A fresh retriever. -/
def fresh (h : Hnsw) (store : BlockStore) (cache : Option EmbeddingCache) : Shared h := ⟨none, store, cache, [], []⟩

/-- A new call, the next step of a call, a change of the store or the cache by anyone else, or `invalidate_index`. -/
inductive Action
  | arrive (call : RetrieveCall)
  | advance (i : Nat)
  | changeStore (store : BlockStore)
  | changeCache (cache : Option EmbeddingCache)
  | invalidateIndex

/-- The part before the first lock and the check under it. -/
def check (slot : Option (IndexedSession r.hnsw)) (call : RetrieveCall) : Phase r.hnsw :=
  if call.task.isEmpty then .done (.ok [])
  else
    match r.embedder.embed call.task with
    | .error e => .done (.error (.failed ("embed task: " ++ e.display)))
    | .ok taskVec =>
      match slot with
      | some s => if s.session ≠ call.session then .build taskVec else .query taskVec
      | none => .build taskVec

/-- The ids that listing a session now returns. -/
def heard (store : BlockStore) (session : SessionId) : List (SessionId × BlockId) :=
  match store.listSession session with
  | .ok ids => ids.map fun id => (session, id)
  | .error _ => []

/-- The answer to a query of the slot. -/
def answer {h : Hnsw} (slot : Option (IndexedSession h)) (taskVec : List Float32) (limit : Nat) : List RetrievalCandidate :=
  match slot with
  | none => []
  | some state => queryIndex state taskVec limit

def advance (st : Shared r.hnsw) (i : Nat) (call : RetrieveCall) : Phase r.hnsw → Option (Shared r.hnsw)
  | .start => some { st with calls := st.calls.set i (call, r.check st.slot call) }
  | .build taskVec =>
    let listed := st.listed ++ heard st.store call.session
    match r.buildIndex st.store st.cache call.session with
    | .error e => some { st with listed, calls := st.calls.set i (call, .done (.error e)) }
    | .ok (built, cache) => some { st with listed, cache, calls := st.calls.set i (call, .install taskVec built) }
  | .install taskVec built => some { st with slot := built, calls := st.calls.set i (call, .query taskVec) }
  | .query taskVec =>
    some { st with calls := st.calls.set i (call, .done (.ok (answer st.slot taskVec call.limit))) }
  | .done _ => none

def step (st : Shared r.hnsw) : Action → Option (Shared r.hnsw)
  | .arrive call => some { st with calls := st.calls ++ [(call, .start)] }
  | .advance i =>
    match st.calls[i]? with
    | some (call, phase) => r.advance st i call phase
    | none => none
  | .changeStore store => some { st with store }
  | .changeCache cache => some { st with cache }
  | .invalidateIndex => some { st with slot := none }

/-! ### What an index holds -/

variable {r : HnswAnnRetriever} {store : BlockStore} {cache cache' : Option EmbeddingCache} {session : SessionId}
  {ids : List BlockId} {acc acc' : Gathered} {st st' : Shared r.hnsw} {call : RetrieveCall} {i : Nat}

/-- All ids come from the list. -/
structure Gathered.Within (ids : List BlockId) (acc : Gathered) : Prop where
  blockIds : ∀ id ∈ acc.blockIds, id ∈ ids
  toEmbed : ∀ x ∈ acc.toEmbed, x.1 ∈ ids

theorem gatherBlock_within {id : BlockId} (hid : id ∈ ids) (hacc : acc.Within ids)
    (h : r.gatherBlock store cache acc id = .ok acc') : acc'.Within ids := by
  obtain ⟨found, -, h⟩ := Loop.bind_eq_ok.mp h
  cases found with
  | none =>
    cases h
    exact hacc
  | some block =>
    obtain ⟨v, -, h⟩ := Loop.bind_eq_ok.mp h
    cases v with
    | some v =>
      cases h
      exact ⟨by simpa [or_imp, forall_and, hid] using hacc.blockIds, hacc.toEmbed⟩
    | none =>
      dsimp only at h
      split at h
      · cases h
        exact hacc
      · cases h
        exact ⟨hacc.blockIds, by simpa [or_imp, forall_and, hid] using hacc.toEmbed⟩

theorem embedMissing_within (hacc : acc.Within ids) (h : r.embedMissing cache acc = .ok (acc', cache')) :
    ∀ id ∈ acc'.blockIds, id ∈ ids := by
  unfold embedMissing at h
  split at h
  · cases h
    exact hacc.blockIds
  · obtain ⟨vecs, -, h⟩ := Loop.bind_eq_ok.mp h
    cases h
    intro id hid
    rcases List.mem_append.mp hid with hid | hid
    · exact hacc.blockIds id hid
    · obtain ⟨x, hx, rfl⟩ := List.mem_map.mp hid
      exact hacc.toEmbed x.1 (List.of_mem_zip hx).1

/-- A built index is for the session it was built for, over ids that listing the session returned. -/
theorem buildIndex_inv {built : Option (IndexedSession r.hnsw)}
    (h : r.buildIndex store cache session = .ok (built, cache')) {ix : IndexedSession r.hnsw} (hix : built = some ix) :
    ix.session = session ∧ ∀ id ∈ ix.blockIds, (session, id) ∈ heard store session := by
  obtain ⟨ids, hids, h⟩ := Loop.bind_eq_ok.mp h
  have hheard : heard store session = ids.map fun id => (session, id) := by
    rw [heard, Loop.mapError_eq_ok.mp hids]
  split at h
  · cases h
    cases hix
  · obtain ⟨acc, hgather, h⟩ := Loop.bind_eq_ok.mp h
    obtain ⟨⟨acc', cache''⟩, hembed, h⟩ := Loop.bind_eq_ok.mp h
    have hwithin : acc.Within ids := Loop.foldlM_inv (P := Gathered.Within ids)
      (fun id hid _ _ hacc hstep => gatherBlock_within hid hacc hstep) ⟨by simp, by simp⟩ hgather
    have hblocks := embedMissing_within hwithin hembed
    cases h
    unfold indexOf at hix
    split at hix
    · cases hix
    · cases hix
      refine ⟨rfl, fun id hid => ?_⟩
      rw [hheard]
      exact List.mem_map_of_mem (hblocks id hid)

theorem mem_answer {h : Hnsw} {slot : Option (IndexedSession h)} {taskVec : List Float32} {limit : Nat}
    {c : RetrievalCandidate} (hc : c ∈ answer slot taskVec limit) : ∃ ix, slot = some ix ∧ c.blockId ∈ ix.blockIds := by
  cases slot with
  | none => cases hc
  | some ix =>
    obtain ⟨x, hx, rfl⟩ := List.mem_map.mp hc
    obtain ⟨item, -, rfl⟩ := List.mem_map.mp (List.mem_of_mem_take hx)
    exact ⟨ix, rfl, List.getElem_mem _⟩

/-! ### Runs -/

/-- The index is over ids that listing its session has returned. -/
def Listed {h : Hnsw} (st : Shared h) (ix : IndexedSession h) : Prop :=
  ∀ id ∈ ix.blockIds, (ix.session, id) ∈ st.listed

/-- Where a call that queries next finds an index, it is for the call's own session. -/
def OwnIndex (st : Shared r.hnsw) : Action → Prop
  | .advance i => ∀ call taskVec ix, st.calls[i]? = some (call, .query taskVec) → st.slot = some ix →
    ix.session = call.session
  | _ => True

/-- What holds of each call: an index it is about to install is for its session, and what it has returned was
listed for its session. -/
def CallSound {h : Hnsw} (st : Shared h) (call : RetrieveCall) : Phase h → Prop
  | .install _ (some ix) => ix.session = call.session ∧ Listed st ix
  | .done (.ok cands) => ∀ c ∈ cands, (call.session, c.blockId) ∈ st.listed
  | _ => True

structure Sound {h : Hnsw} (st : Shared h) : Prop where
  slot : ∀ ix, st.slot = some ix → Listed st ix
  calls : ∀ x ∈ st.calls, CallSound st x.1 x.2

theorem Listed.mono {h : Hnsw} {st st' : Shared h} {ix : IndexedSession h} (hix : Listed st ix)
    (sub : st.listed ⊆ st'.listed) : Listed st' ix :=
  fun id hid => sub (hix id hid)

theorem CallSound.mono {h : Hnsw} {st st' : Shared h} {phase : Phase h} (hcall : CallSound st call phase)
    (sub : st.listed ⊆ st'.listed) : CallSound st' call phase := by
  unfold CallSound at hcall ⊢
  split at hcall
  · exact ⟨hcall.1, hcall.2.mono sub⟩
  · exact fun c hc => sub (hcall c hc)
  · trivial

/-- One call moves on, and no listing is forgotten. -/
theorem Sound.moved {phase : Phase r.hnsw} (hst : Sound st) (sub : st.listed ⊆ st'.listed)
    (hslot : ∀ ix, st'.slot = some ix → Listed st' ix) (hcalls : st'.calls = st.calls.set i (call, phase))
    (hphase : CallSound st' call phase) : Sound st' := by
  refine ⟨hslot, fun x hx => ?_⟩
  rw [hcalls] at hx
  rcases List.mem_or_eq_of_mem_set hx with hx | rfl
  · exact (hst.calls x hx).mono sub
  · exact hphase

theorem sound_advance {phase : Phase r.hnsw} (hst : Sound st) (hmem : (call, phase) ∈ st.calls)
    (hown : ∀ taskVec ix, phase = .query taskVec → st.slot = some ix → ix.session = call.session)
    (h : r.advance st i call phase = some st') : Sound st' := by
  have same : ∀ ix, st.slot = some ix → Listed st ix := hst.slot
  cases phase with
  | start =>
    cases h
    have hcheck : CallSound st call (r.check st.slot call) := by
      unfold check
      repeat' split
      all_goals simp [CallSound]
    exact hst.moved (List.Subset.refl _) same rfl hcheck
  | build taskVec =>
    have sub : st.listed ⊆ st.listed ++ heard st.store call.session := List.subset_append_left ..
    unfold advance at h
    dsimp only at h
    split at h
    · cases h
      exact hst.moved sub (fun ix hix => (hst.slot ix hix).mono sub) rfl trivial
    · rename_i built cache hbuilt
      cases h
      refine hst.moved sub (fun ix hix => (hst.slot ix hix).mono sub) rfl ?_
      cases built with
      | none => trivial
      | some ix =>
        obtain ⟨hsession, hblocks⟩ := buildIndex_inv hbuilt rfl
        refine ⟨hsession, fun id hid => ?_⟩
        rw [hsession]
        exact List.mem_append_right _ (hblocks id hid)
  | install taskVec built =>
    cases h
    refine hst.moved (List.Subset.refl _) (fun ix hix => ?_) rfl trivial
    have hcall := hst.calls _ hmem
    rw [show built = some ix from hix] at hcall
    exact hcall.2
  | query taskVec =>
    cases h
    refine hst.moved (List.Subset.refl _) same rfl fun c hc => ?_
    obtain ⟨ix, hix, hblock⟩ := mem_answer hc
    rw [← hown taskVec ix rfl hix]
    exact hst.slot ix hix _ hblock
  | done result => cases h

theorem sound_step {a : Action} (hst : Sound st) (hown : OwnIndex st a) (h : r.step st a = some st') : Sound st' := by
  cases a with
  | arrive call =>
    cases h
    refine ⟨hst.slot, fun x hx => ?_⟩
    rcases List.mem_append.mp hx with hx | hx
    · exact hst.calls x hx
    · rw [List.mem_singleton.mp hx]
      trivial
  | advance i =>
    simp only [step] at h
    split at h
    · rename_i call phase hcall
      refine sound_advance hst (List.mem_of_getElem? hcall) (fun taskVec ix hphase hslot => ?_) h
      exact hown call taskVec ix (hphase ▸ hcall) hslot
    · cases h
  | changeStore store =>
    cases h
    exact ⟨hst.slot, hst.calls⟩
  | changeCache cache =>
    cases h
    exact ⟨hst.slot, hst.calls⟩
  | invalidateIndex =>
    cases h
    exact ⟨by simp, hst.calls⟩

/-- Every finished call has returned only ids that a listing of its own session returned. -/
def SessionCorrect {h : Hnsw} (st : Shared h) : Prop :=
  ∀ call cands, (call, Phase.done (.ok cands)) ∈ st.calls → ∀ c ∈ cands, (call.session, c.blockId) ∈ st.listed

/-- In every run in which no call queries the index of another session, every state is session-correct. -/
theorem retrieve_sessionCorrect {as : List Action} (h : Run r.step OwnIndex (fresh r.hnsw store cache) as st) :
    SessionCorrect st := by
  have hsound : Sound st := h.invariant ⟨by simp [fresh], by simp [fresh]⟩ sound_step
  exact fun call cands hmem => hsound.calls (call, .done (.ok cands)) hmem

/-! ### Keeping other sessions out

The condition is kept where nobody installs the index of one session while a call for another is about to query. -/

/-- An index is installed only while no call for another session is past its check and has not queried. -/
def Exclusive (st : Shared r.hnsw) : Action → Prop
  | .advance i => ∀ call taskVec ix, st.calls[i]? = some (call, .install taskVec (some ix)) →
    ∀ other v, (other, .query v) ∈ st.calls → other.session = call.session
  | _ => True

/-- Every call that is about to query finds its own index or none. -/
def Ready {h : Hnsw} (st : Shared h) : Prop :=
  ∀ call taskVec ix, (call, Phase.query taskVec) ∈ st.calls → st.slot = some ix → ix.session = call.session

theorem check_query {v : List Float32} {ix : IndexedSession r.hnsw} (h : r.check (some ix) call = .query v) :
    ix.session = call.session := by
  unfold check at h
  split at h
  · cases h
  · split at h
    · cases h
    · dsimp only at h
      split at h
      · cases h
      · rename_i hsession
        exact not_not.mp hsession

theorem ready_advance {phase : Phase r.hnsw} (hst : Sound st) (hready : Ready st) (hmem : (call, phase) ∈ st.calls)
    (hexcl : ∀ taskVec ix, phase = .install taskVec (some ix) →
      ∀ other v, (other, .query v) ∈ st.calls → other.session = call.session)
    (h : r.advance st i call phase = some st') : Ready st' := by
  -- a call that moves without touching the slot, to a phase where a query would find its own index
  have moved : ∀ {st' : Shared r.hnsw} {phase'}, st'.slot = st.slot → st'.calls = st.calls.set i (call, phase') →
      (∀ v ix, phase' = .query v → st.slot = some ix → ix.session = call.session) → Ready st' := by
    intro st' phase' hslot hcalls hphase c v ix hc hix
    rw [hcalls] at hc
    rw [hslot] at hix
    rcases List.mem_or_eq_of_mem_set hc with hc | hc
    · exact hready c v ix hc hix
    · cases hc
      exact hphase v ix rfl hix
  cases phase with
  | start =>
    cases h
    refine moved rfl rfl fun v ix hphase hslot => ?_
    rw [hslot] at hphase
    exact check_query hphase
  | build taskVec =>
    unfold advance at h
    dsimp only at h
    split at h
    all_goals
      cases h
      exact moved rfl rfl fun v ix hphase => by cases hphase
  | install taskVec built =>
    cases h
    intro c v ix hc hix
    cases (show built = some ix from hix)
    have hown := (hst.calls _ hmem).1
    rcases List.mem_or_eq_of_mem_set hc with hc | hc
    · rw [hown, hexcl taskVec ix rfl c v hc]
    · cases hc
      exact hown
  | query taskVec =>
    cases h
    exact moved rfl rfl fun v ix hphase => by cases hphase
  | done result => cases h

theorem sound_ready_step {a : Action} (hst : Sound st ∧ Ready st) (hexcl : Exclusive st a) (h : r.step st a = some st') :
    Sound st' ∧ Ready st' := by
  obtain ⟨hsound, hready⟩ := hst
  refine ⟨sound_step hsound ?_ h, ?_⟩
  · cases a with
    | advance i => exact fun call taskVec ix hcall hslot => hready call taskVec ix (List.mem_of_getElem? hcall) hslot
    | _ => trivial
  · cases a with
    | arrive call =>
      cases h
      intro c v ix hc hix
      rcases List.mem_append.mp hc with hc | hc
      · exact hready c v ix hc hix
      · cases List.mem_singleton.mp hc
    | advance i =>
      simp only [step] at h
      split at h
      · rename_i call phase hcall
        refine ready_advance hsound hready (List.mem_of_getElem? hcall) (fun taskVec ix hphase => ?_) h
        exact hexcl call taskVec ix (hphase ▸ hcall)
      · cases h
    | changeStore store =>
      cases h
      exact hready
    | changeCache cache =>
      cases h
      exact hready
    | invalidateIndex =>
      cases h
      intro c v ix hc hix
      cases hix

theorem retrieve_exclusive {as : List Action} (h : Run r.step Exclusive (fresh r.hnsw store cache) as st) :
    Run r.step OwnIndex (fresh r.hnsw store cache) as st := by
  refine h.weaken (P := fun st => Sound st ∧ Ready st) ⟨⟨by simp [fresh], by simp [fresh]⟩, ?_⟩ sound_ready_step ?_
  · intro c v ix hc
    cases hc
  · intro st a hst hexcl
    cases a with
    | advance i => exact fun call taskVec ix hcall hslot => hst.2 call taskVec ix (List.mem_of_getElem? hcall) hslot
    | _ => trivial

/-! ### Two calls that cross -/

/-- Exact search: every value with its distance, the nearest first. -/
def exactSearch : Hnsw where
  Map := (Point → Point → Float32) × List (Point × Nat)
  build _ distance points values := (distance, points.zip values)
  search map query :=
    (map.2.map fun x => (x.2, map.1 query x.1)).insertionSort fun a b => (partialCmp a.2 b.2).getD .eq ≠ .gt
  search_mem h := by
    obtain ⟨x, hx, rfl⟩ := List.mem_map.mp ((List.mem_insertionSort _).mp h)
    exact (List.of_mem_zip hx).2

/-- Every text has the same direction. -/
def flatEmbedder : Embedder := ⟨"flat", fun _ => .ok [1], fun texts => .ok (texts.map fun _ => [1])⟩

def crossRetriever : HnswAnnRetriever := ⟨exactSearch, flatEmbedder, 32⟩

/-- One block in each of two sessions. -/
def crossStore : BlockStore :=
  .ofLists [sampleBlock ⟨1⟩ .fact [0x61] [], sampleBlock ⟨2⟩ .fact [0x62] []] [(⟨1⟩, ⟨1⟩), (⟨2⟩, ⟨2⟩)] []

/-- Both calls find the slot empty, build and install; then the first queries the index of the second. -/
def crossActions : List Action :=
  [.arrive ⟨⟨1⟩, "a", 10⟩, .arrive ⟨⟨2⟩, "a", 10⟩, .advance 0, .advance 1, .advance 0, .advance 1, .advance 0, .advance 1,
    .advance 0]

/-- The answers of the finished calls. -/
def answers {h : Hnsw} (st : Shared h) : List (SessionId × List BlockId) :=
  st.calls.filterMap fun x =>
    match x.2 with
    | .done (.ok cands) => some (x.1.session, cands.map (·.blockId))
    | _ => none

theorem mem_answers {h : Hnsw} {st : Shared h} {s : SessionId} {ids : List BlockId} (hmem : (s, ids) ∈ answers st) :
    ∃ call cands, (call, Phase.done (.ok cands)) ∈ st.calls ∧ call.session = s ∧ cands.map (·.blockId) = ids := by
  obtain ⟨⟨call, phase⟩, hx, hsome⟩ := List.mem_filterMap.mp hmem
  dsimp only at hsome
  split at hsome
  · rename_i cands
    cases hsome
    exact ⟨call, cands, hx, rfl, rfl⟩
  · cases hsome

theorem retrieve_crosses :
    ∃ st, Run crossRetriever.step (fun _ _ => True) (fresh exactSearch crossStore none) crossActions st ∧
      ¬ SessionCorrect st := by
  have hrun : (Run.exec (fun st a => if true then crossRetriever.step st a else none)
      (fresh exactSearch crossStore none) crossActions).map
      (fun st => (answers st, st.listed)) = some ([(⟨1⟩, [⟨2⟩])], [(⟨1⟩, ⟨1⟩), (⟨2⟩, ⟨2⟩)]) := by decide +kernel
  obtain ⟨st, hst, hout⟩ := Option.map_eq_some_iff.mp hrun
  have hanswers : answers st = [(⟨1⟩, [⟨2⟩])] := congrArg Prod.fst hout
  have hlisted : st.listed = [(⟨1⟩, ⟨1⟩), (⟨2⟩, ⟨2⟩)] := congrArg Prod.snd hout
  refine ⟨st, Run.of_exec (fun _ _ _ => trivial) hst, fun hcorrect => ?_⟩
  obtain ⟨call, cands, hmem, hsession, hids⟩ := mem_answers (hanswers ▸ List.mem_singleton_self _)
  obtain ⟨c, hc, hblock⟩ := List.mem_map.mp (show (⟨2⟩ : BlockId) ∈ cands.map (·.blockId) by simp [hids])
  have hfound := hcorrect call cands hmem c hc
  rw [hsession, hblock, hlisted] at hfound
  revert hfound
  decide

/-- Where the call whose turn it is queries an index, it is its own. -/
def queriesOwn (st : Shared r.hnsw) : Action → Bool
  | .advance i =>
    match st.calls[i]?, st.slot with
    | some (call, .query _), some ix => ix.session = call.session
    | _, _ => true
  | _ => true

theorem ownIndex_of_queriesOwn {a : Action} (h : queriesOwn st a = true) : OwnIndex st a := by
  cases a with
  | advance i =>
    intro call taskVec ix hcall hslot
    simpa [queriesOwn, hcall, hslot] using h
  | _ => trivial

/-- Both calls find the slot empty and build; each then installs its index and queries it. -/
def beside : List Action :=
  [.arrive ⟨⟨1⟩, "a", 10⟩, .arrive ⟨⟨2⟩, "a", 10⟩, .advance 0, .advance 1, .advance 0, .advance 1, .advance 0, .advance 0,
    .advance 1, .advance 1]

theorem retrieve_sessionCorrect_sample :
    ∃ st, Run crossRetriever.step OwnIndex (fresh exactSearch crossStore none) beside st ∧
      answers st = [(⟨1⟩, [⟨1⟩]), (⟨2⟩, [⟨2⟩])] ∧ SessionCorrect st := by
  have hrun : (Run.exec (fun st a => if queriesOwn (r := crossRetriever) st a then crossRetriever.step st a else none)
      (fresh exactSearch crossStore none) beside).map answers = some [(⟨1⟩, [⟨1⟩]), (⟨2⟩, [⟨2⟩])] := by decide +kernel
  obtain ⟨st, hst, hout⟩ := Option.map_eq_some_iff.mp hrun
  have hown : Run crossRetriever.step OwnIndex (fresh exactSearch crossStore none) beside st :=
    Run.of_exec (fun _ _ => ownIndex_of_queriesOwn) hst
  exact ⟨st, hown, hout, retrieve_sessionCorrect hown⟩

end HnswAnnRetriever
end Llm386
