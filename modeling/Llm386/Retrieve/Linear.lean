import Llm386.Lib.Failing
import Llm386.Retrieve.Cache
import Llm386.Retrieve.Hnsw

/-! # The linear retriever

`LinearAnnRetriever` of `llm386-retrieve-ann/src/linear.rs`: an in-memory cache by block id in front of the persistent
one by content hash. A call fills both as it goes and may stop with an error at any block; what it has written stays.
Where the caches hold what the embedder would compute, a call that succeeds ranks what the embedder computes for every
text of the session. -/

namespace Llm386

/-- The in-memory cache of a retriever, the last entry first. -/
abbrev Memory := List (BlockId × List Float32)

structure Caches where
  memory : Memory
  persistent : Option EmbeddingCache

/-- The LMDB errors that the persistent cache meets in one call, by block. -/
structure CacheFaults where
  get : BlockId → Option String
  put : BlockId → Option String

def CacheFaults.none : CacheFaults := ⟨fun _ => .none, fun _ => .none⟩

structure LinearAnnRetriever where
  embedder : Embedder

/-- The text of a block that is UTF-8. -/
def textOf (block : ContextBlock) : Option String := String.fromUTF8? ⟨block.bytes.toArray⟩

namespace LinearAnnRetriever

/-! ### Scoring -/

def cosine (a b : List Float32) : Float32 :=
  if a.length ≠ b.length ∨ a.isEmpty then 0
  else
    let (dot, na, nb) := (a.zip b).foldl (fun (acc : Float32 × Float32 × Float32) (x : Float32 × Float32) =>
      (acc.1 + x.1 * x.2, acc.2.1 + x.1 * x.1, acc.2.2 + x.2 * x.2)) (0, 0, 0)
    let denom := na.sqrt * nb.sqrt
    if denom < f32Epsilon then 0 else clamp (dot / denom) 0 1

/-- The blocks with a positive similarity, the most similar first. -/
def rank (taskVec : List Float32) (limit : Nat) (vecs : List (BlockId × List Float32)) : List RetrievalCandidate :=
  let scored := (vecs.map fun x => (x.1, cosine taskVec x.2)).filter fun x => 0 < x.2
  let sorted := scored.insertionSort fun a b => (partialCmp b.2 a.2).getD .eq ≠ .gt
  (sorted.take limit).map fun x => { blockId := x.1, score := clamp x.2 0 1 }

/-! ### Filling the caches -/

variable (r : LinearAnnRetriever) (faults : CacheFaults) (store : BlockStore)

/-- What the persistent cache has for a block. -/
def cached (id : BlockId) (block : ContextBlock) : Failing RetrievalError Caches (Option (List Float32)) := do
  match (← get).persistent with
  | none => pure none
  | some persistent =>
    match faults.get id with
    | some e => Failing.lift (.error (.failed ("cache get: " ++ e)))
    | none =>
      Failing.lift ((persistent.get r.embedder.name block.hash).mapError fun e => .failed ("cache get: " ++ e.display))

def remember (id : BlockId) (v : List Float32) : Failing RetrievalError Caches PUnit :=
  modify fun c => { c with memory := (id, v) :: c.memory }

/-- A block that is gone, or is neither cached nor text, is left out. -/
def loadBlock (toEmbed : List (BlockId × ContentHash × String)) (id : BlockId) :
    Failing RetrievalError Caches (List (BlockId × ContentHash × String)) := do
  match ← Failing.lift ((store.get id).mapError storeErr) with
  | none => pure toEmbed
  | some block =>
    match ← r.cached faults id block with
    | some v =>
      remember id v
      pure toEmbed
    | none =>
      match textOf block with
      | none => pure toEmbed
      | some text => pure (toEmbed ++ [(id, block.hash, text)])

def putCached (x : (BlockId × ContentHash × String) × List Float32) : Failing RetrievalError Caches PUnit := do
  match (← get).persistent with
  | none => pure ⟨⟩
  | some persistent =>
    match faults.put x.1.1 with
    | some e => Failing.lift (.error (.failed ("cache put: " ++ e)))
    | none => modify fun c => { c with persistent := some (persistent.put r.embedder.name x.1.2.1 x.2) }

/-- A new vector goes to the persistent cache first. -/
def keep (x : (BlockId × ContentHash × String) × List Float32) : Failing RetrievalError Caches PUnit := do
  r.putCached faults x
  remember x.1.1 x.2

def fill (needsEmbed : List BlockId) : Failing RetrievalError Caches PUnit := do
  let toEmbed ← needsEmbed.foldlM (r.loadBlock faults store) []
  if toEmbed.isEmpty then pure ⟨⟩
  else
    let vecs ← Failing.lift
      ((r.embedder.embedBatch (toEmbed.map (·.2.2))).mapError fun e => .failed ("embed batch: " ++ e.display))
    (toEmbed.zip vecs).foldlM (fun _ x => r.keep faults x) ⟨⟩

/-- The vectors that are scored: those in memory. -/
def scoredVecs (memory : Memory) (ids : List BlockId) : List (BlockId × List Float32) :=
  ids.filterMap fun id => (memory.lookup id).map fun v => (id, v)

def retrieve (session : SessionId) (task : String) (limit : Nat) :
    Failing RetrievalError Caches (List RetrievalCandidate) := do
  if task.isEmpty then pure []
  else
    let taskVec ← Failing.lift ((r.embedder.embed task).mapError fun e => .failed ("embed task: " ++ e.display))
    let ids ← Failing.lift ((store.listSession session).mapError storeErr)
    if ids.isEmpty then pure []
    else
      let before ← get
      r.fill faults store (ids.filter fun id => (before.memory.lookup id).isNone)
      let after ← get
      pure (rank taskVec limit (scoredVecs after.memory ids))

end LinearAnnRetriever

/-! ### What the caches hold -/

/-- Blocks with one hash share their vectors. -/
def SharedByHash (store : BlockStore) (own : BlockId → List Float32 → Prop) : Prop :=
  ∀ i j a b, store.get i = .ok (some a) → store.get j = .ok (some b) → a.hash = b.hash → ∀ v, own i v → own j v

/-- A batch gives the blocks with its texts vectors of their own. -/
def Embedder.Serves (e : Embedder) (store : BlockStore) (own : BlockId → List Float32 → Prop) : Prop :=
  ∀ ts vs, e.embedBatch ts = .ok vs → ∀ x ∈ ts.zip vs, ∀ id b, store.get id = .ok (some b) → textOf b = some x.1 →
    own id x.2

/-- A batch gives a vector for each text. -/
def Embedder.OneEach (e : Embedder) : Prop := ∀ ts vs, e.embedBatch ts = .ok vs → vs.length = ts.length

/-- No block with text is stored under the id. -/
def Textless (store : BlockStore) (id : BlockId) : Prop :=
  ∃ found, store.get id = .ok found ∧ ∀ b, found = some b → textOf b = none

def OwnMemory (own : BlockId → List Float32 → Prop) (memory : Memory) : Prop :=
  ∀ id v, memory.lookup id = some v → own id v

/-- What the cache has for the blocks of `ids` are vectors of their own. -/
def OwnHits (name : String) (own : BlockId → List Float32 → Prop) (store : BlockStore) (ids : List BlockId)
    (cache : EmbeddingCache) : Prop :=
  ∀ id ∈ ids, ∀ b raw, store.get id = .ok (some b) → cache.db[EmbeddingCache.makeKey name b.hash]? = some raw →
    ∃ v, own id v ∧ raw = EmbeddingCache.encodeVec v

/-- Beside what was there, the cache has vectors of blocks of `ids`, under their hashes. -/
def Grown (name : String) (own : BlockId → List Float32 → Prop) (store : BlockStore) (ids : List BlockId)
    (cache cache' : EmbeddingCache) : Prop :=
  ∀ key, cache'.db[key]? = cache.db[key]? ∨ ∃ id ∈ ids, ∃ b v, store.get id = .ok (some b) ∧ own id v ∧
    key = EmbeddingCache.makeKey name b.hash ∧ cache'.db[key]? = some (EmbeddingCache.encodeVec v)

variable {name : String} {own : BlockId → List Float32 → Prop} {store : BlockStore} {ids : List BlockId}
  {cache cache' : EmbeddingCache}

theorem EmbeddingCache.makeKey_hash_inj {hash hash' : ContentHash} (h : makeKey name hash = makeKey name hash') :
    hash = hash' :=
  ContentHash.bytes_inj.mp (List.append_cancel_left (List.cons.inj h).2)

/-- A string that is read back as a vector is read back as the one it was stored for. -/
theorem EmbeddingCache.eq_of_decode_encode {v v' : List Float32} (h : decodeVec (encodeVec v) = .ok v') : v' = v := by
  by_cases hlen : v.length < 2 ^ 32
  · rw [decodeVec_encodeVec hlen] at h
    exact (Except.ok.inj h).symm
  · -- the header holds a smaller dimension, and the string is refused
    have hmin : min v.length (2 ^ 32 - 1) = 2 ^ 32 - 1 := Nat.min_eq_right (by omega)
    have hfits : 2 ^ 32 - 1 < 256 ^ 4 := by norm_num
    have hencode : encodeVec v = (BigEndian.encode 4 (2 ^ 32 - 1)).reverse ++ v.flatMap f32ToLeBytes := by
      rw [encodeVec, hmin]
    have hheader : BigEndian.decode ((encodeVec v).take 4).reverse = 2 ^ 32 - 1 := by
      rw [hencode, List.take_left' (by simp), List.reverse_reverse, BigEndian.decode_encode hfits]
    have htotal : (encodeVec v).length = 4 + v.length * 4 := by
      rw [hencode, List.length_append, length_components, List.length_reverse, BigEndian.length_encode]
    unfold decodeVec at h
    rw [if_neg (by omega), hheader] at h
    dsimp only at h
    rw [if_pos (by omega)] at h
    cases h

theorem EmbeddingCache.getElem?_put {hash : ContentHash} {v : List Float32} {key : Bytes} :
    (cache.put name hash v).db[key]? = if makeKey name hash = key then some (encodeVec v) else cache.db[key]? :=
  KeyTable.getElem?_insert_eq _

theorem Grown.refl : Grown name own store ids cache cache := fun _ => .inl rfl

theorem Grown.hits (h : Grown name own store ids cache cache') (hshared : SharedByHash store own)
    (hits : OwnHits name own store ids cache) : OwnHits name own store ids cache' := by
  intro id hid b raw hb hraw
  rcases h (EmbeddingCache.makeKey name b.hash) with hsame | ⟨id', -, b', v, hb', hv, hkey, hnew⟩
  · exact hits id hid b raw hb (hsame ▸ hraw)
  · rw [hnew] at hraw
    have hhash : b'.hash = b.hash := (EmbeddingCache.makeKey_hash_inj hkey).symm
    exact ⟨v, hshared id' id b' b hb' hb hhash v hv, (Option.some.inj hraw).symm⟩

theorem Grown.put (h : Grown name own store ids cache cache') {id : BlockId} (hid : id ∈ ids) {b : ContextBlock}
    {v : List Float32} (hb : store.get id = .ok (some b)) (hv : own id v) :
    Grown name own store ids cache (cache'.put name b.hash v) := by
  intro key
  rw [EmbeddingCache.getElem?_put]
  by_cases hkey : EmbeddingCache.makeKey name b.hash = key
  · exact .inr ⟨id, hid, b, v, hb, hv, hkey.symm, if_pos hkey⟩
  · rw [if_neg hkey]
    exact h key

/-- A hit is a vector of the block's own. -/
theorem OwnHits.get (hits : OwnHits name own store ids cache) {id : BlockId} (hid : id ∈ ids) {b : ContextBlock}
    (hb : store.get id = .ok (some b)) {v : List Float32} (hget : cache.get name b.hash = .ok (some v)) : own id v := by
  unfold EmbeddingCache.get at hget
  split at hget
  · cases hget
  · rename_i raw hraw
    obtain ⟨v', hv', rfl⟩ := hits id hid b raw hb hraw
    obtain ⟨v'', hdecode, hsome⟩ := Loop.map_eq_ok.mp hget
    rw [← Option.some.inj hsome, EmbeddingCache.eq_of_decode_encode hdecode]
    exact hv'

theorem lookup_remember {memory : Memory} {id id' : BlockId} {v : List Float32} :
    ((id', v) :: memory).lookup id = if id = id' then some v else memory.lookup id := by
  rw [List.lookup_cons]
  by_cases h : id = id'
  · simp [h]
  · simp [h, beq_eq_false_iff_ne.mpr h]

theorem OwnMemory.remember {memory : Memory} (h : OwnMemory own memory) {id : BlockId} {v : List Float32} (hv : own id v) :
    OwnMemory own ((id, v) :: memory) := by
  intro id' v' hlookup
  rw [lookup_remember] at hlookup
  split at hlookup
  · rename_i heq
    rw [heq, ← Option.some.inj hlookup]
    exact hv
  · exact h id' v' hlookup

/-! ### One call -/

namespace LinearAnnRetriever
variable {r : LinearAnnRetriever} {faults : CacheFaults} {before : Caches}

/-- The persistent cache, where there is one, has grown. -/
def CacheGrown (name : String) (own : BlockId → List Float32 → Prop) (store : BlockStore) (ids : List BlockId)
    (before after : Option EmbeddingCache) : Prop :=
  match before, after with
  | none, none => True
  | some cache, some cache' => Grown name own store ids cache cache'
  | _, _ => False

/-- In the course of a call: the memory is right and forgets nothing, and the persistent cache has grown. -/
structure Filling (r : LinearAnnRetriever) (own : BlockId → List Float32 → Prop) (store : BlockStore) (ids : List BlockId)
    (before after : Caches) : Prop where
  memory : OwnMemory own after.memory
  keeps : ∀ id, (before.memory.lookup id).isSome → (after.memory.lookup id).isSome
  persistent : CacheGrown r.embedder.name own store ids before.persistent after.persistent

/-- A block still to embed: it is stored, with this hash and this text. -/
def ToEmbed (store : BlockStore) (ids : List BlockId) (x : BlockId × ContentHash × String) : Prop :=
  x.1 ∈ ids ∧ ∃ b, store.get x.1 = .ok (some b) ∧ x.2.1 = b.hash ∧ textOf b = some x.2.2

/-- New vectors, each of a stored text. -/
def Embedded (own : BlockId → List Float32 → Prop) (store : BlockStore) (ids : List BlockId)
    (embedded : List ((BlockId × ContentHash × String) × List Float32)) : Prop :=
  ∀ x ∈ embedded, ToEmbed store ids x.1 ∧ own x.1.1 x.2

theorem embedded_of_batch {e : Embedder} (hserves : e.Serves store own) {toEmbed : List (BlockId × ContentHash × String)}
    (htoEmbed : ∀ x ∈ toEmbed, ToEmbed store ids x) {vecs : List (List Float32)}
    (hvecs : e.embedBatch (toEmbed.map (·.2.2)) = .ok vecs) : Embedded own store ids (toEmbed.zip vecs) := by
  intro x hx
  have hstored := htoEmbed x.1 (List.of_mem_zip hx).1
  refine ⟨hstored, ?_⟩
  obtain ⟨-, b, hb, -, htext⟩ := hstored
  have hzip : (x.1.2.2, x.2) ∈ (toEmbed.map (·.2.2)).zip vecs := by
    rw [List.zip_map_left]
    exact List.mem_map_of_mem (f := Prod.map (·.2.2) id) hx
  exact hserves _ _ hvecs _ hzip x.1.1 b hb htext

/-- A block that is neither to come nor in memory nor to be embedded has no text. -/
def Accounted (store : BlockStore) (ids rest : List BlockId) (toEmbed : List (BlockId × ContentHash × String))
    (memory : Memory) : Prop :=
  ∀ id ∈ ids, id ∈ rest ∨ (memory.lookup id).isSome ∨ id ∈ toEmbed.map (·.1) ∨ Textless store id

/-- Of two caches that hold a vector where the other does, one is there where the other is. -/
theorem CacheGrown.some {cache' : EmbeddingCache} {o : Option EmbeddingCache}
    (h : CacheGrown name own store ids o (some cache')) : ∃ cache, o = some cache ∧ Grown name own store ids cache cache' := by
  cases o with
  | none => exact h.elim
  | some cache => exact ⟨cache, rfl, h⟩

theorem CacheGrown.refl {o : Option EmbeddingCache} : CacheGrown name own store ids o o := by
  cases o with
  | none => trivial
  | some cache => exact Grown.refl

theorem Filling.remember {after : Caches} (h : Filling r own store ids before after) {id : BlockId} {v : List Float32}
    (hv : own id v) : Filling r own store ids before { after with memory := (id, v) :: after.memory } where
  memory := h.memory.remember hv
  keeps id' hid' := by
    rw [lookup_remember]
    split
    · rfl
    · exact h.keeps id' hid'
  persistent := h.persistent

theorem cached_meets (faults : CacheFaults) (hshared : SharedByHash store own)
    (hits : ∀ cache, before.persistent = some cache → OwnHits r.embedder.name own store ids cache) {id : BlockId}
    (hid : id ∈ ids) {b : ContextBlock} (hb : store.get id = .ok (some b)) {P : Caches → Prop} :
    Failing.Meets (fun c => Filling r own store ids before c ∧ P c) (r.cached faults id b)
      (fun found c => (∀ v, found = some v → own id v) ∧ Filling r own store ids before c ∧ P c)
      (Filling r own store ids before) := by
  unfold cached
  refine Failing.Meets.bind (Q := fun c' c => c' = c ∧ Filling r own store ids before c ∧ P c)
    (.get fun c hc => ⟨rfl, hc⟩) fun c => ?_
  cases hp : c.persistent with
  | none => exact .pure fun c' hc => ⟨by simp, hc.2⟩
  | some cache' =>
    dsimp only
    cases faults.get id with
    | some e => exact .lift (fun a h => by cases h) fun c' hc => hc.2.1
    | none =>
      refine .lift (fun found hfound c' hc => ?_) fun c' hc => hc.2.1
      obtain ⟨rfl, hfilling, hP⟩ := hc
      refine ⟨fun v hv => ?_, hfilling, hP⟩
      obtain ⟨cache, hbefore, hgrown⟩ := (hp ▸ hfilling.persistent).some
      exact (hgrown.hits hshared (hits cache hbefore)).get hid hb (hv ▸ Loop.mapError_eq_ok.mp hfound)

/-- In the course of a call, with `rest` still to load. -/
structure Loading (r : LinearAnnRetriever) (own : BlockId → List Float32 → Prop) (store : BlockStore) (ids : List BlockId)
    (before : Caches) (rest : List BlockId) (toEmbed : List (BlockId × ContentHash × String)) (after : Caches) : Prop where
  filling : Filling r own store ids before after
  stored : ∀ x ∈ toEmbed, ToEmbed store ids x
  accounted : Accounted store ids rest toEmbed after.memory

/-- A block that is passed over has no text. -/
theorem Accounted.pass {id : BlockId} {rest : List BlockId} {toEmbed : List (BlockId × ContentHash × String)}
    {memory : Memory} (h : Accounted store ids (id :: rest) toEmbed memory) (hid : Textless store id) :
    Accounted store ids rest toEmbed memory := by
  intro id' hid'
  by_cases heq : id' = id
  · exact .inr (.inr (.inr (heq ▸ hid)))
  · exact (h id' hid').imp (fun h => (List.mem_cons.mp h).resolve_left heq) fun h => h

theorem loadBlock_meets (hshared : SharedByHash store own)
    (hits : ∀ cache, before.persistent = some cache → OwnHits r.embedder.name own store ids cache) {id : BlockId}
    (hid : id ∈ ids) {rest : List BlockId} {toEmbed : List (BlockId × ContentHash × String)} :
    Failing.Meets (Loading r own store ids before (id :: rest) toEmbed) (r.loadBlock faults store toEmbed id)
      (Loading r own store ids before rest) (Filling r own store ids before) := by
  unfold loadBlock
  refine Failing.Meets.bind (Q := fun found c => store.get id = .ok found ∧
    Loading r own store ids before (id :: rest) toEmbed c)
    (.lift (fun found hfound c hc => ⟨Loop.mapError_eq_ok.mp hfound, hc⟩) fun c hc => hc.filling) fun found => ?_
  cases found with
  | none =>
    exact .pure fun c hc => ⟨hc.2.filling, hc.2.stored, hc.2.accounted.pass ⟨none, hc.1, by simp⟩⟩
  | some b =>
    dsimp only
    by_cases hb : store.get id = .ok (some b)
    · have hcached := cached_meets faults hshared hits hid hb
        (P := fun c => (∀ x ∈ toEmbed, ToEmbed store ids x) ∧ Accounted store ids (id :: rest) toEmbed c.memory)
      have hloaded : Failing.Meets (fun c => store.get id = .ok (some b) ∧
          Loading r own store ids before (id :: rest) toEmbed c) (r.cached faults id b) _ _ :=
        hcached.conseq (fun c hc => ⟨hc.2.filling, hc.2.stored, hc.2.accounted⟩) fun _ _ h => h
      refine hloaded.bind fun found => ?_
      cases found with
      | some v =>
        refine Failing.Meets.bind (Q := fun _ => Loading r own store ids before rest toEmbed)
          (.modify fun c hc => ?_) fun _ => .pure fun c hc => hc
        obtain ⟨hv, hfilling, htoEmbed, haccounted⟩ := hc
        refine ⟨hfilling.remember (hv v rfl), htoEmbed, fun id' hid' => ?_⟩
        rw [lookup_remember]
        by_cases heq : id' = id
        · exact .inr (.inl (by rw [if_pos heq]; rfl))
        · rw [if_neg heq]
          exact (haccounted id' hid').imp (fun h => (List.mem_cons.mp h).resolve_left heq) fun h => h
      | none =>
        dsimp only
        cases htext : textOf b with
        | none =>
          refine .pure fun c hc => ?_
          obtain ⟨-, hfilling, htoEmbed, haccounted⟩ := hc
          exact ⟨hfilling, htoEmbed, haccounted.pass ⟨some b, hb, fun b' hb' => Option.some.inj hb' ▸ htext⟩⟩
        | some text =>
          refine .pure fun c hc => ?_
          obtain ⟨-, hfilling, htoEmbed, haccounted⟩ := hc
          refine ⟨hfilling, fun x hx => ?_, fun id' hid' => ?_⟩
          · rcases List.mem_append.mp hx with hx | hx
            · exact htoEmbed x hx
            · obtain rfl := List.mem_singleton.mp hx
              exact ⟨hid, b, hb, rfl, htext⟩
          · rw [List.map_append, List.mem_append]
            by_cases heq : id' = id
            · exact .inr (.inr (.inl (.inr (by simp [heq]))))
            · rcases haccounted id' hid' with h | h | h | h
              · exact .inl ((List.mem_cons.mp h).resolve_left heq)
              · exact .inr (.inl h)
              · exact .inr (.inr (.inl (.inl h)))
              · exact .inr (.inr (.inr h))
    · intro c hc
      exact absurd hc.1 hb

/-- In the course of a call, with the vectors of `rest` still to keep. Where a batch gives a vector for each text, no
text is left out. -/
structure Keeping (r : LinearAnnRetriever) (own : BlockId → List Float32 → Prop) (store : BlockStore) (ids : List BlockId)
    (before : Caches) (rest : List ((BlockId × ContentHash × String) × List Float32)) (after : Caches) : Prop where
  filling : Filling r own store ids before after
  accounted : r.embedder.OneEach →
    ∀ id ∈ ids, (after.memory.lookup id).isSome ∨ id ∈ rest.map (·.1.1) ∨ Textless store id

theorem putCached_meets (r : LinearAnnRetriever) (faults : CacheFaults) (before : Caches) {P : Memory → Prop} {x : (BlockId × ContentHash × String) × List Float32}
    (hx : ToEmbed store ids x.1) (hv : own x.1.1 x.2) :
    Failing.Meets (fun c => Filling r own store ids before c ∧ P c.memory) (r.putCached faults x)
      (fun _ c => Filling r own store ids before c ∧ P c.memory) (Filling r own store ids before) := by
  unfold putCached
  refine Failing.Meets.bind (Q := fun c' c => c' = c ∧ Filling r own store ids before c ∧ P c.memory)
    (.get fun c hc => ⟨rfl, hc⟩) fun c => ?_
  cases hp : c.persistent with
  | none => exact .pure fun c' hc => hc.2
  | some cache' =>
    dsimp only
    cases faults.put x.1.1 with
    | some e => exact .lift (fun a h => by cases h) fun c' hc => hc.2.1
    | none =>
      refine .modify fun c' hc => ?_
      obtain ⟨rfl, hfilling, hP⟩ := hc
      refine ⟨⟨hfilling.memory, hfilling.keeps, ?_⟩, hP⟩
      obtain ⟨hid, b, hb, hhash, -⟩ := hx
      obtain ⟨cache, hbefore, hgrown⟩ := (hp ▸ hfilling.persistent).some
      rw [hbefore, hhash]
      exact hgrown.put hid hb hv

theorem keep_meets {x : (BlockId × ContentHash × String) × List Float32}
    {rest : List ((BlockId × ContentHash × String) × List Float32)} (hx : ToEmbed store ids x.1) (hv : own x.1.1 x.2) :
    Failing.Meets (Keeping r own store ids before (x :: rest)) (r.keep faults x)
      (fun _ => Keeping r own store ids before rest) (Filling r own store ids before) := by
  have hput := putCached_meets r faults before hx hv
    (P := fun memory => r.embedder.OneEach →
      ∀ id ∈ ids, (memory.lookup id).isSome ∨ id ∈ (x :: rest).map (·.1.1) ∨ Textless store id)
  refine Failing.Meets.bind (hput.conseq (fun c hc => ⟨hc.filling, hc.accounted⟩) fun _ _ h => h) fun _ => ?_
  refine .modify fun c hc => ⟨hc.1.remember hv, fun hone id hid => ?_⟩
  rw [lookup_remember]
  by_cases heq : id = x.1.1
  · exact .inl (by rw [if_pos heq]; rfl)
  · rw [if_neg heq]
    exact (hc.2 hone id hid).imp (fun h => h) (Or.imp (fun h => (List.mem_cons.mp h).resolve_left heq) fun h => h)

/-- After a fill, every block of `ids` with a text is in memory. -/
theorem fill_meets (faults : CacheFaults) (hshared : SharedByHash store own) (hserves : r.embedder.Serves store own)
    (hits : ∀ cache, before.persistent = some cache → OwnHits r.embedder.name own store ids cache) :
    Failing.Meets (Filling r own store ids before) (r.fill faults store ids)
      (fun _ c => Filling r own store ids before c ∧
        (r.embedder.OneEach → ∀ id ∈ ids, (c.memory.lookup id).isSome ∨ Textless store id))
      (Filling r own store ids before) := by
  have hload : Failing.Meets (Loading r own store ids before ids []) (ids.foldlM (r.loadBlock faults store) []) _ _ :=
    .foldlM (I := Loading r own store ids before) fun id rest toEmbed hid => loadBlock_meets hshared hits hid
  unfold fill
  refine Failing.Meets.bind (hload.conseq (fun c hc => ⟨hc, by simp, fun id hid => .inl hid⟩) fun _ _ h => h)
    fun toEmbed => ?_
  split
  · rename_i hempty
    rw [List.isEmpty_iff] at hempty
    refine .pure fun c hc => ⟨hc.filling, fun _ id hid => ?_⟩
    rcases hc.accounted id hid with h | h | h | h
    · cases h
    · exact .inl h
    · rw [hempty] at h
      cases h
    · exact .inr h
  · refine Failing.Meets.bind (Q := fun vecs c => r.embedder.embedBatch (toEmbed.map (·.2.2)) = .ok vecs ∧
      Loading r own store ids before [] toEmbed c) (.lift (fun vecs hvecs c hc => ⟨Loop.mapError_eq_ok.mp hvecs, hc⟩)
        fun c hc => hc.filling) fun vecs => ?_
    by_cases hready : r.embedder.embedBatch (toEmbed.map (·.2.2)) = .ok vecs ∧
        ∀ x ∈ toEmbed, ToEmbed store ids x
    · obtain ⟨hvecs, htoEmbed⟩ := hready
      have hembedded := embedded_of_batch hserves htoEmbed hvecs
      have hkeep : Failing.Meets (Keeping r own store ids before (toEmbed.zip vecs))
          ((toEmbed.zip vecs).foldlM (fun _ x => r.keep faults x) PUnit.unit) _ _ :=
        .foldlM (I := fun rest _ => Keeping r own store ids before rest) fun x rest _ hx =>
          keep_meets (hembedded x hx).1 (hembedded x hx).2
      refine hkeep.conseq (fun c hc => ⟨hc.2.filling, fun hone id hid => ?_⟩) fun _ c hc =>
        ⟨hc.filling, fun hone id hid => (hc.accounted hone id hid).imp (fun h => h) fun h => h.resolve_left List.not_mem_nil⟩
      have hlen : vecs.length = toEmbed.length := (hone _ _ hvecs).trans (List.length_map _)
      have hids : (toEmbed.zip vecs).map (·.1.1) = toEmbed.map (·.1) := by
        have hfst : (toEmbed.zip vecs).map Prod.fst = toEmbed := List.map_fst_zip hlen.ge
        calc (toEmbed.zip vecs).map (·.1.1) = ((toEmbed.zip vecs).map Prod.fst).map (·.1) := by rw [List.map_map]; rfl
          _ = toEmbed.map (·.1) := by rw [hfst]
      rw [hids]
      rcases hc.2.accounted id hid with h | h | h | h
      · cases h
      · exact .inl h
      · exact .inr (.inl h)
      · exact .inr (.inr h)
    · intro c hc
      exact absurd ⟨hc.1, hc.2.stored⟩ hready

/-- The blocks that a call looks up in the persistent cache: the listed ones that are not in memory. -/
def lookedUp (r : LinearAnnRetriever) (store : BlockStore) (memory : Memory) (session : SessionId) (task : String) :
    List BlockId :=
  if task.isEmpty then []
  else
    match r.embedder.embed task, store.listSession session with
    | .ok _, .ok ids => ids.filter fun id => (memory.lookup id).isNone
    | _, _ => []

/-- What a call answers from the memory it leaves. -/
inductive Answered (r : LinearAnnRetriever) (store : BlockStore) (session : SessionId) (task : String) (limit : Nat)
    (memory : Memory) : List RetrievalCandidate → Prop
  | blank : task.isEmpty → Answered r store session task limit memory []
  | scored {taskVec : List Float32} {ids : List BlockId} : ¬task.isEmpty → r.embedder.embed task = .ok taskVec →
    store.listSession session = .ok ids →
    (r.embedder.OneEach → ∀ id ∈ ids, (memory.lookup id).isSome ∨ Textless store id) →
    Answered r store session task limit memory (rank taskVec limit (scoredVecs memory ids))

theorem rank_nil (taskVec : List Float32) (limit : Nat) : rank taskVec limit [] = [] := by
  simp [rank]

/-- A call that succeeds answers from a right memory, and one that fails leaves the caches right. -/
theorem retrieve_meets (r : LinearAnnRetriever) (faults : CacheFaults) (before : Caches) (session : SessionId)
    (task : String) (limit : Nat) (hshared : SharedByHash store own) (hserves : r.embedder.Serves store own)
    (hmemory : OwnMemory own before.memory) (hits : ∀ cache, before.persistent = some cache →
      OwnHits r.embedder.name own store (r.lookedUp store before.memory session task) cache) :
    Failing.Meets (· = before) (r.retrieve faults store session task limit)
      (fun cands c => Filling r own store (r.lookedUp store before.memory session task) before c ∧
        Answered r store session task limit c.memory cands)
      (Filling r own store (r.lookedUp store before.memory session task) before) := by
  have hstart : Filling r own store (r.lookedUp store before.memory session task) before before :=
    ⟨hmemory, fun id h => h, .refl⟩
  unfold retrieve
  split
  · rename_i htask
    exact .pure fun c hc => ⟨hc ▸ hstart, .blank htask⟩
  · rename_i htask
    refine Failing.Meets.bind (Q := fun taskVec c => r.embedder.embed task = .ok taskVec ∧ c = before)
      (.lift (fun taskVec h c hc => ⟨Loop.mapError_eq_ok.mp h, hc⟩) fun c hc => hc ▸ hstart) fun taskVec => ?_
    refine Failing.Meets.bind (Q := fun ids c => store.listSession session = .ok ids ∧
        r.embedder.embed task = .ok taskVec ∧ c = before)
      (.lift (fun ids h c hc => ⟨Loop.mapError_eq_ok.mp h, hc⟩) fun c hc => hc.2 ▸ hstart) fun ids => ?_
    split
    · rename_i hempty
      rw [List.isEmpty_iff] at hempty
      refine .pure fun c hc => ⟨hc.2.2 ▸ hstart, ?_⟩
      have hanswer : Answered r store session task limit c.memory (rank taskVec limit (scoredVecs c.memory [])) :=
        .scored htask hc.2.1 (hempty ▸ hc.1) fun _ id hid => by cases hid
      exact (rank_nil taskVec limit) ▸ hanswer
    · by_cases hready : store.listSession session = .ok ids ∧ r.embedder.embed task = .ok taskVec
      · obtain ⟨hids, hembed⟩ := hready
        have hlooked : r.lookedUp store before.memory session task =
            ids.filter fun id => (before.memory.lookup id).isNone := by
          rw [lookedUp, if_neg htask, hembed, hids]
        refine Failing.Meets.bind (Q := fun c' c => c' = before ∧ c = before)
          (.get fun c hc => ⟨hc.2.2, hc.2.2⟩) fun c => ?_
        by_cases hc : c = before
        · obtain rfl := hc
          rw [← hlooked]
          have hfill := fill_meets faults hshared hserves hits
          refine Failing.Meets.bind (hfill.conseq (fun c' hc => hc.2 ▸ hstart) fun _ _ h => h) fun _ => ?_
          refine Failing.Meets.bind (Q := fun after c' => after = c' ∧
            Filling r own store (r.lookedUp store c.memory session task) c c' ∧ (r.embedder.OneEach →
              ∀ id ∈ r.lookedUp store c.memory session task, (c'.memory.lookup id).isSome ∨ Textless store id))
            (.get fun c' hc => ⟨rfl, hc⟩) fun after => ?_
          refine .pure fun c' hc' => ⟨hc'.2.1, ?_⟩
          obtain ⟨rfl, hfilling, hall⟩ := hc'
          refine .scored htask hembed hids fun hone id hid => ?_
          by_cases hold : (c.memory.lookup id).isSome
          · exact .inl (hfilling.keeps id hold)
          · rw [Bool.not_eq_true, Option.isSome_eq_false_iff] at hold
            exact hall hone id (hlooked ▸ List.mem_filter.mpr ⟨hid, hold⟩)
        · intro c' hc'
          exact absurd hc'.1 hc
      · intro c hc
        exact absurd ⟨hc.1, hc.2.1⟩ hready

/-! ### One vector for each text -/

end LinearAnnRetriever

/-- A store whose blocks have these texts: a listed block is stored, and a hash stands for one text. -/
structure HasTexts (store : BlockStore) (texts : BlockId → Option String) : Prop where
  get : ∀ {id b}, store.get id = .ok (some b) → textOf b = texts id
  listed : ∀ {s ids}, store.listSession s = .ok ids → ∀ id ∈ ids, store.get id ≠ .ok none
  hash : ∀ {i j a b}, store.get i = .ok (some a) → store.get j = .ok (some b) → a.hash = b.hash → textOf a = textOf b

/-- An embedder that gives each text its vector, where it answers. -/
structure Embedder.Computes (e : Embedder) (f : String → List Float32) : Prop where
  embed : ∀ {t v}, e.embed t = .ok v → v = f t
  embedBatch : ∀ {ts vs}, e.embedBatch ts = .ok vs → vs = ts.map f

/-- The vector of the block's text. -/
def OfText (f : String → List Float32) (texts : BlockId → Option String) (id : BlockId) (v : List Float32) : Prop :=
  (texts id).map f = some v

variable {f : String → List Float32} {texts : BlockId → Option String}

theorem HasTexts.sharedByHash (h : HasTexts store texts) : SharedByHash store (OfText f texts) := by
  intro i j a b ha hb hhash v hv
  have htext : texts i = texts j := by rw [← h.get ha, ← h.get hb, h.hash ha hb hhash]
  rw [OfText, ← htext]
  exact hv

theorem Embedder.Computes.oneEach {e : Embedder} (h : e.Computes f) : e.OneEach := by
  intro ts vs hvs
  rw [h.embedBatch hvs, List.length_map]

theorem Embedder.Computes.serves {e : Embedder} (h : e.Computes f) (htexts : HasTexts store texts) :
    e.Serves store (OfText f texts) := by
  intro ts vs hvs x hx id b hb htext
  rw [h.embedBatch hvs, ← List.map_prod_left_eq_zip] at hx
  obtain ⟨t, -, rfl⟩ := List.mem_map.mp hx
  rw [OfText, ← htexts.get hb, htext]
  rfl

namespace LinearAnnRetriever
variable {r : LinearAnnRetriever} {faults : CacheFaults} {memory : Memory} {session : SessionId} {task : String} {limit : Nat}

/-- Every text of the session, embedded. -/
def ownVecs (f : String → List Float32) (texts : BlockId → Option String) (ids : List BlockId) :
    List (BlockId × List Float32) :=
  ids.filterMap fun id => (texts id).map fun t => (id, f t)

/-- The candidates that the embedder's vectors of the session's texts give. -/
def ownAnswer (f : String → List Float32) (texts : BlockId → Option String) (store : BlockStore) (session : SessionId)
    (task : String) (limit : Nat) : List RetrievalCandidate :=
  if task.isEmpty then []
  else
    match store.listSession session with
    | .ok ids => rank (f task) limit (ownVecs f texts ids)
    | .error _ => []

theorem scoredVecs_eq (hown : OwnMemory (OfText f texts) memory)
    (hall : ∀ id ∈ ids, (memory.lookup id).isSome ∨ texts id = none) : scoredVecs memory ids = ownVecs f texts ids := by
  refine List.filterMap_congr fun id hid => ?_
  cases hlookup : memory.lookup id with
  | some v =>
    obtain ⟨t, ht, rfl⟩ := Option.map_eq_some_iff.mp (hown id v hlookup)
    rw [ht]
    rfl
  | none =>
    have hnone : texts id = none := (hall id hid).resolve_left (by simp [hlookup])
    rw [hnone]
    rfl

/-- An answer that embeds the task has listed the session. -/
theorem Answered.listed {cands : List RetrievalCandidate} (h : Answered r store session task limit memory cands)
    (htask : ¬task.isEmpty) : ∃ ids, store.listSession session = .ok ids := by
  cases h with
  | blank hblank => exact absurd hblank htask
  | scored _ _ hids _ => exact ⟨_, hids⟩

/-- From a right memory a call answers with the vectors of the session's texts. -/
theorem Answered.eq_own {cands : List RetrievalCandidate} (h : Answered r store session task limit memory cands)
    (htexts : HasTexts store texts) (hcomputes : r.embedder.Computes f) (hown : OwnMemory (OfText f texts) memory) :
    cands = ownAnswer f texts store session task limit := by
  cases h with
  | blank htask => exact (if_pos htask).symm
  | scored htask hembed hids hall =>
    rw [ownAnswer, if_neg htask, hids, hcomputes.embed hembed]
    refine congrArg (rank _ limit) (scoredVecs_eq hown fun id hid => ?_)
    refine (hall hcomputes.oneEach id hid).imp (fun h => h) fun htextless => ?_
    obtain ⟨found, hfound, htext⟩ := htextless
    cases found with
    | none => exact absurd hfound (htexts.listed hids id hid)
    | some b => rw [← htexts.get hfound, htext b rfl]

/-! ### A retriever without caches -/

/-- The embedder that always answers. -/
def plainEmbedder (name : String) (f : String → List Float32) : Embedder :=
  ⟨name, fun t => .ok (f t), fun ts => .ok (ts.map f)⟩

theorem plainEmbedder_computes : (plainEmbedder name f).Computes f :=
  ⟨fun h => (Except.ok.inj h).symm, fun h => (Except.ok.inj h).symm⟩

/-- A store that answers every read. -/
structure Answers (store : BlockStore) : Prop where
  get : ∀ id, ∃ b, store.get id = .ok b
  listSession : ∀ session, ∃ ids, store.listSession session = .ok ids

/-- There is no persistent cache. -/
def Uncached (c : Caches) : Prop := c.persistent = none

theorem fill_total (hanswers : Answers store) :
    Failing.Meets Uncached ((mk (plainEmbedder name f)).fill faults store ids) (fun _ _ => True) fun _ => False := by
  have hload : Failing.Meets Uncached (ids.foldlM ((mk (plainEmbedder name f)).loadBlock faults store) [])
      (fun _ => Uncached) fun _ => False := by
    refine .foldlM (I := fun _ _ => Uncached) fun id rest toEmbed _ => ?_
    obtain ⟨found, hfound⟩ := hanswers.get id
    refine Failing.Meets.bind (Q := fun found' c => found' = found ∧ Uncached c)
      (.lift_ok (a := found) (by rw [hfound]; rfl) fun c hc => ⟨rfl, hc⟩) fun found' => ?_
    cases found' with
    | none => exact .pure fun c hc => hc.2
    | some b =>
      refine Failing.Meets.bind (Q := fun _ => Uncached) ?_ fun v => ?_
      · refine Failing.Meets.bind (Q := fun c' c => Uncached c' ∧ Uncached c)
          (.get fun c hc => ⟨hc.2, hc.2⟩) fun c => ?_
        cases hp : c.persistent with
        | none => exact .pure fun c' hc => hc.2
        | some cache =>
          intro c' hc
          cases hp.symm.trans hc.1
      · cases v with
        | some v => exact .bind (Q := fun _ => Uncached) (.modify fun c hc => hc) fun _ => .pure fun c hc => hc
        | none =>
          dsimp only
          split
          · exact .pure fun c hc => hc
          · exact .pure fun c hc => hc
  unfold fill
  refine hload.bind fun toEmbed => ?_
  split
  · exact .pure fun _ _ => trivial
  · refine Failing.Meets.bind (Q := fun _ => Uncached) (.lift_ok rfl fun c hc => hc) fun vecs => ?_
    refine (Failing.Meets.foldlM (I := fun _ _ => Uncached) fun x rest _ _ => ?_).conseq (fun c hc => hc)
      fun _ _ _ => trivial
    refine Failing.Meets.bind (Q := fun _ => Uncached) ?_ fun _ => .modify fun c hc => hc
    refine Failing.Meets.bind (Q := fun c' c => Uncached c' ∧ Uncached c)
      (.get fun c hc => ⟨hc, hc⟩) fun c => ?_
    cases hp : c.persistent with
    | none => exact .pure fun c' hc => hc.2
    | some cache =>
      intro c' hc
      cases hp.symm.trans hc.1

/-- Without caches, every text of the session is embedded afresh. -/
theorem retrieve_fresh (htexts : HasTexts store texts) (hanswers : Answers store) :
    (Failing.exec ((mk (plainEmbedder name f)).retrieve faults store session task limit) ⟨[], none⟩).1 =
      .ok (ownAnswer f texts store session task limit) := by
  have hcomputes : (plainEmbedder name f).Computes f := plainEmbedder_computes
  have hmeets := retrieve_meets (mk (plainEmbedder name f)) faults ⟨[], none⟩ session task limit htexts.sharedByHash
    (hcomputes.serves htexts) (fun id v h => by cases h) fun cache h => by cases h
  have htotal : Failing.Meets Uncached ((mk (plainEmbedder name f)).retrieve faults store session task limit)
      (fun _ _ => True) fun _ => False := by
    unfold retrieve
    split
    · exact .pure fun _ _ => trivial
    · obtain ⟨ids, hids⟩ := hanswers.listSession session
      refine Failing.Meets.bind (Q := fun _ => Uncached) (.lift_ok rfl fun c hc => hc) fun taskVec => ?_
      refine Failing.Meets.bind (Q := fun _ => Uncached)
        (.lift_ok (a := ids) (by rw [hids]; rfl) fun c hc => hc) fun ids => ?_
      split
      · exact .pure fun _ _ => trivial
      · refine Failing.Meets.bind (Q := fun _ => Uncached) (.get fun c hc => hc) fun before => ?_
        exact (fill_total hanswers).bind fun _ => .bind (Q := fun _ _ => True) (.get fun _ _ => trivial) fun _ =>
          .pure fun _ _ => trivial
  have hend := htotal ⟨[], none⟩ rfl
  have hanswer := hmeets ⟨[], none⟩ rfl
  cases hexec : Failing.exec ((mk (plainEmbedder name f)).retrieve faults store session task limit) ⟨[], none⟩ with
  | mk result after =>
    rw [hexec] at hend hanswer
    cases result with
    | ok cands => rw [hanswer.2.eq_own htexts hcomputes hanswer.1.memory]
    | error e => exact hend.elim

end LinearAnnRetriever
end Llm386
