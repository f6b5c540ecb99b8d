import Llm386.Core.Rounding
import Llm386.Pager.Retrievers

/-! # The scoring retrievers

The half-life mode of the recency retriever, the lexical and the BM25 retriever of
`llm386-pager/src/retrievers.rs`. Each collects its candidates in the order of `list_session`, sorts them by score
and cuts the list. -/

namespace Llm386

/-- What the retrievers and the pager use of the standard library: `f32::exp2`, which is a NaN at a NaN only, `f32::ln`,
`char::is_alphanumeric`, `str::to_lowercase` and the sort of the candidates. -/
structure Platform where
  exp2 : Float32 → Float32
  ln : Float32 → Float32
  isAlphanumeric : Char → Bool
  toLowercase : String → String
  sort : Sorting.SliceSort Candidate
  exp2_number : ∀ x, IsNumber x → IsNumber (exp2 x)

/-- The order in which one call iterates the term map of a document. -/
structure TermOrder where
  terms : BlockId → List (String × Nat) → List (String × Nat)
  terms_perm : ∀ id l, (terms id l).Perm l

/-- `f32::max`: of a NaN and a number, the number. -/
def f32MaxOf (a b : Float32) : Float32 := if a.isNaN then b else if a < b then b else a

/-- `usize as f32`; a count fits in 64 bits. -/
def usizeAsF32 (n : Nat) : Float32 := Float32.ofNat (min n (2 ^ 64 - 1))

/-- The stable sort by score, best first, and the cut. -/
def rankAndTruncate (limit : Nat) (cands : List RetrievalCandidate) : List RetrievalCandidate :=
  (cands.insertionSort fun a b => (partialCmp b.score a.score).getD .eq ≠ .gt).take limit

variable (p : Platform)

/-! ### Recency -/

/-- The score of one id by its age, linear or with a half-life in seconds. -/
def decayScore (halfLifeSecs : Option Float32) (minTs maxTs : Nat) (id : BlockId) : Float32 :=
  match halfLifeSecs with
  | some hSecs =>
    let ageMs := Float32.ofNat (maxTs - id.timestampMs)
    let halfLifeMs := f32MaxOf (hSecs * 1000) 1
    clamp (p.exp2 (-(ageMs / halfLifeMs))) 0 1
  | none => recencyScore minTs maxTs id

def recencyCandidates (halfLifeSecs : Option Float32) (store : BlockStore) (session : SessionId) :
    Except RetrievalError (List RetrievalCandidate) := do
  let ids ← (store.listSession session).mapError storeErr
  if ids.isEmpty then
    pure []
  else
    let minTs := ids.foldl (fun m id => min m id.timestampMs) (2 ^ 64 - 1)
    let maxTs := ids.foldl (fun m id => max m id.timestampMs) 0
    pure (ids.map fun id => { blockId := id, score := decayScore p halfLifeSecs minTs maxTs id })

/-- `RecencyRetriever` in either mode. -/
def decayRetriever (halfLifeSecs : Option Float32) (store : BlockStore) : Retriever := fun session _ limit => do
  let cands ← recencyCandidates p halfLifeSecs store session
  pure (rankAndTruncate limit cands)

/-! ### Words -/

/-- The lowercased runs of alphanumeric characters of at least `minWordLen` bytes. -/
def tokenize (minWordLen : Nat) (s : String) : List String :=
  let words := (s.toList.splitOnP fun c => !p.isAlphanumeric c).map String.ofList
  (words.filter fun w => minWordLen ≤ (asBytes w).length).map p.toLowercase

/-- The text of a stored block; `none` for a block that is gone or not UTF-8. -/
def blockText (store : BlockStore) (id : BlockId) : Except RetrievalError (Option String) := do
  let block ← (store.get id).mapError storeErr
  pure (block.bind fun block => String.fromUTF8? ⟨block.bytes.toArray⟩)

/-- The candidate of one block: the fraction of its words that the task has. -/
def lexicalCandidate (minWordLen : Nat) (store : BlockStore) (taskTokens : List String) (id : BlockId) :
    Except RetrievalError (Option RetrievalCandidate) := do
  match ← blockText store id with
  | none => pure none
  | some text =>
    let blockTokens := (tokenize p minWordLen text).dedup
    if blockTokens.isEmpty then
      pure none
    else
      let overlap := (taskTokens.filter (· ∈ blockTokens)).length
      if overlap = 0 then
        pure none
      else
        pure (some { blockId := id, score := clamp (usizeAsF32 overlap / usizeAsF32 blockTokens.length) 0 1 })

def lexicalCandidates (minWordLen : Nat) (store : BlockStore) (session : SessionId) (task : String) :
    Except RetrievalError (List RetrievalCandidate) := do
  let taskTokens := (tokenize p minWordLen task).dedup
  if taskTokens.isEmpty then
    pure []
  else
    let ids ← (store.listSession session).mapError storeErr
    let cands ← ids.mapM (lexicalCandidate p minWordLen store taskTokens)
    pure (cands.filterMap id)

def lexicalRetriever (minWordLen : Nat) (store : BlockStore) : Retriever := fun session task limit => do
  let cands ← lexicalCandidates p minWordLen store session task
  pure (rankAndTruncate limit cands)

/-! ### BM25 -/

/-- One document: its id, how often it has each query term it has, and its length in words. -/
structure Bm25Doc where
  id : BlockId
  tf : List (String × Nat)
  len : Nat

/-- The parameters of `Bm25Retriever`. -/
structure Bm25 where
  k1 : Float32
  b : Float32
  minWordLen : Nat

def bm25Doc (cfg : Bm25) (store : BlockStore) (query : List String) (id : BlockId) :
    Except RetrievalError (Option Bm25Doc) := do
  match ← blockText store id with
  | none => pure none
  | some text =>
    let toks := tokenize p cfg.minWordLen text
    if toks.isEmpty then
      pure none
    else
      let terms := (toks.filter (· ∈ query)).dedup
      pure (some { id, tf := terms.map fun t => (t, toks.count t), len := min toks.length (2 ^ 32 - 1) })

/-- The raw score of one document among `docs`. -/
def bm25Score (cfg : Bm25) (order : TermOrder) (docs : List Bm25Doc) (doc : Bm25Doc) : Float32 :=
  let n := usizeAsF32 docs.length
  let avgdl := docs.foldl (fun sum d => sum + Float32.ofNat (min d.len (2 ^ 16 - 1))) 0 / n
  (order.terms doc.id doc.tf).foldl (fun score (term, freq) =>
    let f := Float32.ofNat freq
    let df := Float32.ofNat (docs.filter fun d => term ∈ d.tf.map (·.1)).length
    let idf := p.ln ((n - df + 0.5) / (df + 0.5) + 1)
    let denom := f + cfg.k1 * (1 - cfg.b + cfg.b * Float32.ofNat doc.len / avgdl)
    score + idf * (f * (cfg.k1 + 1)) / f32MaxOf denom (Float32.ofBits 0x34000000)) 0

/-- The candidates from the raw scores: the positive ones, divided by the greatest. -/
def normalizeScores (raws : List (BlockId × Float32)) : List RetrievalCandidate :=
  let maxRaw := raws.foldl (fun m x => if m < x.2 then x.2 else m) 0
  let scored := raws.filter fun x => 0 < x.2
  if 0 < maxRaw then scored.map fun x => { blockId := x.1, score := clamp (x.2 / maxRaw) 0 1 } else []

def bm25Candidates (cfg : Bm25) (order : TermOrder) (store : BlockStore) (session : SessionId) (task : String) :
    Except RetrievalError (List RetrievalCandidate) := do
  let query := (tokenize p cfg.minWordLen task).dedup
  if query.isEmpty then
    pure []
  else
    let ids ← (store.listSession session).mapError storeErr
    let docs ← ids.mapM (bm25Doc p cfg store query)
    let docs := docs.filterMap id
    pure (normalizeScores (docs.map fun doc => (doc.id, bm25Score p cfg order docs doc)))

def bm25Retriever (cfg : Bm25) (order : TermOrder) (store : BlockStore) : Retriever := fun session task limit => do
  let cands ← bm25Candidates p cfg order store session task
  pure (rankAndTruncate limit cands)

/-! ### The two linear retrievers -/

end Llm386
