import Llm386.Core.Block
import Llm386.Core.Float
import Llm386.Core.Text
import Llm386.Lib.KeyTable

/-! # Embeddings and their cache

`Embedder` of `llm386-core/src/embedder.rs`, `EmbeddingCache` of `llm386-retrieve-ann/src/cache.rs`, and the points
of `hnsw.rs`. -/

namespace Llm386

inductive EmbedderError
  | failed (message : String)

def EmbedderError.display : EmbedderError → String
  | .failed message => "embedder failed: " ++ message

structure Embedder where
  name : String
  embed : String → Except EmbedderError (List Float32)
  embedBatch : List String → Except EmbedderError (List (List Float32))

/-! ### The cache -/

inductive EmbeddingCacheError
  | decode (message : String)

def EmbeddingCacheError.display : EmbeddingCacheError → String
  | .decode message => "malformed cached vector: " ++ message

/-- `embedder || content hash` → vector. -/
structure EmbeddingCache where
  db : KeyTable Bytes

namespace EmbeddingCache

/-- The embedder's name after its length, then the hash. -/
def makeKey (embedder : String) (hash : ContentHash) : Bytes :=
  UInt8.ofNat (min (asBytes embedder).length 255) :: asBytes embedder ++ hash.bytes

/-- The dimension, then the components, little-endian. -/
def encodeVec (v : List Float32) : Bytes :=
  (BigEndian.encode 4 (min v.length (2 ^ 32 - 1))).reverse ++ v.flatMap f32ToLeBytes

/-- `chunks_exact(4)`. -/
def decodeComponents : Nat → Bytes → List Float32
  | 0, _ => []
  | n + 1, bytes => f32FromLeBytes (bytes.take 4) :: decodeComponents n (bytes.drop 4)

def decodeVec (bytes : Bytes) : Except EmbeddingCacheError (List Float32) :=
  if bytes.length < 4 then .error (.decode "header < 4 bytes")
  else
    let dim := BigEndian.decode (bytes.take 4).reverse
    let expected := 4 + dim * 4
    if bytes.length ≠ expected then
      .error (.decode ("payload " ++ toString bytes.length ++ " bytes, expected " ++ toString expected))
    else .ok (decodeComponents dim (bytes.drop 4))

def get (cache : EmbeddingCache) (embedder : String) (hash : ContentHash) :
    Except EmbeddingCacheError (Option (List Float32)) :=
  match cache.db[makeKey embedder hash]? with
  | none => .ok none
  | some raw => some <$> decodeVec raw

def put (cache : EmbeddingCache) (embedder : String) (hash : ContentHash) (v : List Float32) : EmbeddingCache :=
  ⟨cache.db.insert (makeKey embedder hash) (encodeVec v)⟩

theorem length_components (v : List Float32) : (v.flatMap f32ToLeBytes).length = v.length * 4 := by
  induction v with
  | nil => rfl
  | cons x v ih =>
    rw [List.flatMap_cons, List.length_append, ih, length_f32ToLeBytes, List.length_cons]
    omega

theorem decodeComponents_flatMap (v : List Float32) : decodeComponents v.length (v.flatMap f32ToLeBytes) = v := by
  induction v with
  | nil => rfl
  | cons x v ih =>
    have hlen := length_f32ToLeBytes x
    rw [List.length_cons, List.flatMap_cons, decodeComponents, List.take_left' hlen, List.drop_left' hlen, ih,
      f32FromLeBytes_toLeBytes]

theorem encodeVec_eq {v : List Float32} (h : v.length < 2 ^ 32) :
    encodeVec v = (BigEndian.encode 4 v.length).reverse ++ v.flatMap f32ToLeBytes := by
  have hmin : min v.length (2 ^ 32 - 1) = v.length := Nat.min_eq_left (Nat.le_pred_of_lt h)
  rw [encodeVec, hmin]

theorem take_encodeVec {v : List Float32} (h : v.length < 2 ^ 32) :
    BigEndian.decode ((encodeVec v).take 4).reverse = v.length := by
  have hfits : v.length < 256 ^ 4 := by norm_num at h ⊢; exact h
  rw [encodeVec_eq h, List.take_left' (by simp), List.reverse_reverse, BigEndian.decode_encode hfits]

theorem length_encodeVec {v : List Float32} (h : v.length < 2 ^ 32) : (encodeVec v).length = 4 + v.length * 4 := by
  rw [encodeVec_eq h, List.length_append, length_components, List.length_reverse, BigEndian.length_encode]

/-- A vector of fewer than `2 ^ 32` components is read back as it was stored. -/
theorem decodeVec_encodeVec {v : List Float32} (h : v.length < 2 ^ 32) : decodeVec (encodeVec v) = .ok v := by
  have hbody : (encodeVec v).drop 4 = v.flatMap f32ToLeBytes := by
    rw [encodeVec_eq h, List.drop_left' (by simp)]
  have hlen := length_encodeVec h
  unfold decodeVec
  rw [if_neg (by omega), take_encodeVec h]
  dsimp only
  rw [if_neg (not_not_intro hlen), hbody, decodeComponents_flatMap]

theorem get_put (cache : EmbeddingCache) (embedder : String) (hash : ContentHash) {v : List Float32}
    (h : v.length < 2 ^ 32) : (cache.put embedder hash v).get embedder hash = .ok (some v) := by
  have hstored : (cache.put embedder hash v).db[makeKey embedder hash]? = some (encodeVec v) :=
    Std.ExtTreeMap.getElem?_insert_self
  unfold get
  simp only [hstored, decodeVec_encodeVec h]
  rfl

end EmbeddingCache

/-! ### Points -/

/-- A unit-normalized vector. -/
structure Point where
  coords : List Float32

/-- `f32::EPSILON` and `f32::MAX`. -/
def f32Epsilon : Float32 := f32FromBits 0x34000000

def f32Max : Float32 := f32FromBits 0x7F7FFFFF

def unitNormalize (v : List Float32) : List Float32 :=
  let norm := (v.foldl (fun norm x => norm + x * x) 0).sqrt
  if f32Epsilon < norm then v.map (· / norm) else v

/-- Euclidean distance, and the largest number between points of different dimension. -/
def Point.distance (a b : Point) : Float32 :=
  if a.coords.length ≠ b.coords.length then f32Max
  else ((a.coords.zip b.coords).foldl (fun sum (d : Float32 × Float32) => sum + (d.1 - d.2) * (d.1 - d.2)) 0).sqrt

end Llm386
