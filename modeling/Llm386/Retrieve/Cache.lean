import Llm386.Retrieve.Embedding

/-! # The embedding cache as a map

`EmbeddingCache` of `llm386-retrieve-ann/src/cache.rs`, on the bits of its components: `f32::to_le_bytes` and
`f32::from_le_bytes` move bits, a NaN's payload among them, and `Float32` has one NaN only. What is stored under a
name and a hash is read back as it was, and the codec accepts its own strings and no other. -/

namespace Llm386
namespace EmbeddingCache

/-! ### The codec, on bits -/

/-- `u32::to_le_bytes`. -/
def bitsToLeBytes (x : UInt32) : Bytes := (BigEndian.encode 4 x.toNat).reverse

/-- `u32::from_le_bytes`. -/
def bitsFromLeBytes (bytes : Bytes) : UInt32 := UInt32.ofNat (BigEndian.decode bytes.reverse)

/-- `encode_vec`. -/
def encodeBits (v : List UInt32) : Bytes :=
  (BigEndian.encode 4 (min v.length (2 ^ 32 - 1))).reverse ++ v.flatMap bitsToLeBytes

/-- `chunks_exact(4)`. -/
def bitComponents : Nat → Bytes → List UInt32
  | 0, _ => []
  | n + 1, bytes => bitsFromLeBytes (bytes.take 4) :: bitComponents n (bytes.drop 4)

/-- `decode_vec`. -/
def decodeBits (bytes : Bytes) : Except EmbeddingCacheError (List UInt32) :=
  if bytes.length < 4 then .error (.decode "header < 4 bytes")
  else
    let dim := BigEndian.decode (bytes.take 4).reverse
    let expected := 4 + dim * 4
    if bytes.length ≠ expected then
      .error (.decode ("payload " ++ toString bytes.length ++ " bytes, expected " ++ toString expected))
    else .ok (bitComponents dim (bytes.drop 4))

theorem encodeVec_eq_bits (v : List Float32) : encodeVec v = encodeBits (v.map (·.toBits)) := by
  rw [encodeVec, encodeBits, List.length_map, List.flatMap_map]
  rfl

theorem decodeComponents_eq_bits (n : Nat) (bytes : Bytes) :
    decodeComponents n bytes = (bitComponents n bytes).map f32FromBits := by
  induction n generalizing bytes with
  | zero => rfl
  | succ n ih =>
    rw [decodeComponents, bitComponents, List.map_cons, ih]
    rfl

/-- The vectors of floats are those of their bits. -/
theorem decodeVec_eq_bits (bytes : Bytes) : decodeVec bytes = List.map f32FromBits <$> decodeBits bytes := by
  unfold decodeVec decodeBits
  by_cases hheader : bytes.length < 4
  · rw [if_pos hheader, if_pos hheader]
    rfl
  · rw [if_neg hheader, if_neg hheader]
    dsimp only
    split
    · rfl
    · rw [decodeComponents_eq_bits]
      rfl

/-! ### What the codec accepts -/

@[simp] theorem length_bitsToLeBytes (x : UInt32) : (bitsToLeBytes x).length = 4 := by simp [bitsToLeBytes]

@[simp] theorem bitsFromLeBytes_toLeBytes (x : UInt32) : bitsFromLeBytes (bitsToLeBytes x) = x := by
  have hlt : x.toNat < 256 ^ 4 := x.toNat_lt
  rw [bitsFromLeBytes, bitsToLeBytes, List.reverse_reverse, BigEndian.decode_encode hlt, UInt32.ofNat_toNat]

theorem bitsToLeBytes_fromLeBytes {bytes : Bytes} (h : bytes.length = 4) :
    bitsToLeBytes (bitsFromLeBytes bytes) = bytes := by
  have hlt : BigEndian.decode bytes.reverse < 2 ^ 32 := by
    have hdecode := BigEndian.decode_lt bytes.reverse
    rw [List.length_reverse, h] at hdecode
    exact hdecode
  rw [bitsToLeBytes, bitsFromLeBytes, UInt32.toNat_ofNat_of_lt' hlt,
    BigEndian.encode_decode (by rw [List.length_reverse, h]), List.reverse_reverse]

@[simp] theorem length_bitComponents (n : Nat) (bytes : Bytes) : (bitComponents n bytes).length = n := by
  induction n generalizing bytes with
  | zero => rfl
  | succ n ih => rw [bitComponents, List.length_cons, ih]

theorem bitComponents_flatMap (v : List UInt32) : bitComponents v.length (v.flatMap bitsToLeBytes) = v := by
  induction v with
  | nil => rfl
  | cons x v ih =>
    have hlen := length_bitsToLeBytes x
    rw [List.length_cons, List.flatMap_cons, bitComponents, List.take_left' hlen, List.drop_left' hlen, ih,
      bitsFromLeBytes_toLeBytes]

theorem flatMap_bitComponents {n : Nat} {bytes : Bytes} (h : bytes.length = n * 4) :
    (bitComponents n bytes).flatMap bitsToLeBytes = bytes := by
  induction n generalizing bytes with
  | zero =>
    have hnil : bytes = [] := List.eq_nil_of_length_eq_zero (by omega)
    rw [hnil]
    rfl
  | succ n ih =>
    have htake : (bytes.take 4).length = 4 := by
      rw [List.length_take]
      omega
    have hdrop : (bytes.drop 4).length = n * 4 := by
      rw [List.length_drop]
      omega
    rw [bitComponents, List.flatMap_cons, bitsToLeBytes_fromLeBytes htake, ih hdrop, List.take_append_drop]

theorem length_bits (v : List UInt32) : (v.flatMap bitsToLeBytes).length = v.length * 4 := by
  induction v with
  | nil => rfl
  | cons x v ih =>
    rw [List.flatMap_cons, List.length_append, ih, length_bitsToLeBytes, List.length_cons]
    omega

theorem encodeBits_eq {v : List UInt32} (h : v.length < 2 ^ 32) :
    encodeBits v = (BigEndian.encode 4 v.length).reverse ++ v.flatMap bitsToLeBytes := by
  have hmin : min v.length (2 ^ 32 - 1) = v.length := Nat.min_eq_left (Nat.le_pred_of_lt h)
  rw [encodeBits, hmin]

theorem decodeBits_encodeBits {v : List UInt32} (h : v.length < 2 ^ 32) : decodeBits (encodeBits v) = .ok v := by
  have hfits : v.length < 256 ^ 4 := by norm_num at h ⊢; exact h
  have hheader : BigEndian.decode ((encodeBits v).take 4).reverse = v.length := by
    rw [encodeBits_eq h, List.take_left' (by simp), List.reverse_reverse, BigEndian.decode_encode hfits]
  have hbody : (encodeBits v).drop 4 = v.flatMap bitsToLeBytes := by
    rw [encodeBits_eq h, List.drop_left' (by simp)]
  have hlen : (encodeBits v).length = 4 + v.length * 4 := by
    rw [encodeBits_eq h, List.length_append, length_bits, List.length_reverse, BigEndian.length_encode]
  unfold decodeBits
  rw [if_neg (by omega), hheader]
  dsimp only
  rw [if_neg (not_not_intro hlen), hbody, bitComponents_flatMap]

/-- A string that is read as a vector is what the vector is stored as. -/
theorem encodeBits_of_decodeBits {bytes : Bytes} {v : List UInt32} (h : decodeBits bytes = .ok v) :
    v.length < 2 ^ 32 ∧ encodeBits v = bytes := by
  unfold decodeBits at h
  split at h
  · cases h
  next hheader =>
    dsimp only at h
    split at h
    · cases h
    next hlen =>
      rw [not_not] at hlen
      obtain rfl := Except.ok.inj h
      have htake : (bytes.take 4).reverse.length = 4 := by
        rw [List.length_reverse, List.length_take]
        omega
      have hdrop : (bytes.drop 4).length = BigEndian.decode (bytes.take 4).reverse * 4 := by
        rw [List.length_drop]
        omega
      have hdim : BigEndian.decode (bytes.take 4).reverse < 2 ^ 32 := by
        have hdecode := BigEndian.decode_lt (bytes.take 4).reverse
        rw [htake] at hdecode
        exact hdecode
      refine ⟨by rwa [length_bitComponents], ?_⟩
      rw [encodeBits_eq (by rwa [length_bitComponents]), length_bitComponents, BigEndian.encode_decode htake,
        List.reverse_reverse, flatMap_bitComponents hdrop, List.take_append_drop]

theorem decodeBits_eq_ok {bytes : Bytes} {v : List UInt32} :
    decodeBits bytes = .ok v ↔ v.length < 2 ^ 32 ∧ encodeBits v = bytes := by
  constructor
  · exact encodeBits_of_decodeBits
  · rintro ⟨hlen, rfl⟩
    exact decodeBits_encodeBits hlen

/-! ### Keys -/

/-- The byte before the name tells where it ends. -/
theorem makeKey_inj {embedder embedder' : String} {hash hash' : ContentHash}
    (hname : (asBytes embedder).length ≤ 255) (hname' : (asBytes embedder').length ≤ 255)
    (h : makeKey embedder hash = makeKey embedder' hash') : embedder = embedder' ∧ hash = hash' := by
  unfold makeKey at h
  rw [Nat.min_eq_left hname, Nat.min_eq_left hname'] at h
  obtain ⟨hlen, htail⟩ := List.cons.inj h
  have hlen : (asBytes embedder).length = (asBytes embedder').length := by
    have hnat := congrArg UInt8.toNat hlen
    rwa [UInt8.toNat_ofNat_of_lt' (Nat.lt_succ_of_le hname),
      UInt8.toNat_ofNat_of_lt' (Nat.lt_succ_of_le hname')] at hnat
  obtain ⟨hbytes, hhash⟩ := List.append_inj htail hlen
  have hstr := congrArg (fun bytes : Bytes => String.fromUTF8? ⟨bytes.toArray⟩) hbytes
  simp only [fromUTF8?_asBytes] at hstr
  exact ⟨Option.some.inj hstr, ContentHash.bytes_inj.mp hhash⟩

/-! ### Runs of puts -/

/-- `EmbeddingCache::get`. -/
def getBits (cache : EmbeddingCache) (embedder : String) (hash : ContentHash) :
    Except EmbeddingCacheError (Option (List UInt32)) :=
  match cache.db[makeKey embedder hash]? with
  | none => .ok none
  | some raw => some <$> decodeBits raw

/-- `EmbeddingCache::put`. -/
def putBits (cache : EmbeddingCache) (embedder : String) (hash : ContentHash) (v : List UInt32) : EmbeddingCache :=
  ⟨cache.db.insert (makeKey embedder hash) (encodeBits v)⟩

theorem put_eq_bits (cache : EmbeddingCache) (embedder : String) (hash : ContentHash) (v : List Float32) :
    cache.put embedder hash v = cache.putBits embedder hash (v.map (·.toBits)) := by
  rw [put, putBits, encodeVec_eq_bits]

theorem get_eq_bits (cache : EmbeddingCache) (embedder : String) (hash : ContentHash) :
    cache.get embedder hash = Option.map (List.map f32FromBits) <$> cache.getBits embedder hash := by
  unfold get getBits
  cases cache.db[makeKey embedder hash]? with
  | none => rfl
  | some raw =>
    simp only [decodeVec_eq_bits]
    cases decodeBits raw <;> rfl

/-- A put. -/
structure Put where
  embedder : String
  hash : ContentHash
  vector : List UInt32

/-- The name's length fits its byte and the vector's its header. -/
structure Put.Fits (op : Put) : Prop where
  name : (asBytes op.embedder).length ≤ 255
  vector : op.vector.length < 2 ^ 32

/-- The put is for that name and hash. -/
def Put.isFor (embedder : String) (hash : ContentHash) (op : Put) : Bool :=
  op.embedder == embedder && op.hash == hash

def putAll (cache : EmbeddingCache) (ops : List Put) : EmbeddingCache :=
  ops.foldl (fun cache op => cache.putBits op.embedder op.hash op.vector) cache

/-- One put changes what is read under its own name and hash, and nothing else. -/
theorem getBits_putBits (cache : EmbeddingCache) {op : Put} (hop : op.Fits) {embedder : String}
    (hname : (asBytes embedder).length ≤ 255) (hash : ContentHash) :
    (cache.putBits op.embedder op.hash op.vector).getBits embedder hash =
      if op.isFor embedder hash then .ok (some op.vector) else cache.getBits embedder hash := by
  have hstored : (cache.putBits op.embedder op.hash op.vector).db[makeKey embedder hash]? =
      if makeKey op.embedder op.hash = makeKey embedder hash then some (encodeBits op.vector)
      else cache.db[makeKey embedder hash]? := KeyTable.getElem?_insert_eq _
  unfold getBits
  rw [hstored]
  by_cases hkey : makeKey op.embedder op.hash = makeKey embedder hash
  · obtain ⟨rfl, rfl⟩ := makeKey_inj hop.name hname hkey
    simp only [if_true, Put.isFor, beq_self_eq_true, Bool.and_self, decodeBits_encodeBits hop.vector]
    rfl
  · have hother : ¬op.isFor embedder hash = true := by
      intro hfor
      obtain ⟨hembedder, hhash⟩ := (Bool.and_eq_true _ _).mp hfor
      rw [eq_of_beq hembedder, eq_of_beq hhash] at hkey
      exact hkey rfl
    rw [if_neg hkey, if_neg hother]

/-- After any puts, what is read is the last vector put for the name and hash, and decoding accepts the stored
strings only. -/
theorem cache_exact {ops : List Put} (hops : ∀ op ∈ ops, op.Fits) :
    (∀ embedder hash, (asBytes embedder).length ≤ 255 →
      (putAll ⟨∅⟩ ops).getBits embedder hash =
        .ok ((ops.reverse.find? (Put.isFor embedder hash)).map (·.vector))) ∧
    ∀ bytes v, decodeBits bytes = .ok v ↔ v.length < 2 ^ 32 ∧ encodeBits v = bytes := by
  refine ⟨fun embedder hash hname => ?_, fun bytes v => decodeBits_eq_ok⟩
  induction ops using List.reverseRecOn with
  | nil => simp [putAll, getBits]
  | append_singleton ops op ih =>
    have hstep : putAll ⟨∅⟩ (ops ++ [op]) = (putAll ⟨∅⟩ ops).putBits op.embedder op.hash op.vector := by
      rw [putAll, List.foldl_append]
      rfl
    rw [hstep, getBits_putBits _ (hops op (by simp)) hname, ih fun o ho => hops o (by simp [ho]), List.reverse_append,
      List.reverse_singleton, List.singleton_append, List.find?_cons]
    cases op.isFor embedder hash <;> rfl

/-- A signaling NaN comes back with its payload, and the next embedder's vector does not touch it. -/
theorem cache_exact_sample :
    (putAll ⟨∅⟩ [⟨"a", sampleHash [], [0x7F800001]⟩, ⟨"ab", sampleHash [], []⟩]).getBits "a" (sampleHash []) =
      .ok (some [0x7F800001]) := by
  have hops : ∀ op ∈ [⟨"a", sampleHash [], [0x7F800001]⟩, ⟨"ab", sampleHash [], []⟩], Put.Fits op := by
    intro op hop
    simp only [List.mem_cons, List.not_mem_nil, or_false] at hop
    rcases hop with rfl | rfl
    · exact ⟨by decide, by decide⟩
    · exact ⟨by decide, by decide⟩
  exact (cache_exact hops).1 "a" (sampleHash []) (by decide)

end EmbeddingCache
end Llm386
