import Mathlib
import Llm386.Lib.BigEndian

/-! # Identifiers and primitive newtypes

The newtypes of `llm386-core/src/ids.rs`: fixed-width integers with their bound as a field, so that a value
out of range cannot be built, and their big-endian bytes, which are what the stores write. -/

namespace Llm386

/-- A byte string, `Vec<u8>` or `&[u8]`. -/
abbrev Bytes := List UInt8

/-! ### 128-bit identifiers -/

/-- `u128`. -/
structure U128 where
  val : Nat
  isLt : val < 2 ^ 128
deriving DecidableEq

namespace U128

instance (n : Nat) : OfNat U128 n := ⟨⟨n % 2 ^ 128, Nat.mod_lt _ (by positivity)⟩⟩

theorem val_injective : Function.Injective U128.val := by
  rintro ⟨a, _⟩ ⟨b, _⟩ h
  cases h
  rfl

instance : LinearOrder U128 := LinearOrder.lift' U128.val val_injective

/-- `u128::to_be_bytes`. -/
def toBeBytes (x : U128) : Bytes := BigEndian.encode 16 x.val

/-- `u128::from_be_bytes` on a 16-byte slice. -/
def fromBeBytes (bs : Bytes) (h : bs.length = 16) : U128 :=
  ⟨BigEndian.decode bs, by simpa [h] using BigEndian.decode_lt bs⟩

@[simp] theorem length_toBeBytes (x : U128) : x.toBeBytes.length = 16 := BigEndian.length_encode ..

@[simp] theorem fromBeBytes_toBeBytes (x : U128) (h : x.toBeBytes.length = 16) :
    fromBeBytes x.toBeBytes h = x :=
  val_injective (BigEndian.decode_encode x.isLt)

@[simp] theorem toBeBytes_fromBeBytes {bs : Bytes} (h : bs.length = 16) : (fromBeBytes bs h).toBeBytes = bs :=
  BigEndian.encode_decode h

theorem toBeBytes_inj {x y : U128} : x.toBeBytes = y.toBeBytes ↔ x = y :=
  ⟨fun h => val_injective (BigEndian.encode_inj x.isLt y.isLt h), fun h => h ▸ rfl⟩

theorem le_iff {x y : U128} : x ≤ y ↔ x.val ≤ y.val := Iff.rfl

theorem lt_iff {x y : U128} : x < y ↔ x.val < y.val := Iff.rfl

end U128

/-- Time-ordered 128-bit identifier of a context block. -/
structure BlockId where
  raw : U128
deriving DecidableEq

theorem BlockId.raw_injective : Function.Injective BlockId.raw := by
  rintro ⟨a⟩ ⟨b⟩ h
  cases h
  rfl

instance : LinearOrder BlockId := LinearOrder.lift' BlockId.raw BlockId.raw_injective

instance : Std.LawfulEqOrd BlockId := ⟨compare_eq_iff_eq.mp⟩

/-- Milliseconds in the high bits of an id, `BlockId::timestamp_ms`. -/
def BlockId.timestampMs (id : BlockId) : Nat := id.raw.val / 2 ^ 80 % 2 ^ 48

/-- An id as 32 lowercase hex digits. -/
def BlockId.display (id : BlockId) : String :=
  String.ofList ((List.range 32).map fun i => Nat.digitChar (id.raw.val / 16 ^ (31 - i) % 16))

/-- Identifier of a session, an isolated conversation or agent run. -/
structure SessionId where
  raw : U128
deriving DecidableEq

theorem SessionId.raw_injective : Function.Injective SessionId.raw := by
  rintro ⟨a⟩ ⟨b⟩ h
  cases h
  rfl

instance : LinearOrder SessionId := LinearOrder.lift' SessionId.raw SessionId.raw_injective

instance : Std.LawfulEqOrd SessionId := ⟨compare_eq_iff_eq.mp⟩

/-- Content hash of a block's bytes, `[u8; 32]`. The hash function itself (blake3) is a parameter. -/
structure ContentHash where
  bytes : Bytes
  width : bytes.length = 32
deriving DecidableEq

theorem ContentHash.bytes_inj {g h : ContentHash} : g.bytes = h.bytes ↔ g = h := by
  cases g
  cases h
  simp

/-! ### Counters -/

/-- Milliseconds since the Unix epoch, `u64`. -/
structure Timestamp where
  val : Nat
  isLt : val < 2 ^ 64
deriving DecidableEq

/-- The epoch itself. -/
def Timestamp.zero : Timestamp := ⟨0, by decide⟩

/-- A number of tokens, `u32`. -/
structure TokenCount where
  val : Nat
  isLt : val < 2 ^ 32
deriving DecidableEq

namespace TokenCount

/-- `u32::MAX`. -/
def max : TokenCount := ⟨2 ^ 32 - 1, by decide⟩

def zero : TokenCount := ⟨0, by decide⟩

/-- The count `n`, or `u32::MAX` where `n` does not fit. -/
def saturate (n : Nat) : TokenCount := ⟨min n (2 ^ 32 - 1), by omega⟩

/-- `u32::saturating_add`. -/
def saturatingAdd (a b : TokenCount) : TokenCount := saturate (a.val + b.val)

/-- `u32::saturating_sub`. -/
def saturatingSub (a b : TokenCount) : TokenCount := ⟨a.val - b.val, Nat.lt_of_le_of_lt (Nat.sub_le ..) a.isLt⟩

instance : LE TokenCount := ⟨fun a b => a.val ≤ b.val⟩
instance : LT TokenCount := ⟨fun a b => a.val < b.val⟩
instance (a b : TokenCount) : Decidable (a ≤ b) := inferInstanceAs (Decidable (a.val ≤ b.val))
instance (a b : TokenCount) : Decidable (a < b) := inferInstanceAs (Decidable (a.val < b.val))

theorem le_iff {a b : TokenCount} : a ≤ b ↔ a.val ≤ b.val := Iff.rfl

theorem lt_iff {a b : TokenCount} : a < b ↔ a.val < b.val := Iff.rfl

@[simp] theorem val_zero : zero.val = 0 := rfl

theorem val_saturatingAdd (a b : TokenCount) : (a.saturatingAdd b).val = min (a.val + b.val) (2 ^ 32 - 1) := rfl

@[simp] theorem val_saturatingSub (a b : TokenCount) : (a.saturatingSub b).val = a.val - b.val := rfl

/-- Below the largest `u32`, a saturating sum within a bound is the exact sum. -/
theorem saturatingAdd_le_iff {a b n : TokenCount} (hn : n < max) :
    a.saturatingAdd b ≤ n ↔ a.val + b.val ≤ n.val := by
  simp only [lt_iff, le_iff, val_saturatingAdd, max] at hn ⊢
  omega

theorem val_saturatingAdd_of_le {a b n : TokenCount} (hn : n < max) (h : a.saturatingAdd b ≤ n) :
    (a.saturatingAdd b).val = a.val + b.val := by
  have hle := (saturatingAdd_le_iff hn).mp h
  have hlt := n.isLt
  rw [val_saturatingAdd]
  omega

end TokenCount

end Llm386
