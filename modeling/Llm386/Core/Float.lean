import Mathlib
import Llm386.Lib.BigEndian
import Llm386.Lib.Ranking

/-! # Floating-point primitives

The operations on `f32` and `f64` that the pager uses and that Lean's `Float32` and `Float` do not name. -/

namespace Llm386
open Float.Model (UnpackedFloat)

/-- `f32::partial_cmp`. -/
def partialCmp (a b : Float32) : Option Ordering :=
  if a < b then some .lt else if b < a then some .gt else if a == b then some .eq else none

/-- `f32::clamp`: a NaN stays as it is. -/
def clamp (x lo hi : Float32) : Float32 :=
  if x < lo then lo else if hi < x then hi else x

/-- `f64::from(f32)`, which is exact. -/
def f64From (x : Float32) : Float :=
  match x.toModel.unpack with
  | .finite sign mantissa exponent _ =>
    ⟨.pack (UnpackedFloat.round .binary64 sign mantissa exponent)⟩
  | other => ⟨.pack other⟩

/-- Not a NaN. -/
def IsNumber (x : Float32) : Prop := x.toModel.unpack ≠ .notANumber

/-! ### Bits and bytes -/

open Float.Model.UnpackedFloat in
/-- `f32::from_bits`, with one NaN. -/
def f32FromBits (bits : UInt32) : Float32 :=
  if h : @unpackExponent .binary32 bits.toBitVec = -1#_ → @unpackMantissa .binary32 bits.toBitVec ≠ 0#_ →
      bits.toBitVec = packedNaN .binary32 then ⟨⟨bits, ⟨h⟩⟩⟩
  else Float32.ofBits bits

theorem f32FromBits_toBits (x : Float32) : f32FromBits x.toBits = x := by
  exact dif_pos x.toModel.valid.eq_packedNaN

/-- `f32::to_le_bytes`. -/
def f32ToLeBytes (x : Float32) : List UInt8 := (BigEndian.encode 4 x.toBits.toNat).reverse

/-- `f32::from_le_bytes`. -/
def f32FromLeBytes (bytes : List UInt8) : Float32 := f32FromBits (UInt32.ofNat (BigEndian.decode bytes.reverse))

@[simp] theorem length_f32ToLeBytes (x : Float32) : (f32ToLeBytes x).length = 4 := by simp [f32ToLeBytes]

@[simp] theorem f32FromLeBytes_toLeBytes (x : Float32) : f32FromLeBytes (f32ToLeBytes x) = x := by
  have hlt : x.toBits.toNat < 256 ^ 4 := x.toBits.toNat_lt
  rw [f32FromLeBytes, f32ToLeBytes, List.reverse_reverse, BigEndian.decode_encode hlt, UInt32.ofNat_toNat,
    f32FromBits_toBits]

/-! ### The order of numbers -/

/-- Where a number lies on the extended real line: its sign and size class, then its exponent and mantissa. -/
def unpackedKey : UnpackedFloat → ℤ ×ₗ ℤ ×ₗ ℤ
  | .infinity .negative => toLex (-2, toLex (0, 0))
  | .finite .negative m e _ => toLex (-1, toLex (-e, -m))
  | .zero _ | .notANumber => toLex (0, toLex (0, 0))
  | .finite .positive m e _ => toLex (1, toLex (e, m))
  | .infinity .positive => toLex (2, toLex (0, 0))

theorem compare_toLex {α β : Type} [LinearOrder α] [LinearOrder β] (a c : α) (b d : β) :
    compare (toLex (a, b)) (toLex (c, d)) = (compare a c).then (compare b d) := rfl

theorem compare_neg (a b : ℤ) : compare (-a) (-b) = (compare a b).swap := by
  rcases lt_trichotomy a b with h | rfl | h
  · rw [compare_lt_iff_lt.mpr h, compare_gt_iff_gt.mpr (neg_lt_neg h)]
    rfl
  · rw [compare_eq_iff_eq.mpr rfl, compare_eq_iff_eq.mpr rfl]
    rfl
  · rw [compare_gt_iff_gt.mpr h, compare_lt_iff_lt.mpr (neg_lt_neg h)]
    rfl

theorem compare_cast (m n : ℕ) : compare (m : ℤ) (n : ℤ) = compare m n := by
  rcases lt_trichotomy m n with h | rfl | h
  · rw [compare_lt_iff_lt.mpr h, compare_lt_iff_lt.mpr (Int.ofNat_lt.mpr h)]
  · rw [compare_eq_iff_eq.mpr rfl, compare_eq_iff_eq.mpr rfl]
  · rw [compare_gt_iff_gt.mpr h, compare_gt_iff_gt.mpr (Int.ofNat_lt.mpr h)]

theorem unpacked_compare {a b : UnpackedFloat} (ha : a ≠ .notANumber) (hb : b ≠ .notANumber) :
    a.compare b = some (compare (unpackedKey a) (unpackedKey b)) := by
  cases a with
  | notANumber => exact absurd rfl ha
  | infinity s =>
    cases b with
    | notANumber => exact absurd rfl hb
    | infinity t => cases s <;> cases t <;> rfl
    | zero t => cases s <;> rfl
    | finite t n f hn => cases s <;> cases t <;> rfl
  | zero s =>
    cases b with
    | notANumber => exact absurd rfl hb
    | infinity t => cases t <;> rfl
    | zero t => rfl
    | finite t n f hn => cases t <;> rfl
  | finite s m e hm =>
    cases b with
    | notANumber => exact absurd rfl hb
    | infinity t => cases s <;> cases t <;> rfl
    | zero t => cases s <;> rfl
    | finite t n f hn =>
      cases s <;> cases t
      · simp only [UnpackedFloat.compare, unpackedKey, compare_toLex, compare_neg, compare_cast, Ordering.swap_then]
        rfl
      · rfl
      · rfl
      · simp only [UnpackedFloat.compare, unpackedKey, compare_toLex, compare_cast]
        rfl

def orderKey (x : Float32) : ℤ ×ₗ ℤ ×ₗ ℤ := unpackedKey x.toModel.unpack

theorem lt_iff_orderKey {a b : Float32} (ha : IsNumber a) (hb : IsNumber b) : a < b ↔ orderKey a < orderKey b := by
  show decide (a.toModel.unpack.lt b.toModel.unpack = true) = true ↔ _
  rw [decide_eq_true_iff, UnpackedFloat.lt, unpacked_compare ha hb, ← compare_lt_iff_lt]
  simp [orderKey]

theorem le_iff_orderKey {a b : Float32} (ha : IsNumber a) (hb : IsNumber b) : a ≤ b ↔ orderKey a ≤ orderKey b := by
  show decide (a.toModel.unpack.le b.toModel.unpack = true) = true ↔ _
  rw [decide_eq_true_iff, UnpackedFloat.le, unpacked_compare ha hb, ← compare_le_iff_le]
  simp only [orderKey]
  cases compare (unpackedKey a.toModel.unpack) (unpackedKey b.toModel.unpack) <;> decide

/-- Numbers are ordered as they lie on the line; the two zeros are equal. -/
theorem partialCmp_eq {a b : Float32} (ha : IsNumber a) (hb : IsNumber b) :
    partialCmp a b = some (compare (orderKey a) (orderKey b)) := by
  have hlt := lt_iff_orderKey ha hb
  have hgt := lt_iff_orderKey hb ha
  have heq : (a == b) = true ↔ compare (orderKey a) (orderKey b) = .eq := by
    show a.toModel.unpack.beq b.toModel.unpack = true ↔ _
    rw [UnpackedFloat.beq, unpacked_compare ha hb]
    simp [orderKey]
  rw [compare_eq_iff_eq] at heq
  rcases lt_trichotomy (orderKey a) (orderKey b) with h | h | h
  · rw [compare_lt_iff_lt.mpr h, partialCmp, if_pos (hlt.mpr h)]
  · rw [compare_eq_iff_eq.mpr h, partialCmp, if_neg (fun hl => (hlt.mp hl).ne h), if_neg (fun hl => (hgt.mp hl).ne' h),
      if_pos (heq.mpr h)]
  · rw [compare_gt_iff_gt.mpr h, partialCmp, if_neg (fun hl => (hlt.mp hl).asymm h), if_pos (hgt.mpr h)]

/-! ### A NaN among the numbers -/

theorem isNumber_iff {x : Float32} : IsNumber x ↔ x.isNaN = false := by
  rw [IsNumber, Float32.isNaN, Float32.Model.isNaN]
  cases x.toModel.unpack <;> simp [UnpackedFloat.isNaN]

theorem partialCmp_eq_none {a b : Float32} (h : ¬IsNumber a ∨ ¬IsNumber b) : partialCmp a b = none := by
  have hcompare : a.toModel.unpack.compare b.toModel.unpack = none ∧
      b.toModel.unpack.compare a.toModel.unpack = none := by
    simp only [IsNumber, not_not] at h
    rcases h with h | h
    · rw [h]
      exact ⟨by cases b.toModel.unpack <;> rfl, by cases b.toModel.unpack <;> rfl⟩
    · rw [h]
      exact ⟨by cases a.toModel.unpack <;> rfl, by cases a.toModel.unpack <;> rfl⟩
  have hlt : ¬a < b := by
    show ¬decide (a.toModel.unpack.lt b.toModel.unpack = true) = true
    simp [UnpackedFloat.lt, hcompare]
  have hgt : ¬b < a := by
    show ¬decide (b.toModel.unpack.lt a.toModel.unpack = true) = true
    simp [UnpackedFloat.lt, hcompare]
  have heq : ¬(a == b) = true := by
    show ¬a.toModel.unpack.beq b.toModel.unpack = true
    simp [UnpackedFloat.beq, hcompare]
  rw [partialCmp, if_neg hlt, if_neg hgt, if_neg heq]

theorem not_lt_of_nan {a b : Float32} (h : ¬IsNumber a ∨ ¬IsNumber b) : ¬a < b := by
  intro hlt
  have hcmp := partialCmp_eq_none h
  rw [partialCmp, if_pos hlt] at hcmp
  cases hcmp

/-- The place of a number on the line; a NaN has none. -/
def rankKey (x : Float32) : Option (ℤ ×ₗ ℤ ×ₗ ℤ) := if x.isNaN then none else some (orderKey x)

theorem rankKey_eq_none {x : Float32} : rankKey x = none ↔ ¬IsNumber x := by
  rw [rankKey, isNumber_iff]
  cases x.isNaN <;> simp

theorem rankKey_of_number {x : Float32} (h : IsNumber x) : rankKey x = some (orderKey x) := by
  rw [rankKey, isNumber_iff.mp h]
  rfl

/-- With a NaN taken as equal to everything, numbers are compared by their places. -/
theorem partialCmp_getD (a b : Float32) : (partialCmp a b).getD .eq = Ranking.keyCmp (rankKey a) (rankKey b) := by
  by_cases ha : IsNumber a
  · by_cases hb : IsNumber b
    · rw [partialCmp_eq ha hb, rankKey_of_number ha, rankKey_of_number hb]
      rfl
    · rw [partialCmp_eq_none (Or.inr hb), rankKey_of_number ha, rankKey_eq_none.mpr hb]
      rfl
  · rw [partialCmp_eq_none (Or.inl ha), rankKey_eq_none.mpr ha]
    cases rankKey b <;> rfl

end Llm386
