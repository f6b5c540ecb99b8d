import Llm386.Core.Float

/-! # Rounding

Packing keeps a number a number, and a natural number of at most 32 bits becomes a finite `f32`. So a quotient by a
token count is a number when its dividend is. -/

namespace Llm386
open Float.Model (UnpackedFloat Format totalExponent)
open Float.Model.UnpackedFloat (Sign Accuracy ExtendedMantissa packComponents roundWithAccuracy shiftToTargetExponent
  shiftToExponent)

/-! ### Packing -/

theorem unpack_components (s : Sign) (e : BitVec 8) (m : BitVec 23) :
    UnpackedFloat.unpack .binary32 (packComponents .binary32 s e m) = .notANumber ↔ e = -1#8 ∧ m ≠ 0#23 := by
  unfold UnpackedFloat.unpack
  simp only [UnpackedFloat.unpackMantissa_packComponents, UnpackedFloat.unpackExponent_packComponents]
  split_ifs <;> simp_all

/-- Packing makes no NaN. -/
theorem unpack_pack_isNaN (u : UnpackedFloat) :
    (Float32.Model.pack u).unpack = .notANumber ↔ u = .notANumber := by
  show UnpackedFloat.unpack .binary32 (UnpackedFloat.pack .binary32 u) = _ ↔ _
  cases u with
  | notANumber =>
    simp only [UnpackedFloat.pack, UnpackedFloat.packedNaN, unpack_components, iff_true]
    decide
  | infinity s =>
    simp [UnpackedFloat.pack, UnpackedFloat.packedInfinity, unpack_components]
  | zero s =>
    simp [UnpackedFloat.pack, UnpackedFloat.packedZero, unpack_components]
  | finite s m e h =>
    unfold UnpackedFloat.pack
    simp only [reduceCtorEq, iff_false]
    split_ifs with hover hnormal
    · simp [UnpackedFloat.packedInfinity, unpack_components]
    · rw [unpack_components]
      rintro ⟨hbits, -⟩
      have heq := congrArg BitVec.toNat hbits
      rw [BitVec.toNat_ofNat] at heq
      simp at heq hover
      omega
    · rw [unpack_components]
      rintro ⟨hbits, -⟩
      exact absurd hbits (by decide)

/-! ### Rounding a mantissa -/

theorem shift_mantissa (em : ExtendedMantissa) (k : Nat) : (em >>> k).mantissa = em.mantissa / 2 ^ k := by
  induction k with
  | zero => exact (Nat.div_one _).symm
  | succ k ih =>
    show (em >>> k).mantissa / 2 = _
    rw [ih, Nat.div_div_eq_div_mul, pow_succ]

theorem roundedMantissa_bounds (em : ExtendedMantissa) :
    em.mantissa ≤ em.roundedMantissa ∧ em.roundedMantissa ≤ em.mantissa + 1 := by
  obtain ⟨m, r, s⟩ := em
  cases r <;> cases s <;> simp [ExtendedMantissa.roundedMantissa, ExtendedMantissa.accuracy, Accuracy.roundToNearestEven]
  omega

theorem ofMantissaAndAccuracy_mantissa (m : Nat) (a : Accuracy) :
    (ExtendedMantissa.ofMantissaAndAccuracy m a).mantissa = m := by
  rcases a with _ | (_ | _ | _) <;> rfl

theorem targetExponent_eq (m : Nat) (e : Int) (h : -149 ≤ (m.log2 : Int) - 23 + e) :
    Format.binary32.targetExponent (totalExponent m e) = m.log2 - 23 + e := by
  simp only [Format.targetExponent, totalExponent, Format.mantissaBits, Format.minExponent]
  norm_num
  omega

/-- A mantissa of at least 24 bits is rounded to 24 bits, with one more for the exponent where it carries. -/
theorem roundWithAccuracy_finite (s : Sign) (m : Nat) (e : Int) (a : Accuracy) (hm : 23 ≤ m.log2)
    (he : -149 ≤ (m.log2 : Int) - 23 + e) : ∃ M E h, roundWithAccuracy .binary32 s m e a = .finite s M E h ∧
      M.log2 = 23 ∧ (E = m.log2 - 23 + e ∨ E = m.log2 - 22 + e) := by
  obtain ⟨k, hk⟩ := Nat.exists_eq_add_of_le hm
  have hm0 : m ≠ 0 := by
    rintro rfl
    simp at hm
  set em := (ExtendedMantissa.ofMantissaAndAccuracy m a) >>> k with hem
  have hfirst : shiftToTargetExponent .binary32 m e a = (em, m.log2 - 23 + e) := by
    have hshift : ((m.log2 : Int) - 23 + e - e).toNat = k := by omega
    rw [shiftToTargetExponent, targetExponent_eq m e he, shiftToExponent, hshift]
    refine Prod.ext rfl ?_
    show e + (k : Int) = _
    omega
  have hq : 2 ^ 23 ≤ em.mantissa ∧ em.mantissa < 2 ^ 24 := by
    rw [hem, shift_mantissa, ofMantissaAndAccuracy_mantissa]
    have hlow := Nat.log2_self_le hm0
    have hhigh := Nat.lt_log2_self (n := m)
    rw [hk] at hlow hhigh
    rw [Nat.le_div_iff_mul_le (by positivity), Nat.div_lt_iff_lt_mul (by positivity), ← pow_add, ← pow_add]
    exact ⟨hlow, by rwa [show 24 + k = 23 + k + 1 by omega]⟩
  have hr := roundedMantissa_bounds em
  set r := em.roundedMantissa with hrdef
  -- The rounded mantissa may carry into one more bit.
  rcases Nat.lt_or_ge r (2 ^ 24) with hlt | hge
  · have hlog : r.log2 = 23 := (Nat.log2_eq_iff (by omega)).mpr ⟨by omega, by omega⟩
    have hsecond : shiftToTargetExponent .binary32 r (m.log2 - 23 + e) .exact =
        (ExtendedMantissa.ofMantissaAndAccuracy r .exact, m.log2 - 23 + e) := by
      rw [shiftToTargetExponent, targetExponent_eq r _ (by omega), shiftToExponent, hlog]
      have hshift : (((23 : Nat) : Int) - 23 + ((m.log2 : Int) - 23 + e) - ((m.log2 : Int) - 23 + e)).toNat = 0 := by omega
      rw [hshift]
      refine Prod.ext rfl ?_
      simp
    refine ⟨r, m.log2 - 23 + e, by omega, ?_, hlog, Or.inl rfl⟩
    rw [roundWithAccuracy, hfirst]
    simp only [← hrdef, hsecond, ofMantissaAndAccuracy_mantissa]
    exact dif_neg (by omega)
  · obtain hr24 : r = 2 ^ 24 := by omega
    have hlog : r.log2 = 24 := by rw [hr24, Nat.log2_two_pow]
    have hsecond : shiftToTargetExponent .binary32 r (m.log2 - 23 + e) .exact =
        ((ExtendedMantissa.ofMantissaAndAccuracy r .exact) >>> 1, m.log2 - 22 + e) := by
      rw [shiftToTargetExponent, targetExponent_eq r _ (by omega), shiftToExponent, hlog]
      have hshift : (((24 : Nat) : Int) - 23 + ((m.log2 : Int) - 23 + e) - ((m.log2 : Int) - 23 + e)).toNat = 1 := by omega
      rw [hshift]
      refine Prod.ext rfl ?_
      show (m.log2 : Int) - 23 + e + ((1 : Nat) : Int) = _
      omega
    have hmant : ((ExtendedMantissa.ofMantissaAndAccuracy r .exact) >>> 1).mantissa = 2 ^ 23 := by
      rw [shift_mantissa, ofMantissaAndAccuracy_mantissa, hr24]
      rfl
    refine ⟨2 ^ 23, m.log2 - 22 + e, by decide, ?_, Nat.log2_two_pow, Or.inr rfl⟩
    rw [roundWithAccuracy, hfirst]
    simp only [← hrdef, hsecond, hmant]
    rfl

theorem log2_implicit (m : BitVec 23) : (1#1 ++ m).toNat.log2 = 23 := by
  have hlt := m.isLt
  rw [BitVec.toNat_append, Nat.log2_eq_iff]
  · have hsum : (1#1).toNat <<< 23 ||| m.toNat = 2 ^ 23 + m.toNat := by
      rw [← Nat.shiftLeft_add_eq_or_of_lt hlt]
      rfl
    rw [hsum]
    omega
  · simp

/-- A normal number that fits survives packing, up to its sign. -/
theorem unpack_pack_normal (s : Sign) (M : Nat) (E : Int) (h : 0 < M) (hM : M.log2 = 23) (hE : -149 ≤ E) (hE' : E ≤ 104) :
    ∃ s' M' h', (Float32.Model.pack (.finite s M E h)).unpack = .finite s' M' E h' ∧ M'.log2 = 23 := by
  obtain ⟨b, hb⟩ : ∃ b : Nat, E + 150 = b := ⟨(E + 150).toNat, by omega⟩
  have hbits : (BitVec.ofNat 8 b).toNat = b := by
    rw [BitVec.toNat_ofNat, Nat.mod_eq_of_lt (by omega)]
  have hinf : BitVec.ofNat 8 b ≠ -1#8 := by
    intro heq
    have hlast := congrArg BitVec.toNat heq
    rw [hbits, show (-1#8).toNat = 255 from rfl] at hlast
    omega
  have hzero : BitVec.ofNat 8 b ≠ 0#8 := by
    intro heq
    have hfirst := congrArg BitVec.toNat heq
    rw [hbits, show (0#8).toNat = 0 from rfl] at hfirst
    omega
  have hpack : UnpackedFloat.pack .binary32 (.finite s M E h) =
      packComponents .binary32 s (BitVec.ofNat 8 b) (BitVec.ofNat 23 M) := by
    have hbiased : (E + Format.binary32.exponentBias + Format.binary32.mantissaBitsWithoutImplicit).toNat = b := by
      show (E + (127 : Nat) + (23 : Nat)).toNat = b
      omega
    rw [UnpackedFloat.pack, hbiased, if_neg (by show ¬256 ≤ b + 1; omega), if_pos (by rw [hM]; rfl)]
  show ∃ s' M' h', UnpackedFloat.unpack .binary32 (UnpackedFloat.pack .binary32 (.finite s M E h)) = _ ∧ _
  rw [hpack]
  unfold UnpackedFloat.unpack
  simp only [UnpackedFloat.unpackMantissa_packComponents, UnpackedFloat.unpackExponent_packComponents, hinf, hzero,
    if_false, hbits]
  have hexp : (b : Int) - (Format.binary32.exponentBias + Format.binary32.mantissaBitsWithoutImplicit) = E := by
    show (b : Int) - ((127 : Nat) + (23 : Nat)) = E
    omega
  rw [hexp]
  have hlog := log2_implicit (BitVec.ofNat 23 M)
  have hpos : 0 < (1#1 ++ BitVec.ofNat 23 M).toNat := Nat.pos_of_ne_zero fun h0 => by
    rw [h0, Nat.log2_zero] at hlog
    cases hlog
  exact ⟨_, _, hpos, rfl, hlog⟩

/-- Rounding a mantissa of at least 24 bits to a number that fits. -/
theorem unpack_pack_round (s : Sign) (m : Nat) (e : Int) (a : Accuracy) (hm : 23 ≤ m.log2)
    (he : -149 ≤ (m.log2 : Int) - 23 + e) (he' : (m.log2 : Int) - 22 + e ≤ 104) : ∃ s' M E h,
      (Float32.Model.pack (roundWithAccuracy .binary32 s m e a)).unpack = .finite s' M E h ∧ M.log2 = 23 ∧
      (E = m.log2 - 23 + e ∨ E = m.log2 - 22 + e) := by
  obtain ⟨M, E, h, hround, hlog, hE⟩ := roundWithAccuracy_finite s m e a hm he
  obtain ⟨s', M', h', hunpack, hlog'⟩ := unpack_pack_normal s M E h hlog (by omega) (by omega)
  exact ⟨s', M', E, h', hround ▸ hunpack, hlog', hE⟩

/-! ### Natural numbers -/

theorem log2_shiftLeft {n : Nat} (h : n ≠ 0) (k : Nat) : (n <<< k).log2 = n.log2 + k := by
  rw [Nat.shiftLeft_eq, Nat.log2_eq_iff (by positivity)]
  have hlow := Nat.log2_self_le h
  have hhigh := Nat.lt_log2_self (n := n)
  constructor
  · rw [pow_add]
    exact Nat.mul_le_mul_right _ hlow
  · rw [show n.log2 + k + 1 = n.log2 + 1 + k by omega, pow_add]
    exact Nat.mul_lt_mul_of_pos_right hhigh (by positivity)

/-- A natural number with its mantissa widened to 24 bits. -/
theorem ofNat_widened {n : Nat} (h : 0 < n) (hn : n < 2 ^ 24) : UnpackedFloat.ofNat .binary32 n =
    roundWithAccuracy .binary32 .positive (n <<< (23 - n.log2)) ((n.log2 : Int) - 23) .exact := by
  have hlog : n.log2 < 24 := (Nat.log2_lt (by omega)).mpr hn
  have hpos : compare (n : Int) 0 = .gt := compare_gt_iff_gt.mpr (by omega)
  have htarget := targetExponent_eq n 0 (by omega)
  have hshift : ((0 : Int) - ((n.log2 : Int) - 23 + 0)).toNat = 23 - n.log2 := by omega
  rw [UnpackedFloat.ofNat, UnpackedFloat.ofInt, UnpackedFloat.normalize, hpos]
  simp only [UnpackedFloat.round, Int.toNat_natCast, htarget, UnpackedFloat.decreaseExponent, hshift]
  congr 1
  omega

theorem unpack_one : ∃ h, (Float32.ofBits 0x3F800000).toModel.unpack = .finite .positive (2 ^ 23) (-23) h :=
  ⟨by decide, rfl⟩

/-- A positive number of at most 64 bits is a finite `f32`, and not zero. -/
theorem ofNat_finite {n : Nat} (h : 0 < n) (hn : n < 2 ^ 64) :
    ∃ s M E h, (Float32.ofNat n).toModel.unpack = .finite s M E h := by
  have hlog64 : n.log2 < 64 := (Nat.log2_lt (by omega)).mpr hn
  by_cases hsmall : n < 2 ^ 23
  · have heq : Float32.ofNat n = n.toUInt64.toFloat32 * Float32.ofBits 0x3F800000 := by
      show Float32.ofScientific n false 0 = _
      rw [Float32.ofScientific, dif_pos ⟨hsmall, Nat.zero_le _⟩]
      rfl
    have hnat : n.toUInt64.toNat = n := by
      simp
      omega
    have hlog := (Nat.log2_lt (by omega)).mpr hsmall
    have hwide : (n <<< (23 - n.log2)).log2 = 23 := by
      rw [log2_shiftLeft (by omega)]
      omega
    obtain ⟨s₀, M₀, E₀, h₀, hconv, hlog₀, hE₀⟩ := unpack_pack_round .positive (n <<< (23 - n.log2))
      ((n.log2 : Int) - 23) .exact (by omega) (by omega) (by omega)
    rw [← ofNat_widened h (by omega)] at hconv
    have hleft : (n.toUInt64.toFloat32).toModel.unpack = .finite s₀ M₀ E₀ h₀ := by
      show (Float32.Model.pack (UnpackedFloat.ofNat .binary32 n.toUInt64.toNat)).unpack = _
      rw [hnat, hconv]
    obtain ⟨h₁, hone⟩ := unpack_one
    have hprod : (M₀ * 2 ^ 23).log2 = 46 := by
      rw [← Nat.shiftLeft_eq, log2_shiftLeft (by omega), hlog₀]
    obtain ⟨s, M, E, h', hmul, -, -⟩ := unpack_pack_round (s₀ * .positive) (M₀ * 2 ^ 23) (E₀ + -23) .exact (by omega)
      (by omega) (by omega)
    refine ⟨s, M, E, h', ?_⟩
    rw [heq, ← hmul]
    show (Float32.Model.pack (UnpackedFloat.mul .binary32 (n.toUInt64.toFloat32).toModel.unpack
      (Float32.ofBits 0x3F800000).toModel.unpack)).unpack = _
    rw [hleft, hone]
    rfl
  · have heq : Float32.ofNat n = Float32.ofModel (Float32.Model.ofScientific n 0) := by
      show Float32.ofScientific n false 0 = _
      rw [Float32.ofScientific, dif_neg (by omega)]
      rfl
    have hprod : ((n <<< 24) * 10 ^ 0).log2 = n.log2 + 24 := by
      rw [pow_zero, Nat.mul_one, log2_shiftLeft (by omega)]
    obtain ⟨s, M, E, h', hmul, -, -⟩ := unpack_pack_round (.positive * .positive) ((n <<< 24) * 10 ^ 0) (-24 + 0) .exact
      (by omega) (by omega) (by omega)
    refine ⟨s, M, E, h', ?_⟩
    rw [heq, ← hmul]
    show (Float32.Model.pack (UnpackedFloat.ofScientific .binary32 n 0)).unpack = _
    have hlow : ¬(0 : Int) < -((2 ^ Format.binary32.exponentBits : Int) + n.log2) := by
      have hpow : (0 : Int) ≤ 2 ^ Format.binary32.exponentBits := by positivity
      omega
    have hhigh : ¬(0 : Int) > 2 ^ Format.binary32.exponentBits := by
      have hpow : (0 : Int) ≤ 2 ^ Format.binary32.exponentBits := by positivity
      omega
    rw [UnpackedFloat.ofScientific, dif_neg (by omega), if_neg hhigh, if_neg hlow, if_pos (by omega)]
    rfl

/-- A score divided by a token count is a number exactly when the score is. -/
theorem isNumber_div_ofNat {x : Float32} {n : Nat} (h : 0 < n) (hn : n < 2 ^ 32) :
    IsNumber (x / Float32.ofNat n) ↔ IsNumber x := by
  obtain ⟨s, M, E, hM, hdiv⟩ := ofNat_finite h (by omega)
  have hpack : IsNumber (x / Float32.ofNat n) ↔
      UnpackedFloat.div .binary32 x.toModel.unpack (.finite s M E hM) ≠ .notANumber := by
    rw [← hdiv]
    exact not_congr (unpack_pack_isNaN _)
  rw [hpack, IsNumber]
  cases x.toModel.unpack with
  | notANumber => rfl
  | infinity t => simp [UnpackedFloat.div]
  | zero t => simp [UnpackedFloat.div]
  | finite t m e hm =>
    simp only [UnpackedFloat.div, roundWithAccuracy]
    split_ifs <;> simp

/-! ### Quotients -/

/-- Neither a NaN nor infinite. -/
def IsFinite (x : Float32) : Prop := IsNumber x ∧ ∀ s, x.toModel.unpack ≠ .infinity s

/-- A quotient is a number where the dividend is finite and the divisor a number other than zero. -/
theorem isNumber_div {x y : Float32} (hx : IsFinite x) (hy : IsNumber y) (hzero : ∀ s, y.toModel.unpack ≠ .zero s) :
    IsNumber (x / y) := by
  have hpack : IsNumber (x / y) ↔ UnpackedFloat.div .binary32 x.toModel.unpack y.toModel.unpack ≠ .notANumber :=
    not_congr (unpack_pack_isNaN _)
  rw [hpack]
  obtain ⟨hnumber, hfinite⟩ := hx
  rw [IsNumber] at hnumber hy
  cases hxu : x.toModel.unpack with
  | notANumber => exact absurd hxu hnumber
  | infinity s => exact absurd hxu (hfinite s)
  | zero s =>
    cases hyu : y.toModel.unpack with
    | notANumber => exact absurd hyu hy
    | zero t => exact absurd hyu (hzero t)
    | infinity t => simp [UnpackedFloat.div]
    | finite t m e hm => simp [UnpackedFloat.div]
  | finite s m e hm =>
    cases hyu : y.toModel.unpack with
    | notANumber => exact absurd hyu hy
    | zero t => exact absurd hyu (hzero t)
    | infinity t => simp [UnpackedFloat.div]
    | finite t m' e' hm' =>
      simp only [UnpackedFloat.div, roundWithAccuracy]
      split_ifs <;> simp

theorem isFinite_ofNat {n : Nat} (h : n < 2 ^ 64) : IsFinite (Float32.ofNat n) := by
  rcases Nat.eq_zero_or_pos n with rfl | hpos
  · have hzero : (Float32.ofNat 0).toModel.unpack = .zero .positive := rfl
    exact ⟨by simp [IsNumber, hzero], by simp [hzero]⟩
  · obtain ⟨s, M, E, hM, hfinite⟩ := ofNat_finite hpos h
    exact ⟨by simp [IsNumber, hfinite], by simp [hfinite]⟩

theorem isNumber_neg {x : Float32} (h : IsNumber x) : IsNumber (-x) := by
  have hpack : IsNumber (-x) ↔ x.toModel.unpack.neg ≠ .notANumber := not_congr (unpack_pack_isNaN _)
  rw [hpack]
  rw [IsNumber] at h
  cases hx : x.toModel.unpack with
  | notANumber => exact absurd hx h
  | infinity s => simp [UnpackedFloat.neg]
  | zero s => simp [UnpackedFloat.neg]
  | finite s m e hm => simp [UnpackedFloat.neg]

theorem isNumber_clamp {x lo hi : Float32} (h : IsNumber x) (hlo : IsNumber lo) (hhi : IsNumber hi) :
    IsNumber (clamp x lo hi) := by
  unfold clamp
  split_ifs
  · exact hlo
  · exact hhi
  · exact h

/-- What is not below a positive number is a number other than zero, or a NaN. -/
theorem ne_zero_of_not_lt {x y : Float32} (hx : IsNumber x) (hy : IsNumber y) (hpos : orderKey 0 < orderKey y)
    (h : ¬x < y) : ∀ s, x.toModel.unpack ≠ .zero s := by
  intro s hs
  rw [lt_iff_orderKey hx hy, not_lt] at h
  have hzero : orderKey x = orderKey 0 := by
    have heval : orderKey 0 = toLex (0, toLex (0, 0)) := by decide +kernel
    rw [heval, orderKey, hs]
    rfl
  exact absurd (hzero ▸ h) hpos.not_ge

/-! ### The two zeros -/

/-- The same number, up to the sign of zero. -/
def SameValue (a b : Float32) : Prop :=
  a.toModel.unpack = b.toModel.unpack ∨ ∃ s t, a.toModel.unpack = .zero s ∧ b.toModel.unpack = .zero t

theorem SameValue.orderKey_eq {a b : Float32} (h : SameValue a b) : orderKey a = orderKey b := by
  rcases h with h | ⟨s, t, ha, hb⟩
  · rw [orderKey, orderKey, h]
  · rw [orderKey, orderKey, ha, hb]
    rfl

theorem sameValue_of_orderKey {a b : Float32} (ha : IsNumber a) (hb : IsNumber b) (h : orderKey a = orderKey b) :
    SameValue a b := by
  unfold IsNumber at ha hb
  unfold orderKey at h
  unfold SameValue
  generalize a.toModel.unpack = u at ha h ⊢
  generalize b.toModel.unpack = v at hb h ⊢
  cases u with
  | notANumber => exact absurd rfl ha
  | zero s =>
    cases v with
    | notANumber => exact absurd rfl hb
    | zero t => exact Or.inr ⟨s, t, rfl, rfl⟩
    | infinity t => cases t <;> simp [unpackedKey] at h
    | finite t n f hn => cases t <;> simp [unpackedKey] at h
  | infinity s =>
    cases v with
    | notANumber => exact absurd rfl hb
    | zero t => cases s <;> simp [unpackedKey] at h
    | infinity t => cases s <;> cases t <;> simp_all [unpackedKey]
    | finite t n f hn => cases s <;> cases t <;> simp [unpackedKey] at h
  | finite s m e hm =>
    cases v with
    | notANumber => exact absurd rfl hb
    | zero t => cases s <;> simp [unpackedKey] at h
    | infinity t => cases s <;> cases t <;> simp [unpackedKey] at h
    | finite t n f hn => cases s <;> cases t <;> simp_all [unpackedKey]

theorem unpack_pack_zero (s : Sign) : (Float32.Model.pack (.zero s)).unpack = .zero s := by
  cases s <;> rfl

/-- A sum does not depend on the sign of a zero, but for its own. -/
theorem SameValue.add {a b : Float32} (h : SameValue a b) (x : Float32) : SameValue (a + x) (b + x) := by
  have hsum : ∀ a : Float32, (a + x).toModel.unpack =
      (Float32.Model.pack (UnpackedFloat.add .binary32 a.toModel.unpack x.toModel.unpack)).unpack := fun _ => rfl
  unfold SameValue
  rw [hsum, hsum]
  rcases h with h | ⟨s, t, ha, hb⟩
  · exact Or.inl (by rw [h])
  · rw [ha, hb]
    cases x.toModel.unpack with
    | zero r =>
      have hzero : ∀ s, ∃ q, UnpackedFloat.add .binary32 (.zero s) (.zero r) = .zero q := by
        intro s
        rw [UnpackedFloat.add]
        split
        · exact ⟨_, rfl⟩
        · exact ⟨_, rfl⟩
      obtain ⟨q, hq⟩ := hzero s
      obtain ⟨q', hq'⟩ := hzero t
      rw [hq, hq']
      exact Or.inr ⟨q, q', unpack_pack_zero q, unpack_pack_zero q'⟩
    | notANumber | infinity | finite => exact Or.inl rfl

theorem SameValue.div_ofNat {a b : Float32} (h : SameValue a b) {n : Nat} (hpos : 0 < n) (hn : n < 2 ^ 32) :
    SameValue (a / Float32.ofNat n) (b / Float32.ofNat n) := by
  have hquot : ∀ a : Float32, (a / Float32.ofNat n).toModel.unpack =
      (Float32.Model.pack (UnpackedFloat.div .binary32 a.toModel.unpack (Float32.ofNat n).toModel.unpack)).unpack :=
    fun _ => rfl
  obtain ⟨s₀, M, E, hM, hdiv⟩ := ofNat_finite hpos (by omega)
  unfold SameValue
  rw [hquot, hquot, hdiv]
  rcases h with h | ⟨s, t, ha, hb⟩
  · exact Or.inl (by rw [h])
  · rw [ha, hb]
    exact Or.inr ⟨s / s₀, t / s₀, unpack_pack_zero _, unpack_pack_zero _⟩

end Llm386
