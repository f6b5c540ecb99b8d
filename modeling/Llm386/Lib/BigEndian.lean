import Mathlib

/-! # Fixed-width big-endian bytes

`encode w n` is the `w` bytes of `n`, most significant first; `decode` reads them back. Composite keys are
built by appending such encodings, so the facts here are the ones a key needs: the width, that a number
below `256 ^ w` and a string of `w` bytes determine each other, and that key order is the order of numbers. -/

namespace BigEndian

/-- The `w` low bytes of `n`, most significant first. -/
def encode : Nat → Nat → List UInt8
  | 0, _ => []
  | w + 1, n => UInt8.ofNat (n / 256 ^ w) :: encode w n

/-- The number whose bytes, most significant first, are given. -/
def decode : List UInt8 → Nat
  | [] => 0
  | b :: bs => b.toNat * 256 ^ bs.length + decode bs

@[simp] theorem length_encode (w n : Nat) : (encode w n).length = w := by
  induction w with
  | zero => rfl
  | succ w ih => simp [encode, ih]

theorem decode_lt (bs : List UInt8) : decode bs < 256 ^ bs.length := by
  induction bs with
  | nil => simp [decode]
  | cons b bs ih =>
    have hb : b.toNat + 1 ≤ 256 := b.toNat_lt
    have hmul : (b.toNat + 1) * 256 ^ bs.length ≤ 256 * 256 ^ bs.length := Nat.mul_le_mul_right _ hb
    simp only [decode, List.length_cons, Nat.pow_succ]
    rw [Nat.add_mul] at hmul
    omega

theorem decode_encode_mod (w n : Nat) : decode (encode w n) = n % 256 ^ w := by
  induction w with
  | zero => simp [encode, decode, Nat.mod_one]
  | succ w ih =>
    have hdigit : (UInt8.ofNat (n / 256 ^ w)).toNat = n / 256 ^ w % 256 := by simp
    rw [encode, decode, hdigit, length_encode, ih, Nat.pow_succ, Nat.mod_mul, Nat.mul_comm, Nat.add_comm]

theorem decode_encode {w n : Nat} (h : n < 256 ^ w) : decode (encode w n) = n := by
  rw [decode_encode_mod, Nat.mod_eq_of_lt h]

theorem encode_mod (w n : Nat) : encode w (n % 256 ^ w) = encode w n := by
  suffices digits : ∀ v ≤ w, encode v (n % 256 ^ w) = encode v n from digits w (Nat.le_refl w)
  intro v hv
  induction v with
  | zero => rfl
  | succ v ih =>
    rw [encode, encode, ih (by omega)]
    congr 1
    apply UInt8.toNat.inj
    obtain ⟨k, rfl⟩ : ∃ k, w = v + 1 + k := ⟨w - (v + 1), by omega⟩
    have hsplit : 256 ^ (v + 1 + k) = 256 ^ v * (256 * 256 ^ k) := by ring
    simp only [UInt8.toNat_ofNat']
    rw [hsplit, Nat.mod_mul_right_div_self, Nat.mod_mul_right_mod]

theorem encode_decode {w : Nat} {bs : List UInt8} (h : bs.length = w) : encode w (decode bs) = bs := by
  induction bs generalizing w with
  | nil =>
    subst h
    rfl
  | cons b bs ih =>
    subst h
    have hlt := decode_lt bs
    have hhead : (b.toNat * 256 ^ bs.length + decode bs) / 256 ^ bs.length = b.toNat := by
      rw [Nat.mul_comm, Nat.mul_add_div (by positivity), Nat.div_eq_of_lt hlt, Nat.add_zero]
    have htail : (b.toNat * 256 ^ bs.length + decode bs) % 256 ^ bs.length = decode bs := by
      rw [Nat.mul_comm, Nat.mul_add_mod, Nat.mod_eq_of_lt hlt]
    simp only [List.length_cons, decode, encode]
    rw [hhead, ← encode_mod, htail, ih rfl]
    simp

theorem encode_inj {w m n : Nat} (hm : m < 256 ^ w) (hn : n < 256 ^ w) (h : encode w m = encode w n) : m = n := by
  rw [← decode_encode hm, h, decode_encode hn]

/-- A shared prefix does not decide the order. -/
theorem compare_append_left (p a b : List UInt8) : compare (p ++ a) (p ++ b) = compare a b := by
  induction p with
  | nil => rfl
  | cons x p ih => simp [ih]

/-- Prefixes of one width are compared first. -/
theorem compare_append {p q : List UInt8} (hlen : p.length = q.length) (a b : List UInt8) :
    compare (p ++ a) (q ++ b) = (compare p q).then (compare a b) := by
  induction p generalizing q with
  | nil =>
    cases q with
    | nil => rfl
    | cons y q => cases hlen
  | cons x p ih =>
    cases q with
    | nil => cases hlen
    | cons y q =>
      rw [List.cons_append, List.cons_append, List.compare_cons_cons, List.compare_cons_cons,
        ih (by simpa using hlen), Ordering.then_assoc]

/-- Among strings of one width the lexicographic order is the order of the numbers. -/
theorem decode_lt_decode {a b : List UInt8} (hlen : a.length = b.length) (h : compare a b = .lt) : decode a < decode b := by
  induction a generalizing b with
  | nil =>
    cases b with
    | nil => cases h
    | cons y b => cases hlen
  | cons x a ih =>
    cases b with
    | nil => cases hlen
    | cons y b =>
      have hlen : a.length = b.length := by simpa using hlen
      rw [List.compare_cons_cons, Ordering.then_eq_lt] at h
      rw [decode, decode, hlen]
      rcases h with h | ⟨h, h'⟩
      · have hxy : x.toNat + 1 ≤ y.toNat := Std.compare_eq_lt.mp h
        have hmul : (x.toNat + 1) * 256 ^ b.length ≤ y.toNat * 256 ^ b.length := Nat.mul_le_mul_right _ hxy
        have hlt := hlen ▸ decode_lt a
        rw [Nat.add_mul] at hmul
        omega
      · have hxy : x = y := Std.LawfulEqCmp.eq_of_compare h
        have := ih hlen h'
        rw [hxy]
        omega

/-- Big-endian encodings of one width are ordered as their numbers. -/
theorem compare_encode {w m n : Nat} (hm : m < 256 ^ w) (hn : n < 256 ^ w) :
    compare (encode w m) (encode w n) = compare m n := by
  have hlen : (encode w m).length = (encode w n).length := by rw [length_encode, length_encode]
  cases hcmp : compare (encode w m) (encode w n) with
  | lt =>
    have hlt := decode_lt_decode hlen hcmp
    rw [decode_encode hm, decode_encode hn] at hlt
    exact (Nat.compare_eq_lt.mpr hlt).symm
  | eq =>
    have heq : m = n := encode_inj hm hn (Std.LawfulEqCmp.eq_of_compare hcmp)
    exact (Nat.compare_eq_eq.mpr heq).symm
  | gt =>
    have hlt := decode_lt_decode hlen.symm (Std.OrientedCmp.lt_of_gt hcmp)
    rw [decode_encode hm, decode_encode hn] at hlt
    exact (Nat.compare_eq_gt.mpr hlt).symm

end BigEndian
