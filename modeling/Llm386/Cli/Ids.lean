import Llm386.Core.Spelling

/-! # Ids on the command line

`parse_u128` of `llm386-cli/src/cli.rs` takes an id in decimal, in `0x`-prefixed hex or in bare 32-character hex,
and tells the three apart by prefix and length. -/

namespace Llm386
open Radix (value)

/-- `char::is_ascii_hexdigit`. -/
def isAsciiHexdigit (c : Char) : Bool := (hexDigit c).isSome

def parseU128 (s : String) : Except String U128 :=
  match s.toList with
  | '0' :: 'x' :: hex => (fromStrRadix 16 hex).mapError (·.display)
  | '0' :: 'X' :: hex => (fromStrRadix 16 hex).mapError (·.display)
  | cs =>
    if s.utf8ByteSize = 32 ∧ cs.all isAsciiHexdigit then (fromStrRadix 16 cs).mapError (·.display)
    else (fromStrRadix 10 cs).mapError (·.display)

/-- The decimal form of a number. -/
def decimalForm (n : U128) : String := String.ofList (Nat.toDigits 10 n.val)

/-- The `0x`-prefixed hexadecimal form of a number. -/
def prefixedForm (n : U128) : String := String.ofList ('0' :: 'x' :: Nat.toDigits 16 n.val)

/-- All three spellings of a number are read as it. -/
structure SpellingsAgree (n : U128) : Prop where
  decimal : parseU128 (decimalForm n) = .ok n
  prefixed : parseU128 (prefixedForm n) = .ok n
  padded : parseU128 (BlockId.display ⟨n⟩) = .ok n

/-! ### Which grammar reads a text -/

variable {cs : List Char} {n : U128}

theorem mapError_ok_iff {x : Except ParseIntError U128} : x.mapError (·.display) = .ok n ↔ x = .ok n := by
  cases x with
  | error e => simp [Except.mapError]
  | ok m => simp [Except.mapError]

/-- Digits have no prefix, so they are told apart by their length. -/
theorem parseU128_of_digits (hdigits : ∀ c ∈ cs, (hexDigit c).isSome) :
    parseU128 (.ofList cs) = .ok n ↔ fromStrRadix (if cs.length = 32 then 16 else 10) cs = .ok n := by
  have hsize : (String.ofList cs).utf8ByteSize = cs.length := by
    rw [String.utf8ByteSize_ofList, utf8Len_of_hexDigits hdigits]
  have hall : cs.all isAsciiHexdigit := List.all_eq_true.mpr hdigits
  have hx : (hexDigit 'x').isSome = false ∧ (hexDigit 'X').isSome = false := ⟨rfl, rfl⟩
  unfold parseU128
  rw [String.toList_ofList]
  split
  · exact absurd (hdigits 'x' (by simp)) (by simp [hx])
  · exact absurd (hdigits 'X' (by simp)) (by simp [hx])
  · rw [hsize]
    split_ifs with h₁ h₂ h₂
    · exact mapError_ok_iff
    · exact absurd h₁.1 h₂
    · exact absurd ⟨h₂, hall⟩ h₁
    · exact mapError_ok_iff

theorem fromStrRadix_toDigits {radix : Nat} (h : 1 < radix) (h16 : radix ≤ 16) (n : U128) :
    fromStrRadix radix (Nat.toDigits radix n.val) = .ok n := by
  obtain ⟨ds, hds, hne, hlt, hval⟩ := Radix.exists_toDigits h n.val
  refine (fromStrRadix_eq_ok (by omega)).mpr ⟨_, ds, ?_, Or.inl rfl, hds ▸ spells_digitChars hlt h16, hval⟩
  rw [hds]
  simpa using hne

theorem hexDigit_toDigits {radix : Nat} (h : 1 < radix) (h16 : radix ≤ 16) (m : Nat) :
    ∀ c ∈ Nat.toDigits radix m, (hexDigit c).isSome := by
  obtain ⟨ds, hds, -, hlt, -⟩ := Radix.exists_toDigits h m
  rw [hds]
  intro c hc
  obtain ⟨d, hd, rfl⟩ := List.mem_map.mp hc
  rw [hexDigit_digitChar ((hlt d hd).trans_le h16)]
  rfl

theorem prefixed_agrees (n : U128) : parseU128 (prefixedForm n) = .ok n := by
  unfold parseU128 prefixedForm
  rw [String.toList_ofList]
  exact mapError_ok_iff.mpr (fromStrRadix_toDigits (by omega) le_rfl n)

theorem padded_agrees (n : U128) : parseU128 (BlockId.display ⟨n⟩) = .ok n := by
  obtain ⟨hsize, hradix⟩ := BlockId.parse_eq_ok.mp (BlockId.parse_display ⟨n⟩)
  have hdigits : ∀ c ∈ (BlockId.display ⟨n⟩).toList, (hexDigit c).isSome := by
    intro c hc
    rw [BlockId.display, String.toList_ofList] at hc
    obtain ⟨i, -, rfl⟩ := List.mem_map.mp hc
    rw [hexDigit_digitChar (Nat.mod_lt _ (by omega))]
    rfl
  have hlen : (BlockId.display ⟨n⟩).toList.length = 32 := by
    rw [← utf8Len_of_hexDigits hdigits, ← utf8ByteSize_eq]
    exact hsize
  have hparse := (parseU128_of_digits (n := n) hdigits).mpr (by rw [if_pos hlen]; exact hradix)
  rwa [String.ofList_toList] at hparse

/-! ### The band -/

theorem length_toDigits_eq (m : Nat) : (Nat.toDigits 10 m).length = 32 ↔ 10 ^ 31 ≤ m ∧ m < 10 ^ 32 := by
  have hle := Nat.length_toDigits_le_iff (b := 10) (n := m) (k := 32) (by omega) (by omega)
  have hlt := Nat.length_toDigits_le_iff (b := 10) (n := m) (k := 31) (by omega) (by omega)
  rw [← hle, ← not_lt, ← hlt]
  omega

/-- 32 decimal digits are another number in hex. -/
theorem value_differs {ds : List Nat} (hlen : ds.length = 32) (hlow : 10 ^ 31 ≤ value 10 ds) (hlt : ∀ d ∈ ds, d < 10) :
    value 16 ds ≠ value 10 ds := by
  cases ds with
  | nil => simp at hlen
  | cons d ds =>
    have hrest : ds.length = 31 := by simpa using hlen
    have htail : value 10 ds < 10 ^ 31 := hrest ▸ Radix.value_lt (by omega) fun e he => hlt e (List.mem_cons_of_mem _ he)
    have hwhole : value 10 (d :: ds) < 10 ^ 32 := hlen ▸ Radix.value_lt (by omega) hlt
    have hpow : (10 : Nat) ^ 32 < 16 ^ 31 := by norm_num
    intro heq
    rw [Radix.value_cons, hrest] at hlow
    have hhex : value 16 (d :: ds) = d * 16 ^ 31 + value 16 ds := by rw [Radix.value_cons, hrest]
    rcases Nat.eq_zero_or_pos d with rfl | hpos
    · omega
    · have hbig : 16 ^ 31 ≤ d * 16 ^ 31 := Nat.le_mul_of_pos_left _ hpos
      omega

theorem decimal_agrees_iff (n : U128) :
    parseU128 (decimalForm n) = .ok n ↔ ¬(10 ^ 31 ≤ n.val ∧ n.val < 10 ^ 32) := by
  rw [decimalForm, parseU128_of_digits (hexDigit_toDigits (by omega) (by omega) n.val), ← length_toDigits_eq]
  split_ifs with hlen
  · refine iff_of_false (fun h => ?_) (not_not.mpr hlen)
    obtain ⟨ds, hds, -, hlt, hval⟩ := Radix.exists_toDigits (by omega : 1 < 10) n.val
    obtain ⟨rest, es, -, hcs, hspells, hval'⟩ := (fromStrRadix_eq_ok (by omega)).mp h
    have hdigits := hexDigit_toDigits (by omega : 1 < 10) (by omega) n.val
    rcases hcs with hcs | hcs
    · rw [← hcs, hds] at hspells
      have hsame := (spells_digitChars (fun d hd => (hlt d hd).trans (by omega)) le_rfl).symm.trans hspells
      obtain rfl : ds = es := List.map_injective_iff.mpr (Option.some_injective Nat) hsame
      have hlow := ((length_toDigits_eq n.val).mp hlen).1
      rw [hds, List.length_map] at hlen
      exact value_differs hlen (hval.symm ▸ hlow) hlt (hval'.trans hval.symm)
    · have hplus := hdigits '+' (hcs ▸ List.mem_cons_self)
      cases hplus
  · exact iff_of_true (fromStrRadix_toDigits (by omega) (by omega) n) hlen

/-- Every spelling of a number is read as it, unless its decimal form has 32 digits. -/
theorem spellingsAgree_iff (n : U128) : SpellingsAgree n ↔ ¬(10 ^ 31 ≤ n.val ∧ n.val < 10 ^ 32) :=
  ⟨fun h => (decimal_agrees_iff n).mp h.decimal,
    fun h => ⟨(decimal_agrees_iff n).mpr h, prefixed_agrees n, padded_agrees n⟩⟩

/-- The decimal form of 10^31 is read as 16^31. -/
theorem decimal_read_as_hex : parseU128 "10000000000000000000000000000000" = .ok ⟨16 ^ 31, by norm_num⟩ ∧
    ¬SpellingsAgree ⟨10 ^ 31, by norm_num⟩ := by
  have hread : parseU128 "10000000000000000000000000000000" = .ok ⟨16 ^ 31, by norm_num⟩ := by decide +kernel
  refine ⟨hread, fun h => ?_⟩
  have hform : decimalForm ⟨10 ^ 31, by norm_num⟩ = "10000000000000000000000000000000" := by decide +kernel
  have hdecimal := h.decimal
  rw [hform, hread, Except.ok.injEq, U128.mk.injEq] at hdecimal
  norm_num at hdecimal

end Llm386
