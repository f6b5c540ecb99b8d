import Llm386.Core.Ids

/-! # Ids as text

`Display` and `FromStr` of a block id: 32 lowercase hex digits, and `u128::from_str_radix` on 32 bytes. -/

namespace Llm386

/-- `char::to_digit` in base 16. -/
def hexDigit (c : Char) : Option Nat :=
  if '0' ≤ c ∧ c ≤ '9' then some (c.toNat - 48)
  else if 'a' ≤ c ∧ c ≤ 'f' then some (c.toNat - 87)
  else if 'A' ≤ c ∧ c ≤ 'F' then some (c.toNat - 55)
  else none

/-- One digit more, where the number does not overflow. -/
def hexStep (acc : Option U128) (c : Char) : Option U128 := do
  let n ← acc
  let d ← hexDigit c
  if h : n.val * 16 + d < 2 ^ 128 then some ⟨n.val * 16 + d, h⟩ else none

/-- `u128::from_str_radix` in base 16; a leading `+` is skipped. -/
def fromStrRadix16 (digits : List Char) : Option U128 :=
  match digits with
  | [] => none
  | c :: rest =>
    if c = '+' then (if rest = [] then none else rest.foldl hexStep (some 0)) else digits.foldl hexStep (some 0)

/-- `ParseBlockIdError`. -/
def parseBlockIdError (s : String) : String := "invalid BlockId `" ++ s ++ "`: expected 32 hex characters"

/-- `BlockId::from_str`. -/
def BlockId.parse (s : String) : Except String BlockId :=
  if s.utf8ByteSize ≠ 32 then .error (parseBlockIdError s)
  else
    match fromStrRadix16 s.toList with
    | some n => .ok ⟨n⟩
    | none => .error (parseBlockIdError s)

theorem hexDigit_digitChar {d : Nat} (h : d < 16) : hexDigit (Nat.digitChar d) = some d := by
  interval_cases d <;> rfl

theorem digitChar_ne_plus {d : Nat} (h : d < 16) : Nat.digitChar d ≠ '+' := by
  interval_cases d <;> decide

theorem utf8Size_digitChar {d : Nat} (h : d < 16) : (Nat.digitChar d).utf8Size = 1 := by
  interval_cases d <;> decide

/-- The digits read so far are the highest ones of the number. -/
theorem foldl_hexStep (n : U128) {k : Nat} (hk : k ≤ 32) :
    ∃ m : U128, m.val = n.val / 16 ^ (32 - k) ∧
      ((List.range k).map fun i => Nat.digitChar (n.val / 16 ^ (31 - i) % 16)).foldl hexStep (some 0) = some m := by
  induction k with
  | zero => exact ⟨0, (Nat.div_eq_of_lt n.isLt).symm, rfl⟩
  | succ k ih =>
    obtain ⟨m, hm, hfold⟩ := ih (by omega)
    have hdigit := hexDigit_digitChar (Nat.mod_lt (n.val / 16 ^ (31 - k)) (by decide : 0 < 16))
    have hshift : n.val / 16 ^ (32 - k) = n.val / 16 ^ (31 - k) / 16 := by
      rw [Nat.div_div_eq_div_mul, ← Nat.pow_succ, show (31 - k).succ = 32 - k by omega]
    have hnext : m.val * 16 + n.val / 16 ^ (31 - k) % 16 = n.val / 16 ^ (31 - k) := by
      rw [hm, hshift, Nat.div_add_mod']
    have hlt : m.val * 16 + n.val / 16 ^ (31 - k) % 16 < 2 ^ 128 := by
      rw [hnext]
      exact Nat.lt_of_le_of_lt (Nat.div_le_self ..) n.isLt
    refine ⟨⟨_, hlt⟩, hnext.trans (by rw [show 32 - (k + 1) = 31 - k by omega]), ?_⟩
    rw [List.range_succ, List.map_append, List.foldl_append, hfold]
    simp only [List.map_cons, List.map_nil, List.foldl_cons, List.foldl_nil, hexStep, hdigit, Option.bind_eq_bind,
      Option.bind_some, dif_pos hlt]

theorem fromStrRadix16_of_digits {digits : List Char} (hne : digits ≠ []) (hplus : ∀ c ∈ digits, c ≠ '+') :
    fromStrRadix16 digits = digits.foldl hexStep (some 0) := by
  cases digits with
  | nil => exact absurd rfl hne
  | cons c rest => exact if_neg (hplus c List.mem_cons_self)

theorem utf8Len_of_ascii {cs : List Char} (h : ∀ c ∈ cs, c.utf8Size = 1) : String.utf8Len cs = cs.length := by
  induction cs with
  | nil => rfl
  | cons c cs ih =>
    rw [String.utf8Len, ih fun d hd => h d (List.mem_cons_of_mem _ hd), h c List.mem_cons_self, List.length_cons]

/-- An id is read back from its text. -/
theorem BlockId.parse_display (id : BlockId) : BlockId.parse id.display = .ok id := by
  have hdigit : ∀ c ∈ (List.range 32).map fun i => Nat.digitChar (id.raw.val / 16 ^ (31 - i) % 16),
      ∃ d < 16, Nat.digitChar d = c := by
    intro c hc
    obtain ⟨i, -, rfl⟩ := List.mem_map.mp hc
    exact ⟨_, Nat.mod_lt _ (by decide), rfl⟩
  have hsize : id.display.utf8ByteSize = 32 := by
    rw [display, String.utf8ByteSize_ofList, utf8Len_of_ascii, List.length_map, List.length_range]
    intro c hc
    obtain ⟨d, hd, rfl⟩ := hdigit c hc
    exact utf8Size_digitChar hd
  have hradix : fromStrRadix16 id.display.toList = some id.raw := by
    obtain ⟨m, hm, hfold⟩ := foldl_hexStep id.raw le_rfl
    obtain rfl : m = id.raw := U128.val_injective (by simpa using hm)
    rw [display, String.toList_ofList, fromStrRadix16_of_digits (by simp), hfold]
    intro c hc
    obtain ⟨d, hd, rfl⟩ := hdigit c hc
    exact digitChar_ne_plus hd
  rw [BlockId.parse, if_neg (not_not.mpr hsize), hradix]

end Llm386
