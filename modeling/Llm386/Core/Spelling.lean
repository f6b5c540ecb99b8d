import Llm386.Core.Hex
import Llm386.Lib.Loop
import Llm386.Lib.Radix

/-! # The grammar of integer parsing

`u128::from_str_radix` with its errors, and what `BlockId::from_str`, which delegates to it after a length check,
accepts. -/

namespace Llm386
open Radix (value valueAfter)

/-- `std::num::IntErrorKind` of an unsigned integer. -/
inductive ParseIntError
  | empty | invalidDigit | posOverflow
deriving DecidableEq

def ParseIntError.display : ParseIntError → String
  | .empty => "cannot parse integer from empty string"
  | .invalidDigit => "invalid digit found in string"
  | .posOverflow => "number too large to fit in target type"

/-- `char::to_digit` in a radix up to 16. -/
def toDigit (radix : Nat) (c : Char) : Option Nat := (hexDigit c).filter (· < radix)

/-- One digit more. -/
def radixStep (radix : Nat) (acc : U128) (c : Char) : Except ParseIntError U128 :=
  match toDigit radix c with
  | none => .error .invalidDigit
  | some d => if h : acc.val * radix + d < 2 ^ 128 then .ok ⟨acc.val * radix + d, h⟩ else .error .posOverflow

/-- `u128::from_str_radix`: a leading `+` is skipped, a sign alone is no number. -/
def fromStrRadix (radix : Nat) : List Char → Except ParseIntError U128
  | [] => .error .empty
  | c :: rest =>
    if (c = '+' ∨ c = '-') ∧ rest = [] then .error .invalidDigit
    else if c = '+' then rest.foldlM (radixStep radix) 0
    else (c :: rest).foldlM (radixStep radix) 0

/-! ### Runs of digits -/

variable {radix : Nat} {cs : List Char} {n acc : U128}

/-- The characters are these digits. -/
def Spells (radix : Nat) (cs : List Char) (ds : List Nat) : Prop := cs.map (toDigit radix) = ds.map some

/-- A run of digits is read as its value, where that fits; nothing else is read. -/
theorem foldlM_radixStep (hradix : 0 < radix) :
    cs.foldlM (radixStep radix) acc = .ok n ↔ ∃ ds, Spells radix cs ds ∧ valueAfter radix acc.val ds = n.val := by
  induction cs generalizing acc with
  | nil =>
    constructor
    · intro h
      cases h
      exact ⟨[], rfl, rfl⟩
    · rintro ⟨ds, hds, hval⟩
      obtain rfl : ds = [] := List.map_eq_nil_iff.mp hds.symm
      exact congrArg Except.ok (U128.val_injective hval)
  | cons c cs ih =>
    rw [Loop.foldlM_cons_eq_ok]
    constructor
    · rintro ⟨u, hstep, hrest⟩
      obtain ⟨ds, hds, hval⟩ := ih.mp hrest
      unfold radixStep at hstep
      split at hstep
      · cases hstep
      · rename_i d hd
        split at hstep
        · cases hstep
          exact ⟨d :: ds, by rw [Spells, List.map_cons, List.map_cons, hd, hds], hval⟩
        · cases hstep
    · rintro ⟨ds, hds, hval⟩
      cases ds with
      | nil => cases hds
      | cons d ds =>
        rw [Spells, List.map_cons, List.map_cons, List.cons.injEq] at hds
        obtain ⟨hd, hds⟩ := hds
        have hlt : acc.val * radix + d < 2 ^ 128 :=
          lt_of_le_of_lt (Radix.le_valueAfter hradix) ((Radix.valueAfter_cons.symm.trans hval).symm ▸ n.isLt)
        refine ⟨⟨_, hlt⟩, ?_, ih.mpr ⟨ds, hds, hval⟩⟩
        rw [radixStep, hd]
        exact dif_pos hlt

theorem toDigit_sign : toDigit radix '+' = none ∧ toDigit radix '-' = none := ⟨rfl, rfl⟩

/-- What the parser accepts: digits, or a plus sign and digits. -/
theorem fromStrRadix_eq_ok (hradix : 0 < radix) : fromStrRadix radix cs = .ok n ↔
    ∃ rest ds, rest ≠ [] ∧ (cs = rest ∨ cs = '+' :: rest) ∧ Spells radix rest ds ∧ value radix ds = n.val := by
  have notSign : ∀ {c rest ds}, Spells radix (c :: rest) ds → c ≠ '+' ∧ c ≠ '-' := by
    intro c rest ds h
    cases ds with
    | nil => cases h
    | cons d ds =>
      rw [Spells, List.map_cons, List.map_cons, List.cons.injEq] at h
      constructor
      · rintro rfl
        rw [toDigit_sign.1] at h
        cases h.1
      · rintro rfl
        rw [toDigit_sign.2] at h
        cases h.1
  cases cs with
  | nil =>
    constructor
    · intro h
      cases h
    · rintro ⟨rest, ds, hne, hcs | hcs, -⟩
      · exact absurd hcs.symm hne
      · cases hcs
  | cons c cs =>
    simp only [fromStrRadix]
    split_ifs with hsign hplus
    · refine iff_of_false (by simp) ?_
      rintro ⟨rest, ds, hne, hcs | hcs, hspells, -⟩
      · obtain ⟨hp, hm⟩ := notSign (hcs ▸ hspells)
        exact hsign.1.elim hp hm
      · cases hcs
        exact hne hsign.2
    · subst hplus
      rw [foldlM_radixStep hradix]
      constructor
      · rintro ⟨ds, hspells, hval⟩
        exact ⟨cs, ds, fun hnil => hsign ⟨Or.inl rfl, hnil⟩, Or.inr rfl, hspells, hval⟩
      · rintro ⟨rest, ds, -, hcs | hcs, hspells, hval⟩
        · exact absurd rfl (notSign (hcs ▸ hspells)).1
        · cases hcs
          exact ⟨ds, hspells, hval⟩
    · rw [foldlM_radixStep hradix]
      constructor
      · rintro ⟨ds, hspells, hval⟩
        exact ⟨c :: cs, ds, by simp, Or.inl rfl, hspells, hval⟩
      · rintro ⟨rest, ds, -, hcs | hcs, hspells, hval⟩
        · exact ⟨ds, hcs ▸ hspells, hval⟩
        · cases hcs
          exact absurd rfl hplus

/-! ### Digits -/

theorem hexDigit_lt {c : Char} {d : Nat} (h : hexDigit c = some d) : d < 16 := by
  have hbound : ∀ lo hi : Char, lo ≤ c ∧ c ≤ hi → lo.toNat ≤ c.toNat ∧ c.toNat ≤ hi.toNat :=
    fun lo hi hc => ⟨Char.le_def.mp hc.1, Char.le_def.mp hc.2⟩
  unfold hexDigit at h
  split_ifs at h with h₁ h₂ h₃
  · cases h
    have hc := hbound '0' '9' h₁
    simp only [Char.reduceToNat] at hc
    omega
  · cases h
    have hc := hbound 'a' 'f' h₂
    simp only [Char.reduceToNat] at hc
    omega
  · cases h
    have hc := hbound 'A' 'F' h₃
    simp only [Char.reduceToNat] at hc
    omega

theorem toDigit_sixteen (c : Char) : toDigit 16 c = hexDigit c := by
  cases h : hexDigit c with
  | none => rw [toDigit, h]; rfl
  | some d => simp [toDigit, h, hexDigit_lt h]

theorem toDigit_digitChar {d : Nat} (hd : d < radix) (hradix : radix ≤ 16) :
    toDigit radix (Nat.digitChar d) = some d := by
  rw [toDigit, hexDigit_digitChar (by omega)]
  simp [hd]

theorem spells_digitChars {ds : List Nat} (hds : ∀ d ∈ ds, d < radix) (hradix : radix ≤ 16) :
    Spells radix (ds.map Nat.digitChar) ds := by
  rw [Spells, List.map_map]
  exact List.map_congr_left fun d hd => toDigit_digitChar (hds d hd) hradix

theorem Spells.length_eq {ds : List Nat} (h : Spells radix cs ds) : cs.length = ds.length := by
  simpa using congrArg List.length h

theorem Spells.lt {ds : List Nat} (h : Spells radix cs ds) : ∀ d ∈ ds, d < radix := by
  intro d hd
  have hmem : some d ∈ cs.map (toDigit radix) := h ▸ List.mem_map_of_mem hd
  obtain ⟨c, -, hc⟩ := List.mem_map.mp hmem
  rw [toDigit, Option.filter_eq_some_iff] at hc
  simpa using hc.2

/-- Hex digits, one for each character. -/
theorem spells_sixteen_iff : (∃ ds, Spells 16 cs ds) ↔ ∀ c ∈ cs, (hexDigit c).isSome := by
  constructor
  · rintro ⟨ds, hds⟩ c hc
    have hmem : toDigit 16 c ∈ ds.map some := hds ▸ List.mem_map_of_mem hc
    obtain ⟨d, -, hd⟩ := List.mem_map.mp hmem
    rw [← toDigit_sixteen, ← hd]
    rfl
  · intro h
    refine ⟨cs.map fun c => (hexDigit c).getD 0, ?_⟩
    rw [Spells, List.map_map]
    refine List.map_congr_left fun c hc => ?_
    obtain ⟨d, hd⟩ := Option.isSome_iff_exists.mp (h c hc)
    rw [toDigit_sixteen, Function.comp, hd]
    rfl

theorem foldl_hexStep_none (cs : List Char) : cs.foldl hexStep none = none := by
  induction cs with
  | nil => rfl
  | cons c cs ih => exact ih

/-- The hex parser of ids is the general one. -/
theorem fromStrRadix16_eq (cs : List Char) : fromStrRadix16 cs = (fromStrRadix 16 cs).toOption := by
  have hfold : ∀ (cs : List Char) (acc : U128),
      cs.foldl hexStep (some acc) = (cs.foldlM (radixStep 16) acc).toOption := by
    intro cs
    induction cs with
    | nil => exact fun acc => rfl
    | cons c cs ih =>
      intro acc
      rw [List.foldl_cons, List.foldlM_cons]
      cases hc : hexDigit c with
      | none =>
        rw [radixStep, toDigit_sixteen, hc, hexStep, hc]
        exact foldl_hexStep_none cs
      | some d =>
        rw [radixStep, toDigit_sixteen, hc, hexStep, hc]
        by_cases hlt : acc.val * 16 + d < 2 ^ 128
        · simp only [Option.bind_eq_bind, Option.bind_some, dif_pos hlt, Loop.ok_bind]
          exact ih _
        · simp only [Option.bind_eq_bind, Option.bind_some, dif_neg hlt]
          exact foldl_hexStep_none cs
  cases cs with
  | nil => rfl
  | cons c rest =>
    unfold fromStrRadix16 fromStrRadix
    by_cases hplus : c = '+'
    · by_cases hrest : rest = []
      · simp [hplus, hrest]
        rfl
      · simp [hplus, hrest, hfold]
    · by_cases hminus : c = '-' ∧ rest = []
      · obtain ⟨rfl, rfl⟩ := hminus
        rfl
      · simp [hplus, hminus, hfold]

/-! ### Block ids -/

/-- Exactly 32 hexadecimal digits. -/
def HexText (s : String) : Prop := s.toList.length = 32 ∧ ∀ c ∈ s.toList, (hexDigit c).isSome

/-- A plus sign and 31 hexadecimal digits. -/
def SignedHexText (s : String) : Prop :=
  ∃ rest, s.toList = '+' :: rest ∧ rest.length = 31 ∧ ∀ c ∈ rest, (hexDigit c).isSome

/-- The same text but for the case of letters. -/
def SameUpToCase (s t : String) : Prop := s.toList.map Char.toLower = t.toList.map Char.toLower

/-- What a canonical text form of ids would be, at two texts and an id. -/
structure CanonicalText (s t : String) (id : BlockId) : Prop where
  accepted_left : (∃ x, BlockId.parse s = .ok x) ↔ HexText s
  accepted_right : (∃ x, BlockId.parse t = .ok x) ↔ HexText t
  display : BlockId.parse id.display = .ok id
  same : ∀ x, BlockId.parse s = .ok x → BlockId.parse t = .ok x → SameUpToCase s t

theorem toLower_table : ∀ n : Fin 128, ∀ d ∈ hexDigit (Char.ofNat n),
    (Char.ofNat n).toLower = Nat.digitChar d ∧ (Char.ofNat n).utf8Size = 1 := by
  decide +kernel

theorem toNat_lt_of_hexDigit {c : Char} {d : Nat} (h : hexDigit c = some d) : c.toNat < 128 := by
  unfold hexDigit at h
  split_ifs at h with h₁ h₂ h₃
  · exact lt_of_le_of_lt (Char.le_def.mp h₁.2) (by decide : '9'.toNat < 128)
  · exact lt_of_le_of_lt (Char.le_def.mp h₂.2) (by decide : 'f'.toNat < 128)
  · exact lt_of_le_of_lt (Char.le_def.mp h₃.2) (by decide : 'F'.toNat < 128)

/-- A hex digit is its character up to case, and one byte long. -/
theorem toLower_of_hexDigit {c : Char} {d : Nat} (h : hexDigit c = some d) :
    c.toLower = Nat.digitChar d ∧ c.utf8Size = 1 := by
  have hc : Char.ofNat c.toNat = c := Char.ofNat_toNat c
  have htable := toLower_table ⟨c.toNat, toNat_lt_of_hexDigit h⟩ d (by rw [hc]; exact h)
  rwa [hc] at htable

/-- In lower case hex digits are written as `Nat.digitChar` writes them. -/
theorem Spells.toLower {ds : List Nat} (h : Spells 16 cs ds) : cs.map Char.toLower = ds.map Nat.digitChar := by
  unfold Spells at h
  induction cs generalizing ds with
  | nil =>
    obtain rfl : ds = [] := List.map_eq_nil_iff.mp h.symm
    rfl
  | cons c cs ih =>
    cases ds with
    | nil => cases h
    | cons d ds =>
      rw [List.map_cons, List.map_cons, List.cons.injEq] at h
      rw [List.map_cons, List.map_cons, ih h.2, (toLower_of_hexDigit (toDigit_sixteen c ▸ h.1)).1]

theorem utf8Len_of_hexDigits {cs : List Char} (h : ∀ c ∈ cs, (hexDigit c).isSome) : String.utf8Len cs = cs.length := by
  refine utf8Len_of_ascii fun c hc => ?_
  obtain ⟨d, hd⟩ := Option.isSome_iff_exists.mp (h c hc)
  exact (toLower_of_hexDigit hd).2

theorem utf8ByteSize_eq (s : String) : s.utf8ByteSize = String.utf8Len s.toList := by
  rw [← String.utf8ByteSize_ofList, String.ofList_toList]

theorem BlockId.parse_eq_ok {s : String} {x : BlockId} :
    BlockId.parse s = .ok x ↔ s.utf8ByteSize = 32 ∧ fromStrRadix 16 s.toList = .ok x.raw := by
  rw [BlockId.parse, fromStrRadix16_eq]
  split_ifs with hsize
  · simp [hsize]
  · rw [not_not] at hsize
    cases fromStrRadix 16 s.toList with
    | error e => simp [Except.toOption]
    | ok n =>
      simp only [Except.toOption, hsize, true_and, Except.ok.injEq]
      exact ⟨fun h => h ▸ rfl, fun h => h ▸ rfl⟩

/-- Digits of 32 places fit an id. -/
theorem exists_value {cs : List Char} (hlen : cs.length ≤ 32) (hdigits : ∀ c ∈ cs, (hexDigit c).isSome) :
    ∃ ds, ∃ n : U128, Spells 16 cs ds ∧ value 16 ds = n.val := by
  obtain ⟨ds, hds⟩ := spells_sixteen_iff.mpr hdigits
  have hlt : value 16 ds < 2 ^ 128 := by
    refine (Radix.value_lt (by omega) hds.lt).trans_le ?_
    rw [← hds.length_eq, show (2 : Nat) ^ 128 = 16 ^ 32 by norm_num]
    exact Nat.pow_le_pow_right (by omega) hlen
  exact ⟨ds, ⟨_, hlt⟩, hds, rfl⟩

/-- What `BlockId::from_str` accepts. -/
theorem BlockId.parse_accepts (s : String) :
    (∃ x, BlockId.parse s = .ok x) ↔ HexText s ∨ SignedHexText s := by
  simp only [BlockId.parse_eq_ok, utf8ByteSize_eq]
  constructor
  · rintro ⟨x, hsize, hradix⟩
    obtain ⟨rest, ds, -, hcs, hspells, -⟩ := (fromStrRadix_eq_ok (by omega)).mp hradix
    have hdigits := spells_sixteen_iff.mp ⟨ds, hspells⟩
    have hrest := utf8Len_of_hexDigits hdigits
    rcases hcs with hcs | hcs
    · rw [hcs, hrest] at hsize
      exact Or.inl ⟨hcs ▸ hsize, hcs ▸ hdigits⟩
    · rw [hcs, String.utf8Len, hrest, show '+'.utf8Size = 1 from rfl] at hsize
      exact Or.inr ⟨rest, hcs, by omega, hdigits⟩
  · rintro (⟨hlen, hdigits⟩ | ⟨rest, hcs, hlen, hdigits⟩)
    · obtain ⟨ds, n, hspells, hval⟩ := exists_value hlen.le hdigits
      refine ⟨⟨n⟩, (utf8Len_of_hexDigits hdigits).trans hlen, (fromStrRadix_eq_ok (by omega)).mpr ?_⟩
      exact ⟨_, ds, List.ne_nil_of_length_pos (by omega), Or.inl rfl, hspells, hval⟩
    · obtain ⟨ds, n, hspells, hval⟩ := exists_value (by omega) hdigits
      refine ⟨⟨n⟩, ?_, (fromStrRadix_eq_ok (by omega)).mpr ?_⟩
      · rw [hcs, String.utf8Len, utf8Len_of_hexDigits hdigits, hlen]
        rfl
      · exact ⟨rest, ds, List.ne_nil_of_length_pos (by omega), Or.inr hcs, hspells, hval⟩

theorem not_hexText_of_signed {s : String} (h : SignedHexText s) : ¬HexText s := by
  obtain ⟨rest, hcs, -⟩ := h
  rintro ⟨-, hdigits⟩
  have hplus := hdigits '+' (hcs ▸ List.mem_cons_self)
  cases hplus

/-- Two texts of 32 hex digits that are read as one id differ at most in case. -/
theorem HexText.same {s t : String} {x : BlockId} (hs : HexText s) (ht : HexText t) (h : BlockId.parse s = .ok x)
    (h' : BlockId.parse t = .ok x) : SameUpToCase s t := by
  have hplain : ∀ {u : String}, HexText u → BlockId.parse u = .ok x →
      ∃ ds, Spells 16 u.toList ds ∧ value 16 ds = x.raw.val := by
    intro u hu hparse
    obtain ⟨rest, ds, -, hcs, hspells, hval⟩ := (fromStrRadix_eq_ok (by omega)).mp (BlockId.parse_eq_ok.mp hparse).2
    rcases hcs with hcs | hcs
    · exact ⟨ds, hcs ▸ hspells, hval⟩
    · have hplus := hu.2 '+' (hcs ▸ List.mem_cons_self)
      cases hplus
  obtain ⟨ds, hds, hval⟩ := hplain hs h
  obtain ⟨es, hes, hval'⟩ := hplain ht h'
  have hlen : ds.length = es.length := by rw [← hds.length_eq, ← hes.length_eq, hs.1, ht.1]
  obtain rfl : ds = es := Radix.value_inj (by omega) hlen hds.lt hes.lt (hval.trans hval'.symm)
  exact hds.toLower.trans hes.toLower.symm

/-- The text form of ids is canonical at all texts but a plus sign before 31 digits. -/
theorem canonicalText_iff (s t : String) (id : BlockId) :
    CanonicalText s t id ↔ ¬SignedHexText s ∧ ¬SignedHexText t := by
  have haccepts : ∀ u : String, ((∃ x, BlockId.parse u = .ok x) ↔ HexText u) ↔ ¬SignedHexText u := by
    intro u
    rw [BlockId.parse_accepts]
    constructor
    · exact fun h hsigned => not_hexText_of_signed hsigned (h.mp (Or.inr hsigned))
    · exact fun h => or_iff_left h
  constructor
  · exact fun h => ⟨(haccepts s).mp h.accepted_left, (haccepts t).mp h.accepted_right⟩
  · rintro ⟨hs, ht⟩
    have hs' := (haccepts s).mpr hs
    have ht' := (haccepts t).mpr ht
    exact ⟨hs', ht', id.parse_display, fun x h h' => HexText.same (hs'.mp ⟨x, h⟩) (ht'.mp ⟨x, h'⟩) h h'⟩

/-- A plus sign and 31 zeros are read as the id zero. -/
theorem parse_signed : ¬CanonicalText "+0000000000000000000000000000000" "00000000000000000000000000000000" ⟨0⟩ := by
  intro h
  have hparse : ∃ x, BlockId.parse "+0000000000000000000000000000000" = .ok x := by
    refine ⟨⟨0⟩, BlockId.parse_eq_ok.mpr ⟨by decide +kernel, ?_⟩⟩
    decide +kernel
  have hplus := (h.accepted_left.mp hparse).2 '+' (by decide +kernel)
  cases hplus

end Llm386
