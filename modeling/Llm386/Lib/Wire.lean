import Llm386.Lib.Loop

/-! # Positional wire formats

A codec writes a value as bytes and reads one back from the front of a byte string, passing on the bytes after
it. Codecs are put together as a format that is not self-describing does it: a record is its fields in order, an
optional value a flag and the value, a sequence its length and its elements. -/

/-- How values of `α` are written as bytes and read back, with errors in `ε`. -/
structure Codec (ε α : Type) where
  encode : α → List UInt8
  decode : List UInt8 → Except ε (α × List UInt8)
  /-- What was written is read back, and nothing after it is touched. -/
  decode_encode : ∀ a rest, decode (encode a ++ rest) = .ok (a, rest)
  /-- No value is read from fewer bytes than it is written in. -/
  shortest : ∀ {bs a rest}, decode bs = .ok (a, rest) → (encode a).length + rest.length ≤ bs.length
  /-- Nothing is read at the end of the input. -/
  eof : ∃ e, decode [] = .error e

namespace Codec
variable {ε α β : Type}

theorem encode_ne_nil (c : Codec ε α) (a : α) : c.encode a ≠ [] := by
  intro h
  obtain ⟨e, he⟩ := c.eof
  have hdecode := c.decode_encode a []
  rw [h, List.append_nil, he] at hdecode
  cases hdecode

theorem length_encode_pos (c : Codec ε α) (a : α) : 0 < (c.encode a).length :=
  List.length_pos_of_ne_nil (c.encode_ne_nil a)

/-- Input shorter than the encoding of `a` is not read as `a`. -/
theorem decode_ne_of_short (c : Codec ε α) {bs rest : List UInt8} {a : α} (h : bs.length < (c.encode a).length) :
    c.decode bs ≠ .ok (a, rest) := by
  intro hdecode
  have hshort := c.shortest hdecode
  omega

/-! ### Records -/

/-- One field after the other. -/
def pair (c : Codec ε α) (d : Codec ε β) : Codec ε (α × β) where
  encode x := c.encode x.1 ++ d.encode x.2
  decode bs := do
    let (a, rest) ← c.decode bs
    let (b, rest) ← d.decode rest
    pure ((a, b), rest)
  decode_encode x rest := by
    rw [List.append_assoc, c.decode_encode, Loop.ok_bind]
    simp only [d.decode_encode]
    rfl
  shortest h := by
    obtain ⟨⟨a, rest₁⟩, ha, h⟩ := Loop.bind_eq_ok.mp h
    obtain ⟨⟨b, rest₂⟩, hb, h⟩ := Loop.bind_eq_ok.mp h
    cases h
    have hfst := c.shortest ha
    have hsnd := d.shortest hb
    simp only [List.length_append] at hfst hsnd ⊢
    omega
  eof := by
    obtain ⟨e, he⟩ := c.eof
    exact ⟨e, by rw [he]; rfl⟩

@[simp] theorem encode_pair (c : Codec ε α) (d : Codec ε β) (x : α × β) :
    (c.pair d).encode x = c.encode x.1 ++ d.encode x.2 := rfl

/-- Where the input ends after the first field, the second is not found. -/
theorem pair_truncated (c : Codec ε α) (d : Codec ε β) (a : α) :
    ∃ e, d.decode [] = .error e ∧ (c.pair d).decode (c.encode a) = .error e := by
  obtain ⟨e, he⟩ := d.eof
  refine ⟨e, he, ?_⟩
  have ha := c.decode_encode a []
  rw [List.append_nil] at ha
  change (c.decode (c.encode a) >>= _) = _
  rw [ha, Loop.ok_bind]
  simp only [he]
  rfl

/-! ### Other types in the same bytes -/

/-- The values of `β` that some values of `α` stand for; `β` may be written as another of them, not a longer one. -/
def narrow (c : Codec ε α) (read : α → Except ε β) (write : β → α) (read_write : ∀ b, read (write b) = .ok b)
    (shorter : ∀ {a b}, read a = .ok b → (c.encode (write b)).length ≤ (c.encode a).length) : Codec ε β where
  encode b := c.encode (write b)
  decode bs := do
    let (a, rest) ← c.decode bs
    let b ← read a
    pure (b, rest)
  decode_encode b rest := by
    rw [c.decode_encode, Loop.ok_bind]
    simp only [read_write]
    rfl
  shortest h := by
    obtain ⟨⟨a, rest₁⟩, ha, h⟩ := Loop.bind_eq_ok.mp h
    obtain ⟨b, hb, h⟩ := Loop.bind_eq_ok.mp h
    cases h
    have hread := c.shortest ha
    have hwrite := shorter hb
    omega
  eof := by
    obtain ⟨e, he⟩ := c.eof
    exact ⟨e, by rw [he]; rfl⟩

/-- A type that is `α` under another name. -/
def ofEquiv (c : Codec ε α) (f : α ≃ β) : Codec ε β :=
  c.narrow (fun a => .ok (f a)) f.symm (fun b => by rw [f.apply_symm_apply]) fun h => by
    cases h
    rw [f.symm_apply_apply]

@[simp] theorem encode_ofEquiv (c : Codec ε α) (f : α ≃ β) (b : β) :
    (c.ofEquiv f).encode b = c.encode (f.symm b) := rfl

theorem decode_ofEquiv_error (c : Codec ε α) (f : α ≃ β) {bs : List UInt8} {e : ε} (h : c.decode bs = .error e) :
    (c.ofEquiv f).decode bs = .error e := by
  change (c.decode bs >>= _) = _
  rw [h]
  rfl

/-- The values of an enumeration, by their place in the list of all of them; `e` is the error for any other place. -/
def enum [DecidableEq α] {m : Nat} (c : Codec ε (Fin m)) (e : ε) (names : List α) (complete : ∀ a, a ∈ names)
    (nodup : names.Nodup) (fits : names.length ≤ m) : Codec ε α :=
  c.narrow
    (fun i =>
      match names[i.val]? with
      | some a => .ok a
      | none => .error e)
    (fun a => ⟨names.idxOf a, (List.idxOf_lt_length_of_mem (complete a)).trans_le fits⟩)
    (fun a => by rw [List.getElem?_idxOf (complete a)])
    (fun {i a} h => by
      split at h
      · rename_i b hb
        cases h
        obtain ⟨hi, rfl⟩ := List.getElem?_eq_some_iff.mp hb
        have hplace : names.idxOf names[i.val] = i.val := nodup.idxOf_getElem i.val hi
        simp only [hplace, Fin.eta, le_refl]
      · cases h)

/-! ### Optional values -/

def encodeOption (c : Codec ε α) (flag : Codec ε Bool) : Option α → List UInt8
  | none => flag.encode false
  | some a => flag.encode true ++ c.encode a

/-- A flag, and the value where it is set. -/
def option (c : Codec ε α) (flag : Codec ε Bool) : Codec ε (Option α) where
  encode := encodeOption c flag
  decode bs := do
    let (present, rest) ← flag.decode bs
    if present then
      let (a, rest) ← c.decode rest
      pure (some a, rest)
    else pure (none, rest)
  decode_encode o rest := by
    cases o with
    | none =>
      rw [encodeOption, flag.decode_encode]
      rfl
    | some a =>
      rw [encodeOption, List.append_assoc, flag.decode_encode, Loop.ok_bind]
      simp only [if_true, c.decode_encode]
      rfl
  shortest h := by
    obtain ⟨⟨present, rest₁⟩, hflag, h⟩ := Loop.bind_eq_ok.mp h
    have hlen := flag.shortest hflag
    cases present with
    | false =>
      cases h
      exact hlen
    | true =>
      obtain ⟨⟨a, rest₂⟩, ha, h⟩ := Loop.bind_eq_ok.mp h
      cases h
      have hval := c.shortest ha
      rw [encodeOption, List.length_append]
      omega
  eof := by
    obtain ⟨e, he⟩ := flag.eof
    exact ⟨e, by rw [he]; rfl⟩

/-! ### Sequences -/

def encodeAll (c : Codec ε α) (l : List α) : List UInt8 := l.flatMap c.encode

def decodeAll (c : Codec ε α) : Nat → List UInt8 → Except ε (List α × List UInt8)
  | 0, bs => .ok ([], bs)
  | n + 1, bs => do
    let (a, rest) ← c.decode bs
    let (l, rest) ← decodeAll c n rest
    pure (a :: l, rest)

theorem encodeAll_cons (c : Codec ε α) (a : α) (l : List α) : c.encodeAll (a :: l) = c.encode a ++ c.encodeAll l :=
  List.flatMap_cons

theorem decodeAll_encodeAll (c : Codec ε α) (l : List α) (rest : List UInt8) :
    c.decodeAll l.length (c.encodeAll l ++ rest) = .ok (l, rest) := by
  induction l with
  | nil => rfl
  | cons a l ih =>
    rw [encodeAll_cons, List.append_assoc, List.length_cons, decodeAll, c.decode_encode, Loop.ok_bind]
    simp only [ih]
    rfl

theorem decodeAll_inv (c : Codec ε α) {n : Nat} {bs rest : List UInt8} {l : List α}
    (h : c.decodeAll n bs = .ok (l, rest)) : l.length = n ∧ (c.encodeAll l).length + rest.length ≤ bs.length := by
  induction n generalizing bs l with
  | zero =>
    cases h
    simp [encodeAll]
  | succ n ih =>
    obtain ⟨⟨a, rest₁⟩, ha, h⟩ := Loop.bind_eq_ok.mp h
    obtain ⟨⟨l', rest₂⟩, hl, h⟩ := Loop.bind_eq_ok.mp h
    cases h
    have hhead := c.shortest ha
    obtain ⟨hlen, htail⟩ := ih hl
    refine ⟨by rw [List.length_cons, hlen], ?_⟩
    rw [encodeAll_cons, List.length_append]
    omega

/-- The number of elements, then the elements. -/
def list (c : Codec ε α) (len : Codec ε Nat) : Codec ε (List α) where
  encode l := len.encode l.length ++ c.encodeAll l
  decode bs := do
    let (n, rest) ← len.decode bs
    c.decodeAll n rest
  decode_encode l rest := by
    rw [List.append_assoc, len.decode_encode, Loop.ok_bind]
    exact decodeAll_encodeAll c l rest
  shortest h := by
    obtain ⟨⟨n, rest₁⟩, hn, h⟩ := Loop.bind_eq_ok.mp h
    obtain ⟨hlen, hall⟩ := decodeAll_inv c h
    have hcount := len.shortest hn
    rw [hlen, List.length_append]
    omega
  eof := by
    obtain ⟨e, he⟩ := len.eof
    exact ⟨e, by rw [he]; rfl⟩

@[simp] theorem encode_list (c : Codec ε α) (len : Codec ε Nat) (l : List α) :
    (c.list len).encode l = len.encode l.length ++ c.encodeAll l := rfl

/-- `n + 1` elements, without their number. -/
def array (c : Codec ε α) (n : Nat) : Codec ε { l : List α // l.length = n + 1 } where
  encode l := c.encodeAll l
  decode bs :=
    match h : c.decodeAll (n + 1) bs with
    | .ok (l, rest) => .ok (⟨l, (decodeAll_inv c h).1⟩, rest)
    | .error e => .error e
  decode_encode := by
    rintro ⟨l, hl⟩ rest
    have hall := decodeAll_encodeAll c l rest
    rw [hl] at hall
    split
    · rename_i l' rest' h
      rw [hall] at h
      cases h
      rfl
    · rename_i e h
      rw [hall] at h
      cases h
  shortest h := by
    split at h
    · rename_i l rest hall
      cases h
      exact (decodeAll_inv c hall).2
    · cases h
  eof := by
    obtain ⟨e, he⟩ := c.eof
    have hall : c.decodeAll (n + 1) [] = .error e := by
      rw [decodeAll, he]
      rfl
    refine ⟨e, ?_⟩
    split
    · rename_i h
      rw [hall] at h
      cases h
    · rename_i h
      rw [hall] at h
      cases h
      rfl

/-! ### Bytes and variable-width numbers -/

/-- One byte; `e` is the error at the end of the input. -/
def byte (e : ε) : Codec ε UInt8 where
  encode b := [b]
  decode
    | [] => .error e
    | b :: rest => .ok (b, rest)
  decode_encode _ _ := rfl
  shortest {bs a rest} h := by
    cases bs with
    | nil => cases h
    | cons b bs =>
      cases h
      simp [Nat.add_comm]
  eof := ⟨e, rfl⟩

@[simp] theorem length_encodeAll_byte (e : ε) (l : List UInt8) : ((byte e).encodeAll l).length = l.length := by
  induction l with
  | nil => rfl
  | cons b l ih => rw [encodeAll_cons, List.length_append, ih, List.length_cons, Nat.add_comm]; rfl

/-- The digits of `n` in base 128, least significant first, with the high bit set on all but the last. -/
def encodeVarint (n : Nat) : List UInt8 :=
  if n < 128 then [UInt8.ofNat n] else UInt8.ofNat (n % 128 + 128) :: encodeVarint (n / 128)

def decodeVarint (e : ε) : List UInt8 → Except ε (Nat × List UInt8)
  | [] => .error e
  | b :: bs =>
    if b.toNat < 128 then .ok (b.toNat, bs)
    else do
      let (n, rest) ← decodeVarint e bs
      pure (b.toNat - 128 + 128 * n, rest)

theorem decodeVarint_encodeVarint (e : ε) (n : Nat) (rest : List UInt8) :
    decodeVarint e (encodeVarint n ++ rest) = .ok (n, rest) := by
  induction n using encodeVarint.induct with
  | case1 n h =>
    have hn : (UInt8.ofNat n).toNat = n := by simp; omega
    rw [encodeVarint, if_pos h, List.singleton_append, decodeVarint, hn, if_pos h]
  | case2 n h ih =>
    have hn : (UInt8.ofNat (n % 128 + 128)).toNat = n % 128 + 128 := by simp; omega
    rw [encodeVarint, if_neg h, List.cons_append, decodeVarint, hn, if_neg (by omega), ih, Loop.ok_bind]
    simp only [Nat.add_sub_cancel, Nat.mod_add_div]
    rfl

/-- Padding a number with high zero digits makes it longer, never shorter. -/
theorem length_encodeVarint_le (d n : Nat) (h : d < 128) :
    (encodeVarint (d + 128 * n)).length ≤ (encodeVarint n).length + 1 := by
  rw [encodeVarint]
  split
  · simp
  · have hn : (d + 128 * n) / 128 = n := by omega
    rw [hn, List.length_cons]

theorem decodeVarint_shortest {e : ε} {bs rest : List UInt8} {n : Nat} (h : decodeVarint e bs = .ok (n, rest)) :
    (encodeVarint n).length + rest.length ≤ bs.length := by
  induction bs generalizing n with
  | nil => cases h
  | cons b bs ih =>
    rw [decodeVarint] at h
    split at h
    · rename_i hb
      cases h
      rw [encodeVarint, if_pos hb]
      simp [Nat.add_comm]
    · obtain ⟨⟨m, rest'⟩, hm, h⟩ := Loop.bind_eq_ok.mp h
      cases h
      have hlen := ih hm
      have hpad := length_encodeVarint_le (b.toNat - 128) m (by have := b.toNat_lt; omega)
      rw [List.length_cons]
      omega

def varint (e : ε) : Codec ε Nat where
  encode := encodeVarint
  decode := decodeVarint e
  decode_encode := decodeVarint_encodeVarint e
  shortest := decodeVarint_shortest
  eof := ⟨e, rfl⟩

end Codec
