import Mathlib

/-! # Tables ordered by byte-string keys

A key-value table whose keys are byte strings, iterated in lexicographic key order, with the scan of all keys
under a prefix and the removal of a list of keys. -/

/-- A table from byte strings to `α`, iterated in key order. -/
abbrev KeyTable (α : Type) := Std.ExtTreeMap (List UInt8) α compare

namespace KeyTable
variable {α : Type} {t : KeyTable α} {k p : List UInt8} {v : α}

/-- The entries whose key begins with `p`, in key order. -/
def prefixIter (t : KeyTable α) (p : List UInt8) : List (List UInt8 × α) :=
  t.toList.filter fun e => p.isPrefixOf e.1

/-- The table without the given keys. -/
def eraseAll (t : KeyTable α) (ks : List (List UInt8)) : KeyTable α :=
  ks.foldl (·.erase ·) t

/-- The table with the given entries written in order. -/
def insertAll (t : KeyTable α) (l : List (List UInt8 × α)) : KeyTable α :=
  l.foldl (fun t e => t.insert e.1 e.2) t

@[simp] theorem getElem?_insert_eq (a : List UInt8) : (t.insert k v)[a]? = if k = a then some v else t[a]? := by
  simp [Std.ExtTreeMap.getElem?_insert]

@[simp] theorem getElem?_erase_eq (a : List UInt8) : (t.erase k)[a]? = if k = a then none else t[a]? := by
  simp [Std.ExtTreeMap.getElem?_erase]

theorem mem_prefixIter {e : List UInt8 × α} : e ∈ prefixIter t p ↔ p <+: e.1 ∧ t[e.1]? = some e.2 := by
  rw [prefixIter, List.mem_filter, Std.ExtTreeMap.mem_toList_iff_getElem?_eq_some, List.isPrefixOf_iff_prefix,
    and_comm]

@[simp] theorem getElem?_eraseAll (t : KeyTable α) (ks : List (List UInt8)) (a : List UInt8) :
    (eraseAll t ks)[a]? = if a ∈ ks then none else t[a]? := by
  unfold eraseAll
  induction ks generalizing t with
  | nil => simp
  | cons k ks ih =>
    rw [List.foldl_cons, ih, getElem?_erase_eq]
    by_cases hk : k = a
    · simp [hk]
    · simp [hk, Ne.symm hk]

/-- Under a key stands the last entry written for it. -/
theorem getElem?_insertAll (t : KeyTable α) (l : List (List UInt8 × α)) (a : List UInt8) :
    (insertAll t l)[a]? = ((l.filter (·.1 == a)).getLast?.map (·.2)).or t[a]? := by
  induction l using List.reverseRecOn with
  | nil => simp [insertAll]
  | append_singleton l e ih =>
    have hstep : insertAll t (l ++ [e]) = (insertAll t l).insert e.1 e.2 := by simp [insertAll]
    rw [hstep, getElem?_insert_eq, ih, List.filter_append]
    by_cases hk : e.1 = a
    · simp [hk]
    · simp [hk]

theorem mem_iff_isSome : k ∈ t ↔ t[k]?.isSome = true := by
  simp

theorem mem_eraseAll {ks : List (List UInt8)} : k ∈ eraseAll t ks ↔ k ∉ ks ∧ k ∈ t := by
  rw [mem_iff_isSome, getElem?_eraseAll, mem_iff_isSome]
  by_cases hk : k ∈ ks <;> simp [hk]

/-- Scans run in strictly increasing key order. -/
theorem pairwise_prefixIter (t : KeyTable α) (p : List UInt8) :
    (prefixIter t p).Pairwise fun a b => compare a.1 b.1 = .lt := by
  have keys := t.ordered_keys
  rw [← Std.ExtTreeMap.map_fst_toList_eq_keys, List.pairwise_map] at keys
  exact keys.filter _

theorem mem_scanned : k ∈ (prefixIter t p).map (·.1) ↔ k ∈ t ∧ p <+: k := by
  rw [mem_iff_isSome, Option.isSome_iff_exists, List.mem_map]
  constructor
  · rintro ⟨e, he, rfl⟩
    obtain ⟨hp, hv⟩ := mem_prefixIter.mp he
    exact ⟨⟨_, hv⟩, hp⟩
  · rintro ⟨⟨v, hv⟩, hp⟩
    exact ⟨(k, v), mem_prefixIter.mpr ⟨hp, hv⟩, rfl⟩

/-- The keys of a scan increase strictly. -/
theorem pairwise_scanned (t : KeyTable α) (p : List UInt8) :
    ((prefixIter t p).map (·.1)).Pairwise fun a b => compare a b = .lt := by
  rw [List.pairwise_map]
  exact pairwise_prefixIter t p

/-- Tables with the same keys under a prefix scan the same keys. -/
theorem scanned_congr {β : Type} {t' : KeyTable β} (h : ∀ k, p <+: k → (k ∈ t ↔ k ∈ t')) :
    (prefixIter t p).map (·.1) = (prefixIter t' p).map (·.1) := by
  have distinct : ∀ {l : List (List UInt8)}, (l.Pairwise fun a b => compare a b = .lt) → l.Nodup := by
    intro l hl
    refine hl.imp fun {a b} hlt heq => ?_
    simp [heq] at hlt
  have hperm : ((prefixIter t p).map (·.1)).Perm ((prefixIter t' p).map (·.1)) := by
    refine (List.perm_ext_iff_of_nodup (distinct (pairwise_scanned t p)) (distinct (pairwise_scanned t' p))).mpr
      fun k => ?_
    rw [mem_scanned, mem_scanned]
    exact and_congr_left (h k)
  refine hperm.eq_of_pairwise (fun a b _ _ hab hba => ?_) (pairwise_scanned t p) (pairwise_scanned t' p)
  rw [Std.OrientedOrd.eq_swap, hba] at hab
  cases hab

/-- Where the keys are the images of `S` under an injective `key`, a scan lists the members of `S` whose key
begins with the prefix, in key order. -/
theorem exists_scan {β : Type} {key : β → List UInt8} {S : Set β} (inj : Function.Injective key)
    (keys : ∀ k, k ∈ t ↔ ∃ b ∈ S, k = key b) (p : List UInt8) :
    ∃ l : List β, (prefixIter t p).map (·.1) = l.map key ∧ (∀ b, b ∈ l ↔ b ∈ S ∧ p <+: key b) ∧
      l.Pairwise fun a b => compare (key a) (key b) = .lt := by
  have range : ∀ k ∈ (prefixIter t p).map (·.1), k ∈ Set.range key := by
    intro k hk
    obtain ⟨b, -, rfl⟩ := (keys k).mp (mem_scanned.mp hk).1
    exact ⟨b, rfl⟩
  obtain ⟨l, hl⟩ := (Set.range_list_map key).ge range
  refine ⟨l, hl.symm, fun b => ?_, ?_⟩
  · rw [← List.mem_map_of_injective inj, hl, mem_scanned, keys]
    constructor
    · rintro ⟨⟨b', hb', hk⟩, hp⟩
      exact ⟨inj hk ▸ hb', hp⟩
    · exact fun ⟨hb, hp⟩ => ⟨⟨b, hb, rfl⟩, hp⟩
  · have sorted := pairwise_scanned t p
    rwa [← hl, List.pairwise_map] at sorted

theorem keys_insert {β : Type} {key : β → List UInt8} {S : Set β} (keys : ∀ k, k ∈ t ↔ ∃ b ∈ S, k = key b)
    (b : β) (v : α) (k : List UInt8) : k ∈ t.insert (key b) v ↔ ∃ x ∈ insert b S, k = key x := by
  rw [Std.ExtTreeMap.mem_insert, Std.LawfulEqCmp.compare_eq_iff_eq, keys]
  simp [eq_comm]

/-- Removing the keys of `l` leaves the keys of the other members of `S`. -/
theorem keys_eraseAll {β : Type} {key : β → List UInt8} {S : Set β} (inj : Function.Injective key)
    (keys : ∀ k, k ∈ t ↔ ∃ b ∈ S, k = key b) (l : List β) (k : List UInt8) :
    k ∈ eraseAll t (l.map key) ↔ ∃ b ∈ {b ∈ S | b ∉ l}, k = key b := by
  rw [mem_eraseAll, keys]
  constructor
  · rintro ⟨hk, b, hb, rfl⟩
    exact ⟨b, ⟨hb, fun hl => hk (List.mem_map_of_mem hl)⟩, rfl⟩
  · rintro ⟨b, ⟨hb, hl⟩, rfl⟩
    exact ⟨fun hk => hl ((List.mem_map_of_injective inj).mp hk), b, hb, rfl⟩

theorem prefixIter_nil (t : KeyTable α) : (prefixIter t []).map (·.1) = t.keys := by
  rw [prefixIter, List.filter_eq_self.mpr (by simp), Std.ExtTreeMap.map_fst_toList_eq_keys]

end KeyTable
