import Mathlib

/-! # Sorting a permutation

A sort by a comparison that orders a list totally sorts it; where the comparison also tells the elements apart, the sort
does not depend on the order it finds them in. The first elements of a descending sort are the greatest of the list. -/

namespace Sorting
variable {α κ : Type} [LinearOrder κ] {key : α → κ} {r : α → α → Prop} [DecidableRel r] {l l' : List α}

/-- A sort by a relation that is total and transitive on the elements of a list. -/
theorem pairwise_insertionSort_of_total (htotal : ∀ a ∈ l, ∀ b ∈ l, r a b ∨ r b a)
    (htrans : ∀ a ∈ l, ∀ b ∈ l, ∀ c ∈ l, r a b → r b c → r a c) : (l.insertionSort r).Pairwise r := by
  -- The elements of the list alone are a type that the relation orders.
  let s : {x // x ∈ l} → {x // x ∈ l} → Prop := fun a b => r a b
  have : DecidableRel s := fun a b => inferInstanceAs (Decidable (r a b))
  have : Std.Total s := ⟨fun a b => htotal a a.2 b b.2⟩
  have : IsTrans _ s := ⟨fun a b c => htrans a a.2 b b.2 c c.2⟩
  have hleft : l.insertionSort r = (l.attach.insertionSort s).map (·.1) := by
    have hmap := List.map_insertionSort (r := s) (s := r) Subtype.val l.attach fun _ _ _ _ => Iff.rfl
    rw [hmap, List.attach_map_subtype_val]
  rw [hleft]
  exact List.pairwise_map.mpr (List.pairwise_insertionSort s l.attach)

theorem insertionSort_eq_of_perm (hr : ∀ a ∈ l, ∀ b ∈ l, (r a b ↔ key a ≤ key b))
    (hinj : ∀ a ∈ l, ∀ b ∈ l, key a = key b → a = b) (hperm : l.Perm l') : l.insertionSort r = l'.insertionSort r := by
  have hsorted : ∀ {m : List α}, m.Perm l → (m.insertionSort r).Pairwise r := by
    intro m hm
    refine pairwise_insertionSort_of_total (fun a ha b hb => ?_) fun a ha b hb c hc hab hbc => ?_
    · rw [hr a (hm.mem_iff.mp ha) b (hm.mem_iff.mp hb), hr b (hm.mem_iff.mp hb) a (hm.mem_iff.mp ha)]
      exact le_total _ _
    · rw [hr a (hm.mem_iff.mp ha) c (hm.mem_iff.mp hc)]
      exact ((hr a (hm.mem_iff.mp ha) b (hm.mem_iff.mp hb)).mp hab).trans
        ((hr b (hm.mem_iff.mp hb) c (hm.mem_iff.mp hc)).mp hbc)
  have hboth := ((List.perm_insertionSort r l).trans hperm).trans (List.perm_insertionSort r l').symm
  refine hboth.eq_of_pairwise (fun a b ha hb hab hba => ?_) (hsorted (.refl l)) (hsorted hperm.symm)
  have ha := (List.mem_insertionSort r).mp ha
  have hb := hperm.mem_iff.mpr ((List.mem_insertionSort r).mp hb)
  exact hinj a ha b hb (le_antisymm ((hr a ha b hb).mp hab) ((hr b hb a ha).mp hba))

/-! ### Sorting by a comparison -/

/-- A comparison orders the elements of a list totally. -/
structure TotalOn (cmp : α → α → Ordering) (l : List α) : Prop where
  total : ∀ a ∈ l, ∀ b ∈ l, cmp b a = (cmp a b).swap
  trans : ∀ a ∈ l, ∀ b ∈ l, ∀ c ∈ l, cmp a b ≠ .gt → cmp b c ≠ .gt → cmp a c ≠ .gt

/-- The in-place sort of a standard library by a comparison. It permutes the list whatever the comparison is; what order
it leaves where the comparison is not a total order is not said. -/
structure SliceSort (α : Type) where
  sortBy : (α → α → Ordering) → List α → List α
  perm : ∀ cmp l, (sortBy cmp l).Perm l
  sorted : ∀ cmp l, TotalOn cmp l → (sortBy cmp l).Pairwise fun a b => cmp a b ≠ .gt

/-- Where the comparison also tells the elements apart, the order of the list does not matter. -/
theorem SliceSort.sortBy_eq_of_perm {sort : SliceSort α} {cmp : α → α → Ordering} (h : TotalOn cmp l)
    (hanti : ∀ a ∈ l, ∀ b ∈ l, cmp a b ≠ .gt → cmp b a ≠ .gt → a = b) (hperm : l'.Perm l) :
    sort.sortBy cmp l' = sort.sortBy cmp l := by
  have h' : TotalOn cmp l' := ⟨fun a ha b hb => h.total a (hperm.mem_iff.mp ha) b (hperm.mem_iff.mp hb),
    fun a ha b hb c hc => h.trans a (hperm.mem_iff.mp ha) b (hperm.mem_iff.mp hb) c (hperm.mem_iff.mp hc)⟩
  have hboth := ((sort.perm cmp l').trans hperm).trans (sort.perm cmp l).symm
  refine hboth.eq_of_pairwise (fun a b ha hb hab hba => ?_) (sort.sorted cmp l' h') (sort.sorted cmp l h)
  exact hanti a (hperm.mem_iff.mp ((sort.perm cmp l').mem_iff.mp ha)) b ((sort.perm cmp l).mem_iff.mp hb) hab hba

/-- Each element in turn is put before the elements at the end of the sorted ones that it is less than. The sorted ones
are held last first. -/
def insertionSortShiftLeft (cmp : α → α → Ordering) (l : List α) : List α :=
  (l.foldl (fun sorted x => sorted.orderedInsert (fun a b => cmp a b ≠ .lt) x) []).reverse

theorem insertionSortShiftLeft_eq (cmp : α → α → Ordering) (l : List α) :
    insertionSortShiftLeft cmp l = (l.reverse.insertionSort fun a b => cmp a b ≠ .lt).reverse := by
  rw [insertionSortShiftLeft, List.insertionSort, List.foldr_reverse]

/-- What a stable sort does with a short list. -/
def SliceSort.insertion : SliceSort α where
  sortBy := insertionSortShiftLeft
  perm cmp l := by
    rw [insertionSortShiftLeft_eq]
    exact ((List.reverse_perm _).trans (List.perm_insertionSort _ _)).trans (List.reverse_perm l)
  sorted cmp l h := by
    have hswap : ∀ a ∈ l, ∀ b ∈ l, (cmp a b ≠ .lt ↔ cmp b a ≠ .gt) := by
      intro a ha b hb
      rw [h.total a ha b hb]
      cases cmp a b <;> simp
    rw [insertionSortShiftLeft_eq, List.pairwise_reverse]
    have hmem : ∀ {x}, x ∈ l.reverse.insertionSort (fun a b => cmp a b ≠ .lt) → x ∈ l := fun hx =>
      List.mem_reverse.mp ((List.mem_insertionSort _).mp hx)
    refine List.Pairwise.imp_of_mem (fun ha hb hab => (hswap _ (hmem ha) _ (hmem hb)).mp hab)
      (pairwise_insertionSort_of_total (fun a ha b hb => ?_) fun a ha b hb c hc hab hbc => ?_)
    · rw [h.total a (List.mem_reverse.mp ha) b (List.mem_reverse.mp hb)]
      cases cmp a b <;> simp
    · have ha := List.mem_reverse.mp ha
      have hb := List.mem_reverse.mp hb
      have hc := List.mem_reverse.mp hc
      rw [hswap a ha c hc]
      exact h.trans c hc b hb a ha ((hswap b hb c hc).mp hbc) ((hswap a ha b hb).mp hab)

/-! ### Groups -/

/-- A list is what its groups hold together, where the keys name each group once. -/
theorem flatMap_filter_perm {β ι : Type} [DecidableEq ι] {f : β → ι} {keys : List ι} {l : List β} (hnodup : keys.Nodup)
    (hkeys : ∀ b ∈ l, f b ∈ keys) : (keys.flatMap fun s => l.filter (f · = s)).Perm l := by
  induction l with
  | nil => simp
  | cons b l ih =>
    obtain ⟨before, after, rfl⟩ := List.append_of_mem (hkeys b List.mem_cons_self)
    have hrest := ih fun x hx => hkeys x (List.mem_cons_of_mem _ hx)
    have hother : ∀ s ∈ before ++ after, (b :: l).filter (f · = s) = l.filter (f · = s) := by
      intro s hs
      refine List.filter_cons_of_neg ?_
      have hne : s ≠ f b := by
        rintro rfl
        exact (List.nodup_middle.mp hnodup).notMem hs
      simpa using hne.symm
    rw [List.flatMap_append, List.flatMap_cons] at hrest ⊢
    rw [List.flatMap_congr fun s hs => hother s (List.mem_append_left _ hs),
      List.flatMap_congr fun s hs => hother s (List.mem_append_right _ hs), List.filter_cons_of_pos (by simp)]
    exact List.perm_middle.trans (hrest.cons b)

theorem lookup_eq_some_iff_mem {β ι : Type} [BEq ι] [LawfulBEq ι] {l : List (ι × β)}
    (hone : ∀ e ∈ l, ∀ e' ∈ l, e.1 = e'.1 → e.2 = e'.2) {a : ι} {b : β} : l.lookup a = some b ↔ (a, b) ∈ l := by
  constructor
  · intro h
    obtain ⟨before, after, heq, -⟩ := List.lookup_eq_some_iff.mp h
    exact heq ▸ List.mem_append_right _ List.mem_cons_self
  · intro h
    cases hlookup : l.lookup a with
    | none =>
      have hne := List.lookup_eq_none_iff.mp hlookup (a, b) h
      simp at hne
    | some b' =>
      obtain ⟨before, after, heq, -⟩ := List.lookup_eq_some_iff.mp hlookup
      exact congrArg some (hone (a, b') (heq ▸ List.mem_append_right _ List.mem_cons_self) (a, b) h rfl)

/-- Looking up a key does not depend on the order of a list that maps it to one value at most. -/
theorem lookup_eq_of_perm {β ι : Type} [BEq ι] [LawfulBEq ι] {l l' : List (ι × β)} (hperm : l.Perm l')
    (hone : ∀ e ∈ l, ∀ e' ∈ l, e.1 = e'.1 → e.2 = e'.2) (a : ι) : l.lookup a = l'.lookup a := by
  have hone' : ∀ e ∈ l', ∀ e' ∈ l', e.1 = e'.1 → e.2 = e'.2 := fun e he e' he' =>
    hone e (hperm.mem_iff.mpr he) e' (hperm.mem_iff.mpr he')
  ext b
  rw [lookup_eq_some_iff_mem hone, lookup_eq_some_iff_mem hone', hperm.mem_iff]

/-! ### The greatest elements -/

/-- The `n` greatest elements of a list. -/
def greatest (n : ℕ) (l : List κ) : List κ := (l.insertionSort (· ≥ ·)).take n

variable {n : ℕ} {x y : κ} {s t : List κ}

theorem mem_of_mem_greatest (h : x ∈ greatest n s) : x ∈ s := (List.mem_insertionSort _).mp (List.mem_of_mem_take h)

theorem greatest_eq_self (h : s.length ≤ n) : ∀ x ∈ s, x ∈ greatest n s := by
  intro x hx
  rw [greatest, List.take_of_length_le (by simpa using h)]
  exact (List.mem_insertionSort _).mpr hx

/-- What is greater than one of the greatest is one of them. -/
theorem mem_greatest_of_lt (hx : x ∈ greatest n s) (hy : y ∈ s) (hxy : x < y) : y ∈ greatest n s := by
  have hsorted : ((s.insertionSort (· ≥ ·)).take n ++ (s.insertionSort (· ≥ ·)).drop n).Pairwise (· ≥ ·) := by
    rw [List.take_append_drop]
    exact List.pairwise_insertionSort _ s
  have hall : y ∈ (s.insertionSort (· ≥ ·)).take n ++ (s.insertionSort (· ≥ ·)).drop n := by
    rw [List.take_append_drop]
    exact (List.mem_insertionSort _).mpr hy
  rcases List.mem_append.mp hall with hy | hy
  · exact hy
  · exact absurd ((List.pairwise_append.mp hsorted).2.2 x hx y hy) (not_le_of_gt hxy)

variable [DecidableEq κ]

theorem card_greatest_le : (greatest n s).toFinset.card ≤ n :=
  (List.toFinset_card_le _).trans (List.length_take_le n _)

theorem card_greatest (hs : s.Nodup) (hn : n ≤ s.length) : (greatest n s).toFinset.card = n := by
  have hnodup : (greatest n s).Nodup :=
    ((List.perm_insertionSort (· ≥ ·) s).nodup_iff.mpr hs).sublist (List.take_sublist n _)
  rw [List.toFinset_card_of_nodup hnodup, greatest, List.length_take, List.length_insertionSort, Nat.min_eq_left hn]

/-- Where the greatest of `t` are among those of `s`, what is greater than one of them is too. -/
theorem greatest_of_subset (ht : t.Nodup) (hsub : ∀ z ∈ greatest n t, z ∈ greatest n s) (hx : x ∈ greatest n s)
    (hy : y ∈ s ∨ y ∈ t) (hxy : x < y) : y ∈ greatest n s := by
  rcases hy with hy | hy
  · exact mem_greatest_of_lt hx hy hxy
  · by_cases hmem : y ∈ greatest n t
    · exact hsub y hmem
    · -- Otherwise `t` has its `n` greatest above `y`, and these are all there are in `s`.
      have hlong : n ≤ t.length := by
        by_contra hshort
        exact hmem (greatest_eq_self (by omega) y hy)
      have heq : (greatest n t).toFinset = (greatest n s).toFinset :=
        Finset.eq_of_subset_of_card_le (fun z hz => List.mem_toFinset.mpr (hsub z (List.mem_toFinset.mp hz)))
          (card_greatest_le.trans (card_greatest ht hlong).ge)
      have hx' : x ∈ greatest n t := List.mem_toFinset.mp (heq ▸ List.mem_toFinset.mpr hx)
      exact absurd (mem_greatest_of_lt hx' hy hxy) hmem

/-- The `n` greatest of two lists together are at most `n` and the greatest of all exactly when there are at most `n`
of all, or the greatest of one list are among those of the other. -/
theorem greatest_union (hs : s.Nodup) (ht : t.Nodup) :
    ((greatest n s ++ greatest n t).toFinset.card ≤ n ∧ ∀ x ∈ greatest n s ++ greatest n t, ∀ y ∈ s ++ t, x < y →
      y ∈ greatest n s ++ greatest n t) ↔
    (s ++ t).toFinset.card ≤ n ∨ (∀ x ∈ greatest n t, x ∈ greatest n s) ∨ ∀ x ∈ greatest n s, x ∈ greatest n t := by
  have hleft : (greatest n s).toFinset ⊆ (greatest n s ++ greatest n t).toFinset := by simp
  have hright : (greatest n t).toFinset ⊆ (greatest n s ++ greatest n t).toFinset := by simp
  constructor
  · rintro ⟨hcard, -⟩
    by_cases hlong : n ≤ s.length
    · -- The greatest of `s` are as many as there may be.
      have heq := Finset.eq_of_subset_of_card_le hleft (hcard.trans (card_greatest hs hlong).ge)
      exact Or.inr (Or.inl fun x hx => List.mem_toFinset.mp (heq ▸ hright (List.mem_toFinset.mpr hx)))
    · by_cases hlong' : n ≤ t.length
      · have heq := Finset.eq_of_subset_of_card_le hright (hcard.trans (card_greatest ht hlong').ge)
        exact Or.inr (Or.inr fun x hx => List.mem_toFinset.mp (heq ▸ hleft (List.mem_toFinset.mpr hx)))
      · refine Or.inl ((Finset.card_le_card fun x hx => ?_).trans hcard)
        rw [List.mem_toFinset, List.mem_append] at hx ⊢
        exact hx.imp (greatest_eq_self (by omega) x) (greatest_eq_self (by omega) x)
  · rintro (hfew | hsub | hsub)
    · have hall : ∀ y ∈ s ++ t, y ∈ greatest n s ++ greatest n t := by
        have hlen : s.length ≤ n := by
          rw [← List.toFinset_card_of_nodup hs]
          exact (Finset.card_le_card (by simp)).trans hfew
        have hlen' : t.length ≤ n := by
          rw [← List.toFinset_card_of_nodup ht]
          exact (Finset.card_le_card (by simp)).trans hfew
        intro y hy
        rw [List.mem_append] at hy ⊢
        exact hy.imp (greatest_eq_self hlen y) (greatest_eq_self hlen' y)
      refine ⟨(Finset.card_le_card fun x hx => ?_).trans hfew, fun x _ y hy _ => hall y hy⟩
      rw [List.mem_toFinset, List.mem_append] at hx ⊢
      exact hx.imp mem_of_mem_greatest mem_of_mem_greatest
    · have hback : ∀ x ∈ greatest n s ++ greatest n t, x ∈ greatest n s := fun x hx =>
        (List.mem_append.mp hx).elim (fun hx => hx) (hsub x)
      refine ⟨(Finset.card_le_card fun x hx => ?_).trans (card_greatest_le (s := s)), fun x hx y hy hxy => ?_⟩
      · exact List.mem_toFinset.mpr (hback x (List.mem_toFinset.mp hx))
      · exact List.mem_append_left _ (greatest_of_subset ht hsub (hback x hx) (List.mem_append.mp hy) hxy)
    · have hback : ∀ x ∈ greatest n s ++ greatest n t, x ∈ greatest n t := fun x hx =>
        (List.mem_append.mp hx).elim (hsub x) fun hx => hx
      refine ⟨(Finset.card_le_card fun x hx => ?_).trans (card_greatest_le (s := t)), fun x hx y hy hxy => ?_⟩
      · exact List.mem_toFinset.mpr (hback x (List.mem_toFinset.mp hx))
      · exact List.mem_append_right _ (greatest_of_subset hs hsub (hback x hx) (List.mem_append.mp hy).symm hxy)

end Sorting
