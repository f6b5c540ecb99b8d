import Mathlib

/-! # Truncating a ranking

A list whose ids ascend is sorted by rank, best first, and cut after `k` elements. A stable sort keeps the lowest
ids of the rank that the cut goes through, a sort that breaks ties by the greatest id keeps the highest. The two
cuts keep the same elements exactly when no rank lies on both sides of the cut. -/

namespace Truncation
variable {α κ ι : Type} [LinearOrder κ] [LinearOrder ι]

/-- Best rank first, equal ranks in the order of the list. -/
def byRank (rank : α → κ) (l : List α) : List α := l.insertionSort fun a b => rank b ≤ rank a

/-- Best rank first, equal ranks by the greatest id. -/
def newestFirst (rank : α → κ) (ident : α → ι) (l : List α) : List α :=
  byRank (fun a => toLex (rank a, ident a)) l

/-- Elements of one rank on both sides of a cut after `k`. -/
def Straddles (rank : α → κ) (l : List α) (k : ℕ) : Prop :=
  ∃ v ∈ l, l.countP (fun x => rank v < rank x) < k ∧ k < l.countP fun x => rank v ≤ rank x

variable {rank : α → κ} {ident : α → ι} {l s : List α} {k : ℕ} {x : α}

/-! ### Sorting -/

theorem byRank_perm (rank : α → κ) (l : List α) : (byRank rank l).Perm l := List.perm_insertionSort _ _

theorem pairwise_byRank (rank : α → κ) (l : List α) : (byRank rank l).Pairwise fun a b => rank b ≤ rank a := by
  have : Std.Total fun a b : α => rank b ≤ rank a := ⟨fun a b => le_total (rank b) (rank a)⟩
  have : IsTrans α fun a b => rank b ≤ rank a := ⟨fun _ _ _ hab hbc => hbc.trans hab⟩
  exact List.pairwise_insertionSort _ _

/-- The stable sort of a list whose ids ascend puts the lowest id of a rank first. -/
theorem byRank_of_ascending (ascending : l.Pairwise fun a b => ident a < ident b) :
    byRank rank l = byRank (fun a => toLex (rank a, OrderDual.toDual (ident a))) l := by
  induction l with
  | nil => rfl
  | cons a l ih =>
    obtain ⟨hfirst, hrest⟩ := List.pairwise_cons.mp ascending
    have hle : ∀ b ∈ byRank rank l, (toLex (rank b, OrderDual.toDual (ident b)) ≤
        toLex (rank a, OrderDual.toDual (ident a)) ↔ rank b ≤ rank a) := by
      intro b hb
      have hid := hfirst b ((byRank_perm rank l).mem_iff.mp hb)
      rw [Prod.Lex.toLex_le_toLex, le_iff_lt_or_eq (a := rank b)]
      exact or_congr_right (and_iff_left (OrderDual.toDual_le_toDual.mpr hid.le))
    show (byRank rank l).orderedInsert _ a = (byRank _ l).orderedInsert _ a
    rw [← ih hrest]
    generalize byRank rank l = sorted at hle
    induction sorted with
    | nil => rfl
    | cons b sorted ihs =>
      rw [List.orderedInsert, List.orderedInsert, ihs fun c hc => hle c (List.mem_cons_of_mem _ hc)]
      exact if_congr (hle b List.mem_cons_self).symm rfl rfl

/-! ### The cut of a sorted list -/

/-- What few elements rank as high as is kept. -/
theorem mem_take_of_count (sorted : s.Pairwise fun a b => rank b ≤ rank a) (hx : x ∈ s)
    (few : s.countP (fun y => rank x ≤ rank y) ≤ k) : x ∈ s.take k := by
  by_contra hcut
  have hdrop : x ∈ s.drop k := by
    rw [← List.take_append_drop k s, List.mem_append] at hx
    exact hx.resolve_left hcut
  have hk : k < s.length := by
    by_contra hshort
    rw [List.drop_eq_nil_of_le (by omega)] at hdrop
    cases hdrop
  rw [← List.take_append_drop k s] at sorted few
  have habove := (List.pairwise_append.mp sorted).2.2
  have htake : (s.take k).countP (fun y => rank x ≤ rank y) = (s.take k).length :=
    List.countP_eq_length.mpr fun y hy => by simpa using habove y hy x hdrop
  have hpos : 0 < (s.drop k).countP fun y => rank x ≤ rank y :=
    List.countP_pos_iff.mpr ⟨x, hdrop, by simp⟩
  rw [List.countP_append, htake, List.length_take] at few
  omega

/-- What `k` elements outrank is cut. -/
theorem notMem_take_of_count (sorted : s.Pairwise fun a b => rank b ≤ rank a)
    (many : k ≤ s.countP fun y => rank x < rank y) : x ∉ s.take k := by
  intro hx
  rw [← List.take_append_drop k s] at sorted many
  have habove := (List.pairwise_append.mp sorted).2.2
  have hdrop : (s.drop k).countP (fun y => rank x < rank y) = 0 :=
    List.countP_eq_zero.mpr fun y hy => by simpa using habove x hx y hy
  have htake : (s.take k).countP (fun y => rank x < rank y) < (s.take k).length :=
    List.countP_lt_length_iff.mpr ⟨x, hx, by simp⟩
  rw [List.countP_append, hdrop] at many
  rw [List.length_take] at htake
  omega

theorem countP_le_add {p q r : α → Bool} (h : ∀ y ∈ l, p y → q y ∨ r y) :
    l.countP p ≤ l.countP q + l.countP r := by
  induction l with
  | nil => simp
  | cons y l ih =>
    have hrest := ih fun z hz => h z (List.mem_cons_of_mem _ hz)
    have hy := h y List.mem_cons_self
    rw [List.countP_cons, List.countP_cons, List.countP_cons]
    cases hp : p y <;> cases hq : q y <;> cases hr : r y <;> simp_all <;> omega

theorem countP_ident_le_one (ascending : l.Pairwise fun a b => ident a < ident b) (i : ι) :
    l.countP (fun y => ident y = i) ≤ 1 := by
  have hnodup : (l.map ident).Nodup := List.pairwise_map.mpr (ascending.imp fun h => h.ne)
  have hcount : l.countP (fun y => ident y = i) = (l.map ident).count i := by
    rw [List.count, List.countP_map]
    exact List.countP_congr fun y _ => by simp
  rw [hcount]
  exact List.nodup_iff_count_le_one.mp hnodup i

/-! ### Two cuts -/

/-- The lowest id of a rank. -/
theorem exists_lowest (rank : α → κ) (ascending : l.Pairwise fun a b => ident a < ident b) {v : α} (hv : v ∈ l) :
    ∃ w ∈ l, rank w = rank v ∧ ∀ y ∈ l, rank y = rank v → ident w ≤ ident y := by
  have hmem : v ∈ l.filter (rank · = rank v) := List.mem_filter.mpr ⟨hv, by simp⟩
  have hasc : (l.filter (rank · = rank v)).Pairwise fun a b => ident a < ident b := ascending.filter _
  have hfilter : ∀ y, y ∈ l.filter (rank · = rank v) ↔ y ∈ l ∧ rank y = rank v := fun y => by simp
  generalize l.filter (rank · = rank v) = same at hmem hasc hfilter
  cases same with
  | nil => cases hmem
  | cons w same =>
    obtain ⟨hw, hrank⟩ := (hfilter w).mp List.mem_cons_self
    refine ⟨w, hw, hrank, fun y hy hyv => ?_⟩
    rcases List.mem_cons.mp ((hfilter y).mpr ⟨hy, hyv⟩) with rfl | hy
    · exact le_rfl
    · exact ((List.pairwise_cons.mp hasc).1 y hy).le

/-- The two cuts keep the same elements exactly when no rank lies on both sides of the cut. -/
theorem take_byRank_perm_iff (ascending : l.Pairwise fun a b => ident a < ident b) :
    ((byRank rank l).take k).Perm ((newestFirst rank ident l).take k) ↔ ¬Straddles rank l k := by
  have hstable : (byRank rank l).Perm l := byRank_perm rank l
  have hnewest : (newestFirst rank ident l).Perm l := byRank_perm _ l
  constructor
  · rintro hperm ⟨v, hv, hbetter, hsame⟩
    obtain ⟨w, hw, hrank, hlow⟩ := exists_lowest rank ascending hv
    have hone := countP_ident_le_one ascending (ident w)
    -- Of that rank the stable sort puts the lowest id first, so it is kept.
    have hkept : w ∈ (byRank rank l).take k := by
      rw [byRank_of_ascending ascending]
      refine mem_take_of_count (pairwise_byRank _ l) ((byRank_perm _ l).mem_iff.mpr hw) ?_
      rw [(byRank_perm _ l).countP_eq]
      refine (countP_le_add (q := fun y => rank v < rank y) (r := fun y => ident y = ident w) fun y hy hle => ?_).trans
        (by omega)
      simp only [decide_eq_true_eq, Prod.Lex.toLex_le_toLex, hrank] at hle ⊢
      exact hle.imp_right fun h => le_antisymm (OrderDual.toDual_le_toDual.mp h.2) (hlow y hy h.1.symm)
    -- The other sort puts it last, so it is cut.
    have hcut : w ∉ (newestFirst rank ident l).take k := by
      refine notMem_take_of_count (pairwise_byRank _ l) ?_
      rw [hnewest.countP_eq]
      have hle : l.countP (fun y => rank v ≤ rank y) ≤
          l.countP (fun y => toLex (rank w, ident w) < toLex (rank y, ident y)) + l.countP (fun y => ident y = ident w) := by
        refine countP_le_add fun y hy hle => ?_
        simp only [decide_eq_true_eq, Prod.Lex.toLex_lt_toLex, hrank] at hle ⊢
        rcases hle.lt_or_eq with hlt | heq
        · exact Or.inl (Or.inl hlt)
        · rcases (hlow y hy heq.symm).lt_or_eq with hid | hid
          · exact Or.inl (Or.inr ⟨heq, hid⟩)
          · exact Or.inr hid.symm
      omega
    exact hcut (hperm.mem_iff.mp hkept)
  · intro hclean
    have hnodup : l.Nodup := ascending.imp fun {a b} hlt heq => (heq ▸ hlt).false
    have hrank : (newestFirst rank ident l).Pairwise fun a b => rank b ≤ rank a := by
      refine (pairwise_byRank (fun a => toLex (rank a, ident a)) l).imp fun {a b} h => ?_
      exact (Prod.Lex.toLex_le_toLex.mp h).elim le_of_lt fun h => h.1.le
    have hleft : ((byRank rank l).take k).Nodup := (hstable.nodup_iff.mpr hnodup).sublist (List.take_sublist k _)
    have hright : ((newestFirst rank ident l).take k).Nodup :=
      (hnewest.nodup_iff.mpr hnodup).sublist (List.take_sublist k _)
    refine (List.perm_ext_iff_of_nodup hleft hright).mpr fun x => ?_
    -- Whether `x` is kept shows in how many elements rank above it.
    by_cases hx : x ∈ l
    · by_cases hbetter : l.countP (fun y => rank x < rank y) < k
      · have hfew : l.countP (fun y => rank x ≤ rank y) ≤ k := not_lt.mp fun h => hclean ⟨x, hx, hbetter, h⟩
        refine iff_of_true ?_ ?_
        · exact mem_take_of_count (pairwise_byRank rank l) (hstable.mem_iff.mpr hx) (by rwa [hstable.countP_eq])
        · exact mem_take_of_count hrank (hnewest.mem_iff.mpr hx) (by rwa [hnewest.countP_eq])
      · rw [not_lt] at hbetter
        refine iff_of_false ?_ ?_
        · exact notMem_take_of_count (pairwise_byRank rank l) (by rwa [hstable.countP_eq])
        · exact notMem_take_of_count hrank (by rwa [hnewest.countP_eq])
    · exact iff_of_false (fun h => hx (hstable.mem_iff.mp (List.mem_of_mem_take h)))
        fun h => hx (hnewest.mem_iff.mp (List.mem_of_mem_take h))

/-- Nothing that the newest-first cut drops ranks as high as, and has a higher id than, something it keeps. -/
theorem ident_lt_of_dropped {c d : α} (hc : c ∈ (newestFirst rank ident l).take k)
    (hd : d ∈ (newestFirst rank ident l).drop k) (hrank : rank d = rank c) : ident d ≤ ident c := by
  have hsorted : (newestFirst rank ident l).Pairwise fun a b => toLex (rank b, ident b) ≤ toLex (rank a, ident a) :=
    pairwise_byRank _ l
  rw [← List.take_append_drop k (newestFirst rank ident l)] at hsorted
  rcases Prod.Lex.toLex_le_toLex.mp ((List.pairwise_append.mp hsorted).2.2 c hc d hd) with hlt | hle
  · exact absurd hrank hlt.ne
  · exact hle.2

end Truncation
