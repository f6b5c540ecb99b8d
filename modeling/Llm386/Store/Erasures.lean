import Llm386.Store.Agreement

/-! # Erasures in any order

What deletes and purges leave, however many there are and in whatever order they come: it depends only on which blocks were
deleted and which sessions were purged. -/

namespace Llm386
open Contents

/-- The operation is a delete or a purge. -/
def StoreOp.Erases : StoreOp → Prop
  | .delete _ | .purgeSession _ => True
  | _ => False

/-- The blocks that some operation deletes. -/
def deletedBy (ops : List StoreOp) : Set BlockId := {id | .delete id ∈ ops}

/-- The sessions that some operation purges. -/
def purgedBy (ops : List StoreOp) : Set SessionId := {s | .purgeSession s ∈ ops}

variable {ops : List StoreOp} {op : StoreOp} {id : BlockId} {s : SessionId}

theorem deletedBy_append_delete : deletedBy (ops ++ [.delete id]) = insert id (deletedBy ops) := by
  ext x
  simp [deletedBy, or_comm]

theorem deletedBy_append_purge : deletedBy (ops ++ [.purgeSession s]) = deletedBy ops := by
  ext x
  simp [deletedBy]

theorem purgedBy_append_delete : purgedBy (ops ++ [.delete id]) = purgedBy ops := by
  ext x
  simp [purgedBy]

theorem purgedBy_append_purge : purgedBy (ops ++ [.purgeSession s]) = insert s (purgedBy ops) := by
  ext x
  simp [purgedBy, or_comm]

/-! ### What is left -/

namespace Contents
open Classical

variable (c : Contents) (D : Set BlockId) (S : Set SessionId)

/-- The blocks that are listed, and by sessions of `S` alone. -/
def confined : Set BlockId := {x | (∃ s, x ∈ c.lists s) ∧ ∀ s, x ∈ c.lists s → s ∈ S}

/-- The sessions of `S` list nothing any more. -/
noncomputable def forgetAll : Contents := { c with lists := fun s => if s ∈ S then ∅ else c.lists s }

/-- The blocks of `D` and those that only sessions of `S` list are gone without a trace, and these sessions list nothing. -/
noncomputable def without : Contents := (c.forgetAll S).erase (D ∪ c.confined S)

variable {c D S}

theorem mem_without {x : BlockId} : x ∈ (c.without D S).lists s ↔ (s ∉ S ∧ x ∈ c.lists s) ∧ x ∉ D := by
  have hlists : x ∈ (c.forgetAll S).lists s ↔ s ∉ S ∧ x ∈ c.lists s := by
    by_cases hs : s ∈ S <;> simp [forgetAll, hs]
  show x ∈ (c.forgetAll S).lists s ∧ x ∉ D ∪ c.confined S ↔ _
  rw [hlists, Set.mem_union, not_or]
  refine and_congr_right fun ⟨hs, hx⟩ => and_iff_left fun hconfined => hs (hconfined.2 s hx)

theorem without_empty : c.without ∅ ∅ = c := by
  have hnone : c.confined ∅ = ∅ := Set.eq_empty_of_forall_notMem fun x hx => hx.1.elim fun s hs => hx.2 s hs
  rw [without, hnone, Set.union_empty, erase_empty]
  simp [forgetAll]

theorem forget_forgetAll : (c.forgetAll S).forget s = c.forgetAll (insert s S) := by
  ext s' x
  · rfl
  · by_cases hs : s' = s <;> simp [forget, forgetAll, hs]
  · rfl

theorem forget_erase (dead : Set BlockId) : (c.erase dead).forget s = (c.forget s).erase dead := by
  ext s' x
  · rfl
  · by_cases hs : s' = s <;> simp [forget, erase, hs]
  · rfl

/-- One more block is deleted. -/
theorem erase_without (id : BlockId) : (c.without D S).erase {id} = c.without (insert id D) S := by
  rw [without, without, erase_erase, Set.union_singleton, Set.insert_union]

/-- One more session is purged. -/
theorem purge_without (s : SessionId) : (c.without D S).purge s = c.without D (insert s S) := by
  have hdead : D ∪ c.confined S ∪ (c.without D S).exclusive s = D ∪ c.confined (insert s S) := by
    ext x
    simp only [Set.mem_union, exclusive, confined, Set.mem_ofPred_eq, mem_without, Set.mem_insert_iff]
    constructor
    · rintro ((hD | ⟨hlisted, hall⟩) | ⟨⟨⟨-, hx⟩, hD⟩, honly⟩)
      · exact .inl hD
      · exact .inr ⟨hlisted, fun s' hs' => .inr (hall s' hs')⟩
      · refine .inr ⟨⟨s, hx⟩, fun s' hs' => ?_⟩
        by_cases hS : s' ∈ S
        · exact .inr hS
        · exact .inl (honly s' ⟨⟨hS, hs'⟩, hD⟩)
    · rintro (hD | ⟨hlisted, hall⟩)
      · exact .inl (.inl hD)
      · by_cases hD : x ∈ D
        · exact .inl (.inl hD)
        · by_cases hin : ∀ s', x ∈ c.lists s' → s' ∈ S
          · exact .inl (.inr ⟨hlisted, hin⟩)
          · -- A session outside `S` lists the block, and so it is `s`.
            obtain ⟨s', hs', hS⟩ : ∃ s', x ∈ c.lists s' ∧ s' ∉ S := by simpa using hin
            obtain rfl := (hall s' hs').resolve_right hS
            exact .inr ⟨⟨⟨hS, hs'⟩, hD⟩, fun s'' h => (hall s'' h.1.2).resolve_right h.1.1⟩
  rw [purge, without, forget_erase, forget_forgetAll, erase_erase]
  exact congrArg _ hdead

end Contents

/-! ### The two stores -/

variable {c c' : Catalog} {D : Set BlockId} {S : Set SessionId}

theorem stored_without (h : c'.toContents = c.toContents.without D S) :
    c'.Stored id ↔ id ∉ D ∪ c.toContents.confined S ∧ c.Stored id := by
  rw [Stored, h]
  exact stored_erase_iff

/-- A delete of a block that is still stored counts. -/
theorem without_delete_stored (h : c'.toContents = c.toContents.without {x ∈ D | c.Stored x} S) (stored : c'.Stored id) :
    c'.toContents.erase {id} = c.toContents.without {x ∈ insert id D | c.Stored x} S := by
  have hset : {x ∈ insert id D | c.Stored x} = insert id {x ∈ D | c.Stored x} := by
    ext x
    simp only [Set.mem_ofPred_eq, Set.mem_insert_iff]
    constructor
    · rintro ⟨hx | hx, hstored⟩
      · exact .inl hx
      · exact .inr ⟨hx, hstored⟩
    · rintro (hx | ⟨hx, hstored⟩)
      · exact ⟨.inl hx, hx ▸ ((stored_without h).mp stored).2⟩
      · exact ⟨.inr hx, hstored⟩
  rw [h, erase_without, hset]

/-- Any other delete does not. -/
theorem without_delete_absent (h : c'.toContents = c.toContents.without {x ∈ D | c.Stored x} S) (absent : ¬c'.Stored id) :
    c'.toContents = c.toContents.without {x ∈ insert id D | c.Stored x} S := by
  rw [h]
  by_cases stored : c.Stored id
  · have hgone : id ∈ {x ∈ D | c.Stored x} ∪ c.toContents.confined S :=
      by_contra fun hkept => absent ((stored_without h).mpr ⟨hkept, stored⟩)
    rw [without, without]
    congr 1
    ext x
    simp only [Set.mem_union, Set.mem_ofPred_eq, Set.mem_insert_iff]
    constructor
    · rintro (⟨hx, hstored⟩ | hx)
      · exact .inl ⟨.inr hx, hstored⟩
      · exact .inr hx
    · rintro (⟨rfl | hx, hstored⟩ | hx)
      · exact hgone
      · exact .inl ⟨hx, hstored⟩
      · exact .inr hx
  · congr 1
    ext x
    simp only [Set.mem_ofPred_eq, Set.mem_insert_iff]
    refine ⟨fun ⟨hx, hstored⟩ => ⟨.inr hx, hstored⟩, fun ⟨hx, hstored⟩ => ⟨hx.resolve_left ?_, hstored⟩⟩
    rintro rfl
    exact stored hstored

namespace LmdbStore
variable {st : LmdbStore}

/-- Erasures succeed, and leave the catalog without the stored blocks that they delete and the sessions that they purge. -/
theorem Represents.after_erasures (h : st.Represents c.toContents) (ops : List StoreOp) (herases : ∀ op ∈ ops, op.Erases) :
    (∀ r ∈ serve.answers st ops, ∃ a, r = .ok a) ∧ ∃ c' : Catalog, (serve.after st ops).Represents c'.toContents ∧
      c'.toContents = c.toContents.without {x ∈ deletedBy ops | c.Stored x} (purgedBy ops) := by
  induction ops using List.reverseRecOn with
  | nil => exact ⟨by simp [Machine.answers], c, h, by simp [deletedBy, purgedBy, without_empty]⟩
  | append_singleton ops op ih =>
    obtain ⟨hbefore, herase⟩ := List.forall_mem_append.mp herases
    obtain ⟨hanswers, c', h', heq⟩ := ih hbefore
    suffices hlast : ∃ a st', serve (serve.after st ops) op = (.ok a, st') ∧ ∃ c' : Catalog, st'.Represents c'.toContents ∧
        c'.toContents = c.toContents.without {x ∈ deletedBy (ops ++ [op]) | c.Stored x} (purgedBy (ops ++ [op])) by
      obtain ⟨a, st', hserve, hleft⟩ := hlast
      simp only [Machine.answers_append, Machine.after_append, Machine.answers, Machine.after, hserve]
      exact ⟨List.forall_mem_append.mpr ⟨hanswers, by simp⟩, hleft⟩
    cases op with
    | delete id =>
      rw [purgedBy_append_delete, deletedBy_append_delete]
      by_cases stored : c'.Stored id
      · obtain ⟨st', hdel, h''⟩ := h'.delete_stored stored
        exact ⟨_, st', by rw [serve, hdel]; rfl, c'.erase {id}, h'', without_delete_stored heq stored⟩
      · have hdel := h'.delete_absent stored fun s hs => stored (c'.listed_stored hs)
        exact ⟨_, _, by rw [serve, hdel]; rfl, c', h', without_delete_absent heq stored⟩
    | purgeSession s =>
      obtain ⟨ids, -, hlisting⟩ := h'.listSession_eq s
      obtain ⟨st', hpurge, h''⟩ := h'.purgeSession_eq (fun _ => c'.listed_stored) hlisting
      refine ⟨_, st', by rw [serve, hpurge]; rfl, c'.purge s, h'', ?_⟩
      show c'.toContents.purge s = _
      rw [heq, purge_without, deletedBy_append_purge, purgedBy_append_purge]
    | _ => exact (herase _ (List.mem_singleton_self _)).elim

end LmdbStore

namespace PgStore
variable {st : PgStore}

/-- Erasures succeed, and leave the catalog without the blocks that they delete and the sessions that they purge. -/
theorem Represents.after_erasures (pg : Postgres) (h : st.Represents c.toContents) (ops : List StoreOp)
    (herases : ∀ op ∈ ops, op.Erases) : (∀ r ∈ (serve pg).answers st ops, ∃ a, r = .ok a) ∧
      ∃ c' : Catalog, ((serve pg).after st ops).Represents c'.toContents ∧
        c'.toContents = c.toContents.without (deletedBy ops) (purgedBy ops) := by
  induction ops using List.reverseRecOn with
  | nil => exact ⟨by simp [Machine.answers], c, h, by simp [deletedBy, purgedBy, without_empty]⟩
  | append_singleton ops op ih =>
    obtain ⟨hbefore, herase⟩ := List.forall_mem_append.mp herases
    obtain ⟨hanswers, c', h', heq⟩ := ih hbefore
    suffices hlast : ∃ a st', serve pg ((serve pg).after st ops) op = (.ok a, st') ∧
        ∃ c' : Catalog, st'.Represents c'.toContents ∧
          c'.toContents = c.toContents.without (deletedBy (ops ++ [op])) (purgedBy (ops ++ [op])) by
      obtain ⟨a, st', hserve, hleft⟩ := hlast
      simp only [Machine.answers_append, Machine.after_append, Machine.answers, Machine.after, hserve]
      exact ⟨List.forall_mem_append.mpr ⟨hanswers, by simp⟩, hleft⟩
    cases op with
    | delete id =>
      refine ⟨_, _, rfl, c'.erase {id}, h'.delete_erase id, ?_⟩
      show c'.toContents.erase {id} = _
      rw [heq, erase_without, deletedBy_append_delete, purgedBy_append_delete]
    | purgeSession s =>
      obtain ⟨ids, -, hlisting⟩ := h'.listSession_eq s
      obtain ⟨st', hpurge, h''⟩ := h'.purgeSession_eq (fun _ => c'.listed_stored) hlisting
      refine ⟨_, st', by rw [serve, hpurge]; rfl, c'.purge s, h'', ?_⟩
      show c'.toContents.purge s = _
      rw [heq, purge_without, deletedBy_append_purge, purgedBy_append_purge]
    | _ => exact (herase _ (List.mem_singleton_self _)).elim

end PgStore

/-- On both stores, after any history, deletes and purges all succeed, and what they leave depends on which blocks they delete
and which sessions they purge alone: neither on their order nor on how often they come. -/
theorem erasures_commute {contentHashOf : Bytes → ContentHash} {st : LmdbStore} {pg : Postgres} (std : pg.Standard)
    (h : LmdbStore.Reachable contentHashOf st) (history : List StoreOp) :
    (∃ c : Catalog, st.Represents c.toContents ∧ ∀ ops : List StoreOp, (∀ op ∈ ops, op.Erases) →
      (∀ r ∈ LmdbStore.serve.answers st ops, ∃ a, r = .ok a) ∧ (LmdbStore.serve.after st ops).Represents
        (c.toContents.without {x ∈ deletedBy ops | c.Stored x} (purgedBy ops))) ∧
    ∃ c : Catalog, ((PgStore.serve pg).after .empty history).Represents c.toContents ∧
      ∀ ops : List StoreOp, (∀ op ∈ ops, op.Erases) →
        (∀ r ∈ (PgStore.serve pg).answers ((PgStore.serve pg).after .empty history) ops, ∃ a, r = .ok a) ∧
        ((PgStore.serve pg).after .empty (history ++ ops)).Represents (c.toContents.without (deletedBy ops) (purgedBy ops)) := by
  constructor
  · obtain ⟨c, hc, -⟩ := h.represents
    refine ⟨c, hc, fun ops herases => ?_⟩
    obtain ⟨hanswers, c', h', heq⟩ := hc.after_erasures ops herases
    exact ⟨hanswers, heq ▸ h'⟩
  · obtain ⟨c, -, hc⟩ := PgStore.explained_from (c := .empty) std PgStore.represents_empty history
    refine ⟨c, hc, fun ops herases => ?_⟩
    obtain ⟨hanswers, c', h', heq⟩ := hc.after_erasures pg ops herases
    rw [Machine.after_append]
    exact ⟨hanswers, heq ▸ h'⟩

def someErasures : List StoreOp := [.delete ⟨7⟩, .purgeSession ⟨1⟩]

/-- The purge before the delete, and again after it. -/
def reorderedErasures : List StoreOp := [.purgeSession ⟨1⟩, .delete ⟨7⟩, .purgeSession ⟨1⟩]

theorem erasures_commute_sample :
    (∃ c : Contents, (LmdbStore.serve.after LmdbStore.sampleStore someErasures).Represents c ∧
      (LmdbStore.serve.after LmdbStore.sampleStore reorderedErasures).Represents c) ∧
    ∃ c : Contents, ((PgStore.serve samplePostgres).after .empty (clearOps ++ someErasures)).Represents c ∧
      ((PgStore.serve samplePostgres).after .empty (clearOps ++ reorderedErasures)).Represents c := by
  have herases : (∀ op ∈ someErasures, op.Erases) ∧ ∀ op ∈ reorderedErasures, op.Erases := by
    simp [someErasures, reorderedErasures, StoreOp.Erases]
  have hdeleted : deletedBy reorderedErasures = deletedBy someErasures := by
    ext x
    simp [deletedBy, someErasures, reorderedErasures]
  have hpurged : purgedBy reorderedErasures = purgedBy someErasures := by
    ext x
    simp [purgedBy, someErasures, reorderedErasures]
  obtain ⟨⟨c, -, hlmdb⟩, c', -, hpg⟩ := erasures_commute samplePostgres_standard LmdbStore.sampleStore_reachable clearOps
  obtain ⟨-, hsome⟩ := hlmdb _ herases.1
  obtain ⟨-, hreordered⟩ := hlmdb _ herases.2
  obtain ⟨-, hsome'⟩ := hpg _ herases.1
  obtain ⟨-, hreordered'⟩ := hpg _ herases.2
  rw [hdeleted, hpurged] at hreordered hreordered'
  exact ⟨⟨_, hsome, hreordered⟩, _, hsome', hreordered'⟩

end Llm386
