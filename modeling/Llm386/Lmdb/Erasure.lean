import Llm386.Lmdb.Invariant

/-! # Erasure on LMDB

What the reads of the store see after `delete` and `purge_session`: nothing of the erased blocks, and everything
else as before. -/

namespace Llm386.LmdbStore
open Contents

/-- The reads of `st'` see nothing of the blocks of `dead` and all else that the reads of `st` see: contents, hash
entries and edges. The session lists are not part of it. -/
structure Erased (dead : Set BlockId) (st st' : LmdbStore) : Prop where
  get_dead : ∀ id ∈ dead, st'.get id = none
  get_other : ∀ id ∉ dead, st'.get id = st.get id
  lookup_ok : ∀ hash, ∃ r r', st.lookupHash hash = .ok r ∧ st'.lookupHash hash = .ok r'
  lookup_iff : ∀ hash id, st'.lookupHash hash = .ok (some id) ↔ st.lookupHash hash = .ok (some id) ∧ id ∉ dead
  edgesFrom_iff : ∀ id, ∃ es es', st.edgesFrom id = .ok es ∧ st'.edgesFrom id = .ok es' ∧
    ∀ e, e ∈ es' ↔ e ∈ es ∧ ¬e.Touches dead
  edgesTo_iff : ∀ id, ∃ es es', st.edgesTo id = .ok es ∧ st'.edgesTo id = .ok es' ∧
    ∀ e, e ∈ es' ↔ e ∈ es ∧ ¬e.Touches dead

variable {st st' : LmdbStore} {c c' : Contents}

/-- Tables that represent an erasure are seen as one, whatever became of the session lists. -/
theorem Represents.erased (h : st.Represents c) (h' : st'.Represents c') {dead : Set BlockId}
    (hblock : c'.block = (c.erase dead).block) (hedges : c'.edges = (c.erase dead).edges) : Erased dead st st' where
  get_dead id hid := by
    rw [h'.get_eq, hblock]
    simp [erase, hid]
  get_other id hid := by
    rw [h'.get_eq, h.get_eq, hblock]
    simp [erase, hid]
  lookup_ok hash := by
    obtain ⟨r, hr, -⟩ := h.lookupHash_eq hash
    obtain ⟨r', hr', -⟩ := h'.lookupHash_eq hash
    exact ⟨r, r', hr, hr'⟩
  lookup_iff hash id := by
    obtain ⟨r, hr, hiff⟩ := h.lookupHash_eq hash
    obtain ⟨r', hr', hiff'⟩ := h'.lookupHash_eq hash
    have hholds : c'.Holds id hash ↔ (c.erase dead).Holds id hash := by
      rw [Holds, hblock]
      rfl
    rw [hr, hr', Except.ok.injEq, Except.ok.injEq, hiff, hiff', hholds, holds_erase_iff, and_comm]
  edgesFrom_iff id := by
    obtain ⟨es, hes, hmem⟩ := h.edgesFrom_eq id
    obtain ⟨es', hes', hmem'⟩ := h'.edgesFrom_eq id
    refine ⟨es, es', hes, hes', fun e => ?_⟩
    rw [hmem, hmem', hedges]
    simp only [erase, Set.mem_ofPred_eq]
    tauto
  edgesTo_iff id := by
    obtain ⟨es, hes, hmem⟩ := h.edgesTo_eq id
    obtain ⟨es', hes', hmem'⟩ := h'.edgesTo_eq id
    refine ⟨es, es', hes, hes', fun e => ?_⟩
    rw [hmem, hmem', hedges]
    simp only [erase, Set.mem_ofPred_eq]
    tauto

/-- The listing of a session once `id` is erased. -/
theorem IsListing.filter {s : SessionId} {ids : List BlockId} (h : c.IsListing s ids) (id : BlockId) :
    (c.erase {id}).IsListing s (ids.filter (· ≠ id)) where
  ascending := h.ascending.filter _
  mem {x} := by simp [List.mem_filter, h.mem, erase]

/-- Where a purge runs, the exclusive blocks are those that no other session's list shows. -/
theorem Represents.exclusive_eq (h : st.Represents c) {s : SessionId} {ids : List BlockId} (hids : c.IsListing s ids) :
    c.exclusive s = {id | id ∈ ids ∧ ∀ s' ≠ s, ∀ ids', st.listSession s' = .ok ids' → id ∉ ids'} := by
  ext id
  rw [exclusive, Set.mem_ofPred_eq, Set.mem_ofPred_eq, hids.mem]
  refine and_congr_right fun _ => forall_congr' fun s' => ?_
  obtain ⟨ids', hlist, hids'⟩ := h.listSession_eq s'
  simp only [hlist, Except.ok.injEq, forall_eq', hids'.mem]
  tauto

/-- `delete` of a stored block leaves no trace of it and touches nothing else; `purge_session` does so with the
blocks that only its session lists, counts the session's blocks and empties its list. -/
theorem erasure_complete {contentHashOf : Bytes → ContentHash} (h : Reachable contentHashOf st) :
    (∀ id st', st.delete id = .ok (true, st') →
      Erased {id} st st' ∧
        ∀ s, ∃ ids, st.listSession s = .ok ids ∧ st'.listSession s = .ok (ids.filter (· ≠ id))) ∧
    ∀ s, ∃ ids st', st.listSession s = .ok ids ∧ st.purgeSession s = .ok (ids.length, st') ∧
      st'.listSession s = .ok [] ∧ (∀ s' ≠ s, st'.listSession s' = st.listSession s') ∧
      Erased {id | id ∈ ids ∧ ∀ s' ≠ s, ∀ ids', st.listSession s' = .ok ids' → id ∉ ids'} st st' := by
  obtain ⟨c, h, -⟩ := h.represents
  constructor
  · intro id st' hdel
    have stored : c.Stored id := by
      by_contra absent
      rw [h.delete_absent absent fun s hs => absent (c.listed_stored hs)] at hdel
      cases hdel
    obtain ⟨st₁, hst₁, h'⟩ := h.delete_stored stored
    obtain rfl : st₁ = st' := by
      rw [hst₁] at hdel
      cases hdel
      rfl
    refine ⟨h.erased h' rfl rfl, fun s => ?_⟩
    obtain ⟨ids, hlist, hids⟩ := h.listSession_eq s
    obtain ⟨ids', hlist', hids'⟩ := h'.listSession_eq s
    rw [hids'.unique (IsListing.filter hids id)] at hlist'
    exact ⟨ids, hlist, hlist'⟩
  · intro s
    obtain ⟨ids, hlist, hids⟩ := h.listSession_eq s
    obtain ⟨st', hpurge, h'⟩ := h.purgeSession_eq (fun _ => c.listed_stored) hids
    refine ⟨ids, st', hlist, hpurge, ?_, ?_, ?_⟩
    · obtain ⟨none, hnone, hids'⟩ := h'.listSession_eq s
      obtain rfl : none = [] := List.eq_nil_iff_forall_not_mem.mpr fun id hid =>
        (mem_forget.mp (hids'.mem.mp hid).1).1 rfl
      exact hnone
    · intro s' hne
      obtain ⟨ids₁, hlist₁, hids₁⟩ := h.listSession_eq s'
      obtain ⟨ids₂, hlist₂, hids₂⟩ := h'.listSession_eq s'
      -- Nothing that another session lists is exclusive to `s`.
      have hsame : (c.purge s).IsListing s' ids₁ := ⟨hids₁.ascending, fun {x} => by
        refine hids₁.mem.trans ⟨fun hx => ⟨mem_forget.mpr ⟨hne, hx⟩, fun hexcl => hne (hexcl.2 s' hx)⟩, fun hx => ?_⟩
        exact (mem_forget.mp hx.1).2⟩
      rw [hlist₁, hlist₂, hids₂.unique hsame]
    · rw [← h.exclusive_eq hids]
      exact h.erased h' rfl rfl

theorem erasure_complete_sample :
    (∃ st', sampleStore.delete ⟨7⟩ = .ok (true, st') ∧ Erased {⟨7⟩} sampleStore st') ∧
      ∃ st', sampleStore.purgeSession ⟨1⟩ = .ok (2, st') ∧ st'.listSession ⟨1⟩ = .ok [] := by
  obtain ⟨hdelete, hpurge⟩ := erasure_complete sampleStore_reachable
  constructor
  · have hstored : (sampleStore.delete ⟨7⟩).toOption.map (·.1) = some true := by decide +kernel
    cases hdel : sampleStore.delete ⟨7⟩ with
    | error e => simp [hdel, Except.toOption] at hstored
    | ok r =>
      obtain ⟨deleted, st'⟩ := r
      obtain rfl : deleted = true := by simpa [hdel, Except.toOption] using hstored
      exact ⟨st', rfl, (hdelete ⟨7⟩ st' hdel).1⟩
  · obtain ⟨ids, st', hlist, hst', hempty, -, -⟩ := hpurge ⟨1⟩
    have hids : sampleStore.listSession ⟨1⟩ = .ok [⟨7⟩, ⟨8⟩] := by decide +kernel
    obtain rfl : [⟨7⟩, ⟨8⟩] = ids := Except.ok.inj (hids.symm.trans hlist)
    exact ⟨st', hst', hempty⟩

end Llm386.LmdbStore
