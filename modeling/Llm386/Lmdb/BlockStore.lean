import Llm386.Core.Page
import Llm386.Lmdb.Invariant

/-! # The LMDB store as the pager reads it

Whatever writes a store has seen, each block lies under its own id, so the store serves the reads of the pager. -/

namespace Llm386.LmdbStore
open KeyTable

variable {st st' : LmdbStore}

/-- Each block lies under its own id. -/
def OwnIds (st : LmdbStore) : Prop := ∀ (key : Bytes) (b : ContextBlock), st.blocksById[key]? = some b → key = b.id.raw.toBeBytes

/-- No block of `st'` is new. -/
def Within (st' st : LmdbStore) : Prop :=
  ∀ (key : Bytes) (b : ContextBlock), st'.blocksById[key]? = some b → st.blocksById[key]? = some b

theorem OwnIds.within (h : OwnIds st) (hw : Within st' st) : OwnIds st' := fun key b hb => h key b (hw key b hb)

theorem purgeEdgesForBlock_blocks {id : BlockId} (h : st.purgeEdgesForBlock id = .ok st') :
    st'.blocksById = st.blocksById := by
  obtain ⟨st₁, hout, h⟩ := Loop.bind_eq_ok.mp h
  obtain ⟨outgoing, -, hout⟩ := Loop.bind_eq_ok.mp hout
  obtain ⟨incoming, -, h⟩ := Loop.bind_eq_ok.mp h
  cases hout
  cases h
  rfl

theorem erase_within {key : Bytes} {s : LmdbStore} (h : s.blocksById = st.blocksById.erase key) : Within s st := by
  intro k b hb
  rw [h, Std.ExtTreeMap.getElem?_erase] at hb
  split at hb
  · cases hb
  · exact hb

theorem delete_within {id : BlockId} {existed : Bool} (h : st.delete id = .ok (existed, st')) : Within st' st := by
  simp only [delete] at h
  split at h
  · cases h
    exact fun _ _ hb => hb
  · obtain ⟨st₁, hpurge, h⟩ := Loop.bind_eq_ok.mp h
    cases h
    have hblocks := purgeEdgesForBlock_blocks hpurge
    split at hblocks
    · exact erase_within hblocks
    · exact fun key b hb => by rwa [hblocks] at hb

theorem purgeUnreferenced_within {id : BlockId} (h : st.purgeUnreferenced id = .ok st') : Within st' st := by
  unfold purgeUnreferenced at h
  split at h
  · cases h
    exact fun _ _ hb => hb
  · split at h
    · cases h
      exact fun _ _ hb => hb
    · exact erase_within (purgeEdgesForBlock_blocks h)

theorem purgeSession_within {s : SessionId} {count : Nat} (h : st.purgeSession s = .ok (count, st')) : Within st' st := by
  obtain ⟨ids, -, h⟩ := Loop.bind_eq_ok.mp h
  simp only at h
  split at h
  · cases h
    exact fun _ _ hb => hb
  · obtain ⟨st₁, hpurge, h⟩ := Loop.bind_eq_ok.mp h
    cases h
    refine Loop.foldlM_inv (P := fun s => Within s st) (fun id _ u v hu hv => ?_) (by exact fun _ _ hb => hb) hpurge
    exact fun key b hb => hu key b (purgeUnreferenced_within hv key b hb)

theorem put_ownIds {s : SessionId} {b : ContextBlock} {id : BlockId} (h : OwnIds st) (hput : st.put s b = .ok (id, st')) :
    OwnIds st' := by
  unfold put at hput
  split at hput
  · obtain ⟨existing, -, hput⟩ := Loop.bind_eq_ok.mp hput
    cases hput
    exact h
  · cases hput
    intro key a ha
    simp only [Std.ExtTreeMap.getElem?_insert] at ha
    split at ha
    · rename_i heq
      cases ha
      exact (Std.LawfulEqOrd.compare_eq_iff_eq.mp heq).symm
    · exact h key a ha

theorem exec_ownIds {op : WriteOp} (h : OwnIds st) (hexec : st.exec op = .ok st') : OwnIds st' := by
  cases op with
  | put s b =>
    obtain ⟨⟨id, st₁⟩, hput, heq⟩ := Loop.bind_eq_ok.mp hexec
    cases heq
    exact put_ownIds h hput
  | putEdge e =>
    cases hexec
    exact h
  | delete id =>
    obtain ⟨⟨existed, st₁⟩, hdelete, heq⟩ := Loop.bind_eq_ok.mp hexec
    cases heq
    exact h.within (delete_within hdelete)
  | purgeSession s =>
    obtain ⟨⟨count, st₁⟩, hpurge, heq⟩ := Loop.bind_eq_ok.mp hexec
    cases heq
    exact h.within (purgeSession_within hpurge)

/-- A block that an operation leaves was there before, or it is the one put. -/
theorem exec_get {op : WriteOp} (hexec : st.exec op = .ok st') {id : BlockId} {b : ContextBlock} (hb : st'.get id = some b) :
    st.get id = some b ∨ ∃ s, op = .put s b ∧ id = b.id := by
  cases op with
  | put s a =>
    obtain ⟨⟨newId, st₁⟩, hput, heq⟩ := Loop.bind_eq_ok.mp hexec
    cases heq
    unfold put at hput
    split at hput
    · obtain ⟨existing, -, hput⟩ := Loop.bind_eq_ok.mp hput
      cases hput
      exact .inl hb
    · cases hput
      simp only [get, Std.ExtTreeMap.getElem?_insert] at hb
      split at hb
      · rename_i heq
        cases hb
        exact .inr ⟨s, rfl, (blockId_bytes_inj.mp (Std.LawfulEqOrd.compare_eq_iff_eq.mp heq)).symm⟩
      · exact .inl hb
  | putEdge e =>
    cases hexec
    exact .inl hb
  | delete id =>
    obtain ⟨⟨existed, st₁⟩, hdelete, heq⟩ := Loop.bind_eq_ok.mp hexec
    cases heq
    exact .inl (delete_within hdelete _ _ hb)
  | purgeSession s =>
    obtain ⟨⟨count, st₁⟩, hpurge, heq⟩ := Loop.bind_eq_ok.mp hexec
    cases heq
    exact .inl (purgeSession_within hpurge _ _ hb)

/-- The stores that any operations reach from the empty one. -/
inductive Ran : LmdbStore → Prop
  | empty : Ran .empty
  | step {st st' : LmdbStore} {op : WriteOp} : Ran st → st.exec op = .ok st' → Ran st'

theorem Ran.ownIds (h : Ran st) : OwnIds st := by
  induction h with
  | empty => exact fun key b hb => by simp [LmdbStore.empty] at hb
  | step _ hexec ih => exact exec_ownIds ih hexec

theorem Reachable.ran {contentHashOf : Bytes → ContentHash} (h : Reachable contentHashOf st) : Ran st := by
  induction h with
  | empty => exact .empty
  | step _ _ hexec ih => exact ih.step hexec

/-- The reads of a store. -/
def blockStore (st : LmdbStore) (h : Ran st) : BlockStore where
  get id := .ok (st.get id)
  listSession := st.listSession
  edgesFrom := st.edgesFrom
  edgesTo := st.edgesTo
  get_id hb := (blockId_bytes_inj.mp (h.ownIds _ _ (Except.ok.inj hb))).symm

end Llm386.LmdbStore
