import Llm386.Core.Block

/-! # What a block store is for

`Contents` is the abstract content of a block store: which blocks are stored, which sessions list them and
which edges link them. A `Catalog` also carries what every store promises: a block is stored under its own id,
content is stored once, and a block is stored exactly when some session lists it. The backends are compared
with the operations here. -/

namespace Llm386
open Classical

@[ext]
structure Contents where
  block : BlockId → Option ContextBlock
  lists : SessionId → Set BlockId
  edges : Set Edge

/-- An edge touches a block of `dead`. -/
def Edge.Touches (dead : Set BlockId) (e : Edge) : Prop := e.fromId ∈ dead ∨ e.toId ∈ dead

namespace Contents

/-- Nothing stored. -/
def empty : Contents := ⟨fun _ => none, fun _ => ∅, ∅⟩

variable (c : Contents)

/-- A block is stored under `id`. -/
def Stored (id : BlockId) : Prop := ∃ b, c.block id = some b

/-- `id` holds content with hash `h`. -/
def Holds (id : BlockId) (h : ContentHash) : Prop := ∃ b, c.block id = some b ∧ b.hash = h

/-- `ids` is the listing of a session: each id once, ascending. -/
structure IsListing (s : SessionId) (ids : List BlockId) : Prop where
  ascending : ids.Pairwise (· < ·)
  mem : ∀ {id}, id ∈ ids ↔ id ∈ c.lists s

/-- `ss` is the listing of the sessions that list something: each once, ascending. -/
structure IsSessionListing (ss : List SessionId) : Prop where
  ascending : ss.Pairwise (· < ·)
  mem : ∀ {s}, s ∈ ss ↔ ∃ id, id ∈ c.lists s

/-- Session `s` lists `id`. -/
def share (s : SessionId) (id : BlockId) : Contents :=
  { c with lists := fun s' => {x | x ∈ c.lists s' ∨ s' = s ∧ x = id} }

/-- Session `s` stores `b`. -/
noncomputable def store (s : SessionId) (b : ContextBlock) : Contents :=
  { c.share s b.id with block := fun x => if x = b.id then some b else c.block x }

/-- The link `e` is known; its ends need not be stored. -/
def link (e : Edge) : Contents := { c with edges := insert e c.edges }

/-- The blocks of `dead` are gone without a trace. -/
noncomputable def erase (dead : Set BlockId) : Contents where
  block x := if x ∈ dead then none else c.block x
  lists s := c.lists s \ dead
  edges := {e ∈ c.edges | ¬e.Touches dead}

/-- Session `s` lists nothing any more. -/
noncomputable def forget (s : SessionId) : Contents :=
  { c with lists := fun s' => if s' = s then ∅ else c.lists s' }

/-- The blocks that only session `s` lists. -/
def exclusive (s : SessionId) : Set BlockId := {id | id ∈ c.lists s ∧ ∀ s', id ∈ c.lists s' → s' = s}

/-- Session `s` is forgotten, with the blocks that only it lists. -/
noncomputable def purge (s : SessionId) : Contents := (c.forget s).erase (c.exclusive s)

variable {c}

theorem IsListing.nodup {s : SessionId} {ids : List BlockId} (h : c.IsListing s ids) : ids.Nodup :=
  h.ascending.imp fun hlt => hlt.ne

/-- A session has one listing. -/
theorem IsListing.unique {s : SessionId} {ids ids' : List BlockId} (h : c.IsListing s ids)
    (h' : c.IsListing s ids') : ids = ids' := by
  have hperm : ids.Perm ids' := (List.perm_ext_iff_of_nodup h.nodup h'.nodup).mpr fun id => h.mem.trans h'.mem.symm
  exact hperm.eq_of_pairwise (fun _ _ _ _ hab hba => absurd hab hba.asymm) h.ascending h'.ascending

theorem IsSessionListing.unique {ss ss' : List SessionId} (h : c.IsSessionListing ss)
    (h' : c.IsSessionListing ss') : ss = ss' := by
  have hperm : ss.Perm ss' := (List.perm_ext_iff_of_nodup (h.ascending.imp fun hlt => hlt.ne)
    (h'.ascending.imp fun hlt => hlt.ne)).mpr fun s => h.mem.trans h'.mem.symm
  exact hperm.eq_of_pairwise (fun _ _ _ _ hab hba => absurd hab hba.asymm) h.ascending h'.ascending

@[simp] theorem mem_forget {s s' : SessionId} {id : BlockId} :
    id ∈ (c.forget s).lists s' ↔ s' ≠ s ∧ id ∈ c.lists s' := by
  by_cases h : s' = s <;> simp [forget, h]

theorem mem_exclusive {s : SessionId} {id : BlockId} :
    id ∈ c.exclusive s ↔ id ∈ c.lists s ∧ ∀ s', id ∉ (c.forget s).lists s' := by
  simp only [exclusive, Set.mem_ofPred_eq, mem_forget, not_and]
  refine and_congr_right fun _ => forall_congr' fun s' => ?_
  tauto

theorem erase_empty : c.erase ∅ = c := by
  ext <;> simp [erase, Edge.Touches]

theorem erase_erase (d d' : Set BlockId) : (c.erase d).erase d' = c.erase (d ∪ d') := by
  ext x
  · by_cases hd : x ∈ d <;> by_cases hd' : x ∈ d' <;> simp [erase, hd, hd']
  · simp [erase, and_assoc]
  · simp only [erase, Edge.Touches, Set.mem_ofPred_eq, Set.mem_union]
    tauto

/-- Forgetting a session that lists nothing changes nothing. -/
theorem purge_of_unlisted {s : SessionId} (h : ∀ id, id ∉ c.lists s) : c.purge s = c := by
  have hforget : c.forget s = c := by
    ext s' x
    · rfl
    · rw [mem_forget, and_iff_right_iff_imp]
      rintro hx rfl
      exact h x hx
    · rfl
  have hnone : c.exclusive s = ∅ := Set.eq_empty_of_forall_notMem fun id hid => h id hid.1
  rw [purge, hforget, hnone, erase_empty]

theorem stored_store_iff {s : SessionId} {b : ContextBlock} {id : BlockId} :
    (c.store s b).Stored id ↔ id = b.id ∨ c.Stored id := by
  by_cases h : id = b.id <;> simp [Stored, Contents.store, h]

theorem holds_store_iff {s : SessionId} {b : ContextBlock} {id : BlockId} {h : ContentHash} :
    (c.store s b).Holds id h ↔ id = b.id ∧ b.hash = h ∨ id ≠ b.id ∧ c.Holds id h := by
  by_cases hid : id = b.id <;> simp [Holds, Contents.store, hid]

theorem stored_erase_iff {dead : Set BlockId} {id : BlockId} :
    (c.erase dead).Stored id ↔ id ∉ dead ∧ c.Stored id := by
  by_cases h : id ∈ dead <;> simp [Stored, Contents.erase, h]

theorem holds_erase_iff {dead : Set BlockId} {id : BlockId} {h : ContentHash} :
    (c.erase dead).Holds id h ↔ id ∉ dead ∧ c.Holds id h := by
  by_cases hd : id ∈ dead <;> simp [Holds, Contents.erase, hd]

theorem block_erase_eq_some {dead : Set BlockId} {id : BlockId} {b : ContextBlock} :
    (c.erase dead).block id = some b ↔ id ∉ dead ∧ c.block id = some b := by
  by_cases hd : id ∈ dead <;> simp [Contents.erase, hd]

end Contents

/-- Contents that keep the promises of a store. -/
structure Catalog extends Contents where
  block_id : ∀ {id b}, block id = some b → b.id = id
  hash_inj : ∀ {i j h}, toContents.Holds i h → toContents.Holds j h → i = j
  listed_stored : ∀ {s id}, id ∈ lists s → toContents.Stored id
  stored_listed : ∀ {id}, toContents.Stored id → ∃ s, id ∈ lists s

namespace Catalog
open Contents (mem_forget mem_exclusive Stored Holds stored_store_iff holds_store_iff stored_erase_iff holds_erase_iff block_erase_eq_some)

def empty : Catalog where
  toContents := .empty
  block_id h := by cases h
  hash_inj h := by
    obtain ⟨_, h, -⟩ := h
    cases h
  listed_stored h := h.elim
  stored_listed h := by
    obtain ⟨_, h⟩ := h
    cases h

variable (c : Catalog)

def share (s : SessionId) (id : BlockId) (stored : c.Stored id) : Catalog where
  toContents := c.toContents.share s id
  block_id := c.block_id
  hash_inj := c.hash_inj
  listed_stored h := by
    rcases h with h | ⟨-, rfl⟩
    · exact c.listed_stored h
    · exact stored
  stored_listed h := by
    obtain ⟨s', hs'⟩ := c.stored_listed h
    exact ⟨s', Or.inl hs'⟩

/-- New content under any id; content stored under that id before is gone. -/
noncomputable def store (s : SessionId) (b : ContextBlock) (new : ∀ id, ¬c.Holds id b.hash) : Catalog where
  toContents := c.toContents.store s b
  block_id {id a} h := by
    simp only [Contents.store] at h
    split at h
    · rename_i hid
      cases h
      exact hid.symm
    · exact c.block_id h
  hash_inj hi hj := by
    rcases holds_store_iff.mp hi with ⟨rfl, rfl⟩ | ⟨-, hi⟩ <;> rcases holds_store_iff.mp hj with ⟨rfl, hh⟩ | ⟨-, hj⟩
    · rfl
    · exact absurd hj (new _)
    · exact absurd (hh ▸ hi) (new _)
    · exact c.hash_inj hi hj
  listed_stored h := by
    rcases h with h | ⟨-, rfl⟩
    · exact stored_store_iff.mpr (Or.inr (c.listed_stored h))
    · exact stored_store_iff.mpr (Or.inl rfl)
  stored_listed h := by
    rcases stored_store_iff.mp h with rfl | h
    · exact ⟨s, Or.inr ⟨rfl, rfl⟩⟩
    · obtain ⟨s', hs'⟩ := c.stored_listed h
      exact ⟨s', Or.inl hs'⟩

def link (e : Edge) : Catalog where
  toContents := c.toContents.link e
  block_id := c.block_id
  hash_inj := c.hash_inj
  listed_stored := c.listed_stored
  stored_listed := c.stored_listed

noncomputable def erase (dead : Set BlockId) : Catalog where
  toContents := c.toContents.erase dead
  block_id h := c.block_id (block_erase_eq_some.mp h).2
  hash_inj hi hj := c.hash_inj (holds_erase_iff.mp hi).2 (holds_erase_iff.mp hj).2
  listed_stored h := stored_erase_iff.mpr ⟨h.2, c.listed_stored h.1⟩
  stored_listed h := by
    obtain ⟨hd, h⟩ := stored_erase_iff.mp h
    obtain ⟨s, hs⟩ := c.stored_listed h
    exact ⟨s, hs, hd⟩

noncomputable def purge (s : SessionId) : Catalog where
  toContents := c.toContents.purge s
  block_id h := c.block_id (block_erase_eq_some.mp h).2
  hash_inj hi hj := c.hash_inj (holds_erase_iff.mp hi).2 (holds_erase_iff.mp hj).2
  listed_stored {s' id} h := by
    obtain ⟨hl, hd⟩ := h
    exact stored_erase_iff.mpr ⟨hd, c.listed_stored (mem_forget.mp hl).2⟩
  stored_listed {id} h := by
    obtain ⟨hd, h⟩ := stored_erase_iff.mp h
    obtain ⟨s₁, hs₁⟩ := c.stored_listed h
    by_cases heq : s₁ = s
    · -- Not exclusive to `s`, so another session lists it.
      subst heq
      obtain ⟨s₂, hs₂⟩ : ∃ s₂, id ∈ (c.forget s₁).lists s₂ := by
        by_contra hall
        exact hd (mem_exclusive.mpr ⟨hs₁, not_exists.mp hall⟩)
      exact ⟨s₂, hs₂, hd⟩
    · exact ⟨s₁, mem_forget.mpr ⟨heq, hs₁⟩, hd⟩

variable {c}

theorem stored_iff_listed {id : BlockId} : c.Stored id ↔ ∃ s, id ∈ c.lists s :=
  ⟨c.stored_listed, fun ⟨_, h⟩ => c.listed_stored h⟩

end Catalog

end Llm386
