import Mathlib

/-! # Transactions over rows with locks

What a transaction under READ COMMITTED sees and leaves behind: the committed rows without those it has deleted,
and the rows it has inserted. And the order of locks: where everyone asks for a lock above those it holds, nobody
waits in a circle. -/

/-- The writes of a transaction and the keys whose locks it holds. -/
structure Txn (ρ κ : Type) where
  ins : List ρ
  del : List κ
  held : List κ

namespace Txn
variable {ρ κ : Type} {key : ρ → κ} {rows : List ρ} {t : Txn ρ κ} {r : ρ} {k : κ}

/-- A transaction that has done nothing. -/
def empty : Txn ρ κ := ⟨[], [], []⟩

/-- What the next statement of the transaction reads, and what is committed once it commits. -/
def view [DecidableEq κ] (key : ρ → κ) (rows : List ρ) (t : Txn ρ κ) : List ρ := rows.filter (fun r => key r ∉ t.del) ++ t.ins

def lock (t : Txn ρ κ) (k : κ) : Txn ρ κ := { t with held := k :: t.held }

def delete (t : Txn ρ κ) (k : κ) : Txn ρ κ := { t with del := k :: t.del, held := k :: t.held }

def insert (key : ρ → κ) (t : Txn ρ κ) (r : ρ) : Txn ρ κ := { t with ins := r :: t.ins, held := key r :: t.held }

theorem mem_view [DecidableEq κ] : r ∈ view key rows t ↔ r ∈ rows ∧ key r ∉ t.del ∨ r ∈ t.ins := by
  simp [view]

@[simp] theorem view_empty [DecidableEq κ] : view key rows empty = rows := by
  simp [view, empty]

/-- A transaction writes only under locks it holds. -/
structure Guarded (key : ρ → κ) (t : Txn ρ κ) : Prop where
  ins : ∀ r ∈ t.ins, key r ∈ t.held
  del : ∀ k ∈ t.del, k ∈ t.held

theorem guarded_empty : Guarded key (empty : Txn ρ κ) := ⟨by simp [empty], by simp [empty]⟩

theorem Guarded.lock (h : Guarded key t) (k : κ) : Guarded key (t.lock k) :=
  ⟨fun r hr => List.mem_cons_of_mem _ (h.ins r hr), fun d hd => List.mem_cons_of_mem _ (h.del d hd)⟩

theorem Guarded.delete (h : Guarded key t) (k : κ) : Guarded key (t.delete k) := by
  refine ⟨fun r hr => List.mem_cons_of_mem _ (h.ins r hr), fun d hd => ?_⟩
  rcases List.mem_cons.mp hd with rfl | hd
  · exact List.mem_cons_self
  · exact List.mem_cons_of_mem _ (h.del d hd)

theorem Guarded.insert (h : Guarded key t) (r : ρ) : Guarded key (t.insert key r) := by
  refine ⟨fun x hx => ?_, fun d hd => List.mem_cons_of_mem _ (h.del d hd)⟩
  rcases List.mem_cons.mp hx with rfl | hx
  · exact List.mem_cons_self
  · exact List.mem_cons_of_mem _ (h.ins x hx)

/-- A row under a lock that a transaction does not hold is committed by it as it was. -/
theorem Guarded.mem_view_iff [DecidableEq κ] (h : Guarded key t) (hk : key r ∉ t.held) : r ∈ view key rows t ↔ r ∈ rows := by
  rw [mem_view]
  constructor
  · rintro (⟨hr, -⟩ | hr)
    · exact hr
    · exact absurd (h.ins r hr) hk
  · exact fun hr => .inl ⟨hr, fun hd => hk (h.del _ hd)⟩

end Txn

/-! ### Lock order -/

section
variable {ι κ : Type} [Preorder κ] {waits : ι → ι → Prop} {wants holds : ι → κ → Prop}

/-- Where a party waits for another only for a lock that the other holds, and wants only locks above those it
holds, no party waits for itself through others. -/
theorem waits_acyclic (hwait : ∀ i j, waits i j → ∃ k, wants i k ∧ holds j k)
    (hordered : ∀ i k k', wants i k → holds i k' → k' < k) (i : ι) : ¬Relation.TransGen waits i i := by
  have rises : ∀ {i j}, Relation.TransGen waits i j → ∃ k k', wants i k ∧ holds j k' ∧ k ≤ k' := by
    intro i j h
    induction h with
    | single h =>
      obtain ⟨k, hwants, hholds⟩ := hwait _ _ h
      exact ⟨k, k, hwants, hholds, le_rfl⟩
    | tail _ h ih =>
      obtain ⟨k, k', hwants, hholds, hle⟩ := ih
      obtain ⟨l, hwants', hholds'⟩ := hwait _ _ h
      exact ⟨k, l, hwants, hholds', hle.trans (hordered _ _ _ hwants' hholds).le⟩
  intro h
  obtain ⟨k, k', hwants, hholds, hle⟩ := rises h
  exact absurd (hordered _ _ _ hwants hholds) hle.not_gt

end
