import Llm386.Pg.Moves

/-! # Locks

A row is locked by one transaction at most, a lock is on a row that is there, and a transaction writes only rows it
has locked. -/

namespace Llm386.Pg

namespace Database
variable {db db' : Database} {i j : Nat} {t t' u : Tx} {k : RowKey}

theorem elsewhere_eq_false {p : Tx → Bool} :
    db.elsewhere i p = false ↔ ∀ j u, j ≠ i → db.txs[j]? = some u → p u = false := by
  unfold elsewhere
  rw [List.any_eq_false]
  constructor
  · intro h j u hj hu
    have hno := h (u, j) (List.mem_zipIdx_iff_getElem?.mpr hu)
    simpa [hj] using hno
  · rintro h ⟨u, j⟩ hu
    have hu := List.mem_zipIdx_iff_getElem?.mp hu
    by_cases hj : j = i
    · simp [hj]
    · simp [h j u hj hu]

theorem not_locked (h : db.lockedElsewhere i k = false) (hj : j ≠ i) (hu : db.txs[j]? = some u) : k ∉ u.txn.held := by
  simpa using elsewhere_eq_false.mp h j u hj hu

theorem not_written (h : db.writtenElsewhere i k = false) (hj : j ≠ i) (hu : db.txs[j]? = some u) :
    k ∉ u.txn.del ∧ ∀ r ∈ u.txn.ins, r.key ≠ k := by
  simpa using elsewhere_eq_false.mp h j u hj hu

theorem not_inserted {block b : ContextBlock} (h : db.insertedElsewhere i block = false) (hj : j ≠ i)
    (hu : db.txs[j]? = some u) (hb : Row.block b ∈ u.txn.ins) : b.hash ≠ block.hash ∧ b.id ≠ block.id := by
  have hno := List.any_eq_false.mp (elsewhere_eq_false.mp h j u hj hu) _ hb
  simpa using hno

theorem getElem?_setTx (ht : db.txs[i]? = some t) :
    (db.setTx i t').txs[j]? = some u ↔ j = i ∧ u = t' ∨ j ≠ i ∧ db.txs[j]? = some u := by
  have hi : i < db.txs.length := (List.getElem?_eq_some_iff.mp ht).1
  unfold setTx
  rw [List.getElem?_set]
  by_cases hj : i = j
  · simp [hj, hj ▸ hi, eq_comm]
  · simp [hj, Ne.symm hj]

/-- The last of the transactions is the new one. -/
theorem getElem?_append {v : Tx} : (db.txs ++ [v])[j]? = some u ↔ db.txs[j]? = some u ∨ j = db.txs.length ∧ u = v := by
  rw [List.getElem?_append]
  split
  · rename_i hj
    simp [hj.ne]
  · rename_i hj
    have hnone : db.txs[j]? = none := List.getElem?_eq_none (by omega)
    rw [hnone, List.getElem?_singleton]
    constructor
    · intro h
      split at h
      · cases h
        exact .inr ⟨by omega, rfl⟩
      · cases h
    · rintro (h | ⟨rfl, rfl⟩)
      · cases h
      · simp

end Database

/-! ### Locks -/

/-- What a transaction has written and locked before its inserts and after its end, and which statements scan. -/
def Tx.Shape (t : Tx) : Prop :=
  match t.phase with
  | .next (.upsertBlock _ _) | .next (.insertEdge _) | .finished _ => t.txn = .empty
  | .next (.insertSessionBlock _ stored) => t.txn.del = [] ∧ t.txn.held = [.block stored]
  | .scanning s _ _ _ => s.Scans
  | _ => True

structure Locked (db : Database) : Prop where
  guarded : ∀ {i : Nat} {t : Tx}, db.txs[i]? = some t → t.txn.Guarded Row.key
  exclusive : ∀ {i j : Nat} {t u : Tx} {k : RowKey}, db.txs[i]? = some t → db.txs[j]? = some u → k ∈ t.txn.held →
    k ∈ u.txn.held → i = j
  /-- A lock is on a row that is committed, or that its holder has inserted. -/
  real : ∀ {i : Nat} {t : Tx} {k : RowKey}, db.txs[i]? = some t → k ∈ t.txn.held →
    (∃ r ∈ db.rows, r.key = k) ∨ ∃ r ∈ t.txn.ins, r.key = k
  shape : ∀ {i : Nat} {t : Tx}, db.txs[i]? = some t → t.Shape

theorem locked_empty : Locked .empty := by
  constructor <;> simp [Database.empty]

namespace Locked
variable {db db' : Database} {i j : Nat} {t t' u : Tx} {k : RowKey}

/-- A transaction that locks only free rows, which are there, and writes only locked ones keeps the locks right. -/
theorem setTx (h : Locked db) (ht : db.txs[i]? = some t) (hguarded : t'.txn.Guarded Row.key)
    (hfree : ∀ k ∈ t'.txn.held, k ∈ t.txn.held ∨ ∀ j u, j ≠ i → db.txs[j]? = some u → k ∉ u.txn.held)
    (hreal : ∀ k ∈ t'.txn.held, (∃ r ∈ db.rows, r.key = k) ∨ ∃ r ∈ t'.txn.ins, r.key = k) (hshape : t'.Shape) :
    Locked (db.setTx i t') := by
  have mine : ∀ {j u k}, j ≠ i → db.txs[j]? = some u → k ∈ u.txn.held → k ∉ t'.txn.held := by
    intro j u k hj hu hk hk'
    rcases hfree k hk' with hold | hnone
    · exact hj (h.exclusive hu ht hk hold)
    · exact hnone j u hj hu hk
  constructor
  · intro j u hu
    rcases (Database.getElem?_setTx ht).mp hu with ⟨rfl, rfl⟩ | ⟨-, hu⟩
    · exact hguarded
    · exact h.guarded hu
  · intro j l u v k hu hv hk hk'
    rcases (Database.getElem?_setTx ht).mp hu with ⟨hj, hu'⟩ | ⟨hj, hu'⟩
    · rcases (Database.getElem?_setTx ht).mp hv with ⟨hl, -⟩ | ⟨hl, hv'⟩
      · rw [hj, hl]
      · exact absurd (hu' ▸ hk) (mine hl hv' hk')
    · rcases (Database.getElem?_setTx ht).mp hv with ⟨-, hv'⟩ | ⟨-, hv'⟩
      · exact absurd (hv' ▸ hk') (mine hj hu' hk)
      · exact h.exclusive hu' hv' hk hk'
  · intro j u k hu hk
    rcases (Database.getElem?_setTx ht).mp hu with ⟨rfl, rfl⟩ | ⟨-, hu⟩
    · exact hreal k hk
    · exact h.real hu hk
  · intro j u hu
    rcases (Database.getElem?_setTx ht).mp hu with ⟨rfl, rfl⟩ | ⟨-, hu⟩
    · exact hshape
    · exact h.shape hu

/-- A change of phase alone. -/
theorem setPhase (h : Locked db) (ht : db.txs[i]? = some t) {p : Phase} (hshape : Tx.Shape { t with phase := p }) :
    Locked (db.setTx i { t with phase := p }) := by
  have hreal : ∀ k ∈ t.txn.held, (∃ r ∈ db.rows, r.key = k) ∨ ∃ r ∈ t.txn.ins, r.key = k := fun _ hk => h.real ht hk
  have hguarded : t.txn.Guarded Row.key := h.guarded ht
  exact h.setTx ht hguarded (fun _ hk => .inl hk) hreal hshape

/-- A lock that nobody else holds on a row that is there. -/
theorem takes (h : Locked db) (ht : db.txs[i]? = some t) (hfree : db.lockedElsewhere i k = false)
    (hrow : ∃ r ∈ t.view db.rows, r.key = k) {p : Phase} {txn : Txn Row RowKey} (hins : txn.ins = t.txn.ins)
    (hheld : txn.held = k :: t.txn.held) (hguarded : txn.Guarded Row.key)
    (hshape : Tx.Shape { t with phase := p, txn }) : Locked (db.setTx i { t with phase := p, txn }) := by
  refine h.setTx ht hguarded (fun k' hk => ?_) (fun k' hk => ?_) hshape
  · dsimp only at hk
    rw [hheld] at hk
    rcases List.mem_cons.mp hk with rfl | hk
    · exact .inr fun j u hj hu => Database.not_locked hfree hj hu
    · exact .inl hk
  · dsimp only at hk ⊢
    rw [hheld] at hk
    rw [hins]
    rcases List.mem_cons.mp hk with rfl | hk
    · obtain ⟨r, hr, hkey⟩ := hrow
      rcases Txn.mem_view.mp hr with ⟨hr, -⟩ | hr
      · exact .inl ⟨r, hr, hkey⟩
      · exact .inr ⟨r, hr, hkey⟩
    · exact h.real ht hk

/-- A new row whose key nobody else has locked. -/
theorem inserts (h : Locked db) (ht : db.txs[i]? = some t) {r : Row}
    (hfree : ∀ j u, j ≠ i → db.txs[j]? = some u → r.key ∉ u.txn.held) {p : Phase}
    (hshape : Tx.Shape { t with phase := p, txn := t.txn.insert Row.key r }) :
    Locked (db.setTx i { t with phase := p, txn := t.txn.insert Row.key r }) := by
  refine h.setTx ht ((h.guarded ht).insert r) (fun k hk => ?_) (fun k hk => ?_) hshape
  · rcases List.mem_cons.mp hk with rfl | hk
    · exact .inr hfree
    · exact .inl hk
  · rcases List.mem_cons.mp hk with rfl | hk
    · exact .inr ⟨r, List.mem_cons_self, rfl⟩
    · rcases h.real ht hk with hrow | ⟨x, hx, hkey⟩
      · exact .inl hrow
      · exact .inr ⟨x, List.mem_cons_of_mem _ hx, hkey⟩

/-- The row of an insert is not locked by others: it would be committed, or being inserted. -/
theorem row_free (h : Locked db) {r : Row} (hcommitted : ∀ r' ∈ db.rows, r'.key ≠ r.key)
    (hinserted : ∀ j u, j ≠ i → db.txs[j]? = some u → ∀ r' ∈ u.txn.ins, r'.key ≠ r.key) (j : Nat) (u : Tx) (hj : j ≠ i)
    (hu : db.txs[j]? = some u) : r.key ∉ u.txn.held := by
  intro hk
  rcases h.real hu hk with ⟨r', hr', hkey⟩ | ⟨r', hr', hkey⟩
  · exact hcommitted r' hr' hkey
  · exact hinserted j u hj hu r' hr' hkey

theorem scans (h : Locked db) (ht : db.txs[i]? = some t) {s : Stmt} {pending : List RowKey} {waiting : Option RowKey}
    {affected : Nat} (hs : t.phase = .scanning s pending waiting affected) : s.Scans := by
  have hshape := h.shape ht
  unfold Tx.Shape at hshape
  rwa [hs] at hshape

theorem inserting_del (h : Locked db) (ht : db.txs[i]? = some t) {s s' : Stmt} {r : Row} (hs : t.phase = .next s)
    (hins : s.Inserts r s') : t.txn.del = [] := by
  have hshape := h.shape ht
  unfold Tx.Shape at hshape
  rw [hs] at hshape
  cases hins with
  | sessionBlock => exact hshape.1
  | edge => rw [show t.txn = .empty from hshape]; rfl

theorem moves (h : Locked db) (ht : db.txs[i]? = some t) {c : Option RowKey} (hmove : Moves db i t c t') :
    Locked (db.setTx i t') := by
  cases hmove with
  | @deduped session block found hs hfound hhash hfree =>
    have hempty := h.shape ht
    unfold Tx.Shape at hempty
    rw [hs] at hempty
    have hempty : t.txn = .empty := hempty
    refine h.takes ht hfree ⟨_, Txn.mem_view.mpr (.inl ⟨hfound, ?_⟩), rfl⟩ rfl rfl ((h.guarded ht).lock _) ?_
    · simp [hempty, Txn.empty]
    · simp [Tx.Shape, hempty, Txn.lock, Txn.empty]
  | @inserted session block hs hhash hfree hid =>
    have hempty := h.shape ht
    unfold Tx.Shape at hempty
    rw [hs] at hempty
    have hempty : t.txn = .empty := hempty
    refine h.inserts ht (h.row_free (r := .block block) hid fun j u hj hu r' hr' hkey => ?_) ?_
    · cases r' with
      | block b => exact (Database.not_inserted hfree hj hu hr').2 (RowKey.block.inj hkey)
      | sessionBlock _ _ => cases hkey
      | edge _ => cases hkey
    · simp [Tx.Shape, hempty, Txn.insert, Txn.empty, Row.key]
  | rowFound hs hins hfree hfound => exact h.setPhase ht (by cases hins <;> trivial)
  | rowInserted hs hins hfree hnone =>
    refine h.inserts ht (h.row_free (fun r' hr' => hnone r' ?_) fun j u hj hu => (Database.not_written hfree hj hu).2)
      (by cases hins <;> trivial)
    exact Txn.mem_view.mpr (.inl ⟨hr', by simp [h.inserting_del ht hs hins]⟩)
  | collectedNone | collectedSome | orphansNone | orphansSome => exact h.setPhase ht trivial
  | snapshot hs hscans => exact h.setPhase ht hscans
  | chosen hs | gone hs => exact h.setPhase ht (h.scans ht hs)
  | @met s pending affected k hs hfree hrow =>
    have hscans := h.scans ht hs
    cases hdel : s.deletes with
    | true => exact h.takes ht hfree hrow rfl rfl ((h.guarded ht).delete k) hscans
    | false => exact h.takes ht hfree hrow rfl rfl ((h.guarded ht).lock k) hscans
  | @scanned s affected hs =>
    have hscans := h.scans ht hs
    exact h.setPhase ht (by cases s <;> trivial)
  | rolledBack =>
    exact h.setTx ht Txn.guarded_empty (fun k hk => by simp [Txn.empty] at hk) (fun k hk => by simp [Txn.empty] at hk) rfl

theorem commits (h : Locked db) (ht : db.txs[i]? = some t) (reply : Reply) : Locked { db with
    rows := t.view db.rows, txs := db.txs.set i { t with phase := .finished (some reply), txn := .empty } } := by
  have hended : Locked (db.setTx i { t with phase := .finished (some reply), txn := .empty }) := h.setTx ht Txn.guarded_empty
    (fun k hk => by simp [Txn.empty] at hk) (fun k hk => by simp [Txn.empty] at hk) rfl
  refine ⟨hended.guarded, hended.exclusive, fun {j u k} hu hk => ?_, hended.shape⟩
  rcases (Database.getElem?_setTx ht).mp hu with ⟨rfl, rfl⟩ | ⟨hj, hu⟩
  · simp [Txn.empty] at hk
  · rcases h.real hu hk with ⟨r, hr, rfl⟩ | hins
    · have hfree : r.key ∉ t.txn.held := fun hk' => hj (h.exclusive hu ht hk hk')
      exact .inl ⟨r, ((h.guarded ht).mem_view_iff hfree).mpr hr, rfl⟩
    · exact .inr hins

theorem starts (h : Locked db) (r : Request) (proposed : List BlockId) : Locked { db with
    txs := db.txs ++ [{ request := r, phase := .next r.first, txn := .empty }], proposed } := by
  have held : ∀ {u : Tx} {k : RowKey}, u = { request := r, phase := .next r.first, txn := .empty } → k ∉ u.txn.held := by
    rintro u k rfl
    simp [Txn.empty]
  constructor
  · intro j u hu
    rcases Database.getElem?_append.mp hu with hu | ⟨-, rfl⟩
    · exact h.guarded hu
    · exact Txn.guarded_empty
  · intro j l u v k hu hv hk hk'
    rcases Database.getElem?_append.mp hu with hu | ⟨-, hu⟩
    · rcases Database.getElem?_append.mp hv with hv | ⟨-, hv⟩
      · exact h.exclusive hu hv hk hk'
      · exact absurd hk' (held hv)
    · exact absurd hk (held hu)
  · intro j u k hu hk
    rcases Database.getElem?_append.mp hu with hu | ⟨-, hu⟩
    · exact h.real hu hk
    · exact absurd hk (held hu)
  · intro j u hu
    rcases Database.getElem?_append.mp hu with hu | ⟨-, rfl⟩
    · exact h.shape hu
    · cases r <;> simp [Tx.Shape, Request.first]

theorem step {a : Database.Action} (h : Locked db) (hstep : db.step a = some db') : Locked db' := by
  rcases Database.step_inv hstep with ⟨r, -, rfl⟩ | ⟨i, t, c, t', ht, hmove, rfl, -, -⟩ | ⟨i, t, reply, -, ht, -, rfl⟩
  · exact h.starts r _
  · exact h.moves ht hmove
  · exact h.commits ht reply

end Locked
end Llm386.Pg
