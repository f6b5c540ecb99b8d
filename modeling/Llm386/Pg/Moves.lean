import Llm386.Pg.Transactions

/-! # What a step of a transaction does

A step moves one transaction and leaves the committed rows as they are, or it commits a transaction, or a new
one arrives. `Moves` lists what a transaction can become, with what it found; every invariant of the database is a
case analysis over it. And locks: a row is locked by one transaction at most, which writes no other rows. -/

namespace Llm386.Pg

/-- The statements that lock or delete many rows, one at a time. -/
def Stmt.Scans : Stmt → Prop
  | .deleteBlock _ | .deleteRefs .. | .deleteEdges .. | .lockBlocks .. | .lockRefs .. | .dropSession .. | .scrubEdges ..
  | .dropBlocks .. => True
  | _ => False

/-- The inserts that do nothing on a conflict: their row, and what comes after. -/
inductive Stmt.Inserts : Stmt → Row → Stmt → Prop
  | sessionBlock {session stored} :
    Inserts (.insertSessionBlock session stored) (.sessionBlock session stored) (.commit (.stored stored))
  | edge {e} : Inserts (.insertEdge e) (.edge e) (.commit .linked)

/-- The ids that a collection of the session reads. -/
def collected (rows : List Row) (session : SessionId) : List BlockId :=
  rows.filterMap fun r =>
    match r with
    | .sessionBlock s b => if s = session then some b else none
    | _ => none

/-- The blocks that some session references. -/
def referenced (rows : List Row) : List BlockId :=
  rows.filterMap fun r =>
    match r with
    | .sessionBlock _ b => some b
    | _ => none

/-- The blocks among `ids` that no session references. -/
def orphaned (rows : List Row) (ids : List BlockId) : List BlockId :=
  rows.filterMap fun r =>
    match r with
    | .block b => if ids.contains b.id && !(referenced rows).contains b.id then some b.id else none
    | _ => none

theorem mem_collected {rows : List Row} {session : SessionId} {id : BlockId} :
    id ∈ collected rows session ↔ Row.sessionBlock session id ∈ rows := by
  unfold collected
  rw [List.mem_filterMap]
  constructor
  · rintro ⟨r, hr, h⟩
    cases r with
    | sessionBlock s b =>
      dsimp only at h
      split at h
      · rename_i hs
        cases h
        exact hs ▸ hr
      · cases h
    | block b => cases h
    | edge e => cases h
  · intro h
    exact ⟨_, h, if_pos rfl⟩

theorem mem_referenced {rows : List Row} {id : BlockId} :
    id ∈ referenced rows ↔ ∃ session, Row.sessionBlock session id ∈ rows := by
  unfold referenced
  rw [List.mem_filterMap]
  constructor
  · rintro ⟨r, hr, h⟩
    cases r with
    | sessionBlock s b =>
      cases h
      exact ⟨s, hr⟩
    | block b => cases h
    | edge e => cases h
  · rintro ⟨s, h⟩
    exact ⟨_, h, rfl⟩

theorem mem_orphaned {rows : List Row} {ids : List BlockId} {id : BlockId} :
    id ∈ orphaned rows ids ↔
      id ∈ ids ∧ (∃ b, Row.block b ∈ rows ∧ b.id = id) ∧ ∀ session, Row.sessionBlock session id ∉ rows := by
  have hfree : id ∉ referenced rows ↔ ∀ session, Row.sessionBlock session id ∉ rows := by
    rw [mem_referenced, not_exists]
  unfold orphaned
  rw [List.mem_filterMap, ← hfree]
  constructor
  · rintro ⟨r, hr, h⟩
    cases r with
    | block b =>
      dsimp only at h
      split at h
      · rename_i hb
        cases h
        simp only [Bool.and_eq_true, Bool.not_eq_true', List.contains_eq_mem, decide_eq_true_eq, decide_eq_false_iff_not] at hb
        exact ⟨hb.1, ⟨b, hr, rfl⟩, hb.2⟩
      · cases h
    | sessionBlock s b => cases h
    | edge e => cases h
  · rintro ⟨hids, ⟨b, hb, rfl⟩, href⟩
    exact ⟨_, hb, if_pos (by simp [hids, href])⟩

/-! ### The moves of one transaction -/

/-- What transaction `i`, now `t`, can become without committing, and the row it chooses to lock next. -/
inductive Moves (db : Database) (i : Nat) (t : Tx) : Option RowKey → Tx → Prop
  /-- The content is stored: its row is locked. -/
  | deduped {session block found} : t.phase = .next (.upsertBlock session block) → Row.block found ∈ db.rows →
    found.hash = block.hash → db.lockedElsewhere i (.block found.id) = false →
    Moves db i t none { t with phase := .next (.insertSessionBlock session found.id), txn := t.txn.lock (.block found.id) }
  | inserted {session block} : t.phase = .next (.upsertBlock session block) →
    (∀ b, Row.block b ∈ db.rows → b.hash ≠ block.hash) → db.insertedElsewhere i block = false →
    (∀ r ∈ db.rows, r.key ≠ .block block.id) →
    Moves db i t none
      { t with phase := .next (.insertSessionBlock session block.id), txn := t.txn.insert Row.key (.block block) }
  | rowFound {s r s'} : t.phase = .next s → s.Inserts r s' → db.writtenElsewhere i r.key = false →
    (∃ r' ∈ t.view db.rows, r'.key = r.key) → Moves db i t none { t with phase := .next s' }
  | rowInserted {s r s'} : t.phase = .next s → s.Inserts r s' → db.writtenElsewhere i r.key = false →
    (∀ r' ∈ t.view db.rows, r'.key ≠ r.key) →
    Moves db i t none { t with phase := .next s', txn := t.txn.insert Row.key r }
  | collectedNone {session} : t.phase = .next (.collect session) → collected (t.view db.rows) session = [] →
    Moves db i t none { t with phase := .next (.commit (.purged 0)) }
  | collectedSome {session} : t.phase = .next (.collect session) →
    Moves db i t none { t with phase := .next (.lockBlocks session (collected (t.view db.rows) session)) }
  | orphansNone {ids} : t.phase = .next (.findOrphans ids) → orphaned (t.view db.rows) ids = [] →
    Moves db i t none { t with phase := .next (.commit (.purged ids.length)) }
  | orphansSome {ids} : t.phase = .next (.findOrphans ids) →
    Moves db i t none { t with phase := .next (.scrubEdges ids (orphaned (t.view db.rows) ids)) }
  | snapshot {s} : t.phase = .next s → s.Scans →
    Moves db i t none { t with phase := .scanning s (((t.view db.rows).map Row.key).filter s.concerns) none 0 }
  | chosen {s pending affected k} : t.phase = .scanning s pending none affected → k ∈ pending →
    Moves db i t (some k) { t with phase := .scanning s pending (some k) affected }
  | met {s pending affected k} : t.phase = .scanning s pending (some k) affected → db.lockedElsewhere i k = false →
    (∃ r ∈ t.view db.rows, r.key = k) →
    Moves db i t none { t with
      phase := .scanning s (pending.erase k) none (affected + 1)
      txn := if s.deletes then t.txn.delete k else t.txn.lock k }
  | gone {s pending affected k} : t.phase = .scanning s pending (some k) affected → db.lockedElsewhere i k = false →
    (∀ r ∈ t.view db.rows, r.key ≠ k) →
    Moves db i t none { t with phase := .scanning s (pending.erase k) none affected }
  | scanned {s affected} : t.phase = .scanning s [] none affected → Moves db i t none { t with phase := .next (s.after affected) }
  | rolledBack : (∀ reply, t.phase ≠ .finished reply) → Moves db i t none { t with phase := .finished none, txn := .empty }

namespace Database
variable {db db' : Database} {i j : Nat} {t u : Tx}

theorem insertRow_inv {r : Row} {s s' : Stmt} (hs : t.phase = .next s) (hins : s.Inserts r s')
    (h : db.insertRow i t r s' = some db') : ∃ t', Moves db i t none t' ∧ db' = db.setTx i t' := by
  unfold insertRow at h
  split at h
  · cases h
  · rename_i hfree
    rw [Bool.not_eq_true] at hfree
    split at h
    · rename_i hfound
      cases h
      exact ⟨_, .rowFound hs hins hfree (by simpa using hfound), rfl⟩
    · rename_i hnone
      cases h
      exact ⟨_, .rowInserted hs hins hfree (by simpa using hnone), rfl⟩

/-- Running a statement moves the transaction or commits it. -/
theorem runStmt_inv {s : Stmt} (hs : t.phase = .next s) (h : db.runStmt i t s = some db') :
    (∃ t', Moves db i t none t' ∧ db' = db.setTx i t') ∨
    (∃ reply, s = .commit reply ∧ db' = { db with
      rows := t.view db.rows, txs := db.txs.set i { t with phase := .finished (some reply), txn := .empty } }) := by
  cases s with
  | upsertBlock session block =>
    left
    unfold runStmt at h
    dsimp only at h
    split at h
    · rename_i found hfound
      have hmem := List.mem_of_find?_eq_some hfound
      have hhash : found.hash = block.hash := by simpa using List.find?_some hfound
      have hrow : Row.block found ∈ db.rows := by
        obtain ⟨r, hr, hb⟩ := List.mem_filterMap.mp hmem
        cases r with
        | block b =>
          cases hb
          exact hr
        | sessionBlock _ _ => cases hb
        | edge _ => cases hb
      split at h
      · cases h
      · rename_i hfree
        cases h
        exact ⟨_, .deduped hs hrow hhash (by simpa using hfree), rfl⟩
    · rename_i hnone
      have hhash : ∀ b, Row.block b ∈ db.rows → b.hash ≠ block.hash := by
        intro b hb heq
        have hno := List.find?_eq_none.mp hnone b (List.mem_filterMap.mpr ⟨_, hb, rfl⟩)
        simp [heq] at hno
      split at h
      · cases h
      · rename_i hfree
        split at h
        · cases h
          exact ⟨_, .rolledBack (by simp [hs]), rfl⟩
        · rename_i hid
          cases h
          exact ⟨_, .inserted hs hhash (by simpa using hfree) (by simpa using hid), rfl⟩
  | insertSessionBlock session stored => exact .inl (insertRow_inv hs .sessionBlock h)
  | insertEdge e => exact .inl (insertRow_inv hs .edge h)
  | collect session =>
    left
    change (if (collected (t.view db.rows) session).isEmpty then _ else _) = _ at h
    split at h
    · rename_i hempty
      cases h
      exact ⟨_, .collectedNone hs (List.isEmpty_iff.mp hempty), rfl⟩
    · cases h
      exact ⟨_, .collectedSome hs, rfl⟩
  | findOrphans ids =>
    left
    change (if (orphaned (t.view db.rows) ids).isEmpty then _ else _) = _ at h
    split at h
    · rename_i hempty
      cases h
      exact ⟨_, .orphansNone hs (List.isEmpty_iff.mp hempty), rfl⟩
    · cases h
      exact ⟨_, .orphansSome hs, rfl⟩
  | commit reply =>
    cases h
    exact .inr ⟨reply, rfl, rfl⟩
  | deleteBlock | deleteRefs | deleteEdges | lockBlocks | lockRefs | dropSession | scrubEdges | dropBlocks =>
    cases h
    exact .inl ⟨_, .snapshot hs trivial, rfl⟩

/-- A step is an arrival, a move of one transaction, or a commit. -/
theorem step_inv {a : Action} (h : db.step a = some db') :
    (∃ r, a = .start r ∧ db' = { db with
      txs := db.txs ++ [{ request := r, phase := .next r.first, txn := .empty }]
      proposed := match r with
        | .put _ block => block.id :: db.proposed
        | _ => db.proposed }) ∨
    (∃ i t c t', db.txs[i]? = some t ∧ Moves db i t c t' ∧ db' = db.setTx i t' ∧ (∀ k, c = some k → a = .choose i k) ∧
      (c = none → a = .advance i ∨ t'.phase = .finished none)) ∨
    (∃ i t reply, a = .advance i ∧ db.txs[i]? = some t ∧ t.phase = .next (.commit reply) ∧ db' = { db with
      rows := t.view db.rows, txs := db.txs.set i { t with phase := .finished (some reply), txn := .empty } }) := by
  cases a with
  | start r =>
    cases h
    exact .inl ⟨r, rfl, rfl⟩
  | advance i =>
    right
    simp only [step] at h
    split at h
    · rename_i t ht
      unfold advance at h
      split at h
      · rename_i s hs
        rcases runStmt_inv hs h with ⟨t', hmove, rfl⟩ | ⟨reply, rfl, rfl⟩
        · exact .inl ⟨i, t, none, t', ht, hmove, rfl, by simp, fun _ => .inl rfl⟩
        · exact .inr ⟨i, t, reply, rfl, ht, hs, rfl⟩
      · rename_i s pending k affected hs
        left
        unfold acquire at h
        split at h
        · cases h
        · rename_i hfree
          rw [Bool.not_eq_true] at hfree
          split at h
          · rename_i hmet
            cases h
            exact ⟨i, t, none, _, ht, .met hs hfree (by simpa using hmet), rfl, by simp, fun _ => .inl rfl⟩
          · rename_i hgone
            cases h
            exact ⟨i, t, none, _, ht, .gone hs hfree (by simpa using hgone), rfl, by simp, fun _ => .inl rfl⟩
      · rename_i s affected hs
        cases h
        exact .inl ⟨i, t, none, _, ht, .scanned hs, rfl, by simp, fun _ => .inl rfl⟩
      · cases h
      · cases h
    · cases h
  | choose i k =>
    simp only [step] at h
    split at h
    · rename_i t ht
      split at h
      · rename_i s pending affected hs
        split at h
        · rename_i hk
          cases h
          exact .inr (.inl ⟨i, t, some k, _, ht, .chosen hs (by simpa using hk), rfl, by simp, by simp⟩)
        · cases h
      · cases h
    · cases h
  | rollback i =>
    simp only [step] at h
    split at h
    · rename_i t ht
      split at h
      · cases h
      · rename_i hrunning
        cases h
        exact .inr (.inl ⟨i, t, none, _, ht, .rolledBack hrunning, rfl, by simp, fun _ => .inr rfl⟩)
    · cases h

end Database
end Llm386.Pg
