import Llm386.Pg.Locks

/-! # Waiting in a circle

`put` locks a block before its session reference, and every statement over many rows takes its locks in whatever
order it finds the rows. Where each lock a transaction goes for comes after those it holds, in one order of all
rows, the wait-for graph has no cycle. -/

namespace Llm386.Pg
open Relation

/-! ### The order of rows -/

/-- Blocks, then session references, then edges, each by key. -/
def rank : RowKey → Nat ×ₗ Nat ×ₗ Nat ×ₗ Nat
  | .block id => toLex (0, toLex (id.raw.val, toLex (0, 0)))
  | .sessionBlock session id => toLex (1, toLex (session.raw.val, toLex (id.raw.val, 0)))
  | .edge e => toLex (2, toLex (e.fromId.raw.val, toLex (e.kind.ctorIdx, e.toId.raw.val)))

instance : Preorder RowKey := Preorder.lift rank

instance : DecidableLT RowKey := fun k k' => inferInstanceAs (Decidable (rank k < rank k'))

theorem block_lt_sessionBlock (id id' : BlockId) (session : SessionId) :
    RowKey.block id < RowKey.sessionBlock session id' := by
  show rank _ < rank _
  exact Prod.Lex.toLex_lt_toLex.mpr (.inl Nat.zero_lt_one)

/-! ### The wait-for graph -/

/-- The next step of `t` has to wait for `u`. -/
def Tx.WaitsOn (rows : List Row) (t u : Tx) : Prop :=
  match t.phase with
  | .next (.upsertBlock _ block) =>
    match (rows.filterMap Row.block?).find? (·.hash = block.hash) with
    | some found => RowKey.block found.id ∈ u.txn.held
    | none => ∃ b, Row.block b ∈ u.txn.ins ∧ (b.hash = block.hash ∨ b.id = block.id)
  | .next (.insertSessionBlock session stored) =>
    RowKey.sessionBlock session stored ∈ u.txn.del ∨ ∃ r ∈ u.txn.ins, r.key = .sessionBlock session stored
  | .next (.insertEdge e) => RowKey.edge e ∈ u.txn.del ∨ ∃ r ∈ u.txn.ins, r.key = .edge e
  | .scanning _ _ (some k) _ => k ∈ u.txn.held
  | _ => False

def WaitsFor (db : Database) (i j : Nat) : Prop :=
  i ≠ j ∧ ∃ t u, db.txs[i]? = some t ∧ db.txs[j]? = some u ∧ t.WaitsOn db.rows u

/-- Some transactions wait for each other in a circle. -/
def Deadlock (db : Database) : Prop := ∃ i, TransGen (WaitsFor db) i i

variable {db db' : Database} {i j : Nat} {t t' u : Tx} {k : RowKey}

theorem elsewhere_iff {p : Tx → Bool} : db.elsewhere i p = true ↔ ∃ j u, j ≠ i ∧ db.txs[j]? = some u ∧ p u = true := by
  rw [← Bool.not_eq_false, Database.elsewhere_eq_false]
  push Not
  simp

theorem waitsFor_iff (ht : db.txs[i]? = some t) :
    (∃ j, WaitsFor db i j) ↔ ∃ j u, j ≠ i ∧ db.txs[j]? = some u ∧ t.WaitsOn db.rows u := by
  constructor
  · rintro ⟨j, hij, t', u, ht', hu, hwait⟩
    cases ht.symm.trans ht'
    exact ⟨j, u, hij.symm, hu, hwait⟩
  · rintro ⟨j, u, hji, hu, hwait⟩
    exact ⟨j, hji.symm, t, u, ht, hu, hwait⟩

theorem lockedElsewhere_iff : db.lockedElsewhere i k = true ↔ ∃ j u, j ≠ i ∧ db.txs[j]? = some u ∧ k ∈ u.txn.held := by
  simp [Database.lockedElsewhere, elsewhere_iff]

theorem writtenElsewhere_iff : db.writtenElsewhere i k = true ↔
    ∃ j u, j ≠ i ∧ db.txs[j]? = some u ∧ (k ∈ u.txn.del ∨ ∃ r ∈ u.txn.ins, r.key = k) := by
  simp [Database.writtenElsewhere, elsewhere_iff]

theorem insertedElsewhere_iff {block : ContextBlock} : db.insertedElsewhere i block = true ↔
    ∃ j u, j ≠ i ∧ db.txs[j]? = some u ∧ ∃ b, Row.block b ∈ u.txn.ins ∧ (b.hash = block.hash ∨ b.id = block.id) := by
  unfold Database.insertedElsewhere
  rw [elsewhere_iff]
  refine exists_congr fun j => exists_congr fun u => and_congr_right fun _ => and_congr_right fun _ => ?_
  rw [List.any_eq_true]
  constructor
  · rintro ⟨r, hr, h⟩
    cases r with
    | block b => exact ⟨b, hr, by simpa using h⟩
    | sessionBlock _ _ => cases h
    | edge _ => cases h
  · rintro ⟨b, hb, h⟩
    exact ⟨_, hb, by simpa using h⟩

theorem insertRow_eq_none {r : Row} {s : Stmt} : db.insertRow i t r s = none ↔ db.writtenElsewhere i r.key = true := by
  unfold Database.insertRow
  split
  · rename_i h
    simp [h]
  · rename_i h
    split <;> simp [h]

/-- A transaction that is neither at its end nor about to choose a row cannot move exactly when it waits. -/
theorem advance_eq_none (ht : db.txs[i]? = some t) :
    db.advance i t = none ↔ (∃ reply, t.phase = .finished reply) ∨
      (∃ s k ks n, t.phase = .scanning s (k :: ks) none n) ∨ ∃ j, WaitsFor db i j := by
  rw [waitsFor_iff ht]
  unfold Database.advance Tx.WaitsOn
  cases hphase : t.phase with
  | finished reply => simp
  | scanning s pending waiting n =>
    cases waiting with
    | none => cases pending <;> simp
    | some k =>
      simp only [Database.acquire, ← lockedElsewhere_iff, reduceCtorEq, exists_false, false_or]
      split
      · simp_all
      · split <;> simp_all
  | next s =>
    cases s with
    | upsertBlock session block =>
      simp only [Database.runStmt, reduceCtorEq, exists_false, false_or]
      cases (db.rows.filterMap Row.block?).find? (·.hash = block.hash) with
      | some found =>
        simp only [← lockedElsewhere_iff]
        split <;> simp_all
      | none =>
        simp only [← insertedElsewhere_iff]
        split
        · simp_all
        · split <;> simp_all
    | insertSessionBlock session stored =>
      simp only [Database.runStmt, insertRow_eq_none, writtenElsewhere_iff, Row.key, reduceCtorEq, exists_false, false_or]
    | insertEdge e =>
      simp only [Database.runStmt, insertRow_eq_none, writtenElsewhere_iff, Row.key, reduceCtorEq, exists_false, false_or]
    | collect session =>
      simp only [Database.runStmt]
      split <;> simp
    | findOrphans ids =>
      simp only [Database.runStmt]
      split <;> simp
    | commit | deleteBlock | deleteRefs | deleteEdges | lockBlocks | lockRefs | dropSession | scrubEdges | dropBlocks =>
      simp [Database.runStmt]

/-! ### Locking in order -/

/-- A statement over many rows goes next for a row after all that its transaction has locked, or for one of these. -/
def Ordered (db : Database) : Database.Action → Prop
  | .choose i k => ∀ t, db.txs[i]? = some t → k ∈ t.txn.held ∨ ∀ k' ∈ t.txn.held, k' < k
  | _ => True

/-- The row that a statement waits for comes after all that its transaction has locked, or is one of these. -/
def WaitsInOrder (db : Database) : Prop :=
  ∀ (i : Nat) (t : Tx) s p k n, db.txs[i]? = some t → t.phase = .scanning s p (some k) n →
    k ∈ t.txn.held ∨ ∀ k' ∈ t.txn.held, k' < k

/-- Only a choice makes a transaction wait for a row of a statement over many. -/
theorem Moves.waiting {c : Option RowKey} (h : Moves db i t c t') {s : Stmt} {p : List RowKey} {n : Nat}
    (hphase : t'.phase = .scanning s p (some k) n) : c = some k ∧ t'.txn = t.txn := by
  cases h <;> cases hphase
  exact ⟨rfl, rfl⟩

theorem waitsInOrder_step {a : Database.Action} (h : WaitsInOrder db) (hordered : Ordered db a)
    (hstep : db.step a = some db') : WaitsInOrder db' := by
  intro j u s p k n hu hphase
  rcases Database.step_inv hstep with ⟨r, -, rfl⟩ | ⟨i, t, c, t', ht, hmove, rfl, hchoice, -⟩ | ⟨i, t, reply, -, ht, -, rfl⟩
  · rcases Database.getElem?_append.mp hu with hu | ⟨-, rfl⟩
    · exact h j u s p k n hu hphase
    · cases hphase
  · rcases (Database.getElem?_setTx ht).mp hu with ⟨rfl, rfl⟩ | ⟨-, hu⟩
    · obtain ⟨hc, htxn⟩ := hmove.waiting hphase
      rw [htxn]
      rw [hchoice k hc] at hordered
      exact hordered t ht
    · exact h j u s p k n hu hphase
  · rcases (Database.getElem?_setTx ht).mp hu with ⟨rfl, rfl⟩ | ⟨-, hu⟩
    · cases hphase
    · exact h j u s p k n hu hphase

def Holds (db : Database) (i : Nat) (k : RowKey) : Prop := ∃ t, db.txs[i]? = some t ∧ k ∈ t.txn.held

/-- The row comes after all that the transaction has locked. -/
def Above (db : Database) (i : Nat) (k : RowKey) : Prop := ∀ k', Holds db i k' → k' < k

/-- What a transaction waits for is a lock of another, above all its own. -/
theorem waitsFor_above (hlocked : Locked db) (horder : WaitsInOrder db) (h : WaitsFor db i j) :
    ∃ k, Above db i k ∧ Holds db j k := by
  obtain ⟨hij, t, u, ht, hu, hwait⟩ := h
  have hshape := hlocked.shape ht
  unfold Tx.Shape at hshape
  unfold Tx.WaitsOn at hwait
  have mine : ∀ {k : RowKey}, (∀ k' ∈ t.txn.held, k' < k) → Above db i k := by
    rintro k hall k' ⟨t', ht', hk'⟩
    cases ht.symm.trans ht'
    exact hall k' hk'
  have theirs : ∀ {k : RowKey}, (k ∈ u.txn.del ∨ ∃ r ∈ u.txn.ins, r.key = k) → k ∈ u.txn.held := by
    rintro k (hdel | ⟨r, hr, rfl⟩)
    · exact (hlocked.guarded hu).del k hdel
    · exact (hlocked.guarded hu).ins r hr
  cases hphase : t.phase with
  | finished reply => simp [hphase] at hwait
  | scanning s p waiting n =>
    cases waiting with
    | none => simp [hphase] at hwait
    | some k =>
      rw [hphase] at hwait
      rcases horder i t s p k n ht hphase with hown | habove
      · exact absurd (hlocked.exclusive ht hu hown hwait) hij
      · exact ⟨k, mine habove, u, hu, hwait⟩
  | next s =>
    rw [hphase] at hwait hshape
    cases s with
    | upsertBlock session block =>
      have hempty : t.txn = .empty := hshape
      have hnone : ∀ k : RowKey, ∀ k' ∈ t.txn.held, k' < k := by simp [hempty, Txn.empty]
      dsimp only at hwait
      split at hwait
      · exact ⟨_, mine (hnone _), u, hu, hwait⟩
      · obtain ⟨b, hb, -⟩ := hwait
        exact ⟨_, mine (hnone _), u, hu, (hlocked.guarded hu).ins _ hb⟩
    | insertSessionBlock session stored =>
      refine ⟨_, mine fun k' hk' => ?_, u, hu, theirs hwait⟩
      rw [hshape.2] at hk'
      rw [List.mem_singleton.mp hk']
      exact block_lt_sessionBlock _ _ _
    | insertEdge e =>
      have hempty : t.txn = .empty := hshape
      exact ⟨_, mine (by simp [hempty, Txn.empty]), u, hu, theirs hwait⟩
    | _ => exact hwait.elim

/-- In every run in which the statements over many rows lock them in order, no transactions wait for each other
in a circle. -/
theorem no_deadlock {as : List Database.Action} (h : Run Database.step Ordered .empty as db) : ¬Deadlock db := by
  have hinv : Locked db ∧ WaitsInOrder db := by
    refine h.invariant (P := fun db => Locked db ∧ WaitsInOrder db) ⟨locked_empty, ?_⟩ ?_
    · intro i t s p k n ht
      simp [Database.empty] at ht
    · intro db a db' hdb hordered hstep
      exact ⟨hdb.1.step hstep, waitsInOrder_step hdb.2 hordered hstep⟩
  obtain ⟨hlocked, horder⟩ := hinv
  have hwait : ∀ i j, WaitsFor db i j → ∃ k, Above db i k ∧ Holds db j k := fun i j => waitsFor_above hlocked horder
  have hordered : ∀ i k k', Above db i k → Holds db i k' → k' < k := fun i k k' habove hheld => habove _ hheld
  rintro ⟨i, hcycle⟩
  exact waits_acyclic hwait hordered i hcycle

/-! ### Two purges that cross -/

/-- Two blocks, each put in two sessions. -/
def sharedPuts : List Database.Action :=
  [.start (.put ⟨1⟩ (sampleBlock ⟨1⟩ .fact [0x61] [])), .advance 0, .advance 0, .advance 0,
   .start (.put ⟨2⟩ (sampleBlock ⟨2⟩ .fact [0x61] [])), .advance 1, .advance 1, .advance 1,
   .start (.put ⟨1⟩ (sampleBlock ⟨3⟩ .fact [0x62] [])), .advance 2, .advance 2, .advance 2,
   .start (.put ⟨2⟩ (sampleBlock ⟨4⟩ .fact [0x62] [])), .advance 3, .advance 3, .advance 3]

/-- Purges of both sessions take the blocks in opposite orders. -/
def crossedPurges : List Database.Action :=
  sharedPuts ++
    [.start (.purgeSession ⟨1⟩), .start (.purgeSession ⟨2⟩), .advance 4, .advance 5, .advance 4, .advance 5,
     .choose 4 (.block ⟨1⟩), .advance 4, .choose 5 (.block ⟨3⟩), .advance 5, .choose 4 (.block ⟨3⟩),
     .choose 5 (.block ⟨1⟩)]

/-- Purges of both sessions take the blocks in one order: the second waits for the first. -/
def orderedPurges : List Database.Action :=
  sharedPuts ++
    [.start (.purgeSession ⟨1⟩), .start (.purgeSession ⟨2⟩), .advance 4, .advance 5, .advance 4, .advance 5,
     .choose 4 (.block ⟨1⟩), .advance 4, .choose 5 (.block ⟨1⟩), .choose 4 (.block ⟨3⟩), .advance 4]

/-- The rows that the transactions wait for and those they have locked. -/
def locksOf (db : Database) : List (Option RowKey × List RowKey) :=
  db.txs.map fun t =>
    (match t.phase with
      | .scanning _ _ waiting _ => waiting
      | _ => none, t.txn.held)

theorem waitsFor_of_locks {w : List RowKey} (hi : (locksOf db)[i]? = some (some k, w)) {v : Option RowKey}
    {held : List RowKey} (hj : (locksOf db)[j]? = some (v, held)) (hk : k ∈ held) (hij : i ≠ j) : WaitsFor db i j := by
  unfold locksOf at hi hj
  rw [List.getElem?_map, Option.map_eq_some_iff] at hi hj
  obtain ⟨t, ht, htlocks⟩ := hi
  obtain ⟨u, hu, hulocks⟩ := hj
  refine ⟨hij, t, u, ht, hu, ?_⟩
  have hheld : u.txn.held = held := congrArg Prod.snd hulocks
  have hwaiting := congrArg Prod.fst htlocks
  unfold Tx.WaitsOn
  dsimp only at hwaiting
  split at hwaiting
  · rename_i s p waiting n hphase
    rw [hphase, hwaiting]
    exact hheld ▸ hk
  · cases hwaiting

theorem purges_deadlock : ∃ db, Run Database.step (fun _ _ => True) .empty crossedPurges db ∧ Deadlock db := by
  have hrun : (Run.exec (fun db a => if true then Database.step db a else none) .empty crossedPurges).map locksOf =
      some [(none, []), (none, []), (none, []), (none, []), (some (.block ⟨3⟩), [.block ⟨1⟩]),
        (some (.block ⟨1⟩), [.block ⟨3⟩])] := by decide +kernel
  obtain ⟨db, hdb, hlocks⟩ := Option.map_eq_some_iff.mp hrun
  refine ⟨db, Run.of_exec (fun _ _ _ => trivial) hdb, 4, ?_⟩
  have h45 : WaitsFor db 4 5 := waitsFor_of_locks (k := .block ⟨3⟩) (by rw [hlocks]; rfl) (by rw [hlocks]; rfl) (by simp)
    (by decide)
  have h54 : WaitsFor db 5 4 := waitsFor_of_locks (k := .block ⟨1⟩) (by rw [hlocks]; rfl) (by rw [hlocks]; rfl) (by simp)
    (by decide)
  exact (TransGen.single h45).tail h54

/-- `Ordered`, as a check. -/
def locksInOrder (db : Database) : Database.Action → Bool
  | .choose i k => db.txs[i]?.all fun t => k ∈ t.txn.held ∨ ∀ k' ∈ t.txn.held, k' < k
  | _ => true

theorem ordered_of_check (db : Database) (a : Database.Action) (h : locksInOrder db a = true) : Ordered db a := by
  cases a with
  | choose i k =>
    intro t ht
    simpa [locksInOrder, ht] using h
  | start | advance | rollback => trivial

theorem no_deadlock_sample :
    ∃ db, Run Database.step Ordered .empty orderedPurges db ∧ WaitsFor db 5 4 ∧ ¬Deadlock db := by
  have hrun : (Run.exec (fun db a => if locksInOrder db a then Database.step db a else none) .empty orderedPurges).map
      locksOf = some [(none, []), (none, []), (none, []), (none, []), (none, [.block ⟨3⟩, .block ⟨1⟩]),
        (some (.block ⟨1⟩), [])] := by decide +kernel
  obtain ⟨db, hdb, hlocks⟩ := Option.map_eq_some_iff.mp hrun
  have hordered : Run Database.step Ordered .empty orderedPurges db := Run.of_exec ordered_of_check hdb
  have h54 : WaitsFor db 5 4 := waitsFor_of_locks (k := .block ⟨1⟩) (by rw [hlocks]; rfl) (by rw [hlocks]; rfl) (by simp)
    (by decide)
  exact ⟨db, hordered, h54, no_deadlock hordered⟩

end Llm386.Pg
