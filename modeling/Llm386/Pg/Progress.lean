import Llm386.Lib.Inevitable
import Llm386.Lib.Parties
import Llm386.Pg.Deadlock
import Llm386.Pg.Ingest

/-! # Every transaction ends

Once no more requests arrive, the transactions run out of steps, and where the server rolls one of a circle back they are
all finished by then. Transactions that only store blocks and edges never wait in a circle. -/

namespace Llm386.Pg
open Relation

/-! ### What is left to do -/

/-- The statements of a transaction that are left, this one among them. -/
def Stmt.left : Stmt → Nat
  | .upsertBlock .. => 3
  | .insertSessionBlock .. => 2
  | .insertEdge .. => 2
  | .deleteBlock .. => 4
  | .deleteRefs .. => 3
  | .deleteEdges .. => 2
  | .collect .. => 8
  | .lockBlocks .. => 7
  | .lockRefs .. => 6
  | .dropSession .. => 5
  | .findOrphans .. => 4
  | .scrubEdges .. => 3
  | .dropBlocks .. => 2
  | .commit .. => 1

/-- A statement over many rows counts less once it has its snapshot. -/
def Phase.left : Phase → Nat
  | .next s => 2 * s.left
  | .scanning s _ _ _ => 2 * s.left - 1
  | .finished _ => 0

/-- The choices and the locks that the statement at hand still has before it. -/
def Phase.turns : Phase → Nat
  | .scanning _ pending none _ => 2 * pending.length + 1
  | .scanning _ pending (some _) _ => 2 * pending.length
  | _ => 0

def Database.work (db : Database) : Nat ×ₗ Nat :=
  toLex ((db.txs.map fun t => t.phase.left).sum, (db.txs.map fun t => t.phase.turns).sum)

/-- The row that a statement waits for is one of those it is about. -/
def WaitsForPending (db : Database) : Prop :=
  ∀ (i : Nat) (t : Tx) s p k n, db.txs[i]? = some t → t.phase = .scanning s p (some k) n → k ∈ p

def AllFinished (db : Database) : Prop := ∀ t ∈ db.txs, ∃ reply, t.phase = .finished reply

/-- What goes on without requests: transactions move on, and one that waits for itself through others is rolled back. -/
inductive Works (db : Database) : Database.Action → Prop
  | advance {i : Nat} : Works db (.advance i)
  | choose {i : Nat} {k : RowKey} : Works db (.choose i k)
  | abort {i : Nat} (circle : TransGen (WaitsFor db) i i) : Works db (.rollback i)

/-- The steps of the transactions themselves. -/
inductive Proceeds (db : Database) : Database.Action → Prop
  | advance {i : Nat} : Proceeds db (.advance i)
  | choose {i : Nat} {k : RowKey} : Proceeds db (.choose i k)

variable {db db' : Database} {i j : Nat} {t t' u : Tx} {k : RowKey} {a : Database.Action}

theorem Stmt.left_pos (s : Stmt) : 0 < s.left := by
  cases s <;> simp [Stmt.left]

theorem Stmt.left_after {s : Stmt} (h : s.Scans) (n : Nat) : (s.after n).left + 1 = s.left := by
  cases s <;> first | rfl | exact h.elim

theorem Stmt.left_inserts {s s' : Stmt} {r : Row} (h : s.Inserts r s') : s'.left + 1 = s.left := by
  cases h <;> rfl

theorem Phase.left_pos {p : Phase} (h : ∀ reply, p ≠ .finished reply) : 0 < p.left := by
  cases p with
  | next s =>
    have := s.left_pos
    simp only [Phase.left]
    omega
  | scanning s =>
    have := s.left_pos
    simp only [Phase.left]
    omega
  | finished reply => exact absurd rfl (h reply)

/-- Each move leaves fewer statements, or as many and fewer rows. -/
theorem Moves.descends {c : Option RowKey} (h : Moves db i t c t')
    (hscans : ∀ s p w n, t.phase = .scanning s p w n → s.Scans)
    (hpending : ∀ s p k n, t.phase = .scanning s p (some k) n → k ∈ p) :
    t'.phase.left < t.phase.left ∨ t'.phase.left = t.phase.left ∧ t'.phase.turns < t.phase.turns := by
  cases h with
  | deduped hs => exact .inl (by simp [hs, Phase.left, Stmt.left])
  | inserted hs => exact .inl (by simp [hs, Phase.left, Stmt.left])
  | rowFound hs hins | rowInserted hs hins =>
    have := Stmt.left_inserts hins
    simp only [hs, Phase.left]
    omega
  | collectedNone hs => exact .inl (by simp [hs, Phase.left, Stmt.left])
  | collectedSome hs => exact .inl (by simp [hs, Phase.left, Stmt.left])
  | orphansNone hs => exact .inl (by simp [hs, Phase.left, Stmt.left])
  | orphansSome hs => exact .inl (by simp [hs, Phase.left, Stmt.left])
  | @snapshot s hs =>
    have := s.left_pos
    simp only [hs, Phase.left]
    omega
  | chosen hs => exact .inr (by simp [hs, Phase.left, Phase.turns])
  | @met s p n k hs | @gone s p n k hs =>
    have hlength := List.length_erase_of_mem (hpending s p k n hs)
    have := List.length_pos_of_mem (hpending s p k n hs)
    refine .inr ⟨by simp [hs, Phase.left], ?_⟩
    simp only [hs, Phase.turns]
    omega
  | @scanned s n hs =>
    have := Stmt.left_after (hscans _ _ _ _ hs) n
    have := s.left_pos
    simp only [hs, Phase.left]
    omega
  | rolledBack hs => exact .inl (Phase.left_pos hs)

theorem Database.work_set (ht : db.txs[i]? = some t) {rows : List Row}
    (h : t'.phase.left < t.phase.left ∨ t'.phase.left = t.phase.left ∧ t'.phase.turns < t.phase.turns) :
    Database.work { db with rows, txs := db.txs.set i t' } < db.work := by
  have hleft := Parties.sum_map_set (b := t') ht fun t => t.phase.left
  have hturns := Parties.sum_map_set (b := t') ht fun t => t.phase.turns
  rcases h with h | ⟨heq, h⟩
  · exact Prod.Lex.toLex_lt_toLex.mpr (.inl (by dsimp only; omega))
  · exact Prod.Lex.toLex_lt_toLex.mpr (.inr ⟨by dsimp only; omega, by dsimp only; omega⟩)

theorem waitsForPending_empty : WaitsForPending .empty := by
  intro i t s p k n ht
  simp [Database.empty] at ht

theorem waitsForPending_step (h : WaitsForPending db) (hstep : db.step a = some db') : WaitsForPending db' := by
  intro j u s p k n hu hphase
  rcases Database.step_inv hstep with ⟨r, -, rfl⟩ | ⟨i, t, c, t', ht, hmove, rfl, -, -⟩ | ⟨i, t, reply, -, ht, -, rfl⟩
  · rcases Database.getElem?_append.mp hu with hu | ⟨-, rfl⟩
    · exact h j u s p k n hu hphase
    · cases hphase
  · rcases (Database.getElem?_setTx ht).mp hu with ⟨rfl, rfl⟩ | ⟨-, hu⟩
    · cases hmove <;> cases hphase
      assumption
    · exact h j u s p k n hu hphase
  · rcases (Database.getElem?_setTx ht).mp hu with ⟨rfl, rfl⟩ | ⟨-, hu⟩
    · cases hphase
    · exact h j u s p k n hu hphase

/-- Every step but an arrival leaves less to do. -/
theorem work_descends (hlocked : Locked db) (hpending : WaitsForPending db) (ha : ∀ r, a ≠ .start r)
    (hstep : db.step a = some db') : db'.work < db.work := by
  rcases Database.step_inv hstep with ⟨r, rfl, -⟩ | ⟨i, t, c, t', ht, hmove, rfl, -, -⟩ | ⟨i, t, reply, -, ht, hs, rfl⟩
  · exact absurd rfl (ha r)
  · exact Database.work_set ht (hmove.descends (fun _ _ _ _ => hlocked.scans ht) (fun s p k n => hpending i t s p k n ht))
  · exact Database.work_set ht (.inl (by simp [hs, Phase.left, Stmt.left]))

/-! ### Who can move -/

/-- Whoever waits, waits for a transaction that has not finished. -/
theorem WaitsFor.unfinished (hlocked : Locked db) (h : WaitsFor db i j) :
    ∃ u, db.txs[j]? = some u ∧ ∀ reply, u.phase ≠ .finished reply := by
  obtain ⟨-, t, u, -, hu, hwait⟩ := h
  refine ⟨u, hu, fun reply hphase => ?_⟩
  have hempty : u.txn = .empty := by
    have hshape := hlocked.shape hu
    unfold Tx.Shape at hshape
    rwa [hphase] at hshape
  unfold Tx.WaitsOn at hwait
  rw [hempty] at hwait
  split at hwait
  · split at hwait <;> simp [Txn.empty] at hwait
  · simp [Txn.empty] at hwait
  · simp [Txn.empty] at hwait
  · simp [Txn.empty] at hwait
  · exact hwait

/-- A transaction that has not finished moves on or waits for another. -/
theorem proceeds_or_waits (ht : db.txs[i]? = some t) (hrunning : ∀ reply, t.phase ≠ .finished reply) :
    (∃ a db', Proceeds db a ∧ db.step a = some db') ∨ ∃ j, WaitsFor db i j := by
  cases hadvance : db.advance i t with
  | some db' => exact .inl ⟨_, db', .advance (i := i), by simp [Database.step, ht, hadvance]⟩
  | none =>
    rcases (advance_eq_none ht).mp hadvance with ⟨reply, hphase⟩ | ⟨s, k, ks, n, hphase⟩ | hwaits
    · exact absurd hphase (hrunning reply)
    · exact .inl ⟨_, _, .choose (i := i) (k := k), by simp [Database.step, ht, hphase]; rfl⟩
    · exact .inr hwaits

/-- Where some transaction has not finished, one moves on, or some wait for each other in a circle. -/
theorem proceeds_or_deadlock (hlocked : Locked db) (h : ¬AllFinished db) :
    (∃ a db', Proceeds db a ∧ db.step a = some db') ∨ Deadlock db := by
  by_contra hnone
  obtain ⟨hmoves, hdeadlock⟩ := not_or.mp hnone
  let running : Set Nat := { i | ∃ t, db.txs[i]? = some t ∧ ∀ reply, t.phase ≠ .finished reply }
  have hfinite : running.Finite := (Set.finite_lt_nat db.txs.length).subset fun i ⟨t, ht, _⟩ => (List.getElem?_eq_some_iff.mp ht).1
  have hne : running.Nonempty := by
    unfold AllFinished at h
    push Not at h
    obtain ⟨t, ht, hrunning⟩ := h
    obtain ⟨i, hi⟩ := List.mem_iff_getElem?.mp ht
    exact ⟨i, t, hi, hrunning⟩
  refine hdeadlock (exists_circle hfinite hne fun i ⟨t, ht, hrunning⟩ => ?_)
  obtain ⟨j, hwaits⟩ := (proceeds_or_waits ht hrunning).resolve_left hmoves
  exact ⟨j, hwaits.unfinished hlocked, hwaits⟩

/-- A circle can be broken. -/
theorem rollback_of_deadlock (h : Deadlock db) : ∃ a db', Works db a ∧ db.step a = some db' := by
  obtain ⟨i, hcircle⟩ := h
  obtain ⟨j, -, t, u, ht, -, hwait⟩ : ∃ j, WaitsFor db i j := by
    rcases TransGen.head'_iff.mp hcircle with ⟨j, h, -⟩
    exact ⟨j, h⟩
  refine ⟨.rollback i, db.setTx i { t with phase := .finished none, txn := .empty }, .abort hcircle, ?_⟩
  simp only [Database.step, ht]
  unfold Tx.WaitsOn at hwait
  split at hwait <;> simp_all

/-- In whatever state the transactions are, once no more requests arrive they all finish, whichever of them moves on, whichever
rows it takes, and whichever transaction of a circle is rolled back. -/
theorem transactions_end {as : List Database.Action} (h : Run Database.step (fun _ _ => True) .empty as db) :
    Inevitably Database.step Works AllFinished db := by
  have hinv : Locked db ∧ WaitsForPending db := by
    refine h.invariant (P := fun db => Locked db ∧ WaitsForPending db) ⟨locked_empty, waitsForPending_empty⟩ ?_
    exact fun hdb _ hstep => ⟨hdb.1.step hstep, waitsForPending_step hdb.2 hstep⟩
  refine Inevitably.of_descent Database.work (I := fun db => Locked db ∧ WaitsForPending db) ?_ ?_ ?_ hinv
  · exact fun hdb _ hstep => ⟨hdb.1.step hstep, waitsForPending_step hdb.2 hstep⟩
  · exact fun hdb hworks hstep => work_descends hdb.1 hdb.2 (by rintro r rfl; cases hworks) hstep
  · intro db hdb hrunning
    rcases proceeds_or_deadlock hdb.1 hrunning with ⟨a, db', hproceeds, hstep⟩ | hdeadlock
    · exact ⟨a, db', by cases hproceeds <;> constructor, hstep⟩
    · exact rollback_of_deadlock hdeadlock

theorem transactions_end_sample : ∃ db, Run Database.step (fun _ _ => True) .empty crossedPurges db ∧ WaitsFor db 4 5 ∧
    WaitsFor db 5 4 ∧ Inevitably Database.step Works AllFinished db := by
  have hrun : (Run.exec (fun db a => if true then Database.step db a else none) .empty crossedPurges).map locksOf =
      some [(none, []), (none, []), (none, []), (none, []), (some (.block ⟨3⟩), [.block ⟨1⟩]),
        (some (.block ⟨1⟩), [.block ⟨3⟩])] := by decide +kernel
  obtain ⟨db, hdb, hlocks⟩ := Option.map_eq_some_iff.mp hrun
  have hany : Run Database.step (fun _ _ => True) .empty crossedPurges db := Run.of_exec (fun _ _ _ => trivial) hdb
  refine ⟨db, hany, ?_, ?_, transactions_end hany⟩
  · exact waitsFor_of_locks (k := .block ⟨3⟩) (by rw [hlocks]; rfl) (by rw [hlocks]; rfl) (by simp) (by simp)
  · exact waitsFor_of_locks (k := .block ⟨1⟩) (by rw [hlocks]; rfl) (by rw [hlocks]; rfl) (by simp) (by simp)

/-! ### Ingestion -/

theorem Ingested.waitsInOrder {c : Catalog} (h : Ingested db c) : WaitsInOrder db := by
  intro i t s p k n ht hphase
  have hingest := h.txs ht
  rw [hphase] at hingest
  generalize t.request = request at hingest
  cases hingest

theorem acyclic_of_order (hlocked : Locked db) (horder : WaitsInOrder db) : ¬Deadlock db := by
  have hwait : ∀ i j, WaitsFor db i j → ∃ k, Above db i k ∧ Holds db j k := fun _ _ => waitsFor_above hlocked horder
  rintro ⟨i, hcircle⟩
  exact waits_acyclic hwait (fun _ _ _ habove hheld => habove _ hheld) i hcircle

/-- Transactions that store blocks and edges all finish by themselves: none of them is ever rolled back for another. -/
theorem ingest_ends {as : List Database.Action} (h : Run Database.step Ingesting .empty as db) :
    Inevitably Database.step Proceeds AllFinished db := by
  let I : Database → Prop := fun db => Locked db ∧ WaitsForPending db ∧ ∃ c, Ingested db c
  have keep : ∀ {db a db'}, I db → Ingesting db a → db.step a = some db' → I db' := by
    rintro db a db' ⟨hlocked, hpending, c, hingested⟩ hingests hstep
    refine ⟨hlocked.step hstep, waitsForPending_step hpending hstep, ?_⟩
    rcases hingested.step hingests hstep with ⟨-, h'⟩ | ⟨-, c', -, -, h'⟩
    · exact ⟨c, h'⟩
    · exact ⟨c', h'⟩
  have proceeding : ∀ {db a}, Proceeds db a → Ingesting db a := by
    rintro db a (_ | _) <;> trivial
  have hinv : I db := by
    refine h.invariant (P := I) ⟨locked_empty, waitsForPending_empty, .empty, ingested_empty⟩ keep
  refine Inevitably.of_descent Database.work (I := I) ?_ ?_ ?_ hinv
  · exact fun hdb hproceeds hstep => keep hdb (proceeding hproceeds) hstep
  · exact fun hdb hproceeds hstep => work_descends hdb.1 hdb.2.1 (by rintro r rfl; cases hproceeds) hstep
  · rintro db ⟨hlocked, -, c, hingested⟩ hrunning
    exact (proceeds_or_deadlock hlocked hrunning).resolve_right (acyclic_of_order hlocked hingested.waitsInOrder)

/-- The second put of one content waits for the first. -/
theorem ingest_ends_sample : ∃ db, Run Database.step Ingesting .empty (mixedIngest.take 9) db ∧
    (db.step (.advance 3)).isNone ∧ Inevitably Database.step Proceeds AllFinished db := by
  have hblocked : ((Run.exec (fun db a => if ingests db a then Database.step db a else none) .empty (mixedIngest.take 9)).map
      fun db => (db.step (.advance 3)).isNone) = some true := by decide +kernel
  obtain ⟨db, hdb, hwaits⟩ := Option.map_eq_some_iff.mp hblocked
  have hrun : Run Database.step Ingesting .empty (mixedIngest.take 9) db := Run.of_exec ingesting_of_check hdb
  exact ⟨db, hrun, hwaits, ingest_ends hrun⟩

end Llm386.Pg
