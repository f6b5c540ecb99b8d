import Llm386.Pg.Orphans

/-! # Edges of deleted blocks

A delete, and a purge for its orphans, deletes the edges that it sees before it deletes or gives up the blocks. What
it sees is decided when the statement takes its snapshot; an edge that is committed after it, and before the
transaction, is not among them. Where that does not happen, an edge that was put between stored blocks goes with the
first of them. -/

namespace Llm386.Pg

variable {db db' : Database} {rows : List Row} {i j : Nat} {t t' u : Tx} {w : Txn Row RowKey} {k : RowKey}
  {ids pending : List RowKey} {P Q : BlockId → Prop} {s : Stmt} {waiting : Option RowKey} {affected : Nat} {e : Edge}

/-! ### The edges that a transaction deletes -/

/-- The committed edges of the blocks with `P` are deleted, or still to meet. -/
def Scrubs (rows : List Row) (w : Txn Row RowKey) (pending : List RowKey) (P : BlockId → Prop) : Prop :=
  ∀ e, Row.edge e ∈ rows → P e.fromId ∨ P e.toId → RowKey.edge e ∈ w.del ∨ RowKey.edge e ∈ pending

/-- What holds of the edges before a statement. -/
def Stmt.ScrubsBefore (rows : List Row) (w : Txn Row RowKey) : Stmt → Prop
  | .deleteRefs id _ | .deleteEdges id _ => DropsWithin w [id]
  | .dropBlocks _ orphans => DropsWithin w [] ∧ Scrubs rows w [] (· ∈ orphans)
  | .commit _ => Scrubs rows w [] (RowKey.block · ∈ w.del)
  | _ => DropsWithin w []

/-- What holds of them during a statement over many rows. -/
def Stmt.ScrubsDuring (rows : List Row) (w : Txn Row RowKey) (pending : List RowKey) : Stmt → Prop
  | .deleteBlock id | .deleteRefs id _ => DropsWithin w [id]
  | .deleteEdges _ _ => Scrubs rows w pending (RowKey.block · ∈ w.del)
  | .scrubEdges _ orphans => DropsWithin w [] ∧ Scrubs rows w pending (· ∈ orphans)
  | .dropBlocks _ orphans => DropsWithin w orphans ∧ Scrubs rows w [] (· ∈ orphans)
  | _ => DropsWithin w []

def Tx.Scrubbing (rows : List Row) (t : Tx) : Prop :=
  match t.phase with
  | .next s => s.ScrubsBefore rows t.txn
  | .scanning s pending waiting _ => s.ScrubsDuring rows t.txn pending ∧ (∀ k ∈ pending, s.concerns k = true) ∧
      ∀ k, waiting = some k → k ∈ pending
  | .finished _ => True

/-- The transaction deletes the block and has taken its snapshot of the block's edges. -/
def Tx.hasScrubbed (t : Tx) (id : BlockId) : Bool :=
  match t.phase with
  | .next (.commit _) | .scanning (.deleteEdges _ _) _ _ _ => t.txn.del.contains (.block id)
  | .next (.dropBlocks _ orphans) | .scanning (.scrubEdges _ orphans) _ _ _ | .scanning (.dropBlocks _ orphans) _ _ _ =>
    orphans.contains id
  | _ => false

theorem Tx.Scrubbing.before (h : t.Scrubbing rows) (hs : t.phase = .next s) : s.ScrubsBefore rows t.txn := by
  unfold Tx.Scrubbing at h
  rwa [hs] at h

theorem Tx.Scrubbing.during (h : t.Scrubbing rows) (hs : t.phase = .scanning s pending waiting affected) :
    s.ScrubsDuring rows t.txn pending ∧ (∀ k ∈ pending, s.concerns k = true) ∧ ∀ k, waiting = some k → k ∈ pending := by
  unfold Tx.Scrubbing at h
  rwa [hs] at h

/-! ### More deletions -/

theorem Scrubs.imp (h : Scrubs rows w pending P) (himp : ∀ id, Q id → P id) : Scrubs rows w pending Q :=
  fun e he hends => h e he (hends.imp (himp _) (himp _))

/-- A row met is deleted. -/
theorem Scrubs.delete (h : Scrubs rows w pending P) : Scrubs rows (w.delete k) (pending.erase k) P := by
  intro e he hends
  rcases h e he hends with hdel | hpending
  · exact .inl (List.mem_cons_of_mem _ hdel)
  · by_cases hk : RowKey.edge e = k
    · exact .inl (hk ▸ List.mem_cons_self)
    · exact .inr ((List.mem_erase_of_ne hk).mpr hpending)

/-- A row that is gone need not be met. -/
theorem Scrubs.gone (h : Scrubs rows t.txn pending P) (hgone : ∀ r ∈ t.view rows, r.key ≠ k) :
    Scrubs rows t.txn (pending.erase k) P := by
  intro e he hends
  rcases h e he hends with hdel | hpending
  · exact .inl hdel
  · by_cases hdel : RowKey.edge e ∈ t.txn.del
    · exact .inl hdel
    · exact .inr ((List.mem_erase_of_ne (hgone _ (Txn.mem_view.mpr (.inl ⟨he, hdel⟩)))).mpr hpending)

theorem DropsWithin.scrubs (h : DropsWithin w []) : Scrubs rows w pending (RowKey.block · ∈ w.del) := by
  rintro e - (hdel | hdel)
  · exact absurd (h _ hdel) List.not_mem_nil
  · exact absurd (h _ hdel) List.not_mem_nil

/-- The snapshot of a statement over edges has all that are committed. -/
theorem scrubs_snapshot (hs : ∀ e, P e.fromId ∨ P e.toId → s.concerns (.edge e) = true) :
    Scrubs rows t.txn (((t.view rows).map Row.key).filter s.concerns) P := by
  intro e he hends
  by_cases hdel : RowKey.edge e ∈ t.txn.del
  · exact .inl hdel
  · exact .inr (mem_snapshot (Txn.mem_view.mpr (.inl ⟨he, hdel⟩)) (hs e hends))

theorem Stmt.ScrubsBefore.snapshot (h : s.ScrubsBefore rows t.txn) (hscans : s.Scans) :
    s.ScrubsDuring rows t.txn (((t.view rows).map Row.key).filter s.concerns) := by
  cases s with
  | deleteBlock id => exact DropsWithin.mono h (by simp)
  | deleteEdges id existed =>
    have hdrops : DropsWithin t.txn [id] := h
    have hconcerns : ∀ e, RowKey.block e.fromId ∈ t.txn.del ∨ RowKey.block e.toId ∈ t.txn.del →
        (deleteEdges id existed).concerns (.edge e) = true := by
      rintro e (hdel | hdel)
      · simp [Stmt.concerns, List.mem_singleton.mp (hdrops _ hdel)]
      · simp [Stmt.concerns, List.mem_singleton.mp (hdrops _ hdel)]
    exact scrubs_snapshot (P := (RowKey.block · ∈ t.txn.del)) hconcerns
  | scrubEdges ids orphans => exact ⟨h, scrubs_snapshot fun e hends => by simpa [Stmt.concerns] using hends⟩
  | dropBlocks ids orphans => exact ⟨h.1.mono (by simp), h.2⟩
  | deleteRefs | lockBlocks | lockRefs | dropSession => exact h
  | upsertBlock | insertSessionBlock | insertEdge | collect | findOrphans | commit => exact hscans.elim

theorem Stmt.ScrubsDuring.met (h : s.ScrubsDuring rows w pending) (hk : s.concerns k = true) :
    s.ScrubsDuring rows (if s.deletes then w.delete k else w.lock k) (pending.erase k) := by
  cases s with
  | deleteBlock id =>
    refine DropsWithin.delete h fun x hx => ?_
    subst hx
    simpa [Stmt.concerns] using hk
  | deleteRefs id existed =>
    refine DropsWithin.delete h ?_
    rintro x rfl
    simp [Stmt.concerns] at hk
  | deleteEdges id existed =>
    have hscrubs : Scrubs rows w pending (RowKey.block · ∈ w.del) := h
    have hsame : ∀ id, RowKey.block id ∈ (w.delete k).del → RowKey.block id ∈ w.del := by
      intro id hid
      rcases List.mem_cons.mp hid with rfl | hid
      · simp [Stmt.concerns] at hk
      · exact hid
    exact Scrubs.imp hscrubs.delete hsame
  | dropSession session ids =>
    refine DropsWithin.delete h ?_
    rintro x rfl
    simp [Stmt.concerns] at hk
  | scrubEdges ids orphans =>
    refine ⟨h.1.delete ?_, h.2.delete⟩
    rintro x rfl
    simp [Stmt.concerns] at hk
  | dropBlocks ids orphans =>
    refine ⟨h.1.delete ?_, h.2.delete⟩
    rintro x rfl
    simpa [Stmt.concerns] using hk
  | lockBlocks | lockRefs => exact h
  | upsertBlock | insertSessionBlock | insertEdge | collect | findOrphans | commit =>
    exact absurd hk (by cases k <;> simp [Stmt.concerns])

theorem Stmt.ScrubsDuring.gone (h : s.ScrubsDuring rows t.txn pending) (hgone : ∀ r ∈ t.view rows, r.key ≠ k) :
    s.ScrubsDuring rows t.txn (pending.erase k) := by
  cases s with
  | deleteEdges id existed => exact Scrubs.gone (P := (RowKey.block · ∈ t.txn.del)) h hgone
  | scrubEdges ids orphans => exact ⟨h.1, h.2.gone hgone⟩
  | _ => exact h

theorem Stmt.ScrubsDuring.scanned (h : s.ScrubsDuring rows w []) (hscans : s.Scans) :
    (s.after affected).ScrubsBefore rows w := by
  cases s with
  | dropBlocks ids orphans => exact h.2.imp h.1
  | deleteBlock | deleteRefs | deleteEdges | lockBlocks | lockRefs | dropSession | scrubEdges => exact h
  | upsertBlock | insertSessionBlock | insertEdge | collect | findOrphans | commit => exact hscans.elim

/-! ### The moves of a transaction -/

/-- A transaction with an edge to commit has nothing else to do. -/
structure Tx.Linking (t : Tx) : Prop where
  ready : ∀ e, Row.edge e ∈ t.txn.ins → t.phase = .next (.commit .linked)
  keeps : t.phase = .next (.commit .linked) → t.txn.del = []

theorem Tx.Scrubbing.move (hlocked : Locked db) (ht : db.txs[i]? = some t) (h : t.Scrubbing db.rows)
    {c : Option RowKey} (hmove : Moves db i t c t') : t'.Scrubbing db.rows := by
  have hshape := hlocked.shape ht
  cases hmove with
  | deduped hs | inserted hs =>
    have hempty := Tx.empty_before_upsert hshape hs
    exact dropsWithin_of_empty (by simp [hempty, Txn.lock, Txn.insert, Txn.empty])
  | rowFound hs hins =>
    have hnone : DropsWithin t.txn [] := dropsWithin_of_empty (hlocked.inserting_del ht hs hins)
    cases hins <;> exact hnone.scrubs
  | @rowInserted s r s' hs hins =>
    have hnone : DropsWithin (t.txn.insert Row.key r) [] := dropsWithin_of_empty (hlocked.inserting_del ht hs hins)
    cases hins <;> exact hnone.scrubs
  | collectedNone hs | orphansNone hs => exact DropsWithin.scrubs (h.before hs)
  | collectedSome hs | orphansSome hs => exact h.before hs
  | snapshot hs hscans => exact ⟨(h.before hs).snapshot hscans, fun k hk => (List.mem_filter.mp hk).2, by simp⟩
  | chosen hs hk =>
    obtain ⟨hduring, hconcerns, -⟩ := h.during hs
    refine ⟨hduring, hconcerns, fun k' hk' => ?_⟩
    cases hk'
    exact hk
  | met hs hfree hrow =>
    obtain ⟨hduring, hconcerns, hwaiting⟩ := h.during hs
    exact ⟨hduring.met (hconcerns _ (hwaiting _ rfl)), fun k hk => hconcerns k (List.mem_of_mem_erase hk), by simp⟩
  | gone hs hfree hgone =>
    obtain ⟨hduring, hconcerns, -⟩ := h.during hs
    exact ⟨hduring.gone hgone, fun k hk => hconcerns k (List.mem_of_mem_erase hk), by simp⟩
  | @scanned s affected hs => exact (h.during hs).1.scanned (hlocked.scans ht hs)
  | rolledBack => trivial

theorem Tx.Linking.move (hlocked : Locked db) (ht : db.txs[i]? = some t) (h : t.Linking) {c : Option RowKey}
    (hmove : Moves db i t c t') : t'.Linking := by
  have fresh : ∀ {s : Stmt}, t.phase = .next s → s ≠ .commit .linked → ∀ e, Row.edge e ∉ t.txn.ins := by
    intro s hs hne e he
    cases hs.symm.trans (h.ready e he)
    exact hne rfl
  have busy : ∀ {s pending waiting affected}, t.phase = .scanning s pending waiting affected →
      ∀ e, Row.edge e ∉ t.txn.ins := by
    intro s pending waiting affected hs e he
    cases hs.symm.trans (h.ready e he)
  cases hmove with
  | deduped hs => exact ⟨fun e he => absurd he (fresh hs (by simp) e), by simp⟩
  | inserted hs =>
    refine ⟨fun e he => ?_, by simp⟩
    rcases List.mem_cons.mp he with heq | he
    · cases heq
    · exact absurd he (fresh hs (by simp) e)
  | rowFound hs hins =>
    cases hins with
    | sessionBlock => exact ⟨fun e he => absurd he (fresh hs (by simp) e), by simp⟩
    | edge =>
      have hnone : t.txn.del = [] := hlocked.inserting_del ht hs .edge
      exact ⟨fun _ _ => rfl, fun _ => hnone⟩
  | rowInserted hs hins =>
    cases hins with
    | sessionBlock =>
      refine ⟨fun e he => ?_, by simp⟩
      rcases List.mem_cons.mp he with heq | he
      · cases heq
      · exact absurd he (fresh hs (by simp) e)
    | edge =>
      have hnone : t.txn.del = [] := hlocked.inserting_del ht hs .edge
      exact ⟨fun _ _ => rfl, fun _ => hnone⟩
  | collectedNone hs | collectedSome hs | orphansNone hs | orphansSome hs =>
    exact ⟨fun e he => absurd he (fresh hs (by simp) e), by simp⟩
  | snapshot hs hscans =>
    refine ⟨fun e he => absurd he (fresh hs ?_ e), by simp⟩
    rintro rfl
    exact hscans
  | chosen hs | gone hs => exact ⟨fun e he => absurd he (busy hs e), by simp⟩
  | @met s pending affected k hs =>
    refine ⟨fun e he => absurd ?_ (busy hs e), by simp⟩
    cases hdel : s.deletes <;> simpa [hdel, Txn.delete, Txn.lock] using he
  | @scanned s affected hs =>
    refine ⟨fun e he => absurd he (busy hs e), fun hafter => ?_⟩
    have hscans := hlocked.scans ht hs
    cases s with
    | upsertBlock | insertSessionBlock | insertEdge | collect | findOrphans | commit => exact hscans.elim
    | _ => cases hafter
  | rolledBack => exact ⟨fun e he => by (cases he), by simp⟩

/-! ### What others commit -/

theorem Scrubs.view (h : Scrubs rows w pending P)
    (hnew : ∀ e, Row.edge e ∈ u.txn.ins → ¬(P e.fromId ∨ P e.toId)) : Scrubs (u.view rows) w pending P := by
  intro e he hends
  rcases Txn.mem_view.mp he with ⟨he, -⟩ | hins
  · exact h e he hends
  · exact absurd hends (hnew e hins)

/-- Where no edge is committed to a block whose edges the transaction has looked for, it still deletes them all. -/
theorem Tx.Scrubbing.foreign (h : t.Scrubbing rows) (hnew : ∀ e, Row.edge e ∈ u.txn.ins →
    t.hasScrubbed e.fromId = false ∧ t.hasScrubbed e.toId = false) : t.Scrubbing (u.view rows) := by
  have none : ∀ P : BlockId → Prop, (∀ id, t.hasScrubbed id = false → ¬P id) →
      ∀ e, Row.edge e ∈ u.txn.ins → ¬(P e.fromId ∨ P e.toId) := by
    rintro P hP e he (hend | hend)
    · exact hP _ (hnew e he).1 hend
    · exact hP _ (hnew e he).2 hend
  unfold Tx.Scrubbing Tx.hasScrubbed at *
  cases hs : t.phase with
  | next s =>
    rw [hs] at h none
    cases s with
    | dropBlocks ids orphans => exact ⟨h.1, h.2.view (none _ fun id hid => by simpa using hid)⟩
    | commit reply =>
      have hscrubs : Scrubs rows t.txn [] (RowKey.block · ∈ t.txn.del) := h
      exact hscrubs.view (none _ fun id hid => by simpa using hid)
    | _ => exact h
  | scanning s pending waiting affected =>
    rw [hs] at h none
    obtain ⟨hduring, hpending⟩ := h
    refine ⟨?_, hpending⟩
    cases s with
    | deleteEdges id existed =>
      have hscrubs : Scrubs rows t.txn pending (RowKey.block · ∈ t.txn.del) := hduring
      exact hscrubs.view (none _ fun id hid => by simpa using hid)
    | scrubEdges ids orphans => exact ⟨hduring.1, hduring.2.view (none _ fun id hid => by simpa using hid)⟩
    | dropBlocks ids orphans => exact ⟨hduring.1, hduring.2.view (none _ fun id hid => by simpa using hid)⟩
    | _ => exact hduring
  | finished reply => trivial

/-- When an edge is committed, no open transaction deletes one of its ends and has already looked for the end's
edges. -/
def SeesEdges (db : Database) : Database.Action → Prop
  | .advance i => ∀ t, db.txs[i]? = some t → t.phase = .next (.commit .linked) → ∀ e, Row.edge e ∈ t.txn.ins →
    ∀ j u, j ≠ i → db.txs[j]? = some u → u.hasScrubbed e.fromId = false ∧ u.hasScrubbed e.toId = false
  | _ => True

/-! ### Every reachable database -/

structure Scrubbed (db : Database) : Prop where
  locked : Locked db
  linking : ∀ {i : Nat} {t : Tx}, db.txs[i]? = some t → t.Linking
  scrubbing : ∀ {i : Nat} {t : Tx}, db.txs[i]? = some t → t.Scrubbing db.rows

theorem scrubbed_empty : Scrubbed .empty := ⟨locked_empty, by simp [Database.empty], by simp [Database.empty]⟩

namespace Scrubbed

theorem step {a : Database.Action} (h : Scrubbed db) (hsees : SeesEdges db a) (hstep : db.step a = some db') :
    Scrubbed db' := by
  have hlocked : Locked db' := h.locked.step hstep
  rcases Database.step_inv hstep with
    ⟨r, rfl, rfl⟩ | ⟨i, t, c, t', ht, hmove, rfl, -, -⟩ | ⟨i, t, reply, rfl, ht, hs, rfl⟩
  · refine ⟨hlocked, ?_, ?_⟩
    · intro j u hu
      rcases Database.getElem?_append.mp hu with hu | ⟨-, rfl⟩
      · exact h.linking hu
      · exact ⟨fun e he => by (cases he), fun hs => by cases r <;> cases hs⟩
    · intro j u hu
      rcases Database.getElem?_append.mp hu with hu | ⟨-, rfl⟩
      · exact h.scrubbing hu
      · cases r <;> exact dropsWithin_of_empty rfl
  · refine ⟨hlocked, ?_, ?_⟩
    · intro j u hu
      rcases (Database.getElem?_setTx ht).mp hu with ⟨rfl, rfl⟩ | ⟨-, hu⟩
      · exact (h.linking ht).move h.locked ht hmove
      · exact h.linking hu
    · intro j u hu
      rcases (Database.getElem?_setTx ht).mp hu with ⟨rfl, rfl⟩ | ⟨-, hu⟩
      · have hscrubbing : u.Scrubbing db.rows := (h.scrubbing ht).move h.locked ht hmove
        exact hscrubbing
      · exact h.scrubbing hu
  · refine ⟨hlocked, ?_, ?_⟩
    · intro j u hu
      rcases (Database.getElem?_setTx ht).mp hu with ⟨rfl, rfl⟩ | ⟨-, hu⟩
      · exact ⟨fun e he => by (cases he), fun hs => by cases hs⟩
      · exact h.linking hu
    · intro j u hu
      rcases (Database.getElem?_setTx ht).mp hu with ⟨rfl, rfl⟩ | ⟨hj, hu⟩
      · trivial
      · refine (h.scrubbing hu).foreign fun e he => ?_
        have hready := (h.linking ht).ready e he
        exact hsees t ht hready e he j u hj hu

/-- A step that keeps an edge keeps the ends that are stored. -/
theorem keeps_end {a : Database.Action} (h : Scrubbed db) (hstep : db.step a = some db') {id : BlockId}
    (hend : e.fromId = id ∨ e.toId = id) (hedge : Row.edge e ∈ db.rows) (hkept : Row.edge e ∈ db'.rows)
    (hblock : HasBlock db.rows id) : HasBlock db'.rows id := by
  rcases Database.step_inv hstep with
    ⟨r, rfl, rfl⟩ | ⟨i, t, c, t', ht, hmove, rfl, -, -⟩ | ⟨i, t, reply, rfl, ht, hs, rfl⟩
  · exact hblock
  · exact hblock
  · obtain ⟨b, hb, hid⟩ := hblock
    by_cases hdel : RowKey.block id ∈ t.txn.del
    · have hscrubs : Scrubs db.rows t.txn [] (RowKey.block · ∈ t.txn.del) := (h.scrubbing ht).before hs
      have hends : RowKey.block e.fromId ∈ t.txn.del ∨ RowKey.block e.toId ∈ t.txn.del :=
        hend.imp (fun heq => by rwa [heq]) fun heq => by rwa [heq]
      have hgone := (hscrubs e hedge hends).resolve_right List.not_mem_nil
      rcases Txn.mem_view.mp hkept with ⟨-, hleft⟩ | hins
      · exact absurd hgone hleft
      · have hnone := (h.linking ht).keeps ((h.linking ht).ready e hins)
        rw [hnone] at hdel
        cases hdel
    · have hkey : Row.key (.block b) ∉ t.txn.del := by rwa [Row.key, hid]
      exact ⟨b, Txn.mem_view.mpr (.inl ⟨hb, hkey⟩), hid⟩

end Scrubbed

/-- The databases reached after an edge was put between stored blocks, with its row there ever since. -/
inductive Linked (allowed : Database → Database.Action → Prop) (e : Edge) : Database → Prop
  | put {as db i t db'} : Run Database.step allowed .empty as db → db.txs[i]? = some t → t.request = .putEdge e →
    t.phase = .next (.commit .linked) → HasBlock db.rows e.fromId → HasBlock db.rows e.toId → allowed db (.advance i) →
    db.step (.advance i) = some db' → Row.edge e ∈ db'.rows → Linked allowed e db'
  | step {db a db'} : Linked allowed e db → allowed db a → db.step a = some db' → Row.edge e ∈ db'.rows →
    Linked allowed e db'

namespace Linked

theorem edge {allowed : Database → Database.Action → Prop} (h : Linked allowed e db) : Row.edge e ∈ db.rows := by
  cases h with
  | put _ _ _ _ _ _ _ _ hrow => exact hrow
  | step _ _ _ hrow => exact hrow

theorem scrubbed (h : Linked SeesEdges e db) : Scrubbed db := by
  induction h with
  | put hrun _ _ _ _ _ hsees hstep _ =>
    exact (hrun.invariant scrubbed_empty fun hdb hallowed hstep => hdb.step hallowed hstep).step hsees hstep
  | step _ hsees hstep _ ih => exact ih.step hsees hstep

end Linked

/-- In every run in which no edge is committed behind the snapshot of a transaction that deletes one of its ends, an
edge that was put between stored blocks is between stored blocks as long as its row is there. -/
theorem linked_ends_stored (h : Linked SeesEdges e db) : HasBlock db.rows e.fromId ∧ HasBlock db.rows e.toId := by
  induction h with
  | @put as db i t db' hrun ht hrequest hs hfrom hto hsees hstep hrow =>
    have hdb : Scrubbed db := hrun.invariant scrubbed_empty fun hdb hallowed hstep => hdb.step hallowed hstep
    have hrows : db'.rows = t.view db.rows := by
      simp only [Database.step, ht, Database.advance, hs, Database.runStmt] at hstep
      cases hstep
      rfl
    have kept : ∀ {id}, HasBlock db.rows id → HasBlock db'.rows id := by
      rintro id ⟨b, hb, hid⟩
      refine ⟨b, ?_, hid⟩
      rw [hrows]
      exact Txn.mem_view.mpr (.inl ⟨hb, by simp [(hdb.linking ht).keeps hs]⟩)
    exact ⟨kept hfrom, kept hto⟩
  | @step db a db' hlinked hsees hstep hrow ih =>
    have hkeeps : ∀ {id}, e.fromId = id ∨ e.toId = id → HasBlock db.rows id → HasBlock db'.rows id :=
      fun hend hblock => hlinked.scrubbed.keeps_end hstep hend hlinked.edge hrow hblock
    exact ⟨hkeeps (.inl rfl) ih.1, hkeeps (.inr rfl) ih.2⟩

/-! ### Runs of examples -/

def Database.hasEdge (db : Database) (e : Edge) : Bool := db.rows.any (·.key = .edge e)

theorem Database.edge_of_hasEdge (h : db.hasEdge e = true) : Row.edge e ∈ db.rows := by
  obtain ⟨r, hr, hkey⟩ := List.any_eq_true.mp h
  have hkey : r.key = .edge e := of_decide_eq_true hkey
  cases r with
  | edge e' =>
    cases hkey
    exact hr
  | block | sessionBlock => cases hkey

theorem Linked.run {allowed : Database → Database.Action → Prop} {as : List Database.Action} (h : Linked allowed e db)
    (hrun : Run Database.step (fun db a => allowed db a ∧ ∀ db', db.step a = some db' → Row.edge e ∈ db'.rows) db as db') :
    Linked allowed e db' := by
  induction hrun with
  | start => exact h
  | next _ hallowed hstep ih => exact .step ih hallowed.1 hstep (hallowed.2 _ hstep)

/-- The block has a row. -/
def Database.hasBlock (db : Database) (id : BlockId) : Bool := db.rows.any (·.key = .block id)

theorem Database.block_of_hasBlock {id : BlockId} (h : db.hasBlock id = true) : HasBlock db.rows id := by
  obtain ⟨r, hr, hkey⟩ := List.any_eq_true.mp h
  have hkey : r.key = .block id := of_decide_eq_true hkey
  cases r with
  | block b =>
    cases hkey
    exact ⟨b, hr, rfl⟩
  | sessionBlock | edge => cases hkey

/-- The transaction puts the edge and is about to commit. -/
def Tx.putsNow (t : Tx) (e : Edge) : Bool :=
  match t.request, t.due with
  | .putEdge e', some .linked => e' = e
  | _, _ => false

theorem Tx.putsNow_eq (h : t.putsNow e = true) : t.request = .putEdge e ∧ t.phase = .next (.commit .linked) := by
  unfold Tx.putsNow at h
  split at h
  · rename_i hrequest hdue
    rw [← of_decide_eq_true h]
    exact ⟨hrequest, Tx.due_eq hdue⟩
  · cases h

/-- Actions up to the commit of the edge by transaction `i`, and more actions that leave its row. -/
def linkRun (check : Database → Database.Action → Bool) (e : Edge) (i : Nat) (as bs : List Database.Action) :
    Option Database := do
  let mid ← Run.exec (fun db a => if check db a then db.step a else none) .empty as
  let t ← mid.txs[i]?
  if t.putsNow e && mid.hasBlock e.fromId && mid.hasBlock e.toId && check mid (.advance i) then
    let after ← mid.step (.advance i)
    if after.hasEdge e then
      Run.exec (fun db a => if check db a && (db.step a).all (·.hasEdge e) then db.step a else none) after bs
    else none
  else none

theorem linked_of_linkRun {allowed : Database → Database.Action → Prop} {check : Database → Database.Action → Bool}
    {as bs : List Database.Action} (hcheck : ∀ db a, check db a = true → allowed db a)
    (h : linkRun check e i as bs = some db) : Linked allowed e db := by
  obtain ⟨mid, hmid, h⟩ := Option.bind_eq_some_iff.mp h
  obtain ⟨t, ht, h⟩ := Option.bind_eq_some_iff.mp h
  split at h
  · rename_i hready
    obtain ⟨after, hafter, h⟩ := Option.bind_eq_some_iff.mp h
    split at h
    · rename_i hedge
      simp only [Bool.and_eq_true] at hready
      obtain ⟨⟨⟨hputs, hfrom⟩, hto⟩, hallowed⟩ := hready
      obtain ⟨hrequest, hs⟩ := Tx.putsNow_eq hputs
      have hput : Linked allowed e after := .put (Run.of_exec hcheck hmid) ht hrequest hs
        (Database.block_of_hasBlock hfrom) (Database.block_of_hasBlock hto) (hcheck _ _ hallowed) hafter
        (Database.edge_of_hasEdge hedge)
      refine hput.run (Run.of_exec (fun db a hok => ?_) h)
      obtain ⟨hok, hkept⟩ := Bool.and_eq_true_iff.mp hok
      refine ⟨hcheck db a hok, fun db' hstep => ?_⟩
      rw [hstep] at hkept
      exact Database.edge_of_hasEdge hkept
    · cases h
  · cases h

/-- `SeesEdges`, as a check. -/
def seesEdges (db : Database) : Database.Action → Bool
  | .advance i => db.txs[i]?.all fun t => t.txn.ins.all fun r =>
    match r with
    | .edge e => !db.elsewhere i fun u => u.hasScrubbed e.fromId || u.hasScrubbed e.toId
    | _ => true
  | _ => true

theorem seesEdges_of_check (db : Database) (a : Database.Action) (h : seesEdges db a = true) : SeesEdges db a := by
  cases a with
  | advance i =>
    intro t ht _ e he j u hj hu
    simp only [seesEdges, ht, Option.all_some, List.all_eq_true] at h
    have hnone := Database.elsewhere_eq_false.mp (Bool.not_eq_true' _ |>.mp (h _ he)) j u hj hu
    exact Bool.or_eq_false_iff.mp hnone
  | start | choose | rollback => trivial

/-- Blocks 1 and 2 in session 1. -/
def twoBlocks : List Database.Action :=
  [.start (.put ⟨1⟩ (sampleBlock ⟨1⟩ .fact [0x61] [])), .advance 0, .advance 0, .advance 0,
   .start (.put ⟨1⟩ (sampleBlock ⟨2⟩ .fact [0x62] [])), .advance 1, .advance 1, .advance 1]

/-- A delete of block 1 that has taken its row, and then an edge from block 1 to block 2. -/
def edgeSeen : List Database.Action :=
  twoBlocks ++
  [.start (.delete ⟨1⟩), .advance 2, .choose 2 (.block ⟨1⟩), .advance 2,
   .start (.putEdge ⟨⟨1⟩, ⟨2⟩, .supports⟩), .advance 3]

/-- The edge is committed while the delete is open; the delete finds it, takes it too, and is rolled back. -/
theorem linked_ends_stored_sample : ∃ db, Linked SeesEdges ⟨⟨1⟩, ⟨2⟩, .supports⟩ db ∧
    (∀ t ∈ db.txs, ∃ reply, t.phase = .finished reply) ∧ HasBlock db.rows ⟨1⟩ ∧ HasBlock db.rows ⟨2⟩ := by
  have hrun : (linkRun seesEdges ⟨⟨1⟩, ⟨2⟩, .supports⟩ 3 edgeSeen
      [.advance 2, .advance 2, .choose 2 (.sessionBlock ⟨1⟩ ⟨1⟩), .advance 2, .advance 2, .advance 2,
       .choose 2 (.edge ⟨⟨1⟩, ⟨2⟩, .supports⟩), .advance 2, .advance 2, .rollback 2]).map
      (fun db => db.txs.all (·.ended)) = some true := by
    decide +kernel
  obtain ⟨db, hdb, hended⟩ := Option.map_eq_some_iff.mp hrun
  have hlinked : Linked SeesEdges ⟨⟨1⟩, ⟨2⟩, .supports⟩ db := linked_of_linkRun seesEdges_of_check hdb
  exact ⟨db, hlinked, fun t ht => Tx.finished_of_ended (List.all_eq_true.mp hended t ht), linked_ends_stored hlinked⟩

/-- A delete of block 1 up to where it has found no edge, and then an edge from block 1 to block 2. -/
def edgeRace : List Database.Action :=
  twoBlocks ++
  [.start (.delete ⟨1⟩), .advance 2, .choose 2 (.block ⟨1⟩), .advance 2, .advance 2, .advance 2,
   .choose 2 (.sessionBlock ⟨1⟩ ⟨1⟩), .advance 2, .advance 2, .advance 2,
   .start (.putEdge ⟨⟨1⟩, ⟨2⟩, .supports⟩), .advance 3]

/-- The edge is committed between stored blocks, the delete after it, and the edge is left without its source. -/
theorem edge_outlives_block : ∃ e db, Linked Fresh e db ∧ (∀ t ∈ db.txs, ∃ reply, t.phase = .finished reply) ∧
    ¬HasBlock db.rows e.fromId := by
  have hrun : (linkRun proposesNew ⟨⟨1⟩, ⟨2⟩, .supports⟩ 3 edgeRace [.advance 2, .advance 2]).map
      (fun db => (db.rows.map Row.key, db.txs.all (·.ended))) =
        some ([.sessionBlock ⟨1⟩ ⟨2⟩, .block ⟨2⟩, .edge ⟨⟨1⟩, ⟨2⟩, .supports⟩], true) := by
    decide +kernel
  obtain ⟨db, hdb, hresult⟩ := Option.map_eq_some_iff.mp hrun
  obtain ⟨hkeys, hended⟩ := Prod.mk.inj hresult
  refine ⟨_, db, linked_of_linkRun fresh_of_check hdb,
    fun t ht => Tx.finished_of_ended (List.all_eq_true.mp hended t ht), ?_⟩
  rintro ⟨b, hb, hid⟩
  have hmem : RowKey.block ⟨1⟩ ∈ db.rows.map Row.key := List.mem_map.mpr ⟨_, hb, congrArg RowKey.block hid⟩
  rw [hkeys] at hmem
  exact absurd hmem (by decide)

end Llm386.Pg
