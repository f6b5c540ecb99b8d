import Llm386.Pg.References

/-! # Blocks without a session

Where a purge drops only references to blocks that it has collected, and a delete drops references only with their
block, every committed block keeps a reference: whoever drops one holds the lock on its block, and leaves another or
deletes the block. A purge may drop a reference that was put after it has collected the session, though, and that
block stays with no session to own it. -/

namespace Llm386.Pg

/-- Every block is in some session. -/
def Owned (rows : List Row) : Prop := ∀ b, Row.block b ∈ rows → ∃ session, Row.sessionBlock session b.id ∈ rows

/-- When a purge drops the references of its session it has collected all their blocks, and when a delete drops the
references that it sees it has deleted the block. -/
def DropsWhole (db : Database) : Database.Action → Prop
  | .advance i => ∀ t, db.txs[i]? = some t →
    (∀ session ids id, t.phase = .next (.dropSession session ids) → Row.sessionBlock session id ∈ t.view db.rows → id ∈ ids) ∧
    (∀ id existed session, t.phase = .next (.deleteRefs id existed) → Row.sessionBlock session id ∈ t.view db.rows →
      RowKey.block id ∈ t.txn.del)
  | _ => True

/-! ### What a transaction has dropped so far -/

/-- No reference is dropped. -/
def NoDrops (w : Txn Row RowKey) : Prop := ∀ session id, RowKey.sessionBlock session id ∉ w.del

/-- A reference is dropped only under the lock on its block, which has `P` or keeps another reference. -/
def Leaves (rows : List Row) (w : Txn Row RowKey) (P : BlockId → Prop) : Prop :=
  ∀ session id, RowKey.sessionBlock session id ∈ w.del → RowKey.block id ∈ w.held ∧
    (P id ∨ ∃ other, Row.sessionBlock other id ∈ rows ∧ RowKey.sessionBlock other id ∉ w.del)

/-- What holds before a statement. -/
def Stmt.TidyBefore (rows : List Row) (w : Txn Row RowKey) : Stmt → Prop
  | .deleteEdges _ _ | .commit _ => Leaves rows w fun id => RowKey.block id ∈ w.del
  | .findOrphans ids => Leaves rows w (· ∈ ids)
  | .scrubEdges _ orphans | .dropBlocks _ orphans => Leaves rows w (· ∈ orphans)
  | _ => NoDrops w

/-- What holds during a statement over many rows, with `pending` still to meet. -/
def Stmt.TidyDuring (rows : List Row) (w : Txn Row RowKey) (pending : List RowKey) : Stmt → Prop
  | .deleteRefs _ _ => ∀ session id, RowKey.sessionBlock session id ∈ w.del ∨ RowKey.sessionBlock session id ∈ pending →
      RowKey.block id ∈ w.del
  | .deleteEdges _ _ => Leaves rows w fun id => RowKey.block id ∈ w.del
  | .dropSession _ ids => ∀ session id, RowKey.sessionBlock session id ∈ w.del ∨
      RowKey.sessionBlock session id ∈ pending → id ∈ ids ∧ RowKey.block id ∈ w.held
  | .scrubEdges _ orphans => Leaves rows w (· ∈ orphans)
  | .dropBlocks _ _ => Leaves rows w fun id => RowKey.block id ∈ w.del ∨ RowKey.block id ∈ pending
  | _ => NoDrops w

def Tx.Tidy (rows : List Row) (t : Tx) : Prop :=
  match t.phase with
  | .next s => s.TidyBefore rows t.txn
  | .scanning s pending _ _ => s.TidyDuring rows t.txn pending
  | .finished _ => NoDrops t.txn

variable {db db' : Database} {rows : List Row} {i j : Nat} {t t' u : Tx} {w : Txn Row RowKey} {k : RowKey}
  {id : BlockId} {s : Stmt} {pending : List RowKey} {waiting : Option RowKey} {affected : Nat} {P Q : BlockId → Prop}

theorem Tx.Tidy.before (h : t.Tidy rows) (hs : t.phase = .next s) : s.TidyBefore rows t.txn := by
  unfold Tx.Tidy at h
  rwa [hs] at h

theorem Tx.Tidy.during (h : t.Tidy rows) (hs : t.phase = .scanning s pending waiting affected) :
    s.TidyDuring rows t.txn pending := by
  unfold Tx.Tidy at h
  rwa [hs] at h

theorem noDrops_of_empty (h : w.del = []) : NoDrops w := fun session id hdel => by simp [h] at hdel

theorem NoDrops.leaves (h : NoDrops w) : Leaves rows w P := fun session id hdel => absurd hdel (h session id)

theorem NoDrops.delete (h : NoDrops w) (hk : ∀ session id, k ≠ .sessionBlock session id) : NoDrops (w.delete k) := by
  intro session id hdel
  rcases List.mem_cons.mp hdel with heq | hdel
  · exact hk session id heq.symm
  · exact h session id hdel

theorem Leaves.imp (h : Leaves rows w P) (himp : ∀ id, RowKey.block id ∈ w.held → P id → Q id) : Leaves rows w Q := by
  intro session id hdel
  obtain ⟨hheld, hid | hkept⟩ := h session id hdel
  · exact ⟨hheld, .inl (himp id hheld hid)⟩
  · exact ⟨hheld, .inr hkept⟩

theorem Leaves.delete (h : Leaves rows w P) (hk : ∀ session id, k ≠ .sessionBlock session id)
    (himp : ∀ id, P id → Q id) : Leaves rows (w.delete k) Q := by
  intro session id hdel
  rcases List.mem_cons.mp hdel with heq | hdel
  · exact absurd heq.symm (hk session id)
  · obtain ⟨hheld, hleft⟩ := h session id hdel
    refine ⟨List.mem_cons_of_mem _ hheld, hleft.imp (himp id) ?_⟩
    rintro ⟨other, hrow, hkept⟩
    refine ⟨other, hrow, fun hdel => ?_⟩
    rcases List.mem_cons.mp hdel with heq | hdel
    · exact hk other id heq.symm
    · exact hkept hdel

/-- Whoever drops a reference holds the lock on its block. -/
theorem Tx.Tidy.held (h : t.Tidy rows) (hguarded : t.txn.Guarded Row.key) {session : SessionId}
    (hdel : RowKey.sessionBlock session id ∈ t.txn.del) : RowKey.block id ∈ t.txn.held := by
  cases hs : t.phase with
  | finished reply =>
    unfold Tx.Tidy at h
    rw [hs] at h
    exact absurd hdel (h session id)
  | next s =>
    have hbefore := h.before hs
    cases s with
    | deleteEdges | commit | findOrphans | scrubEdges | dropBlocks => exact (hbefore session id hdel).1
    | _ => exact absurd hdel (hbefore session id)
  | scanning s pending waiting affected =>
    have hduring := h.during hs
    cases s with
    | deleteRefs => exact hguarded.del _ (hduring session id (.inl hdel))
    | dropSession => exact (hduring session id (.inl hdel)).2
    | deleteEdges | scrubEdges | dropBlocks => exact (hduring session id hdel).1
    | _ => exact absurd hdel (hduring session id)

/-! ### What others commit -/

/-- A commit of another transaction that drops references only under their blocks' locks keeps what `t` leaves. -/
theorem Leaves.foreign (h : Leaves rows t.txn P) (hforeign : Foreign t u)
    (hdropped : ∀ session id, RowKey.sessionBlock session id ∈ u.txn.del → RowKey.block id ∈ u.txn.held) :
    Leaves (u.view rows) t.txn P := by
  intro session id hdel
  obtain ⟨hheld, hid | ⟨other, hrow, hkept⟩⟩ := h session id hdel
  · exact ⟨hheld, .inl hid⟩
  · refine ⟨hheld, .inr ⟨other, Txn.mem_view.mpr (.inl ⟨hrow, fun hdrop => ?_⟩), hkept⟩⟩
    exact hforeign.apart _ hheld (hdropped other id hdrop)

theorem Tx.Tidy.foreign (h : t.Tidy rows) (hforeign : Foreign t u)
    (hdropped : ∀ session id, RowKey.sessionBlock session id ∈ u.txn.del → RowKey.block id ∈ u.txn.held) :
    t.Tidy (u.view rows) := by
  unfold Tx.Tidy at h ⊢
  split at h
  · rename_i s hs
    cases s with
    | deleteEdges | commit | findOrphans | scrubEdges | dropBlocks => exact Leaves.foreign h hforeign hdropped
    | _ => exact h
  · rename_i s pending waiting affected hs
    cases s with
    | deleteEdges | scrubEdges | dropBlocks => exact Leaves.foreign h hforeign hdropped
    | _ => exact h
  · exact h

/-! ### One statement after the other -/

/-- A locked block that the transaction has not deleted is in its view. -/
theorem Sound.view_of_locked (h : Sound db) (ht : db.txs[i]? = some t) (hheld : k ∈ t.txn.held) (hdel : k ∉ t.txn.del) :
    ∃ r ∈ t.view db.rows, r.key = k := by
  rcases h.locked.real ht hheld with ⟨r, hr, rfl⟩ | ⟨r, hr, rfl⟩
  · exact ⟨r, Txn.mem_view.mpr (.inl ⟨hr, hdel⟩), rfl⟩
  · exact ⟨r, Txn.mem_view.mpr (.inr hr), rfl⟩

/-- A transaction that is not about to commit sees only committed references. -/
theorem Sound.committed_of_seen (h : Sound db) (ht : db.txs[i]? = some t)
    (hs : ∀ id, t.phase ≠ .next (.commit (.stored id))) {session : SessionId}
    (hrow : Row.sessionBlock session id ∈ t.view db.rows) :
    Row.sessionBlock session id ∈ db.rows ∧ RowKey.sessionBlock session id ∉ t.txn.del := by
  rcases Txn.mem_view.mp hrow with hrow | hins
  · exact hrow
  · exact absurd (h.refers ht hins) (hs id)

theorem mem_snapshot_iff : k ∈ ((t.view rows).map Row.key).filter s.concerns ↔
    (∃ r ∈ t.view rows, r.key = k) ∧ s.concerns k = true := by
  rw [List.mem_filter, List.mem_map]

theorem Tx.Tidy.snapshot (h : t.Tidy db.rows) (hsound : Sound db) (ht : db.txs[i]? = some t) (hs : t.phase = .next s)
    (hscans : s.Scans) (hdrops : DropsWhole db (.advance i)) :
    s.TidyDuring db.rows t.txn (((t.view db.rows).map Row.key).filter s.concerns) := by
  have hbefore := h.before hs
  -- The references in the snapshot are rows that the transaction sees.
  have seen : ∀ {session id}, RowKey.sessionBlock session id ∈ ((t.view db.rows).map Row.key).filter s.concerns →
      Row.sessionBlock session id ∈ t.view db.rows ∧ s.concerns (.sessionBlock session id) = true := by
    intro session id hk
    obtain ⟨⟨r, hr, hkey⟩, hconcerns⟩ := mem_snapshot_iff.mp hk
    cases r with
    | sessionBlock => cases hkey; exact ⟨hr, hconcerns⟩
    | block | edge => cases hkey
  obtain ⟨hsession, hrefs⟩ := hdrops t ht
  cases s with
  | deleteRefs deleted existed =>
    have hnone : NoDrops t.txn := hbefore
    rintro session id (hdel | hpending)
    · exact absurd hdel (hnone session id)
    · obtain ⟨hrow, hconcerns⟩ := seen hpending
      obtain rfl : id = deleted := by simpa [Stmt.concerns] using hconcerns
      exact hrefs id existed session hs hrow
  | dropSession session ids =>
    have hnone : NoDrops t.txn := hbefore
    rintro session' id (hdel | hpending)
    · exact absurd hdel (hnone session' id)
    · obtain ⟨hrow, hconcerns⟩ := seen hpending
      obtain rfl : session' = session := by simpa [Stmt.concerns] using hconcerns
      have hid := hsession session' ids id hs hrow
      obtain ⟨hcommitted, -⟩ := hsound.committed_of_seen ht (by simp [hs]) hrow
      obtain ⟨b, hb, rfl⟩ := hsound.referential session' id hcommitted
      exact ⟨hid, ((hsound.good ht).before hs).2 b hb hid⟩
  | dropBlocks ids orphans =>
    obtain ⟨hkeeps, hcondemns⟩ := (hsound.good ht).before hs
    refine Leaves.imp hbefore fun id hheld hid => .inr ?_
    have hrow := hsound.view_of_locked ht hheld fun hdel => List.not_mem_nil (hkeeps id hdel)
    exact mem_snapshot_iff.mpr ⟨hrow, by simpa [Stmt.concerns] using hid⟩
  | deleteBlock | deleteEdges | lockBlocks | lockRefs | scrubEdges => exact hbefore
  | upsertBlock | insertSessionBlock | insertEdge | collect | findOrphans | commit => exact hscans.elim

theorem Stmt.TidyDuring.met (h : s.TidyDuring rows w pending) (hk : s.concerns k = true) (hpending : k ∈ pending) :
    s.TidyDuring rows (if s.deletes then w.delete k else w.lock k) (pending.erase k) := by
  cases s with
  | deleteBlock id =>
    refine NoDrops.delete h ?_
    rintro session x rfl
    simp [Stmt.concerns] at hk
  | deleteRefs deleted existed =>
    rintro session id hid
    refine List.mem_cons_of_mem _ (h session id ?_)
    rcases hid with hdel | hid
    · rcases List.mem_cons.mp hdel with heq | hdel
      · exact .inr (heq ▸ hpending)
      · exact .inl hdel
    · exact .inr (List.mem_of_mem_erase hid)
  | deleteEdges id existed =>
    refine Leaves.delete h ?_ fun x hx => List.mem_cons_of_mem _ hx
    rintro session x rfl
    simp [Stmt.concerns] at hk
  | lockBlocks | lockRefs => exact h
  | dropSession session ids =>
    rintro session' id hid
    have hmet : RowKey.sessionBlock session' id ∈ w.del ∨ RowKey.sessionBlock session' id ∈ pending := by
      rcases hid with hdel | hid
      · rcases List.mem_cons.mp hdel with heq | hdel
        · exact .inr (heq ▸ hpending)
        · exact .inl hdel
      · exact .inr (List.mem_of_mem_erase hid)
    exact ⟨(h session' id hmet).1, List.mem_cons_of_mem _ (h session' id hmet).2⟩
  | scrubEdges ids orphans =>
    refine Leaves.delete h ?_ fun x hx => hx
    rintro session x rfl
    simp [Stmt.concerns] at hk
  | dropBlocks ids orphans =>
    refine Leaves.delete h ?_ fun x hx => ?_
    · rintro session x rfl
      simp [Stmt.concerns] at hk
    · rcases hx with hdel | hx
      · exact .inl (List.mem_cons_of_mem _ hdel)
      · by_cases hxk : RowKey.block x = k
        · exact .inl (hxk ▸ List.mem_cons_self)
        · exact .inr ((List.mem_erase_of_ne hxk).mpr hx)
  | upsertBlock | insertSessionBlock | insertEdge | collect | findOrphans | commit =>
    refine NoDrops.delete h ?_
    rintro session x rfl
    simp [Stmt.concerns] at hk

theorem Stmt.TidyDuring.gone (h : s.TidyDuring db.rows t.txn pending) (hsound : Sound db) (ht : db.txs[i]? = some t)
    (hgone : ∀ r ∈ t.view db.rows, r.key ≠ k) : s.TidyDuring db.rows t.txn (pending.erase k) := by
  cases s with
  | deleteRefs | dropSession => exact fun session id hid => h session id (hid.imp_right List.mem_of_mem_erase)
  | dropBlocks ids orphans =>
    refine Leaves.imp h fun id hheld hid => ?_
    rcases hid with hdel | hid
    · exact .inl hdel
    · by_cases hk : RowKey.block id = k
      · -- The row is locked, so it is only gone because the transaction has deleted it.
        refine .inl ?_
        by_contra hdel
        obtain ⟨r, hr, hkey⟩ := hsound.view_of_locked ht hheld hdel
        exact hgone r hr (hkey.trans hk)
      · exact .inr ((List.mem_erase_of_ne hk).mpr hid)
  | _ => exact h

theorem Stmt.TidyDuring.scanned (h : s.TidyDuring rows w []) (hguarded : w.Guarded Row.key) (hscans : s.Scans) :
    (s.after affected).TidyBefore rows w := by
  cases s with
  | deleteRefs id existed =>
    intro session x hdel
    have hblock := h session x (.inl hdel)
    exact ⟨hguarded.del _ hblock, .inl hblock⟩
  | dropSession session ids =>
    intro session' x hdel
    obtain ⟨hid, hheld⟩ := h session' x (.inl hdel)
    exact ⟨hheld, .inl hid⟩
  | dropBlocks ids orphans => exact Leaves.imp h fun x _ hx => hx.resolve_right List.not_mem_nil
  | deleteBlock | deleteEdges | lockBlocks | lockRefs | scrubEdges => exact h
  | upsertBlock | insertSessionBlock | insertEdge | collect | findOrphans | commit => exact hscans.elim

/-- A block whose reference a purge has dropped is one of its orphans, or keeps another reference. -/
theorem Sound.leaves_orphans (h : Sound db) (ht : db.txs[i]? = some t) {ids : List BlockId}
    (hs : t.phase = .next (.findOrphans ids)) (hleaves : Leaves db.rows t.txn (· ∈ ids)) :
    Leaves db.rows t.txn (· ∈ orphaned (t.view db.rows) ids) := by
  obtain ⟨hkeeps, -⟩ := (h.good ht).before hs
  intro session id hdel
  obtain ⟨hheld, hid⟩ := hleaves session id hdel
  refine ⟨hheld, ?_⟩
  by_cases hkept : ∃ other, Row.sessionBlock other id ∈ db.rows ∧ RowKey.sessionBlock other id ∉ t.txn.del
  · exact .inr hkept
  · left
    obtain ⟨r, hr, hkey⟩ := h.view_of_locked ht hheld fun hdel => List.not_mem_nil (hkeeps id hdel)
    refine mem_orphaned.mpr ⟨hid.resolve_right hkept, ?_, fun other hrow => ?_⟩
    · cases r with
      | block b =>
        cases hkey
        exact ⟨b, hr, rfl⟩
      | sessionBlock | edge => cases hkey
    · exact hkept ⟨other, h.committed_of_seen ht (by simp [hs]) hrow⟩

theorem Tx.Tidy.move (h : t.Tidy db.rows) (hsound : Sound db) (ht : db.txs[i]? = some t) {c : Option RowKey}
    (hmove : Moves db i t c t') (hdrops : c = none → DropsWhole db (.advance i) ∨ t'.phase = .finished none) :
    t'.Tidy db.rows := by
  have hshape := hsound.locked.shape ht
  cases hmove with
  | deduped hs | inserted hs =>
    have hempty := Tx.empty_before_upsert hshape hs
    exact noDrops_of_empty (by simp [hempty, Txn.lock, Txn.insert, Txn.empty])
  | rowFound hs hins =>
    have hnone : NoDrops t.txn := noDrops_of_empty (hsound.locked.inserting_del ht hs hins)
    cases hins <;> exact hnone.leaves
  | @rowInserted s r s' hs hins =>
    have hnone : NoDrops (t.txn.insert Row.key r) := noDrops_of_empty (hsound.locked.inserting_del ht hs hins)
    cases hins <;> exact hnone.leaves
  | collectedNone hs | collectedSome hs =>
    have hempty : t.txn = .empty := (hsound.good ht).before hs
    have hnone : NoDrops t.txn := noDrops_of_empty (by simp [hempty, Txn.empty])
    first | exact hnone.leaves | exact hnone
  | orphansNone hs hnil =>
    have hleaves := hsound.leaves_orphans ht hs (h.before hs)
    rw [hnil] at hleaves
    exact hleaves.imp fun id _ hid => absurd hid List.not_mem_nil
  | orphansSome hs => exact hsound.leaves_orphans ht hs (h.before hs)
  | snapshot hs hscans => exact h.snapshot hsound ht hs hscans ((hdrops rfl).resolve_right (by simp))
  | chosen hs => exact h.during hs
  | met hs =>
    obtain ⟨-, hconcerns, hwaiting⟩ := (hsound.good ht).during hs
    exact (h.during hs).met (hconcerns _ (hwaiting _ rfl)) (hwaiting _ rfl)
  | gone hs hfree hgone => exact (h.during hs).gone hsound ht hgone
  | @scanned s affected hs => exact (h.during hs).scanned (hsound.locked.guarded ht) (hsound.locked.scans ht hs)
  | rolledBack => exact noDrops_of_empty rfl

/-! ### Every reachable database -/

structure Tidied (db : Database) : Prop where
  sound : Sound db
  owned : Owned db.rows
  tidy : ∀ {i : Nat} {t : Tx}, db.txs[i]? = some t → t.Tidy db.rows
  /-- A block that is stored anew gets its reference before it is committed. -/
  placed : ∀ {i : Nat} {t : Tx} {b : ContextBlock}, db.txs[i]? = some t → Row.block b ∈ t.txn.ins →
    (∃ session, t.phase = .next (.insertSessionBlock session b.id)) ∨ ∃ session, Row.sessionBlock session b.id ∈ t.txn.ins

theorem tidied_empty : Tidied .empty := by
  refine ⟨sound_empty, ?_, ?_, ?_⟩
  · simp [Owned, Database.empty]
  · simp [Database.empty]
  · simp [Database.empty]

/-- A block is inserted by an upsert. -/
theorem Moves.block_ins {c : Option RowKey} (h : Moves db i t c t') {b : ContextBlock} (hb : Row.block b ∈ t'.txn.ins) :
    Row.block b ∈ t.txn.ins ∨ ∃ session, t'.phase = .next (.insertSessionBlock session b.id) := by
  cases h with
  | inserted hs =>
    rcases List.mem_cons.mp hb with heq | hold
    · cases heq
      exact .inr ⟨_, rfl⟩
    · exact .inl hold
  | rowInserted hs hins =>
    rcases List.mem_cons.mp hb with heq | hold
    · cases hins <;> cases heq
    · exact .inl hold
  | @met s pending affected k hs =>
    left
    cases hdel : s.deletes <;> simpa [hdel, Txn.delete, Txn.lock] using hb
  | rolledBack => cases hb
  | deduped | rowFound | collectedNone | collectedSome | orphansNone | orphansSome | snapshot | chosen | gone | scanned =>
    exact .inl hb

/-- What is inserted stays, unless everything is undone. -/
theorem Moves.keeps_ins {c : Option RowKey} (h : Moves db i t c t') {r r' : Row} (hr' : r' ∈ t'.txn.ins)
    (hr : r ∈ t.txn.ins) : r ∈ t'.txn.ins := by
  cases h with
  | inserted | rowInserted => exact List.mem_cons_of_mem _ hr
  | @met s pending affected k hs => cases hdel : s.deletes <;> simpa [hdel, Txn.delete, Txn.lock] using hr
  | rolledBack => cases hr'
  | deduped | rowFound | collectedNone | collectedSome | orphansNone | orphansSome | snapshot | chosen | gone | scanned =>
    exact hr

/-- The reference to a new block is new. -/
theorem Sound.places (h : Sound db) (ht : db.txs[i]? = some t) {c : Option RowKey} (hmove : Moves db i t c t')
    {b : ContextBlock} {session : SessionId} (hs : t.phase = .next (.insertSessionBlock session b.id))
    (hb : Row.block b ∈ t.txn.ins) (hb' : Row.block b ∈ t'.txn.ins) : Row.sessionBlock session b.id ∈ t'.txn.ins := by
  cases hmove with
  | rowFound hs' hins hfree hfound =>
    cases hs.symm.trans hs'
    cases hins
    obtain ⟨r, hr, hkey⟩ := hfound
    cases r with
    | sessionBlock =>
      cases hkey
      obtain ⟨hrow, -⟩ := h.committed_of_seen ht (by simp [hs]) hr
      exact absurd (h.referential _ _ hrow) (h.known.new ht (.inr ⟨b, hb, rfl⟩))
    | block | edge => cases hkey
  | rowInserted hs' hins =>
    cases hs.symm.trans hs'
    cases hins
    exact List.mem_cons_self
  | snapshot hs' hscans =>
    cases hs.symm.trans hs'
    exact hscans.elim
  | rolledBack => cases hb'
  | deduped hs' | inserted hs' | collectedNone hs' | collectedSome hs' | orphansNone hs' | orphansSome hs' | chosen hs'
  | met hs' | gone hs' | scanned hs' => cases hs.symm.trans hs'

namespace Tidied

theorem dropped_held (h : Tidied db) (ht : db.txs[i]? = some t) (session : SessionId) (id : BlockId)
    (hdel : RowKey.sessionBlock session id ∈ t.txn.del) : RowKey.block id ∈ t.txn.held :=
  (h.tidy ht).held (h.sound.locked.guarded ht) hdel

/-- What a transaction commits has a session for every block. -/
theorem owned_view (h : Tidied db) (ht : db.txs[i]? = some t) {reply : Reply} (hs : t.phase = .next (.commit reply)) :
    Owned (t.view db.rows) := by
  have hleaves : Leaves db.rows t.txn fun id => RowKey.block id ∈ t.txn.del := (h.tidy ht).before hs
  intro b hb
  rcases Txn.mem_view.mp hb with ⟨hb, hkept⟩ | hins
  · obtain ⟨session, hrow⟩ := h.owned b hb
    by_cases hdel : RowKey.sessionBlock session b.id ∈ t.txn.del
    · obtain ⟨-, hdead | ⟨other, hother, halive⟩⟩ := hleaves session b.id hdel
      · exact absurd hdead hkept
      · exact ⟨other, Txn.mem_view.mpr (.inl ⟨hother, halive⟩)⟩
    · exact ⟨session, Txn.mem_view.mpr (.inl ⟨hrow, hdel⟩)⟩
  · rcases h.placed ht hins with ⟨session, hphase⟩ | ⟨session, hrow⟩
    · cases hs.symm.trans hphase
    · exact ⟨session, Txn.mem_view.mpr (.inr hrow)⟩

theorem moves (h : Tidied db) (ht : db.txs[i]? = some t) {c : Option RowKey} (hmove : Moves db i t c t')
    (hdrops : c = none → DropsWhole db (.advance i) ∨ t'.phase = .finished none) : Tidied (db.setTx i t') := by
  refine ⟨h.sound.moves ht hmove, h.owned, ?_, ?_⟩
  · intro j u hu
    rcases (Database.getElem?_setTx ht).mp hu with ⟨rfl, rfl⟩ | ⟨-, hu⟩
    · have htidy : u.Tidy db.rows := (h.tidy ht).move h.sound ht hmove hdrops
      exact htidy
    · exact h.tidy hu
  · intro j u b hu hb
    rcases (Database.getElem?_setTx ht).mp hu with ⟨rfl, rfl⟩ | ⟨-, hu⟩
    · rcases hmove.block_ins hb with hold | hnew
      · right
        rcases h.placed ht hold with ⟨session, hs⟩ | ⟨session, hrow⟩
        · exact ⟨session, h.sound.places ht hmove hs hold hb⟩
        · exact ⟨session, hmove.keeps_ins hb hrow⟩
      · exact .inl hnew
    · exact h.placed hu hb

theorem commits (h : Tidied db) (ht : db.txs[i]? = some t) {reply : Reply} (hs : t.phase = .next (.commit reply)) :
    Tidied { db with
      rows := t.view db.rows, txs := db.txs.set i { t with phase := .finished (some reply), txn := .empty } } := by
  refine ⟨h.sound.commits ht hs, h.owned_view ht hs, ?_, ?_⟩
  · intro j u hu
    rcases (Database.getElem?_setTx ht).mp hu with ⟨rfl, rfl⟩ | ⟨hj, hu⟩
    · exact noDrops_of_empty rfl
    · exact (h.tidy hu).foreign (h.sound.foreign hu ht hj) (h.dropped_held ht)
  · intro j u b hu hb
    rcases (Database.getElem?_setTx ht).mp hu with ⟨rfl, rfl⟩ | ⟨-, hu⟩
    · cases hb
    · exact h.placed hu hb

theorem step {a : Database.Action} (h : Tidied db) (hfresh : Fresh db a) (hdrops : DropsWhole db a)
    (hstep : db.step a = some db') : Tidied db' := by
  have hsound : Sound db' := h.sound.step hfresh hstep
  rcases Database.step_inv hstep with
    ⟨r, rfl, rfl⟩ | ⟨i, t, c, t', ht, hmove, rfl, -, hadvance⟩ | ⟨i, t, reply, -, ht, hs, rfl⟩
  · refine ⟨hsound, h.owned, ?_, ?_⟩
    · intro j u hu
      rcases Database.getElem?_append.mp hu with hu | ⟨-, rfl⟩
      · exact h.tidy hu
      · cases r <;> exact noDrops_of_empty rfl
    · intro j u b hu hb
      rcases Database.getElem?_append.mp hu with hu | ⟨-, rfl⟩
      · exact h.placed hu hb
      · cases hb
  · refine h.moves ht hmove fun hc => ?_
    rcases hadvance hc with rfl | hended
    · exact .inl hdrops
    · exact .inr hended
  · exact h.commits ht hs

end Tidied

/-- In every run in which purges drop only references that they have collected, and deletes only with the block,
every committed block is in some session. -/
theorem blocks_owned {as : List Database.Action}
    (h : Run Database.step (fun db a => Fresh db a ∧ DropsWhole db a) .empty as db) : Owned db.rows :=
  (h.invariant tidied_empty fun hdb hallowed hstep => hdb.step hallowed.1 hallowed.2 hstep).owned

/-- `DropsWhole`, as a check. -/
def dropsWhole (db : Database) : Database.Action → Bool
  | .advance i => db.txs[i]?.all fun t =>
    match t.phase with
    | .next (.dropSession session ids) => ∀ id ∈ collected (t.view db.rows) session, id ∈ ids
    | .next (.deleteRefs id _) => id ∈ referenced (t.view db.rows) → RowKey.block id ∈ t.txn.del
    | _ => true
  | _ => true

theorem dropsWhole_of_check {a : Database.Action} (h : dropsWhole db a = true) : DropsWhole db a := by
  cases a with
  | advance i =>
    intro t ht
    simp only [dropsWhole, ht, Option.all_some] at h
    constructor
    · intro session ids id hs hrow
      simp only [hs] at h
      exact of_decide_eq_true h id (mem_collected.mpr hrow)
    · intro id existed session hs hrow
      simp only [hs] at h
      exact of_decide_eq_true h (mem_referenced.mpr ⟨session, hrow⟩)
  | start | choose | rollback => trivial

/-- Block 1 in sessions 1 and 2, block 3 in session 1 only, and session 1 purged. -/
def tidyPurge : List Database.Action :=
  [.start (.put ⟨1⟩ (sampleBlock ⟨1⟩ .fact [0x61] [])), .advance 0, .advance 0, .advance 0,
   .start (.put ⟨2⟩ (sampleBlock ⟨2⟩ .fact [0x61] [])), .advance 1, .advance 1, .advance 1,
   .start (.put ⟨1⟩ (sampleBlock ⟨3⟩ .fact [0x62] [])), .advance 2, .advance 2, .advance 2,
   .start (.purgeSession ⟨1⟩), .advance 3, .advance 3, .choose 3 (.block ⟨3⟩), .advance 3, .choose 3 (.block ⟨1⟩),
   .advance 3, .advance 3, .advance 3, .choose 3 (.sessionBlock ⟨1⟩ ⟨1⟩), .advance 3, .choose 3 (.sessionBlock ⟨2⟩ ⟨1⟩),
   .advance 3, .choose 3 (.sessionBlock ⟨1⟩ ⟨3⟩), .advance 3, .advance 3, .advance 3, .choose 3 (.sessionBlock ⟨1⟩ ⟨3⟩),
   .advance 3, .choose 3 (.sessionBlock ⟨1⟩ ⟨1⟩), .advance 3, .advance 3, .advance 3, .advance 3, .advance 3, .advance 3,
   .choose 3 (.block ⟨3⟩), .advance 3, .advance 3, .advance 3]

theorem blocks_owned_sample : ∃ db, Run Database.step (fun db a => Fresh db a ∧ DropsWhole db a) .empty tidyPurge db ∧
    db.rows.map Row.key = [.block ⟨1⟩, .sessionBlock ⟨2⟩ ⟨1⟩] ∧ Owned db.rows := by
  have hrun : (Run.exec (fun db a => if proposesNew db a && dropsWhole db a then Database.step db a else none) .empty
      tidyPurge).map (fun db => db.rows.map Row.key) = some [.block ⟨1⟩, .sessionBlock ⟨2⟩ ⟨1⟩] := by decide +kernel
  obtain ⟨db, hdb, hkeys⟩ := Option.map_eq_some_iff.mp hrun
  have hallowed : Run Database.step (fun db a => Fresh db a ∧ DropsWhole db a) .empty tidyPurge db := by
    refine Run.of_exec (fun db a h => ?_) hdb
    obtain ⟨hfresh, hdrops⟩ := Bool.and_eq_true_iff.mp h
    exact ⟨fresh_of_check db a hfresh, dropsWhole_of_check hdrops⟩
  exact ⟨db, hallowed, hkeys, blocks_owned hallowed⟩

/-! ### A reference put while a purge runs -/

/-- Block 1 in session 1. A purge of the session collects and locks it; then block 2 is put in the session, and the
purge drops both references. -/
def purgeRace : List Database.Action :=
  [.start (.put ⟨1⟩ (sampleBlock ⟨1⟩ .fact [0x61] [])), .advance 0, .advance 0, .advance 0,
   .start (.purgeSession ⟨1⟩), .advance 1, .advance 1, .choose 1 (.block ⟨1⟩), .advance 1, .advance 1,
   .advance 1, .choose 1 (.sessionBlock ⟨1⟩ ⟨1⟩), .advance 1, .advance 1,
   .start (.put ⟨1⟩ (sampleBlock ⟨2⟩ .fact [0x62] [])), .advance 2, .advance 2, .advance 2,
   .advance 1, .choose 1 (.sessionBlock ⟨1⟩ ⟨1⟩), .advance 1, .choose 1 (.sessionBlock ⟨1⟩ ⟨2⟩), .advance 1, .advance 1,
   .advance 1, .advance 1, .advance 1, .advance 1, .choose 1 (.block ⟨1⟩), .advance 1, .advance 1, .advance 1]

def Tx.ended (t : Tx) : Bool :=
  match t.phase with
  | .finished _ => true
  | _ => false

theorem Tx.finished_of_ended (h : t.ended = true) : ∃ reply, t.phase = .finished reply := by
  unfold Tx.ended at h
  split at h
  · rename_i reply hs
    exact ⟨reply, hs⟩
  · cases h

/-- All transactions have ended, and block 2 is in no session. -/
theorem purge_leaks : ∃ db, Run Database.step Fresh .empty purgeRace db ∧
    (∀ t ∈ db.txs, ∃ reply, t.phase = .finished reply) ∧
    ∃ b, Row.block b ∈ db.rows ∧ ∀ session, Row.sessionBlock session b.id ∉ db.rows := by
  have hrun : (Run.exec (fun db a => if proposesNew db a then Database.step db a else none) .empty purgeRace).map
      (fun db => (db.rows.map Row.key, db.txs.all (·.ended))) = some ([.block ⟨2⟩], true) := by decide +kernel
  obtain ⟨db, hdb, hresult⟩ := Option.map_eq_some_iff.mp hrun
  obtain ⟨hkeys, hended⟩ := Prod.mk.inj hresult
  refine ⟨db, Run.of_exec fresh_of_check hdb, fun t ht => Tx.finished_of_ended (List.all_eq_true.mp hended t ht), ?_⟩
  obtain ⟨r, hr, hkey⟩ : ∃ r ∈ db.rows, r.key = .block ⟨2⟩ := List.mem_map.mp (hkeys ▸ List.mem_singleton_self _)
  cases r with
  | block b =>
    refine ⟨b, hr, fun session hrow => ?_⟩
    have hmem : RowKey.sessionBlock session b.id ∈ [RowKey.block ⟨2⟩] := hkeys ▸ List.mem_map_of_mem hrow
    cases List.mem_singleton.mp hmem
  | sessionBlock | edge => cases hkey

end Llm386.Pg
