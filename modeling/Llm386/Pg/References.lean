import Llm386.Pg.Locks

/-! # References name blocks

What `put`, `delete` and `purge_session` have done before each of their statements, and how the lock on a block row
keeps it true whatever else is committed: nobody gives a block a reference or takes one away without the lock on the
block. So a block that is deleted has lost its references, and a reference that is committed names a block. -/

namespace Llm386.Pg

def HasBlock (rows : List Row) (id : BlockId) : Prop := ∃ b, Row.block b ∈ rows ∧ b.id = id

/-- Every session reference names a block. -/
def Referential (rows : List Row) : Prop := ∀ session id, Row.sessionBlock session id ∈ rows → HasBlock rows id

/-! ### What a transaction has written so far -/

/-- No block is deleted but some of `ids`. -/
def DropsWithin (w : Txn Row RowKey) (ids : List BlockId) : Prop := ∀ id, RowKey.block id ∈ w.del → id ∈ ids

/-- Every committed reference to the block is deleted. -/
def Covers (rows : List Row) (w : Txn Row RowKey) (id : BlockId) : Prop :=
  ∀ session, Row.sessionBlock session id ∈ rows → RowKey.sessionBlock session id ∈ w.del

/-- A block is deleted only with its references. -/
def Settles (rows : List Row) (w : Txn Row RowKey) : Prop := ∀ id, RowKey.block id ∈ w.del → Covers rows w id

/-- The blocks of `ids` that are committed are locked. -/
def LocksAll (rows : List Row) (w : Txn Row RowKey) (ids : List BlockId) : Prop :=
  ∀ b, Row.block b ∈ rows → b.id ∈ ids → RowKey.block b.id ∈ w.held

/-- The blocks of `orphans` are locked and have lost their references. -/
def Condemns (rows : List Row) (w : Txn Row RowKey) (orphans : List BlockId) : Prop :=
  ∀ id ∈ orphans, RowKey.block id ∈ w.held ∧ Covers rows w id

/-- The content that the transaction is to store lies under `stored`, and that block is locked. -/
structure Tx.Stores (rows : List Row) (t : Tx) (stored : BlockId) : Prop where
  content : ∃ session block b, t.request = .put session block ∧ Row.block b ∈ t.view rows ∧ b.id = stored ∧
    b.hash = block.hash
  held : RowKey.block stored ∈ t.txn.held

/-- What holds before a statement. -/
def Stmt.Before (rows : List Row) (t : Tx) : Stmt → Prop
  | .upsertBlock session block => t.request = .put session block
  | .insertSessionBlock _ stored => t.Stores rows stored ∧ DropsWithin t.txn []
  | .insertEdge _ | .deleteBlock _ | .lockBlocks _ _ => DropsWithin t.txn []
  | .collect _ => t.txn = .empty
  | .deleteRefs id _ => DropsWithin t.txn [id]
  | .deleteEdges _ _ => Settles rows t.txn
  | .lockRefs _ ids | .dropSession _ ids | .findOrphans ids => DropsWithin t.txn [] ∧ LocksAll rows t.txn ids
  | .scrubEdges _ orphans | .dropBlocks _ orphans => DropsWithin t.txn [] ∧ Condemns rows t.txn orphans
  | .commit reply => Settles rows t.txn ∧ ∀ stored, reply = .stored stored → t.Stores rows stored

/-- What holds during a statement over many rows, with `pending` still to meet. -/
def Stmt.During (rows : List Row) (w : Txn Row RowKey) (pending : List RowKey) : Stmt → Prop
  | .deleteBlock id => DropsWithin w [id]
  | .deleteRefs id _ => DropsWithin w [id] ∧ (RowKey.block id ∈ w.del → ∀ session, Row.sessionBlock session id ∈ rows →
      RowKey.sessionBlock session id ∈ w.del ∨ RowKey.sessionBlock session id ∈ pending)
  | .deleteEdges _ _ => Settles rows w
  | .lockBlocks _ ids => DropsWithin w [] ∧ ∀ b, Row.block b ∈ rows → b.id ∈ ids →
      RowKey.block b.id ∈ w.held ∨ RowKey.block b.id ∈ pending
  | .lockRefs _ ids | .dropSession _ ids => DropsWithin w [] ∧ LocksAll rows w ids
  | .scrubEdges _ orphans => DropsWithin w [] ∧ Condemns rows w orphans
  | .dropBlocks _ orphans => DropsWithin w orphans ∧ Condemns rows w orphans
  | _ => True

def Tx.Good (rows : List Row) (t : Tx) : Prop :=
  match t.phase with
  | .next s => s.Before rows t
  | .scanning s pending waiting _ => s.During rows t.txn pending ∧ (∀ k ∈ pending, s.concerns k = true) ∧
      ∀ k, waiting = some k → k ∈ pending
  | .finished _ => True

variable {db db' : Database} {rows : List Row} {i j : Nat} {t t' u : Tx} {w : Txn Row RowKey} {k : RowKey}
  {ids : List BlockId} {id : BlockId} {s : Stmt} {pending : List RowKey} {waiting : Option RowKey} {affected : Nat}

theorem Tx.Good.before (h : t.Good rows) (hs : t.phase = .next s) : s.Before rows t := by
  unfold Tx.Good at h
  rwa [hs] at h

theorem Tx.Good.during (h : t.Good rows) (hs : t.phase = .scanning s pending waiting affected) :
    s.During rows t.txn pending ∧ (∀ k ∈ pending, s.concerns k = true) ∧ ∀ k, waiting = some k → k ∈ pending := by
  unfold Tx.Good at h
  rwa [hs] at h

/-! ### More locks and deletions -/

theorem DropsWithin.mono {ids' : List BlockId} (h : DropsWithin w ids) (hsub : ∀ id ∈ ids, id ∈ ids') : DropsWithin w ids' :=
  fun id hid => hsub id (h id hid)

theorem DropsWithin.settles (h : DropsWithin w []) : Settles rows w := fun id hid => absurd (h id hid) List.not_mem_nil

theorem dropsWithin_of_empty (h : w.del = []) : DropsWithin w ids := fun id hid => by simp [h] at hid

theorem DropsWithin.delete (h : DropsWithin w ids) (hk : ∀ id, k = .block id → id ∈ ids) : DropsWithin (w.delete k) ids := by
  intro id hid
  rcases List.mem_cons.mp hid with heq | hid
  · exact hk id heq.symm
  · exact h id hid

theorem Covers.delete (h : Covers rows w id) : Covers rows (w.delete k) id :=
  fun session hrow => List.mem_cons_of_mem _ (h session hrow)

theorem Settles.delete (h : Settles rows w) (hk : ∀ id, k ≠ .block id) : Settles rows (w.delete k) := by
  intro id hid
  rcases List.mem_cons.mp hid with heq | hid
  · exact absurd heq.symm (hk id)
  · exact (h id hid).delete

theorem LocksAll.delete (h : LocksAll rows w ids) : LocksAll rows (w.delete k) ids :=
  fun b hb hid => List.mem_cons_of_mem _ (h b hb hid)

theorem LocksAll.lock (h : LocksAll rows w ids) : LocksAll rows (w.lock k) ids :=
  fun b hb hid => List.mem_cons_of_mem _ (h b hb hid)

theorem Condemns.delete (h : Condemns rows w ids) : Condemns rows (w.delete k) ids :=
  fun id hid => ⟨List.mem_cons_of_mem _ (h id hid).1, (h id hid).2.delete⟩

theorem Tx.Stores.congr (h : t.Stores rows id) (hrequest : t'.request = t.request)
    (hview : ∀ r ∈ t.view rows, r ∈ t'.view rows) (hheld : ∀ k ∈ t.txn.held, k ∈ t'.txn.held) : t'.Stores rows id := by
  obtain ⟨session, block, b, hreq, hb, hid, hhash⟩ := h.content
  exact ⟨⟨session, block, b, hrequest.trans hreq, hview _ hb, hid, hhash⟩, hheld _ h.held⟩

/-! ### One statement after the other -/

theorem mem_snapshot {r : Row} (hr : r ∈ t.view rows) (hs : s.concerns r.key = true) :
    r.key ∈ ((t.view rows).map Row.key).filter s.concerns :=
  List.mem_filter.mpr ⟨List.mem_map_of_mem hr, hs⟩

/-- The snapshot of a statement over many rows finds what it has to. -/
theorem Stmt.Before.snapshot (h : s.Before rows t) (hscans : s.Scans) :
    s.During rows t.txn (((t.view rows).map Row.key).filter s.concerns) := by
  cases s with
  | deleteBlock id => exact DropsWithin.mono h (by simp)
  | deleteRefs id existed =>
    refine ⟨h, fun _ session hrow => ?_⟩
    by_cases hdel : RowKey.sessionBlock session id ∈ t.txn.del
    · exact .inl hdel
    · exact .inr (mem_snapshot (Txn.mem_view.mpr (.inl ⟨hrow, hdel⟩)) (by simp [Stmt.concerns, Row.key]))
  | deleteEdges id existed => exact h
  | lockBlocks session ids =>
    have hdrops : DropsWithin t.txn [] := h
    refine ⟨hdrops, fun b hb hid => .inr (mem_snapshot (r := .block b) (Txn.mem_view.mpr (.inl ⟨hb, ?_⟩)) ?_)⟩
    · exact fun hdel => absurd (hdrops _ hdel) List.not_mem_nil
    · simpa [Stmt.concerns, Row.key] using hid
  | lockRefs session ids => exact h
  | dropSession session ids => exact h
  | scrubEdges ids orphans => exact h
  | dropBlocks ids orphans => exact ⟨h.1.mono (by simp), h.2⟩
  | upsertBlock | insertSessionBlock | insertEdge | collect | findOrphans | commit => exact hscans.elim

/-- A row met is locked, or deleted. -/
theorem Stmt.During.met (h : s.During rows w pending) (hk : s.concerns k = true) :
    s.During rows (if s.deletes then w.delete k else w.lock k) (pending.erase k) := by
  have still : ∀ {x}, x ∈ pending → x = k ∨ x ∈ pending.erase k := fun {x} hx => by
    by_cases hxk : x = k
    · exact .inl hxk
    · exact .inr ((List.mem_erase_of_ne hxk).mpr hx)
  cases s with
  | deleteBlock id =>
    refine DropsWithin.delete h fun x hx => ?_
    subst hx
    simpa [Stmt.concerns] using hk
  | deleteRefs id existed =>
    have hnot : ∀ x, k ≠ .block x := by
      rintro x rfl
      simp [Stmt.concerns] at hk
    refine ⟨h.1.delete fun x hx => absurd hx (hnot x), fun hdel session hrow => ?_⟩
    have hdel : RowKey.block id ∈ w.del := by
      rcases List.mem_cons.mp hdel with heq | hdel
      · exact absurd heq.symm (hnot id)
      · exact hdel
    rcases h.2 hdel session hrow with hgone | hpending
    · exact .inl (List.mem_cons_of_mem _ hgone)
    · rcases still hpending with heq | hpending
      · exact .inl (heq ▸ List.mem_cons_self)
      · exact .inr hpending
  | deleteEdges id existed =>
    refine Settles.delete h ?_
    rintro x rfl
    simp [Stmt.concerns] at hk
  | lockBlocks session ids =>
    refine ⟨h.1, fun b hb hid => ?_⟩
    rcases h.2 b hb hid with hheld | hpending
    · exact .inl (List.mem_cons_of_mem _ hheld)
    · rcases still hpending with heq | hpending
      · exact .inl (heq ▸ List.mem_cons_self)
      · exact .inr hpending
  | lockRefs session ids => exact ⟨h.1, h.2.lock⟩
  | dropSession session ids =>
    refine ⟨h.1.delete ?_, h.2.delete⟩
    rintro x rfl
    simp [Stmt.concerns] at hk
  | scrubEdges ids orphans =>
    refine ⟨h.1.delete ?_, h.2.delete⟩
    rintro x rfl
    simp [Stmt.concerns] at hk
  | dropBlocks ids orphans =>
    refine ⟨h.1.delete ?_, h.2.delete⟩
    rintro x rfl
    simpa [Stmt.concerns] using hk
  | upsertBlock | insertSessionBlock | insertEdge | collect | findOrphans | commit => trivial

/-- A row that is gone need not be met. -/
theorem Stmt.During.gone (h : s.During rows t.txn pending) (hgone : ∀ r ∈ t.view rows, r.key ≠ k) :
    s.During rows t.txn (pending.erase k) := by
  have still : ∀ {r : Row}, r ∈ rows → r.key ∈ pending → r.key ∈ t.txn.del ∨ r.key ∈ pending.erase k := fun {r} hr hx => by
    by_cases hdel : r.key ∈ t.txn.del
    · exact .inl hdel
    · exact .inr ((List.mem_erase_of_ne (hgone r (Txn.mem_view.mpr (.inl ⟨hr, hdel⟩)))).mpr hx)
  cases s with
  | deleteRefs id existed =>
    refine ⟨h.1, fun hdel session hrow => ?_⟩
    rcases h.2 hdel session hrow with hdrop | hpending
    · exact .inl hdrop
    · exact still hrow hpending
  | lockBlocks session ids =>
    refine ⟨h.1, fun b hb hid => ?_⟩
    rcases h.2 b hb hid with hheld | hpending
    · exact .inl hheld
    · rcases still hb hpending with hdel | hpending
      · exact absurd (h.1 _ hdel) List.not_mem_nil
      · exact .inr hpending
  | _ => exact h

/-- A statement that has met all its rows leaves what the next one needs. -/
theorem Stmt.During.scanned (h : s.During rows t.txn []) (hscans : s.Scans) {p : Phase} :
    (s.after affected).Before rows { t with phase := p } := by
  cases s with
  | deleteBlock id => exact h
  | deleteRefs id existed =>
    intro x hx session hrow
    obtain rfl : x = id := List.mem_singleton.mp (h.1 x hx)
    exact (h.2 hx session hrow).resolve_right List.not_mem_nil
  | deleteEdges id existed => exact ⟨h, by simp⟩
  | lockBlocks session ids => exact ⟨h.1, fun b hb hid => (h.2 b hb hid).resolve_right List.not_mem_nil⟩
  | lockRefs session ids => exact h
  | dropSession session ids => exact h
  | scrubEdges ids orphans => exact h
  | dropBlocks ids orphans => exact ⟨fun id hid => (h.2 id (h.1 id hid)).2, by simp⟩
  | upsertBlock | insertSessionBlock | insertEdge | collect | findOrphans | commit => exact hscans.elim

theorem Tx.empty_before_upsert {session : SessionId} {block : ContextBlock} (h : t.Shape)
    (hs : t.phase = .next (.upsertBlock session block)) : t.txn = .empty := by
  unfold Tx.Shape at h
  rwa [hs] at h

theorem Tx.Good.move (hguarded : t.txn.Guarded Row.key) (hshape : t.Shape) (h : t.Good db.rows) {c : Option RowKey} (hmove : Moves db i t c t') :
    t'.Good db.rows := by
  cases hmove with
  | @deduped session block found hs hfound hhash hfree =>
    have hempty := Tx.empty_before_upsert hshape hs
    refine ⟨⟨⟨session, block, found, h.before hs, ?_, rfl, hhash⟩, List.mem_cons_self⟩, ?_⟩
    · exact Txn.mem_view.mpr (.inl ⟨hfound, by simp [hempty, Txn.lock, Txn.empty]⟩)
    · exact dropsWithin_of_empty (by simp [hempty, Txn.lock, Txn.empty])
  | @inserted session block hs hhash hfree hid =>
    have hempty := Tx.empty_before_upsert hshape hs
    refine ⟨⟨⟨session, block, block, h.before hs, ?_, rfl, rfl⟩, List.mem_cons_self⟩, ?_⟩
    · exact Txn.mem_view.mpr (.inr List.mem_cons_self)
    · exact dropsWithin_of_empty (by simp [hempty, Txn.insert, Txn.empty])
  | rowFound hs hins hfree hfound =>
    cases hins with
    | sessionBlock =>
      obtain ⟨hstores, hdrops⟩ := h.before hs
      refine ⟨hdrops.settles, fun stored heq => ?_⟩
      cases heq
      exact hstores.congr rfl (fun _ hr => hr) fun _ hk => hk
    | edge => exact ⟨DropsWithin.settles (h.before hs), by simp⟩
  | @rowInserted s r s' hs hins hfree hnone =>
    have hview : ∀ x ∈ t.view db.rows, x ∈ (t.txn.insert Row.key r).view Row.key db.rows := fun x hx =>
      Txn.mem_view.mpr ((Txn.mem_view.mp hx).imp id fun hx => List.mem_cons_of_mem _ hx)
    cases hins with
    | sessionBlock =>
      obtain ⟨hstores, hdrops⟩ := h.before hs
      refine ⟨hdrops.settles, fun stored heq => ?_⟩
      cases heq
      exact hstores.congr rfl hview fun _ hk => List.mem_cons_of_mem _ hk
    | edge => exact ⟨DropsWithin.settles (h.before hs), by simp⟩
  | collectedNone hs hnone =>
    have hempty : t.txn = .empty := h.before hs
    exact ⟨(dropsWithin_of_empty (by simp [hempty, Txn.empty])).settles, by simp⟩
  | collectedSome hs =>
    have hempty : t.txn = .empty := h.before hs
    exact dropsWithin_of_empty (by simp [hempty, Txn.empty])
  | orphansNone hs hnone => exact ⟨(h.before hs).1.settles, by simp⟩
  | @orphansSome ids hs =>
    obtain ⟨hdrops, hlocks⟩ := h.before hs
    refine ⟨hdrops, fun id hid => ?_⟩
    -- An orphan is locked, and no committed reference to it is left in view.
    obtain ⟨hids, ⟨b, hb, rfl⟩, hfree⟩ := mem_orphaned.mp hid
    constructor
    · rcases Txn.mem_view.mp hb with ⟨hb, -⟩ | hb
      · exact hlocks b hb hids
      · exact hguarded.ins _ hb
    · intro session hrow
      by_contra hdel
      exact hfree session (Txn.mem_view.mpr (.inl ⟨hrow, hdel⟩))
  | snapshot hs hscans => exact ⟨(h.before hs).snapshot hscans, fun k hk => (List.mem_filter.mp hk).2, by simp⟩
  | chosen hs hk =>
    obtain ⟨hduring, hconcerns, -⟩ := h.during hs
    refine ⟨hduring, hconcerns, fun k' hk' => ?_⟩
    cases hk'
    exact hk
  | met hs hfree hrow =>
    obtain ⟨hduring, hconcerns, hwaiting⟩ := h.during hs
    exact ⟨hduring.met (hconcerns _ (hwaiting _ rfl)), fun k hk => hconcerns k (List.mem_of_mem_erase hk), by simp⟩
  | gone hs hfree hgone =>
    obtain ⟨hduring, hconcerns, -⟩ := h.during hs
    exact ⟨hduring.gone hgone, fun k hk => hconcerns k (List.mem_of_mem_erase hk), by simp⟩
  | @scanned s affected hs =>
    have hscans : s.Scans := by
      unfold Tx.Shape at hshape
      rwa [hs] at hshape
    exact (h.during hs).1.scanned hscans
  | rolledBack => trivial

/-! ### What others commit -/

/-- The ids that a statement of a purge goes by. -/
def Stmt.purgeIds : Stmt → List BlockId
  | .lockBlocks _ ids | .lockRefs _ ids | .dropSession _ ids | .findOrphans ids => ids
  | _ => []

/-- The ids that a purge goes by until it has found its orphans. -/
def Tx.purgeIds (t : Tx) : List BlockId :=
  match t.phase with
  | .next s | .scanning s _ _ _ => s.purgeIds
  | .finished _ => []

/-- A commit of `u` as `t` sees it: their locks are apart, a new reference is to a block that `u` has locked, and a
new block is none that `t` goes by. -/
structure Foreign (t u : Tx) : Prop where
  apart : ∀ k ∈ t.txn.held, k ∉ u.txn.held
  guarded : u.txn.Guarded Row.key
  backed : ∀ session id, Row.sessionBlock session id ∈ u.txn.ins → RowKey.block id ∈ u.txn.held
  new : ∀ b, Row.block b ∈ u.txn.ins → b.id ∉ t.purgeIds

namespace Foreign

theorem covers (h : Foreign t u) (hheld : RowKey.block id ∈ t.txn.held) (hcovers : Covers rows t.txn id) :
    Covers (u.view rows) t.txn id := by
  intro session hrow
  rcases Txn.mem_view.mp hrow with ⟨hrow, -⟩ | hins
  · exact hcovers session hrow
  · exact absurd (h.backed session id hins) (h.apart _ hheld)

theorem condemns (h : Foreign t u) (hcondemns : Condemns rows t.txn ids) : Condemns (u.view rows) t.txn ids :=
  fun id hid => ⟨(hcondemns id hid).1, h.covers (hcondemns id hid).1 (hcondemns id hid).2⟩

theorem settles (h : Foreign t u) (hguarded : t.txn.Guarded Row.key) (hsettles : Settles rows t.txn) :
    Settles (u.view rows) t.txn :=
  fun id hid => h.covers (hguarded.del _ hid) (hsettles id hid)

theorem locksAll (h : Foreign t u) (hids : ids = t.purgeIds) (hlocks : LocksAll rows t.txn ids) :
    LocksAll (u.view rows) t.txn ids := by
  intro b hb hid
  rcases Txn.mem_view.mp hb with ⟨hb, -⟩ | hins
  · exact hlocks b hb hid
  · exact absurd (hids ▸ hid) (h.new b hins)

theorem stores (h : Foreign t u) (hstores : t.Stores rows id) : t.Stores (u.view rows) id := by
  obtain ⟨session, block, b, hrequest, hb, rfl, hhash⟩ := hstores.content
  refine ⟨⟨session, block, b, hrequest, ?_, rfl, hhash⟩, hstores.held⟩
  rcases Txn.mem_view.mp hb with ⟨hb, hdel⟩ | hins
  · have hfree : Row.key (.block b) ∉ u.txn.held := h.apart _ hstores.held
    exact Txn.mem_view.mpr (.inl ⟨(h.guarded.mem_view_iff hfree).mpr hb, hdel⟩)
  · exact Txn.mem_view.mpr (.inr hins)

theorem before (h : Foreign t u) (hguarded : t.txn.Guarded Row.key) (hs : t.phase = .next s) (hbefore : s.Before rows t) :
    s.Before (u.view rows) t := by
  have hids : s.purgeIds = t.purgeIds := by
    unfold Tx.purgeIds
    rw [hs]
  cases s with
  | insertSessionBlock session stored => exact ⟨h.stores hbefore.1, hbefore.2⟩
  | deleteEdges id existed => exact h.settles hguarded hbefore
  | lockRefs | dropSession | findOrphans => exact ⟨hbefore.1, h.locksAll hids hbefore.2⟩
  | scrubEdges | dropBlocks => exact ⟨hbefore.1, h.condemns hbefore.2⟩
  | commit reply => exact ⟨h.settles hguarded hbefore.1, fun stored hreply => h.stores (hbefore.2 stored hreply)⟩
  | upsertBlock | insertEdge | collect | deleteBlock | deleteRefs | lockBlocks => exact hbefore

theorem during (h : Foreign t u) (hguarded : t.txn.Guarded Row.key)
    (hs : t.phase = .scanning s pending waiting affected) (hduring : s.During rows t.txn pending) :
    s.During (u.view rows) t.txn pending := by
  have hids : s.purgeIds = t.purgeIds := by
    unfold Tx.purgeIds
    rw [hs]
  cases s with
  | deleteRefs id existed =>
    refine ⟨hduring.1, fun hdel session hrow => ?_⟩
    rcases Txn.mem_view.mp hrow with ⟨hrow, -⟩ | hins
    · exact hduring.2 hdel session hrow
    · exact absurd (h.backed session id hins) (h.apart _ (hguarded.del _ hdel))
  | deleteEdges id existed => exact h.settles hguarded hduring
  | lockBlocks session ids =>
    refine ⟨hduring.1, fun b hb hid => ?_⟩
    rcases Txn.mem_view.mp hb with ⟨hb, -⟩ | hins
    · exact hduring.2 b hb hid
    · exact absurd (hids ▸ hid) (h.new b hins)
  | lockRefs | dropSession => exact ⟨hduring.1, h.locksAll hids hduring.2⟩
  | scrubEdges | dropBlocks => exact ⟨hduring.1, h.condemns hduring.2⟩
  | _ => exact hduring

theorem good (h : Foreign t u) (hguarded : t.txn.Guarded Row.key) (hgood : t.Good rows) : t.Good (u.view rows) := by
  unfold Tx.Good
  cases hs : t.phase with
  | next s => exact h.before hguarded hs (hgood.before hs)
  | scanning s pending waiting affected =>
    obtain ⟨hduring, hpending⟩ := hgood.during hs
    exact ⟨h.during hguarded hs hduring, hpending⟩
  | finished reply => trivial

end Foreign

/-! ### Fresh ids -/

/-- The id that a put proposes was not proposed before. -/
def Fresh (db : Database) : Database.Action → Prop
  | .start (.put _ block) => block.id ∉ db.proposed
  | _ => True

/-- The transaction is to store a block under this id, or has done so and not ended. -/
def Tx.Brings (t : Tx) (id : BlockId) : Prop :=
  (∃ session block, t.phase = .next (.upsertBlock session block) ∧ block.id = id) ∨ HasBlock t.txn.ins id

/-- Ids that are about to be stored are new to the rows and to everyone else. -/
structure Known (db : Database) : Prop where
  rows : ∀ {id : BlockId}, HasBlock db.rows id → id ∈ db.proposed
  purgeIds : ∀ {i : Nat} {t : Tx} {id : BlockId}, db.txs[i]? = some t → id ∈ t.purgeIds → id ∈ db.proposed
  brings : ∀ {i : Nat} {t : Tx} {id : BlockId}, db.txs[i]? = some t → t.Brings id → id ∈ db.proposed
  new : ∀ {i : Nat} {t : Tx} {id : BlockId}, db.txs[i]? = some t → t.Brings id → ¬HasBlock db.rows id
  apart : ∀ {i j : Nat} {t u : Tx} {id : BlockId}, db.txs[i]? = some t → db.txs[j]? = some u → t.Brings id →
    u.Brings id → i = j
  unseen : ∀ {i j : Nat} {t u : Tx} {id : BlockId}, db.txs[i]? = some t → db.txs[j]? = some u → t.Brings id → id ∉ u.purgeIds

theorem Moves.brings {c : Option RowKey} (hshape : t.Shape) (h : Moves db i t c t') (hbrings : t'.Brings id) : t.Brings id := by
  have same : ∀ {p : Phase}, (∀ session block, p ≠ .next (.upsertBlock session block)) →
      Tx.Brings { t with phase := p } id → t.Brings id := by
    rintro p hp (⟨session, block, heq, -⟩ | hins)
    · exact absurd heq (hp session block)
    · exact .inr hins
  cases h with
  | deduped hs => exact same (by simp) hbrings
  | inserted hs =>
    rcases hbrings with ⟨session, block, heq, -⟩ | ⟨b, hb, hid⟩
    · cases heq
    · rcases List.mem_cons.mp hb with heq | hb
      · cases heq
        exact .inl ⟨_, _, hs, hid⟩
      · exact .inr ⟨b, hb, hid⟩
  | rowFound hs hins => exact same (by cases hins <;> simp) hbrings
  | rowInserted hs hins =>
    rcases hbrings with ⟨session, block, heq, -⟩ | ⟨b, hb, hid⟩
    · cases hins <;> cases heq
    · rcases List.mem_cons.mp hb with heq | hb
      · cases hins <;> cases heq
      · exact .inr ⟨b, hb, hid⟩
  | collectedNone | collectedSome | orphansNone | orphansSome | snapshot | chosen | gone => exact same (by simp) hbrings
  | @met s =>
    rcases hbrings with ⟨session, block, heq, -⟩ | ⟨b, hb, hid⟩
    · cases heq
    · refine .inr ⟨b, ?_, hid⟩
      cases hdel : s.deletes <;> simpa [hdel, Txn.delete, Txn.lock] using hb
  | @scanned s affected hs =>
    have hscans : s.Scans := by
      unfold Tx.Shape at hshape
      rwa [hs] at hshape
    exact same (by cases s <;> first | exact hscans.elim | simp [Stmt.after]) hbrings
  | rolledBack =>
    rcases hbrings with ⟨session, block, heq, -⟩ | ⟨b, hb, -⟩
    · cases heq
    · cases hb

/-- A purge collects references that it sees. -/
theorem Moves.purgeIds {c : Option RowKey} (h : Moves db i t c t') (hid : id ∈ t'.purgeIds) :
    id ∈ t.purgeIds ∨ ∃ session, t.phase = .next (.collect session) ∧ Row.sessionBlock session id ∈ t.view db.rows := by
  cases h with
  | deduped | inserted | collectedNone | orphansNone | orphansSome | rolledBack => cases hid
  | rowFound hs hins | rowInserted hs hins => cases hins <;> cases hid
  | @collectedSome session hs => exact .inr ⟨session, hs, mem_collected.mp hid⟩
  | snapshot hs hscans =>
    left
    unfold Tx.purgeIds
    rw [hs]
    exact hid
  | chosen hs | met hs | gone hs =>
    left
    unfold Tx.purgeIds
    rw [hs]
    exact hid
  | @scanned s affected hs =>
    left
    unfold Tx.purgeIds
    rw [hs]
    cases s <;> exact hid

/-! ### Every reachable database -/

structure Sound (db : Database) : Prop where
  locked : Locked db
  known : Known db
  referential : Referential db.rows
  good : ∀ {i : Nat} {t : Tx}, db.txs[i]? = some t → t.Good db.rows
  /-- A put inserts its reference last. -/
  refers : ∀ {i : Nat} {t : Tx} {session : SessionId} {id : BlockId}, db.txs[i]? = some t →
    Row.sessionBlock session id ∈ t.txn.ins → t.phase = .next (.commit (.stored id))

theorem sound_empty : Sound .empty := by
  refine ⟨locked_empty, ?_, ?_, ?_, ?_⟩
  · constructor <;> simp [Database.empty, HasBlock]
  · simp [Referential, Database.empty]
  · simp [Database.empty]
  · simp [Database.empty]

theorem Moves.refers {c : Option RowKey} (h : Moves db i t c t')
    (hrefers : ∀ session id, Row.sessionBlock session id ∈ t.txn.ins → t.phase = .next (.commit (.stored id)))
    {session : SessionId} (hins : Row.sessionBlock session id ∈ t'.txn.ins) : t'.phase = .next (.commit (.stored id)) := by
  -- A transaction with a reference is about to commit: it moves only to be rolled back.
  have moved : ∀ {p : Phase}, t.phase = p → p ≠ .next (.commit (.stored id)) → Row.sessionBlock session id ∉ t.txn.ins :=
    fun hs hp hold => hp (hs ▸ hrefers session id hold)
  cases h with
  | deduped hs => exact absurd hins (moved hs (by simp))
  | inserted hs =>
    rcases List.mem_cons.mp hins with heq | hold
    · cases heq
    · exact absurd hold (moved hs (by simp))
  | rowFound hs hrow => exact absurd hins (moved hs (by cases hrow <;> simp))
  | rowInserted hs hrow =>
    rcases List.mem_cons.mp hins with heq | hold
    · cases hrow <;> cases heq
      rfl
    · exact absurd hold (moved hs (by cases hrow <;> simp))
  | collectedNone hs | collectedSome hs | orphansNone hs | orphansSome hs => exact absurd hins (moved hs (by simp))
  | snapshot hs hscans => exact absurd hins (moved hs (by rintro ⟨⟩; exact hscans.elim))
  | chosen hs | gone hs | scanned hs => exact absurd hins (moved hs (by simp))
  | @met s pending affected k hs =>
    refine absurd ?_ (moved hs (by simp))
    cases hdel : s.deletes <;> simpa [hdel, Txn.delete, Txn.lock] using hins
  | rolledBack => cases hins

namespace Sound

/-- What a transaction that sees a reference knows of its block. -/
theorem hasBlock_of_seen (h : Sound db) (ht : db.txs[i]? = some t) {session : SessionId}
    (hs : t.phase = .next (.collect session)) (hrow : Row.sessionBlock session id ∈ t.view db.rows) : HasBlock db.rows id := by
  have hempty : t.txn = .empty := (h.good ht).before hs
  have hview : t.view db.rows = db.rows := by rw [Tx.view, hempty, Txn.view_empty]
  exact h.referential session id (hview ▸ hrow)

/-- Another transaction's commit is foreign. -/
theorem foreign (h : Sound db) (ht : db.txs[i]? = some t) (hu : db.txs[j]? = some u) (hij : i ≠ j) : Foreign t u where
  apart _ hk hk' := hij (h.locked.exclusive ht hu hk hk')
  guarded := h.locked.guarded hu
  backed _ id hins := (((h.good hu).before (h.refers hu hins)).2 id rfl).held
  new b hb hid := h.known.unseen hu ht (.inr ⟨b, hb, rfl⟩) hid

theorem setTx_known (h : Sound db) (ht : db.txs[i]? = some t) {c : Option RowKey} (hmove : Moves db i t c t') :
    Known (db.setTx i t') := by
  have hshape := h.locked.shape ht
  -- What a transaction brings it has brought before, and the ids it goes by are known.
  have brings : ∀ {j : Nat} {u : Tx} {id : BlockId}, (db.setTx i t').txs[j]? = some u → u.Brings id →
      ∃ u', db.txs[j]? = some u' ∧ u'.Brings id := by
    intro j u id hu hbrings
    rcases (Database.getElem?_setTx ht).mp hu with ⟨rfl, rfl⟩ | ⟨-, hu⟩
    · exact ⟨t, ht, hmove.brings hshape hbrings⟩
    · exact ⟨u, hu, hbrings⟩
  have seen : ∀ {j : Nat} {u : Tx} {id : BlockId}, (db.setTx i t').txs[j]? = some u → id ∈ u.purgeIds →
      (∃ u', db.txs[j]? = some u' ∧ id ∈ u'.purgeIds) ∨ HasBlock db.rows id := by
    intro j u id hu hid
    rcases (Database.getElem?_setTx ht).mp hu with ⟨rfl, rfl⟩ | ⟨-, hu⟩
    · rcases hmove.purgeIds hid with hid | ⟨session, hs, hrow⟩
      · exact .inl ⟨t, ht, hid⟩
      · exact .inr (h.hasBlock_of_seen ht hs hrow)
    · exact .inl ⟨u, hu, hid⟩
  constructor
  · exact h.known.rows
  · intro j u id hu hid
    rcases seen hu hid with ⟨u', hu', hid⟩ | hblock
    · exact h.known.purgeIds hu' hid
    · exact h.known.rows hblock
  · intro j u id hu hbrings
    obtain ⟨u', hu', hbrings⟩ := brings hu hbrings
    exact h.known.brings hu' hbrings
  · intro j u id hu hbrings
    obtain ⟨u', hu', hbrings⟩ := brings hu hbrings
    exact h.known.new hu' hbrings
  · intro j l u v id hu hv hubrings hvbrings
    obtain ⟨u', hu', hubrings⟩ := brings hu hubrings
    obtain ⟨v', hv', hvbrings⟩ := brings hv hvbrings
    exact h.known.apart hu' hv' hubrings hvbrings
  · intro j l u v id hu hv hbrings hid
    obtain ⟨u', hu', hbrings⟩ := brings hu hbrings
    rcases seen hv hid with ⟨v', hv', hid⟩ | hblock
    · exact h.known.unseen hu' hv' hbrings hid
    · exact h.known.new hu' hbrings hblock

theorem moves (h : Sound db) (ht : db.txs[i]? = some t) {c : Option RowKey} (hmove : Moves db i t c t') :
    Sound (db.setTx i t') := by
  refine ⟨h.locked.moves ht hmove, h.setTx_known ht hmove, h.referential, ?_, ?_⟩
  · intro j u hu
    rcases (Database.getElem?_setTx ht).mp hu with ⟨rfl, rfl⟩ | ⟨-, hu⟩
    · have hgood : u.Good db.rows := (h.good ht).move (h.locked.guarded ht) (h.locked.shape ht) hmove
      exact hgood
    · exact h.good hu
  · intro j u session id hu hins
    rcases (Database.getElem?_setTx ht).mp hu with ⟨rfl, rfl⟩ | ⟨-, hu⟩
    · exact hmove.refers (fun _ _ => h.refers ht) hins
    · exact h.refers hu hins

/-- What a transaction commits has blocks for all references. -/
theorem referential_view (h : Sound db) (ht : db.txs[i]? = some t) {reply : Reply}
    (hs : t.phase = .next (.commit reply)) : Referential (t.view db.rows) := by
  obtain ⟨hsettles, hstores⟩ := (h.good ht).before hs
  intro session id hrow
  rcases Txn.mem_view.mp hrow with ⟨hrow, hdel⟩ | hins
  · obtain ⟨b, hb, rfl⟩ := h.referential session id hrow
    refine ⟨b, Txn.mem_view.mpr (.inl ⟨hb, fun hdead => ?_⟩), rfl⟩
    exact hdel (hsettles b.id hdead session hrow)
  · have hreply : reply = .stored id := by
      have heq := hs.symm.trans (h.refers ht hins)
      cases heq
      rfl
    obtain ⟨-, -, b, -, hb, hid, -⟩ := (hstores id hreply).content
    exact ⟨b, hb, hid⟩

theorem commits (h : Sound db) (ht : db.txs[i]? = some t) {reply : Reply} (hs : t.phase = .next (.commit reply)) :
    Sound { db with
      rows := t.view db.rows, txs := db.txs.set i { t with phase := .finished (some reply), txn := .empty } } := by
  have hget : ∀ {j u}, (db.txs.set i { t with phase := .finished (some reply), txn := .empty })[j]? = some u →
      (j = i ∧ u = { t with phase := .finished (some reply), txn := .empty }) ∨ (j ≠ i ∧ db.txs[j]? = some u) :=
    fun hu => (Database.getElem?_setTx ht).mp hu
  have ended : ∀ {u : Tx} {id : BlockId}, u = { t with phase := .finished (some reply), txn := .empty } → ¬u.Brings id := by
    rintro u id rfl (⟨session, block, heq, -⟩ | ⟨b, hb, -⟩)
    · cases heq
    · cases hb
  have brought : ∀ {id}, HasBlock (t.view db.rows) id → HasBlock db.rows id ∨ t.Brings id := by
    rintro id ⟨b, hb, hid⟩
    rcases Txn.mem_view.mp hb with ⟨hb, -⟩ | hins
    · exact .inl ⟨b, hb, hid⟩
    · exact .inr (.inr ⟨b, hins, hid⟩)
  refine ⟨h.locked.commits ht reply, ?_, h.referential_view ht hs, ?_, ?_⟩
  · constructor
    · intro id hblock
      rcases brought hblock with hblock | hbrings
      · exact h.known.rows hblock
      · exact h.known.brings ht hbrings
    · intro j u id hu hid
      rcases hget hu with ⟨-, rfl⟩ | ⟨-, hu⟩
      · cases hid
      · exact h.known.purgeIds hu hid
    · intro j u id hu hbrings
      rcases hget hu with ⟨-, heq⟩ | ⟨-, hu⟩
      · exact absurd hbrings (ended heq)
      · exact h.known.brings hu hbrings
    · intro j u id hu hbrings hblock
      rcases hget hu with ⟨-, heq⟩ | ⟨hj, hu⟩
      · exact ended heq hbrings
      · rcases brought hblock with hblock | hmine
        · exact h.known.new hu hbrings hblock
        · exact hj (h.known.apart hu ht hbrings hmine)
    · intro j l u v id hu hv hubrings hvbrings
      rcases hget hu with ⟨-, heq⟩ | ⟨-, hu⟩
      · exact absurd hubrings (ended heq)
      · rcases hget hv with ⟨-, heq⟩ | ⟨-, hv⟩
        · exact absurd hvbrings (ended heq)
        · exact h.known.apart hu hv hubrings hvbrings
    · intro j l u v id hu hv hbrings hid
      rcases hget hu with ⟨-, heq⟩ | ⟨-, hu⟩
      · exact ended heq hbrings
      · rcases hget hv with ⟨-, rfl⟩ | ⟨-, hv⟩
        · cases hid
        · exact h.known.unseen hu hv hbrings hid
  · intro j u hu
    rcases hget hu with ⟨-, rfl⟩ | ⟨hj, hu⟩
    · trivial
    · exact (h.foreign hu ht hj).good (h.locked.guarded hu) (h.good hu)
  · intro j u session id hu hins
    rcases hget hu with ⟨-, rfl⟩ | ⟨-, hu⟩
    · cases hins
    · exact h.refers hu hins

theorem starts (h : Sound db) (r : Request) {proposed : List BlockId} (hproposed : ∀ id ∈ db.proposed, id ∈ proposed)
    (hput : ∀ session block, r = .put session block → block.id ∉ db.proposed ∧ block.id ∈ proposed) : Sound { db with
    txs := db.txs ++ [{ request := r, phase := .next r.first, txn := .empty }], proposed } := by
  -- The new transaction brings the id it proposes.
  have brings : ∀ {id}, Tx.Brings { request := r, phase := .next r.first, txn := .empty } id →
      id ∉ db.proposed ∧ id ∈ proposed := by
    rintro id (⟨session, block, heq, rfl⟩ | ⟨b, hb, -⟩)
    · cases r with
      | put session' block' =>
        cases heq
        exact hput _ _ rfl
      | delete | purgeSession | putEdge => cases heq
    · cases hb
  have seen : ∀ {id}, id ∉ Tx.purgeIds { request := r, phase := .next r.first, txn := .empty } := by
    intro id hid
    cases r <;> cases hid
  refine ⟨h.locked.starts r proposed, ?_, h.referential, ?_, ?_⟩
  · constructor
    · exact fun hblock => hproposed _ (h.known.rows hblock)
    · intro j u id hu hid
      rcases Database.getElem?_append.mp hu with hu | ⟨-, rfl⟩
      · exact hproposed _ (h.known.purgeIds hu hid)
      · exact absurd hid seen
    · intro j u id hu hbrings
      rcases Database.getElem?_append.mp hu with hu | ⟨-, rfl⟩
      · exact hproposed _ (h.known.brings hu hbrings)
      · exact (brings hbrings).2
    · intro j u id hu hbrings hblock
      rcases Database.getElem?_append.mp hu with hu | ⟨-, rfl⟩
      · exact h.known.new hu hbrings hblock
      · exact (brings hbrings).1 (h.known.rows hblock)
    · intro j l u v id hu hv hubrings hvbrings
      rcases Database.getElem?_append.mp hu with hu | ⟨hj, rfl⟩
      · rcases Database.getElem?_append.mp hv with hv | ⟨-, rfl⟩
        · exact h.known.apart hu hv hubrings hvbrings
        · exact absurd (h.known.brings hu hubrings) (brings hvbrings).1
      · rcases Database.getElem?_append.mp hv with hv | ⟨hl, -⟩
        · exact absurd (h.known.brings hv hvbrings) (brings hubrings).1
        · rw [hj, hl]
    · intro j l u v id hu hv hbrings hid
      rcases Database.getElem?_append.mp hv with hv | ⟨-, rfl⟩
      · rcases Database.getElem?_append.mp hu with hu | ⟨-, rfl⟩
        · exact h.known.unseen hu hv hbrings hid
        · exact (brings hbrings).1 (h.known.purgeIds hv hid)
      · exact seen hid
  · intro j u hu
    rcases Database.getElem?_append.mp hu with hu | ⟨-, rfl⟩
    · exact h.good hu
    · cases r with
      | put session block => rfl
      | purgeSession session => rfl
      | delete id => exact dropsWithin_of_empty rfl
      | putEdge edge => exact dropsWithin_of_empty rfl
  · intro j u session id hu hins
    rcases Database.getElem?_append.mp hu with hu | ⟨-, rfl⟩
    · exact h.refers hu hins
    · cases hins

theorem step {a : Database.Action} (h : Sound db) (hfresh : Fresh db a) (hstep : db.step a = some db') : Sound db' := by
  rcases Database.step_inv hstep with ⟨r, rfl, rfl⟩ | ⟨i, t, c, t', ht, hmove, rfl, -, -⟩ | ⟨i, t, reply, -, ht, hs, rfl⟩
  · refine h.starts r (fun id hid => ?_) ?_
    · cases r with
      | put => exact List.mem_cons_of_mem _ hid
      | delete | purgeSession | putEdge => exact hid
    · rintro session block rfl
      exact ⟨hfresh, List.mem_cons_self⟩
  · exact h.moves ht hmove
  · exact h.commits ht hs

end Sound

/-- In every database that puts with fresh ids, deletes, purges and edges reach, each session reference names a
block; and when a put commits, the id that it returns names a block with the hash that was put. -/
theorem references_hold {as : List Database.Action} (h : Run Database.step Fresh .empty as db) :
    Referential db.rows ∧ ∀ i t stored db', db.txs[i]? = some t → t.phase = .next (.commit (.stored stored)) →
      db.step (.advance i) = some db' → ∃ session block b, t.request = .put session block ∧ Row.block b ∈ db'.rows ∧
        b.id = stored ∧ b.hash = block.hash := by
  have hsound : Sound db := h.invariant sound_empty fun hdb hfresh hstep => hdb.step hfresh hstep
  refine ⟨hsound.referential, fun i t stored db' ht hs hstep => ?_⟩
  have hrows : db'.rows = t.view db.rows := by
    simp only [Database.step, ht, Database.advance, hs, Database.runStmt] at hstep
    cases hstep
    rfl
  obtain ⟨-, hstores⟩ := (hsound.good ht).before hs
  obtain ⟨session, block, b, hrequest, hb, hid, hhash⟩ := (hstores stored rfl).content
  exact ⟨session, block, b, hrequest, hrows ▸ hb, hid, hhash⟩

/-- `Fresh`, as a check. -/
def proposesNew (db : Database) : Database.Action → Bool
  | .start (.put _ block) => block.id ∉ db.proposed
  | _ => true

theorem fresh_of_check (db : Database) (a : Database.Action) (h : proposesNew db a = true) : Fresh db a := by
  cases a with
  | start r =>
    cases r with
    | put session block => simpa [proposesNew, Fresh] using h
    | delete | purgeSession | putEdge => trivial
  | advance | choose | rollback => trivial

/-- A put of stored content has locked the block that a delete waits for. -/
def racingDelete : List Database.Action :=
  [.start (.put ⟨1⟩ (sampleBlock ⟨1⟩ .fact [0x61] [])), .advance 0, .advance 0, .advance 0,
   .start (.put ⟨2⟩ (sampleBlock ⟨2⟩ .fact [0x61] [])), .start (.delete ⟨1⟩), .advance 1, .advance 2,
   .choose 2 (.block ⟨1⟩), .advance 1]

/-- The reply that a transaction is about to commit with. -/
def Tx.due (t : Tx) : Option Reply :=
  match t.phase with
  | .next (.commit reply) => some reply
  | _ => none

theorem Tx.due_eq {reply : Reply} (h : t.due = some reply) : t.phase = .next (.commit reply) := by
  unfold Tx.due at h
  split at h
  · rename_i hs
    cases h
    exact hs
  · cases h

theorem references_hold_sample : ∃ db t db', Run Database.step Fresh .empty racingDelete db ∧ Referential db.rows ∧
    db.txs[1]? = some t ∧ db.step (.advance 1) = some db' ∧
    ∃ session block b, t.request = .put session block ∧ Row.block b ∈ db'.rows ∧ b.id = ⟨1⟩ ∧ b.hash = block.hash := by
  have hrun : (Run.exec (fun db a => if proposesNew db a then Database.step db a else none) .empty racingDelete).bind
      (fun db => (db.step (.advance 1)).bind fun _ => db.txs[1]?.map (·.due)) = some (some (.stored ⟨1⟩)) := by
    decide +kernel
  obtain ⟨db, hdb, hnext⟩ := Option.bind_eq_some_iff.mp hrun
  obtain ⟨db', hstep, hdue⟩ := Option.bind_eq_some_iff.mp hnext
  obtain ⟨t, ht, hdue⟩ := Option.map_eq_some_iff.mp hdue
  have hfresh : Run Database.step Fresh .empty racingDelete db := Run.of_exec fresh_of_check hdb
  exact ⟨db, t, db', hfresh, (references_hold hfresh).1, ht, hstep,
    (references_hold hfresh).2 1 t ⟨1⟩ db' ht (Tx.due_eq hdue) hstep⟩

end Llm386.Pg
