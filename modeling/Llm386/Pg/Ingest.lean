import Llm386.Pg.Locks
import Llm386.Pg.Runs

/-! # Concurrent ingestion

Transactions of `put` and `put_edge` alone, any number at a time, interleaved in any way and rolled back at any point. Their
commits are a history of the store that answers one operation at a time: they serialize in the order of their commits. -/

namespace Llm386.Pg
open Contents

/-- The request stores a block or an edge. -/
def Request.Ingests : Request → Prop
  | .put .. | .putEdge _ => True
  | .delete _ | .purgeSession _ => False

def Request.op : Request → StoreOp
  | .put session block => .put session block
  | .delete id => .delete id
  | .purgeSession session => .purgeSession session
  | .putEdge edge => .putEdge edge

def Reply.answer : Reply → Answer
  | .stored id => .stored id
  | .existed b => .existed b
  | .purged count => .purged count
  | .linked => .linked

/-- Only such requests arrive. -/
def Ingesting (_ : Database) : Database.Action → Prop
  | .start r => r.Ingests
  | _ => True

/-- The request and the reply of a transaction that the action commits. -/
def committed (db : Database) : Database.Action → List (Request × Reply)
  | .advance i =>
    match db.txs[i]? with
    | some t =>
      match t.phase with
      | .next (.commit reply) => [(t.request, reply)]
      | _ => []
    | none => []
  | _ => []

/-- What the actions commit, in the order of the commits. -/
def history : Database → List Database.Action → List (Request × Reply)
  | _, [] => []
  | db, a :: as =>
    committed db a ++
      match db.step a with
      | some db' => history db' as
      | none => []

/-- The replies are those of a store that serves the requests one after the other. -/
inductive Sequential : List (Request × Reply) → Catalog → Prop
  | start : Sequential [] .empty
  | next {h : List (Request × Reply)} {c c' : Catalog} {x : Request × Reply} (before : Sequential h c)
    (served : Served id c x.1.op x.2.answer c') : Sequential (h ++ [x]) c'

/-- The committed rows hold exactly the contents `c`. -/
structure RowsHold (rows : List Row) (c : Contents) : Prop where
  blocks : ∀ b, Row.block b ∈ rows ↔ c.block b.id = some b
  refs : ∀ s id, Row.sessionBlock s id ∈ rows ↔ id ∈ c.lists s
  edges : ∀ e, Row.edge e ∈ rows ↔ e ∈ c.edges

/-- The transaction adds the rows `new` to the committed ones, and deletes none. -/
structure Adds (rows : List Row) (w : Txn Row RowKey) (new : List Row) : Prop where
  del : w.del = []
  only : ∀ r ∈ w.ins, r ∈ new
  all : ∀ r ∈ new, r ∈ rows ∨ r ∈ w.ins

/-- What a transaction has done before its next statement. -/
inductive Ingest (rows : List Row) : Request → Phase → Txn Row RowKey → Prop
  | asked {s : SessionId} {b : ContextBlock} : Ingest rows (.put s b) (.next (.upsertBlock s b)) .empty
  | deduped {s : SessionId} {b found : ContextBlock} {w : Txn Row RowKey} (row : Row.block found ∈ rows)
    (hash : found.hash = b.hash) (adds : Adds rows w []) : Ingest rows (.put s b) (.next (.insertSessionBlock s found.id)) w
  | placed {s : SessionId} {b : ContextBlock} {w : Txn Row RowKey} (ins : Row.block b ∈ w.ins)
    (adds : Adds rows w [.block b]) : Ingest rows (.put s b) (.next (.insertSessionBlock s b.id)) w
  | sharing {s : SessionId} {b found : ContextBlock} {w : Txn Row RowKey} (row : Row.block found ∈ rows)
    (hash : found.hash = b.hash) (adds : Adds rows w [.sessionBlock s found.id]) :
    Ingest rows (.put s b) (.next (.commit (.stored found.id))) w
  | storing {s : SessionId} {b : ContextBlock} {w : Txn Row RowKey} (ins : Row.block b ∈ w.ins)
    (adds : Adds rows w [.block b, .sessionBlock s b.id]) : Ingest rows (.put s b) (.next (.commit (.stored b.id))) w
  | naming {e : Edge} : Ingest rows (.putEdge e) (.next (.insertEdge e)) .empty
  | linking {e : Edge} {w : Txn Row RowKey} (adds : Adds rows w [.edge e]) :
    Ingest rows (.putEdge e) (.next (.commit .linked)) w
  | ended {r : Request} {reply : Option Reply} : Ingest rows r (.finished reply) .empty

/-- Two blocks share neither id nor hash. -/
def Apart (a b : ContextBlock) : Prop := a.id ≠ b.id ∧ a.hash ≠ b.hash

/-- Every transaction is on its way, the blocks they are about to store are new, and the committed rows are a catalog. -/
structure Ingested (db : Database) (c : Catalog) : Prop where
  txs : ∀ {i : Nat} {t : Tx}, db.txs[i]? = some t → Ingest db.rows t.request t.phase t.txn
  new : ∀ {i : Nat} {t : Tx} {a b : ContextBlock}, db.txs[i]? = some t → Row.block b ∈ t.txn.ins → Row.block a ∈ db.rows →
    Apart a b
  distinct : ∀ {i j : Nat} {t u : Tx} {a b : ContextBlock}, db.txs[i]? = some t → db.txs[j]? = some u → i ≠ j →
    Row.block b ∈ t.txn.ins → Row.block a ∈ u.txn.ins → Apart a b
  rows : RowsHold db.rows c.toContents

variable {db db' : Database} {rows rows' : List Row} {w : Txn Row RowKey} {new : List Row} {r : Row} {i : Nat} {t t' : Tx}
  {c : Catalog} {a : Database.Action} {request : Request} {phase : Phase}

/-! ### Steps -/

theorem Adds.mono (h : Adds rows w new) (hsub : ∀ r ∈ rows, r ∈ rows') : Adds rows' w new :=
  ⟨h.del, h.only, fun r hr => (h.all r hr).imp (hsub r) id⟩

theorem Adds.mem_view (h : Adds rows w new) : r ∈ w.view Row.key rows ↔ r ∈ rows ∨ r ∈ new := by
  rw [Txn.mem_view, h.del]
  simp only [List.not_mem_nil, not_false_eq_true, and_true]
  exact ⟨Or.imp_right (h.only r), fun hr => hr.elim Or.inl (h.all r)⟩

theorem adds_empty : Adds rows Txn.empty [] := ⟨rfl, by simp [Txn.empty], by simp⟩

/-- A row more, which the next commit adds. -/
theorem Adds.insert (h : Adds rows w new) (r : Row) : Adds rows (w.insert Row.key r) (new ++ [r]) := by
  refine ⟨h.del, fun x hx => ?_, fun x hx => ?_⟩
  · rcases List.mem_cons.mp hx with rfl | hx
    · simp
    · exact List.mem_append_left _ (h.only x hx)
  · rcases List.mem_append.mp hx with hx | hx
    · exact (h.all x hx).imp id (List.mem_cons_of_mem _)
    · exact .inr (List.mem_singleton.mp hx ▸ List.mem_cons_self)

/-- A row that is there already. -/
theorem Adds.found (h : Adds rows w new) (hr : r ∈ w.view Row.key rows) : Adds rows w (new ++ [r]) := by
  refine ⟨h.del, fun x hx => List.mem_append_left _ (h.only x hx), fun x hx => ?_⟩
  rcases List.mem_append.mp hx with hx | hx
  · exact h.all x hx
  · rw [List.mem_singleton.mp hx]
    exact (Txn.mem_view.mp hr).imp And.left id

theorem Ingest.mono (h : Ingest rows request phase w) (hsub : ∀ r ∈ rows, r ∈ rows') : Ingest rows' request phase w := by
  cases h with
  | asked => exact .asked
  | deduped row hash adds => exact .deduped (hsub _ row) hash (adds.mono hsub)
  | placed ins adds => exact .placed ins (adds.mono hsub)
  | sharing row hash adds => exact .sharing (hsub _ row) hash (adds.mono hsub)
  | storing ins adds => exact .storing ins (adds.mono hsub)
  | naming => exact .naming
  | linking adds => exact .linking (adds.mono hsub)
  | ended => exact .ended

/-- The rows are their keys, but for blocks. -/
theorem row_of_key {r r' : Row} (h : r'.key = r.key) (hr : ∀ b, r ≠ .block b) : r' = r := by
  cases r with
  | block b => exact absurd rfl (hr b)
  | sessionBlock s id => cases r' <;> cases h; rfl
  | edge e => cases r' <;> cases h; rfl

/-- A move of a transaction leads on, and only an upsert brings a block, which is new. -/
theorem Ingest.move (h : Ingest db.rows t.request t.phase t.txn) {k : Option RowKey} (hmove : Moves db i t k t') :
    Ingest db.rows t'.request t'.phase t'.txn ∧ ∀ b, Row.block b ∈ t'.txn.ins → Row.block b ∈ t.txn.ins ∨
      db.insertedElsewhere i b = false ∧ ∀ a, Row.block a ∈ db.rows → Apart a b := by
  obtain ⟨request, phase, w⟩ := t
  cases hmove with
  | @deduped session block found hs hrow hhash hfree =>
    cases hs
    cases h with
    | asked =>
      refine ⟨.deduped hrow hhash ⟨rfl, by simp [Txn.lock], by simp⟩, fun b hb => .inl hb⟩
  | @inserted session block hs hhash hfree hid =>
    cases hs
    cases h with
    | asked =>
      refine ⟨.placed List.mem_cons_self (adds_empty.insert _), fun b hb => ?_⟩
      rcases List.mem_cons.mp hb with heq | hb
      · cases heq
        exact .inr ⟨hfree, fun a ha => ⟨fun heq => hid _ ha (congrArg RowKey.block heq), hhash a ha⟩⟩
      · exact .inl hb
  | @rowFound s r s' hs hins hfree hfound =>
    cases hs
    obtain ⟨r', hr', hkey⟩ := hfound
    refine ⟨?_, fun b hb => .inl hb⟩
    cases hins with
    | sessionBlock =>
      have hr' := row_of_key hkey (by simp) ▸ hr'
      cases h with
      | deduped row hash adds => exact .sharing row hash (adds.found hr')
      | placed ins adds => exact .storing ins (adds.found hr')
    | edge =>
      have hr' := row_of_key hkey (by simp) ▸ hr'
      cases h with
      | naming => exact .linking (adds_empty.found hr')
  | @rowInserted s r s' hs hins hfree hnone =>
    cases hs
    cases hins with
    | sessionBlock =>
      refine ⟨?_, fun b hb => .inl (by simpa [Txn.insert] using hb)⟩
      cases h with
      | deduped row hash adds => exact .sharing row hash (adds.insert _)
      | placed ins adds => exact .storing (List.mem_cons_of_mem _ ins) (adds.insert _)
    | edge =>
      refine ⟨?_, fun b hb => .inl (by simpa [Txn.insert] using hb)⟩
      cases h with
      | naming => exact .linking (adds_empty.insert _)
  | collectedNone hs => cases hs; cases h
  | collectedSome hs => cases hs; cases h
  | orphansNone hs => cases hs; cases h
  | orphansSome hs => cases hs; cases h
  | snapshot hs hscans => cases hs; cases h <;> exact hscans.elim
  | chosen hs => cases hs; cases h
  | met hs => cases hs; cases h
  | gone hs => cases hs; cases h
  | scanned hs => cases hs; cases h
  | rolledBack => exact ⟨.ended, fun b hb => by simp [Txn.empty] at hb⟩

theorem Apart.symm {a b : ContextBlock} (h : Apart a b) : Apart b a := ⟨h.1.symm, h.2.symm⟩

namespace Ingested

theorem starts (h : Ingested db c) {r : Request} (hr : r.Ingests) {proposed : List BlockId} : Ingested { db with
    txs := db.txs ++ [{ request := r, phase := .next r.first, txn := .empty }], proposed } c := by
  have hnone : ∀ {u : Tx} {b}, u = { request := r, phase := .next r.first, txn := .empty } → Row.block b ∉ u.txn.ins := by
    rintro u b rfl
    simp [Txn.empty]
  refine ⟨fun ht => ?_, fun ht hb ha => ?_, fun ht hu hij hb ha => ?_, h.rows⟩
  · rcases Database.getElem?_append.mp ht with ht | ⟨-, rfl⟩
    · exact h.txs ht
    · cases r with
      | put => exact .asked
      | putEdge => exact .naming
      | delete | purgeSession => exact hr.elim
  · rcases Database.getElem?_append.mp ht with ht | ⟨-, ht⟩
    · exact h.new ht hb ha
    · exact absurd hb (hnone ht)
  · rcases Database.getElem?_append.mp ht with ht | ⟨-, ht⟩
    · rcases Database.getElem?_append.mp hu with hu | ⟨-, hu⟩
      · exact h.distinct ht hu hij hb ha
      · exact absurd ha (hnone hu)
    · exact absurd hb (hnone ht)

theorem moves (h : Ingested db c) (ht : db.txs[i]? = some t) {k : Option RowKey} (hmove : Moves db i t k t') :
    Ingested (db.setTx i t') c := by
  obtain ⟨hingest, hbrings⟩ := (h.txs ht).move hmove
  -- A block of the moved transaction is apart from those of the others.
  have hother : ∀ {j : Nat} {u : Tx} {a b : ContextBlock}, j ≠ i → db.txs[j]? = some u → Row.block b ∈ t'.txn.ins →
      Row.block a ∈ u.txn.ins → Apart a b := by
    intro j u a b hj hu hb ha
    rcases hbrings b hb with hb | ⟨hfree, -⟩
    · exact h.distinct ht hu hj.symm hb ha
    · obtain ⟨hhash, hid⟩ := Database.not_inserted hfree hj hu ha
      exact ⟨hid, hhash⟩
  refine ⟨fun {j u} hu => ?_, fun {j u a b} hu hb ha => ?_, fun {j l u v a b} hu hv hjl hb ha => ?_, h.rows⟩
  · rcases (Database.getElem?_setTx ht).mp hu with ⟨rfl, rfl⟩ | ⟨-, hu⟩
    · exact hingest
    · exact h.txs hu
  · rcases (Database.getElem?_setTx ht).mp hu with ⟨rfl, rfl⟩ | ⟨-, hu⟩
    · rcases hbrings b hb with hb | ⟨-, hnew⟩
      · exact h.new ht hb ha
      · exact hnew a ha
    · exact h.new hu hb ha
  · rcases (Database.getElem?_setTx ht).mp hu with ⟨hj, hu⟩ | ⟨hj, hu⟩
    · rcases (Database.getElem?_setTx ht).mp hv with ⟨hl, -⟩ | ⟨hl, hv⟩
      · exact absurd (hj.trans hl.symm) hjl
      · exact hother hl hv (hu ▸ hb) ha
    · rcases (Database.getElem?_setTx ht).mp hv with ⟨-, hv⟩ | ⟨-, hv⟩
      · exact (hother hj hu (hv ▸ ha) hb).symm
      · exact h.distinct hu hv hjl hb ha

/-- A commit serves its request on the catalog of the committed rows. -/
theorem serves (h : Ingested db c) (ht : db.txs[i]? = some t) {reply : Reply} (hs : t.phase = .next (.commit reply)) :
    ∃ c', Served id c t.request.op reply.answer c' ∧ RowsHold (t.view db.rows) c'.toContents := by
  have hingest := h.txs ht
  have hnew := fun {a b : ContextBlock} => h.new (a := a) (b := b) ht
  obtain ⟨request, phase, w⟩ := t
  cases hs
  cases hingest with
  | @sharing s b found _ row hash adds =>
    have hfound := (h.rows.blocks found).mp row
    have held : c.Holds found.id b.hash := ⟨found, hfound, hash⟩
    refine ⟨_, .shared held ⟨found, hfound⟩, fun a => ?_, fun s' x => ?_, fun e => ?_⟩
    · rw [Tx.view, adds.mem_view, h.rows.blocks]
      simp [Catalog.share, Contents.share]
    · rw [Tx.view, adds.mem_view, h.rows.refs]
      simp [Catalog.share, Contents.share]
    · rw [Tx.view, adds.mem_view, h.rows.edges]
      simp [Catalog.share, Contents.share]
  | @storing s b _ ins adds =>
    have hapart : ∀ x a, c.block x = some a → Apart a b := by
      intro x a ha
      obtain rfl := c.block_id ha
      exact hnew ins ((h.rows.blocks a).mpr ha)
    have new : ∀ x, ¬c.Holds x b.hash := fun x ⟨a, ha, hhash⟩ => (hapart x a ha).2 hhash
    have fresh : ¬c.Stored b.id := fun ⟨a, ha⟩ => (hapart _ a ha).1 (c.block_id ha)
    refine ⟨_, .stored new fresh, fun a => ?_, fun s' x => ?_, fun e => ?_⟩
    · rw [Tx.view, adds.mem_view]
      by_cases heq : a.id = b.id
      · have hnot : Row.block a ∉ db.rows := fun ha => (hnew ins ha).1 heq
        simp [Catalog.store, Contents.store, heq, hnot, eq_comm]
      · have hne : a ≠ b := fun hab => heq (congrArg _ hab)
        simp [Catalog.store, Contents.store, heq, hne, h.rows.blocks]
    · rw [Tx.view, adds.mem_view, h.rows.refs]
      simp [Catalog.store, Contents.store, Contents.share]
    · rw [Tx.view, adds.mem_view, h.rows.edges]
      simp [Catalog.store, Contents.store, Contents.share]
  | @linking e _ adds =>
    refine ⟨_, .putEdge, fun a => ?_, fun s' x => ?_, fun e' => ?_⟩
    · rw [Tx.view, adds.mem_view, h.rows.blocks]
      simp [Catalog.link, Contents.link]
    · rw [Tx.view, adds.mem_view, h.rows.refs]
      simp [Catalog.link, Contents.link]
    · rw [Tx.view, adds.mem_view, h.rows.edges]
      simp [Catalog.link, Contents.link, or_comm]

theorem commits (h : Ingested db c) (ht : db.txs[i]? = some t) {reply : Reply} {c' : Catalog}
    (hrows : RowsHold (t.view db.rows) c'.toContents) (hs : t.phase = .next (.commit reply)) : Ingested { db with
      rows := t.view db.rows, txs := db.txs.set i { t with phase := .finished (some reply), txn := .empty } } c' := by
  have hdel : t.txn.del = [] := by
    have hingest := h.txs ht
    rw [hs] at hingest
    generalize t.request = request at hingest
    cases hingest with
    | sharing _ _ adds => exact adds.del
    | storing _ adds => exact adds.del
    | linking adds => exact adds.del
  have hgrown : ∀ r ∈ db.rows, r ∈ t.view db.rows := fun r hr => Txn.mem_view.mpr (.inl ⟨hr, by simp [hdel]⟩)
  have hstill : ∀ {j : Nat} {u : Tx} {b : ContextBlock},
      (db.txs.set i { t with phase := .finished (some reply), txn := .empty })[j]? = some u → Row.block b ∈ u.txn.ins →
      j ≠ i ∧ db.txs[j]? = some u := by
    intro j u b hu hb
    rcases (Database.getElem?_setTx ht).mp hu with ⟨-, rfl⟩ | hu
    · simp [Txn.empty] at hb
    · exact hu
  refine ⟨fun {j u} hu => ?_, fun {j u a b} hu hb ha => ?_, fun {j l u v a b} hu hv hjl hb ha => ?_, hrows⟩
  · rcases (Database.getElem?_setTx ht).mp hu with ⟨-, rfl⟩ | ⟨-, hu⟩
    · exact .ended
    · exact (h.txs hu).mono hgrown
  · obtain ⟨hj, hu⟩ := hstill hu hb
    rcases Txn.mem_view.mp ha with ⟨ha, -⟩ | ha
    · exact h.new hu hb ha
    · exact h.distinct hu ht hj hb ha
  · obtain ⟨-, hu⟩ := hstill hu hb
    obtain ⟨-, hv⟩ := hstill hv ha
    exact h.distinct hu hv hjl hb ha

end Ingested

/-! ### Histories -/

theorem committed_eq {x : Request × Reply} (hx : x ∈ committed db a) : ∃ i t, a = .advance i ∧ db.txs[i]? = some t ∧
    t.phase = .next (.commit x.2) ∧ x.1 = t.request ∧ committed db a = [x] := by
  cases a with
  | advance i =>
    simp only [committed] at hx ⊢
    split at hx
    · rename_i t ht
      split at hx
      · rename_i reply hs
        obtain rfl := List.mem_singleton.mp hx
        exact ⟨i, t, rfl, ht, hs, rfl, by simp⟩
      · simp at hx
    · simp at hx
  | start | choose | rollback => simp [committed] at hx

/-- A step commits one request or leaves the committed rows. -/
theorem Ingested.step (h : Ingested db c) (hingests : Ingesting db a) (hstep : db.step a = some db') :
    committed db a = [] ∧ Ingested db' c ∨ ∃ x c', committed db a = [x] ∧ Served id c x.1.op x.2.answer c' ∧ Ingested db' c' := by
  cases hcommitted : committed db a with
  | cons x rest =>
    right
    obtain ⟨i, t, rfl, ht, hs, hx, hone⟩ := committed_eq (hcommitted ▸ List.mem_cons_self)
    rw [hone] at hcommitted
    obtain ⟨c', hserved, hrows⟩ := h.serves ht hs
    simp only [Database.step, ht, Database.advance, hs, Database.runStmt, Option.some.injEq] at hstep
    subst hstep
    exact ⟨x, c', hcommitted.symm, hx ▸ hserved, h.commits ht hrows hs⟩
  | nil =>
    left
    rcases Database.step_inv hstep with ⟨r, rfl, rfl⟩ | ⟨i, t, k, t', ht, hmove, rfl, -, -⟩ | ⟨i, t, reply, rfl, ht, hs, -⟩
    · exact ⟨rfl, h.starts hingests⟩
    · exact ⟨rfl, h.moves ht hmove⟩
    · simp [committed, ht, hs] at hcommitted

theorem history_append {as bs : List Database.Action} {allowed : Database → Database.Action → Prop} {init : Database}
    (h : Run Database.step allowed init as db) : history init (as ++ bs) = history init as ++ history db bs := by
  induction h generalizing bs with
  | start => rfl
  | @next as a t u hrun _ hstep ih =>
    rw [List.append_assoc, ih, ih]
    simp [history, hstep]

theorem ingested_empty : Ingested .empty .empty := by
  refine ⟨?_, ?_, ?_, ?_, ?_, ?_⟩ <;> simp [Database.empty, Catalog.empty, Contents.empty]

theorem ingest_history {as : List Database.Action} (h : Run Database.step Ingesting .empty as db) :
    ∃ c, Sequential (history .empty as) c ∧ Ingested db c := by
  induction h with
  | start => exact ⟨.empty, .start, ingested_empty⟩
  | @next as a t u hrun hallowed hstep ih =>
    obtain ⟨c, hseq, hingested⟩ := ih
    rw [history_append hrun]
    simp only [history, hstep, List.append_nil]
    rcases hingested.step hallowed hstep with ⟨hnone, h'⟩ | ⟨x, c', hone, hserved, h'⟩
    · rw [hnone, List.append_nil]
      exact ⟨c, hseq, h'⟩
    · rw [hone]
      exact ⟨c', .next hseq hserved, h'⟩

/-! ### The sequential store -/

/-- The request is one that the columns take as it is. -/
def Request.Fits (r : Request) : Prop := InRange r.op ∧ ∀ s b, r = .put s b → PlainStrings b

theorem Reply.answer_of_same {reply : Reply} {x : Answer} (h : SameAnswer (.ok reply.answer) (.ok x)) : x = reply.answer := by
  cases reply <;> cases h <;> rfl

/-- The store serves what the catalog says. -/
theorem PgStore.serve_served {pg : Postgres} (std : pg.Standard) {st : PgStore} (hst : st.Represents c.toContents)
    {x : Request × Reply} {c' : Catalog} (hserved : Served id c x.1.op x.2.answer c') (hfits : x.1.Fits) :
    ∃ st', PgStore.serve pg st x.1.op = (.ok x.2.answer, st') ∧ st'.Represents c'.toContents := by
  have hout := PgStore.serve_outcome std hst x.1.op
  generalize PgStore.serve pg st x.1.op = out at hout ⊢
  cases hout with
  | served _ hserved' hst' =>
    obtain ⟨hsame, rfl⟩ := (hserved.of_inRange hfits.1).unique hserved'
    exact ⟨_, by rw [Reply.answer_of_same hsame], hst'⟩
  | refused hrefused =>
    obtain ⟨request, reply⟩ := x
    cases request with
    | put s b =>
      cases hrefused with
      | strings hstrings => exact absurd (hfits.2 s b rfl) hstrings
      | taken new taken =>
        generalize reply.answer = answer at hserved
        cases hserved with
        | shared held => exact absurd held (new _)
        | stored _ fresh => exact absurd taken fresh
    | delete | purgeSession | putEdge => cases hrefused

theorem Sequential.replayed {pg : Postgres} (std : pg.Standard) {h : List (Request × Reply)} (hseq : Sequential h c)
    (hfits : ∀ x ∈ h, x.1.Fits) : (PgStore.serve pg).answers .empty (h.map (·.1.op)) = h.map (fun x => .ok x.2.answer) ∧
      ((PgStore.serve pg).after .empty (h.map (·.1.op))).Represents c.toContents := by
  induction hseq with
  | start => exact ⟨rfl, PgStore.represents_empty⟩
  | @next h c c' x before hserved ih =>
    obtain ⟨hanswers, hafter⟩ := ih fun y hy => hfits y (List.mem_append_left _ hy)
    obtain ⟨st', hserve, hst'⟩ := PgStore.serve_served std hafter hserved (hfits x (by simp))
    rw [List.map_append, List.map_append, Machine.answers_append, Machine.after_append, hanswers]
    simp only [List.map_cons, List.map_nil, Machine.answers, Machine.after, hserve]
    exact ⟨trivial, hst'⟩

theorem request_of_moves {k : Option RowKey} (h : Moves db i t k t') : t'.request = t.request := by
  cases h <;> rfl

/-- A step answers no request that did not arrive. -/
theorem requests_step (h : db.step a = some db') (ht : t ∈ db'.txs) :
    (∃ u ∈ db.txs, u.request = t.request) ∨ a = .start t.request := by
  obtain ⟨j, hj⟩ := List.mem_iff_getElem?.mp ht
  rcases Database.step_inv h with ⟨r, rfl, rfl⟩ | ⟨i, u, k, u', hu, hmove, rfl, -, -⟩ | ⟨i, u, reply, rfl, hu, -, rfl⟩
  · rcases Database.getElem?_append.mp hj with hj | ⟨-, rfl⟩
    · exact .inl ⟨t, List.mem_of_getElem? hj, rfl⟩
    · exact .inr rfl
  · rcases (Database.getElem?_setTx hu).mp hj with ⟨-, rfl⟩ | ⟨-, hj⟩
    · exact .inl ⟨u, List.mem_of_getElem? hu, (request_of_moves hmove).symm⟩
    · exact .inl ⟨t, List.mem_of_getElem? hj, rfl⟩
  · rcases (Database.getElem?_setTx hu).mp hj with ⟨-, rfl⟩ | ⟨-, hj⟩
    · exact .inl ⟨u, List.mem_of_getElem? hu, rfl⟩
    · exact .inl ⟨t, List.mem_of_getElem? hj, rfl⟩

theorem history_requests {as : List Database.Action} {init : Database} {x : Request × Reply} (hx : x ∈ history init as) :
    (∃ t ∈ init.txs, t.request = x.1) ∨ .start x.1 ∈ as := by
  induction as generalizing init with
  | nil => simp [history] at hx
  | cons a as ih =>
    rw [history, List.mem_append] at hx
    rcases hx with hx | hx
    · obtain ⟨i, t, -, ht, -, hrequest, -⟩ := committed_eq hx
      exact .inl ⟨t, List.mem_of_getElem? ht, hrequest.symm⟩
    · split at hx
      · rename_i next hstep
        rcases ih hx with ⟨t, ht, hrequest⟩ | hlater
        · rcases requests_step hstep ht with ⟨u, hu, heq⟩ | hnow
          · exact .inl ⟨u, hu, heq.trans hrequest⟩
          · exact .inr (hrequest ▸ hnow ▸ List.mem_cons_self)
        · exact .inr (List.mem_cons_of_mem _ hlater)
      · simp at hx

/-- Concurrent ingestion serializes: the store that takes the committed requests one at a time, in the order of their
commits, gives the replies that the transactions gave and ends with the rows that they left. -/
theorem ingest_serial {pg : Postgres} (std : pg.Standard) {as : List Database.Action}
    (h : Run Database.step Ingesting .empty as db) (hfits : ∀ r, .start r ∈ as → r.Fits) : ∃ c : Catalog,
      RowsHold db.rows c.toContents ∧
      (PgStore.serve pg).answers .empty ((history .empty as).map (·.1.op)) =
        (history .empty as).map (fun x => .ok x.2.answer) ∧
      ((PgStore.serve pg).after .empty ((history .empty as).map (·.1.op))).Represents c.toContents := by
  obtain ⟨c, hseq, hingested⟩ := ingest_history h
  refine ⟨c, hingested.rows, hseq.replayed std fun x hx => ?_⟩
  rcases history_requests hx with ⟨t, ht, -⟩ | hstart
  · simp [Database.empty] at ht
  · exact hfits _ hstart

/-- Blocks 1 and 3 and an edge between them at once; block 2, with the content of block 1, meets it uncommitted and waits. -/
def mixedIngest : List Database.Action :=
  [.start (.put ⟨1⟩ (sampleBlock ⟨1⟩ .fact [0x61] [])), .start (.put ⟨1⟩ (sampleBlock ⟨3⟩ .fact [0x62] [])),
   .start (.putEdge ⟨⟨1⟩, ⟨3⟩, .supports⟩), .advance 0, .advance 1, .advance 2, .advance 1, .advance 1,
   .start (.put ⟨2⟩ (sampleBlock ⟨2⟩ .fact [0x61] [])), .advance 0, .advance 0, .advance 3, .advance 2, .advance 3, .advance 3]

def ingests (_ : Database) : Database.Action → Bool
  | .start (.delete _) | .start (.purgeSession _) => false
  | _ => true

theorem ingesting_of_check (db : Database) (a : Database.Action) (h : ingests db a = true) : Ingesting db a := by
  rcases a with (_ | _ | _ | _) | _ | _ | _ <;> trivial

theorem ingest_serial_sample : ∃ db, Run Database.step Ingesting .empty mixedIngest db ∧
    (history .empty mixedIngest).map Prod.snd = [.stored ⟨3⟩, .stored ⟨1⟩, .linked, .stored ⟨1⟩] ∧ ∃ c : Catalog,
      RowsHold db.rows c.toContents ∧
      (PgStore.serve samplePostgres).answers .empty ((history .empty mixedIngest).map (·.1.op)) =
        (history .empty mixedIngest).map (fun x => .ok x.2.answer) ∧
      ((PgStore.serve samplePostgres).after .empty ((history .empty mixedIngest).map (·.1.op))).Represents c.toContents := by
  have hends : (Run.exec (fun db a => if ingests db a then Database.step db a else none) .empty mixedIngest).isSome := by
    decide +kernel
  obtain ⟨db, hdb⟩ := Option.isSome_iff_exists.mp hends
  have hrun : Run Database.step Ingesting .empty mixedIngest db := Run.of_exec ingesting_of_check hdb
  refine ⟨db, hrun, by decide +kernel, ingest_serial samplePostgres_standard hrun fun r hr => ?_⟩
  have hfits : ∀ {s i bytes}, Request.Fits (.put s (sampleBlock i .fact bytes [])) := by
    intro s i bytes
    have hstart : (0 : Nat) < 2 ^ 63 := by decide
    refine ⟨⟨hstart, hstart⟩, fun s' b hb => ?_⟩
    cases hb
    exact plainStrings_sampleBlock ..
  simp only [mixedIngest, List.mem_cons, Database.Action.start.injEq, reduceCtorEq, List.not_mem_nil, or_false, false_or] at hr
  rcases hr with rfl | rfl | rfl | rfl
  · exact hfits
  · exact hfits
  · exact ⟨trivial, by rintro s b ⟨⟩⟩
  · exact hfits

end Llm386.Pg
