import Llm386.Pg.Refine
import Llm386.Store.Spec

/-! # Runs of the Postgres store

Whatever operations the store is given, one after the other, its tables hold a catalog, every operation answers what the
catalog says, and `put` alone can fail, leaving everything as it was. -/

namespace Llm386
open Pg Contents

/-- What `put` does not take: strings that a `jsonb` column refuses, and new content under the id of other content. -/
inductive Refused (c : Catalog) : StoreOp → Prop
  | strings {s : SessionId} {b : ContextBlock} (h : ¬PlainStrings b) : Refused c (.put s b)
  | taken {s : SessionId} {b : ContextBlock} (new : ∀ id, ¬c.Holds id b.hash) (taken : c.Stored b.id) : Refused c (.put s b)

/-- Answers that a catalog explains: an operation that it does not refuse is served, and any other fails and changes nothing. -/
inductive Explained : Catalog → List StoreOp → List (Except StoreError Answer) → Catalog → Prop
  | done {c : Catalog} : Explained c [] [] c
  | served {c c₁ c' : Catalog} {op : StoreOp} {a : Answer} {ops : List StoreOp} {as : List (Except StoreError Answer)}
    (takes : ¬Refused c op) (h : Served ContextBlock.capped c op a c₁) (rest : Explained c₁ ops as c') :
    Explained c (op :: ops) (.ok a :: as) c'
  | refused {c c' : Catalog} {op : StoreOp} {e : StoreError} {ops : List StoreOp} {as : List (Except StoreError Answer)}
    (h : Refused c op) (rest : Explained c ops as c') : Explained c (op :: ops) (.error e :: as) c'

/-- The timestamps of a block to put are in the range of the columns. -/
def InRange : StoreOp → Prop
  | .put _ block => block.createdAt.val < 2 ^ 63 ∧ block.updatedAt.val < 2 ^ 63
  | _ => True

/-- Timestamps in range are kept as they are. -/
theorem Served.of_inRange {c c' : Catalog} {op : StoreOp} {a : Answer} (h : Served id c op a c') (hrange : InRange op) :
    Served ContextBlock.capped c op a c' := by
  cases h with
  | @shared s b i held stored => exact @Served.shared ContextBlock.capped c s b i held stored
  | @stored s b new fresh =>
    have hserved := @Served.stored ContextBlock.capped c s b new fresh
    simp only [ContextBlock.capped_eq hrange.1 hrange.2] at hserved
    exact hserved
  | get => exact .get
  | listSession h => exact .listSession h
  | listSessions h => exact .listSessions h
  | lookupHash h => exact .lookupHash h
  | delete h => exact .delete h
  | purgeSession h => exact .purgeSession h
  | putEdge => exact .putEdge
  | edgesFrom h => exact .edgesFrom h
  | edgesTo h => exact .edgesTo h

namespace PgStore

def serve (pg : Postgres) : Machine PgStore StoreOp (Except StoreError Answer) := fun st op =>
  match op with
  | .put session block => settled st .stored (st.put pg session block)
  | .get id => readOut st .block (st.get id)
  | .listSession session => readOut st .ids (st.listSession session)
  | .listSessions => readOut st .sessions st.listSessions
  | .lookupHash hash => readOut st .found (st.lookupHash hash)
  | .delete id => (.ok (.existed (st.delete id).1), (st.delete id).2)
  | .purgeSession session => settled st .purged (st.purgeSession session)
  | .putEdge edge => (.ok .linked, st.putEdge edge)
  | .edgesFrom source => readOut st .edges (st.edgesFrom pg source)
  | .edgesTo target => readOut st .edges (st.edgesTo pg target)

/-- What one operation on tables that hold a catalog may answer and leave. -/
inductive Outcome (c : Catalog) (op : StoreOp) (st : PgStore) : Except StoreError Answer × PgStore → Prop
  | served {a : Answer} {c' : Catalog} {st' : PgStore} (takes : ¬Refused c op) (h : Served ContextBlock.capped c op a c')
    (tables : st'.Represents c'.toContents) : Outcome c op st (.ok a, st')
  | refused {e : StoreError} (h : Refused c op) : Outcome c op st (.error e, st)

variable {pg : Postgres} {st : PgStore} {c : Catalog}

theorem put_outcome (std : pg.Standard) (h : st.Represents c.toContents) (s : SessionId) (b : ContextBlock) :
    Outcome c (.put s b) st (serve pg st (.put s b)) := by
  by_cases hplain : PlainStrings b
  · obtain ⟨row, hbind⟩ := (exists_bindBlock_iff std).mpr hplain
    by_cases held : ∃ id, c.Holds id b.hash
    · obtain ⟨id, hid⟩ := held
      obtain ⟨st', hput, h'⟩ := h.put_held std hbind s hid
      have stored : c.Stored id := hid.imp fun _ ha => ha.1
      rw [serve, hput]
      refine .served ?_ (.shared hid stored) h'
      rintro (hstrings | ⟨new, -⟩)
      · exact hstrings hplain
      · exact new id hid
    · have new := not_exists.mp held
      by_cases taken : c.Stored b.id
      · obtain ⟨e, he⟩ := h.put_taken std s new taken
        rw [serve, he]
        exact .refused (.taken new taken)
      · obtain ⟨st', hput, h'⟩ := h.put_new std hbind s new taken
        rw [serve, hput]
        refine .served ?_ (.stored new taken) h'
        rintro (hstrings | ⟨-, taken'⟩)
        · exact hstrings hplain
        · exact taken taken'
  · obtain ⟨e, he⟩ := Represents.put_refused std st s hplain
    rw [serve, he]
    exact .refused (.strings hplain)

/-- An operation is served as the catalog says, or refused with an error. -/
theorem serve_outcome (std : pg.Standard) (h : st.Represents c.toContents) (op : StoreOp) :
    Outcome c op st (serve pg st op) := by
  cases op with
  | put s b => exact put_outcome std h s b
  | get id =>
    rw [serve, h.get_eq]
    exact .served (by rintro ⟨⟩) .get h
  | listSession s =>
    obtain ⟨ids, hids, hlisting⟩ := h.listSession_eq s
    rw [serve, hids]
    exact .served (by rintro ⟨⟩) (.listSession hlisting) h
  | listSessions =>
    obtain ⟨ss, hss, hlisting⟩ := h.listSessions_eq
    rw [serve, hss]
    exact .served (by rintro ⟨⟩) (.listSessions hlisting) h
  | lookupHash hash =>
    obtain ⟨r, hr, hmem⟩ := h.lookupHash_eq hash
    rw [serve, hr]
    exact .served (by rintro ⟨⟩) (.lookupHash hmem) h
  | delete id =>
    have hexisted : (st.delete id).1 = true ↔ c.Stored id := by
      rw [h.delete_existed, ← c.stored_iff_listed, or_self]
    exact .served (by rintro ⟨⟩) (.delete hexisted) (h.delete_erase id)
  | purgeSession s =>
    obtain ⟨ids, -, hlisting⟩ := h.listSession_eq s
    obtain ⟨st', hpurge, h'⟩ := h.purgeSession_eq (fun _ => c.listed_stored) hlisting
    rw [serve, hpurge]
    exact .served (by rintro ⟨⟩) (.purgeSession hlisting) h'
  | putEdge e => exact .served (by rintro ⟨⟩) .putEdge (h.putEdge_link e)
  | edgesFrom id =>
    obtain ⟨es, hes, hmem⟩ : ∃ es, st.edgesFrom pg id = .ok es ∧ _ := h.edgesFrom_eq id
    rw [serve, hes]
    exact .served (by rintro ⟨⟩) (.edgesFrom hmem) h
  | edgesTo id =>
    obtain ⟨es, hes, hmem⟩ : ∃ es, st.edgesTo pg id = .ok es ∧ _ := h.edgesTo_eq id
    rw [serve, hes]
    exact .served (by rintro ⟨⟩) (.edgesTo hmem) h

theorem explained_from (std : pg.Standard) (h : st.Represents c.toContents) (ops : List StoreOp) : ∃ c' : Catalog,
    Explained c ops ((serve pg).answers st ops) c' ∧ ((serve pg).after st ops).Represents c'.toContents := by
  induction ops generalizing st c with
  | nil => exact ⟨c, .done, h⟩
  | cons op ops ih =>
    have hstep := serve_outcome std h op
    rw [Machine.answers, Machine.after]
    generalize serve pg st op = out at hstep
    cases hstep with
    | served takes hserved tables =>
      obtain ⟨c', hrest, hend⟩ := ih tables
      exact ⟨c', .served takes hserved hrest, hend⟩
    | refused hrefused =>
      obtain ⟨c', hrest, hend⟩ := ih h
      exact ⟨c', .refused hrefused hrest, hend⟩

/-- Whatever operations come, in whatever order, a catalog explains every answer, and the tables hold it at the end. -/
theorem runs_explained (std : pg.Standard) (ops : List StoreOp) : ∃ c : Catalog,
    Explained .empty ops ((serve pg).answers .empty ops) c ∧ ((serve pg).after .empty ops).Represents c.toContents :=
  explained_from std represents_empty ops

/-- Content under id 7, the same content under another id, other content under id 7, and a purge. -/
def collidingOps : List StoreOp :=
  [.put ⟨1⟩ (sampleBlock ⟨7⟩ .fact [0x61] []), .put ⟨2⟩ (sampleBlock ⟨9⟩ .fact [0x61] []),
    .put ⟨2⟩ (sampleBlock ⟨7⟩ .fact [0x62] []), .putEdge ⟨⟨7⟩, ⟨8⟩, .supports⟩, .purgeSession ⟨1⟩, .listSession ⟨2⟩]

theorem runs_explained_sample :
    ((serve samplePostgres).answers .empty collidingOps).map Except.isOk = [true, true, false, true, true, true] ∧
    ∃ c : Catalog, Explained .empty collidingOps ((serve samplePostgres).answers .empty collidingOps) c ∧
      ((serve samplePostgres).after .empty collidingOps).Represents c.toContents :=
  ⟨by decide +kernel, runs_explained samplePostgres_standard collidingOps⟩

end PgStore
end Llm386
