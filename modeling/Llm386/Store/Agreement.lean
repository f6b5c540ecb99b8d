import Llm386.Lmdb.Invariant
import Llm386.Pg.Runs

/-! # The two backends side by side

The LMDB store and the Postgres store on the same operations. They give the same answers along every run whose steps keep
clear of three things that only one of them minds: strings that a `jsonb` column refuses, new content under the id of other
content, and the delete of a block that is not stored but that an edge names. -/

namespace Llm386
open Pg Contents

namespace LmdbStore

def serve : Machine LmdbStore StoreOp (Except StoreError Answer) := fun st op =>
  match op with
  | .put session block => settled st .stored (st.put session block)
  | .get id => (.ok (.block (st.get id)), st)
  | .listSession session => readOut st .ids (st.listSession session)
  | .listSessions => readOut st .sessions st.listSessions
  | .lookupHash hash => readOut st .found (st.lookupHash hash)
  | .delete id => settled st .existed (st.delete id)
  | .purgeSession session => settled st .purged (st.purgeSession session)
  | .putEdge edge => (.ok .linked, st.putEdge edge)
  | .edgesFrom source => readOut st .edges (st.edgesFrom source)
  | .edgesTo target => readOut st .edges (st.edgesTo target)

end LmdbStore

/-- An operation that both backends take alike, on the tables it finds. -/
def Clear (st : LmdbStore) : StoreOp → Prop
  | .put _ block => PlainStrings block ∧ ((st.get block.id).isNone ∨ (st.blocksByHash[block.hash.bytes]?).isSome)
  | .delete id => (st.get id).isSome ∨ (st.edgesFrom id = .ok [] ∧ st.edgesTo id = .ok [])
  | _ => True

variable {st : LmdbStore} {c : Catalog} {op : StoreOp}

/-! ### The LMDB store and the catalog -/

/-- A delete of what is neither stored nor named by an edge erases nothing. -/
theorem erase_of_absent {id : BlockId} (absent : ¬c.Stored id) (untouched : ∀ e ∈ c.edges, ¬e.Touches {id}) :
    c.toContents.erase {id} = c.toContents := by
  ext x a
  · rw [block_erase_eq_some, and_iff_right_iff_imp]
    rintro ha rfl
    exact absent ⟨a, ha⟩
  · exact ⟨And.left, fun hx => ⟨hx, fun heq => absent (heq ▸ c.listed_stored hx)⟩⟩
  · exact ⟨And.left, fun he => ⟨he, untouched x he⟩⟩

namespace LmdbStore.Represents

theorem clear_put_iff (h : st.Represents c.toContents) {s : SessionId} {b : ContextBlock} :
    Clear st (.put s b) ↔ ¬Refused c (.put s b) := by
  have hfree : ((st.get b.id).isNone ∨ (st.blocksByHash[b.hash.bytes]?).isSome) ↔ ¬((∀ id, ¬c.Holds id b.hash) ∧ c.Stored b.id) := by
    rw [h.get_eq, ← h.hash_eq_none, not_and_or, ← Ne, Option.ne_none_iff_isSome, Option.isNone_iff_eq_none, or_comm, Stored,
      ← Option.isSome_iff_exists, Bool.not_eq_true, Option.isSome_eq_false_iff, Option.isNone_iff_eq_none]
  rw [Clear, hfree]
  constructor
  · rintro ⟨hplain, hfree⟩ (hstrings | ⟨new, taken⟩)
    · exact hstrings hplain
    · exact hfree ⟨new, taken⟩
  · intro hnot
    exact ⟨by_contra fun hstrings => hnot (.strings hstrings), fun htaken => hnot (.taken htaken.1 htaken.2)⟩

theorem clear_delete_iff (h : st.Represents c.toContents) {id : BlockId} :
    Clear st (.delete id) ↔ c.Stored id ∨ ∀ e ∈ c.edges, ¬e.Touches {id} := by
  have hedges : (st.edgesFrom id = .ok [] ∧ st.edgesTo id = .ok []) ↔ ∀ e ∈ c.edges, ¬e.Touches {id} := by
    obtain ⟨es, hes, hmem⟩ := h.edgesFrom_eq id
    obtain ⟨es', hes', hmem'⟩ := h.edgesTo_eq id
    rw [hes, hes', Except.ok.injEq, Except.ok.injEq, List.eq_nil_iff_forall_not_mem, List.eq_nil_iff_forall_not_mem,
      ← forall_and]
    refine forall_congr' fun e => ?_
    rw [hmem, hmem', Edge.Touches, Set.mem_singleton_iff, Set.mem_singleton_iff]
    tauto
  rw [Clear, hedges, h.get_eq, Stored, Option.isSome_iff_exists]

/-- A clear operation is served as the catalog says. -/
theorem serve_clear (h : st.Represents c.toContents) (hclear : Clear st op) : ∃ a st' c', serve st op = (.ok a, st') ∧
    Served id c op a c' ∧ st'.Represents c'.toContents := by
  cases op with
  | put s b =>
    have takes := h.clear_put_iff.mp hclear
    by_cases held : ∃ id, c.Holds id b.hash
    · obtain ⟨id, hid⟩ := held
      obtain ⟨st', hput, h'⟩ := h.put_held s hid
      exact ⟨_, st', _, by rw [serve, hput]; rfl, .shared hid (hid.imp fun _ ha => ha.1), h'⟩
    · have new := not_exists.mp held
      have fresh : ¬c.Stored b.id := fun taken => takes (.taken new taken)
      obtain ⟨st', hput, h'⟩ := h.put_new s new fresh
      exact ⟨_, st', _, by rw [serve, hput]; rfl, .stored new fresh, h'⟩
  | get id => exact ⟨_, st, c, by rw [serve, h.get_eq], .get, h⟩
  | listSession s =>
    obtain ⟨ids, hids, hlisting⟩ := h.listSession_eq s
    exact ⟨_, st, c, by rw [serve, hids]; rfl, .listSession hlisting, h⟩
  | listSessions =>
    obtain ⟨ss, hss, hlisting⟩ := h.listSessions_eq
    exact ⟨_, st, c, by rw [serve, hss]; rfl, .listSessions hlisting, h⟩
  | lookupHash hash =>
    obtain ⟨r, hr, hmem⟩ := h.lookupHash_eq hash
    exact ⟨_, st, c, by rw [serve, hr]; rfl, .lookupHash hmem, h⟩
  | delete id =>
    by_cases stored : c.Stored id
    · obtain ⟨st', hdel, h'⟩ := h.delete_stored stored
      exact ⟨_, st', _, by rw [serve, hdel]; rfl, .delete (by simp [stored]), h'⟩
    · have untouched := (h.clear_delete_iff.mp hclear).resolve_left stored
      have hdel := h.delete_absent stored fun s hs => stored (c.listed_stored hs)
      refine ⟨_, st, c.erase {id}, by rw [serve, hdel]; rfl, .delete (by simp [stored]), ?_⟩
      have hsame := erase_of_absent stored untouched
      show st.Represents (c.toContents.erase {id})
      rwa [hsame]
  | purgeSession s =>
    obtain ⟨ids, -, hlisting⟩ := h.listSession_eq s
    obtain ⟨st', hpurge, h'⟩ := h.purgeSession_eq (fun _ => c.listed_stored) hlisting
    exact ⟨_, st', _, by rw [serve, hpurge]; rfl, .purgeSession hlisting, h'⟩
  | putEdge e => exact ⟨_, _, c.link e, rfl, .putEdge, h.putEdge_link e⟩
  | edgesFrom id =>
    obtain ⟨es, hes, hmem⟩ := h.edgesFrom_eq id
    exact ⟨_, st, c, by rw [serve, hes]; rfl, .edgesFrom hmem, h⟩
  | edgesTo id =>
    obtain ⟨es, hes, hmem⟩ := h.edgesTo_eq id
    exact ⟨_, st, c, by rw [serve, hes]; rfl, .edgesTo hmem, h⟩

end LmdbStore.Represents

/-! ### Both stores -/

/-- The tables of both stores hold one catalog. -/
def Paired (st : LmdbStore) (pst : PgStore) : Prop := ∃ c : Catalog, st.Represents c.toContents ∧ pst.Represents c.toContents

theorem paired_empty : Paired .empty .empty := ⟨.empty, LmdbStore.represents_empty, PgStore.represents_empty⟩

variable {pg : Postgres} {pst : PgStore}

theorem not_refused_of_clear (h : st.Represents c.toContents) (hclear : Clear st op) : ¬Refused c op := by
  cases op with
  | put s b => exact h.clear_put_iff.mp hclear
  | _ => exact fun hrefused => by cases hrefused

/-- A clear operation is answered alike, and the stores stay paired. -/
theorem clear_paired (std : pg.Standard) (h : Paired st pst) (hclear : Clear st op) (hrange : InRange op) :
    SameAnswer (LmdbStore.serve st op).1 (PgStore.serve pg pst op).1 ∧
      Paired (LmdbStore.serve st op).2 (PgStore.serve pg pst op).2 := by
  obtain ⟨c, hst, hpst⟩ := h
  obtain ⟨a, st', c', hserve, hserved, hst'⟩ := hst.serve_clear hclear
  have hserved := hserved.of_inRange hrange
  rw [hserve]
  have hout := PgStore.serve_outcome std hpst op
  generalize PgStore.serve pg pst op = out at hout
  cases hout with
  | served _ hserved' hpst' =>
    obtain ⟨hsame, rfl⟩ := hserved.unique hserved'
    exact ⟨hsame, c', hst', hpst'⟩
  | refused hrefused => exact absurd hrefused (not_refused_of_clear hst hclear)

theorem SameAnswer.mem_iff {es es' : List Edge} (h : SameAnswer (.ok (.edges es)) (.ok (.edges es'))) (e : Edge) :
    e ∈ es ↔ e ∈ es' := by
  cases h with
  | ok => exact Iff.rfl
  | edges h => exact h e

/-- The LMDB store takes every block. -/
theorem put_succeeds (h : st.Represents c.toContents) (s : SessionId) (b : ContextBlock) :
    ∃ id st', st.put s b = .ok (id, st') := by
  by_cases held : ∃ id, c.Holds id b.hash
  · obtain ⟨id, hid⟩ := held
    obtain ⟨st', hput, -⟩ := h.put_held s hid
    exact ⟨id, st', hput⟩
  · exact ⟨_, _, LmdbStore.put_of_unindexed (h.hash_eq_none.mpr (not_exists.mp held)) s⟩

/-- After an operation that is not clear, reads tell the stores apart. -/
theorem unclear_parted (std : pg.Standard) (h : Paired st pst) (hunclear : ¬Clear st op) : ∃ rs : List StoreOp,
    (∀ r ∈ rs, r.IsRead) ∧ ¬List.Forall₂ SameAnswer (LmdbStore.serve.answers st (op :: rs))
      ((PgStore.serve pg).answers pst (op :: rs)) := by
  obtain ⟨c, hst, hpst⟩ := h
  cases op with
  | put s b =>
    have hrefused : Refused c (.put s b) := by_contra fun hnot => hunclear (hst.clear_put_iff.mpr hnot)
    obtain ⟨id, st', hput⟩ := put_succeeds hst s b
    have hout := PgStore.serve_outcome std hpst (.put s b)
    refine ⟨[], by simp, ?_⟩
    simp only [Machine.answers, LmdbStore.serve, hput, settled]
    generalize PgStore.serve pg pst (.put s b) = out at hout
    cases hout with
    | served takes => exact absurd hrefused takes
    | refused =>
      intro hsame
      cases hsame with
      | cons hsame => cases hsame
  | delete id =>
    rw [hst.clear_delete_iff] at hunclear
    obtain ⟨absent, htouched⟩ := not_or.mp hunclear
    obtain ⟨e, he, htouches⟩ : ∃ e ∈ c.edges, e.Touches {id} := by simpa using htouched
    have hdel := hst.delete_absent absent fun s hs => absent (c.listed_stored hs)
    have hpst' : (pst.delete id).2.Represents (c.toContents.erase {id}) := hpst.delete_erase id
    obtain ⟨es, hes, hmem⟩ := hst.edgesFrom_eq id
    obtain ⟨es', hes', hmem'⟩ := hst.edgesTo_eq id
    obtain ⟨ps, hps, hpmem⟩ : ∃ ps, (pst.delete id).2.edgesFrom pg id = .ok ps ∧ _ := hpst'.edgesFrom_eq id
    obtain ⟨ps', hps', hpmem'⟩ : ∃ ps, (pst.delete id).2.edgesTo pg id = .ok ps ∧ _ := hpst'.edgesTo_eq id
    refine ⟨[.edgesFrom id, .edgesTo id], by simp [StoreOp.IsRead], fun hsame => ?_⟩
    simp only [Machine.answers, LmdbStore.serve, hdel, settled, hes, hes', readOut, PgStore.serve, hps, hps',
      List.forall₂_cons, List.Forall₂.nil, and_true] at hsame
    obtain ⟨-, hfrom, hto⟩ := hsame
    have hgone : e ∉ (c.toContents.erase {id}).edges := fun hmem => hmem.2 htouches
    rcases htouches with heq | heq
    · exact hgone ((hpmem e).mp ((hfrom.mem_iff e).mp ((hmem e).mpr ⟨he, heq⟩))).1
    · exact hgone ((hpmem' e).mp ((hto.mem_iff e).mp ((hmem' e).mpr ⟨he, heq⟩))).1
  | _ => exact absurd trivial hunclear

/-- The stores agree at every point of a run, and would agree on any reads there. -/
def Interchangeable (pg : Postgres) (ops : List StoreOp) : Prop :=
  ∀ n rs, (∀ r ∈ rs, r.IsRead) → List.Forall₂ SameAnswer (LmdbStore.serve.answers .empty (ops.take n ++ rs))
    ((PgStore.serve pg).answers .empty (ops.take n ++ rs))

theorem clear_of_read {r : StoreOp} (h : r.IsRead) (st : LmdbStore) : Clear st r ∧ InRange r := by
  cases r <;> first | exact ⟨trivial, trivial⟩ | exact h.elim

/-- From empty stores the backends agree all along a run exactly when every operation of it is clear where it comes. -/
theorem backends_agree_iff (std : pg.Standard) (ops : List StoreOp) (hrange : ∀ op ∈ ops, InRange op) :
    LmdbStore.serve.Along Clear .empty ops ↔ Interchangeable pg ops := by
  constructor
  · intro hclear n rs hrs
    have htake : LmdbStore.serve.Along Clear .empty (ops.take n) := by
      rw [← List.take_append_drop n ops, Machine.along_append] at hclear
      exact hclear.1
    have hall : LmdbStore.serve.Along Clear .empty (ops.take n ++ rs) := Machine.along_append.mpr
      ⟨htake, (Machine.along_of_forall (p := fun r => r.IsRead) hrs).mono fun hr => (clear_of_read hr _).1⟩
    have hranges : LmdbStore.serve.Along (fun _ op => InRange op) .empty (ops.take n ++ rs) := by
      refine Machine.along_of_forall fun op hop => ?_
      rcases List.mem_append.mp hop with hop | hop
      · exact hrange op (List.mem_of_mem_take hop)
      · exact (clear_of_read (hrs op hop) .empty).2
    exact ((hall.and hranges).simulate paired_empty fun hR hok => clear_paired std hR hok.1 hok.2).1
  · intro hsame
    by_contra hclear
    obtain ⟨before, op, rest, rfl, hbefore, hunclear⟩ := Machine.exists_first hclear
    have hranges : LmdbStore.serve.Along (fun _ op => InRange op) .empty before :=
      Machine.along_of_forall fun op hop => hrange op (List.mem_append_left _ hop)
    obtain ⟨-, hpaired⟩ := (hbefore.and hranges).simulate paired_empty fun hR hok => clear_paired std hR hok.1 hok.2
    obtain ⟨rs, hrs, hparted⟩ := unclear_parted std hpaired hunclear
    have hall := hsame (before.length + 1) rs hrs
    have htake : (before ++ op :: rest).take (before.length + 1) ++ rs = before ++ op :: rs := by
      rw [List.take_length_add_append, List.append_assoc]
      rfl
    rw [htake, Machine.answers_append, Machine.answers_append] at hall
    have hlast := List.forall₂_drop_append _ _ _ hall
    rw [Machine.length_answers, List.drop_left' Machine.length_answers] at hlast
    exact hparted hlast

/-- Content under id 7, shared by another session, linked, read and purged. -/
def clearOps : List StoreOp :=
  [.put ⟨1⟩ (sampleBlock ⟨7⟩ .fact [0x61] []), .put ⟨2⟩ (sampleBlock ⟨7⟩ .fact [0x61] []), .putEdge ⟨⟨7⟩, ⟨8⟩, .supports⟩,
    .edgesFrom ⟨7⟩, .purgeSession ⟨1⟩, .delete ⟨7⟩, .listSessions]

theorem backends_agree_sample : Interchangeable samplePostgres clearOps := by
  refine (backends_agree_iff samplePostgres_standard clearOps ?_).mp ?_
  · simp only [clearOps, List.forall_mem_cons]
    exact ⟨⟨by decide, by decide⟩, ⟨by decide, by decide⟩, trivial, trivial, trivial, trivial, trivial, by simp⟩
  · refine ⟨⟨plainStrings_sampleBlock .., .inl (by decide +kernel)⟩, ⟨plainStrings_sampleBlock .., .inr (by decide +kernel)⟩,
      trivial, trivial, trivial, .inl (by decide +kernel), trivial, trivial⟩

/-- Other content under the id of stored content: LMDB writes over the block, Postgres reports the violated key. -/
theorem backends_differ : ¬List.Forall₂ SameAnswer
    (LmdbStore.serve.answers .empty [.put ⟨1⟩ (sampleBlock ⟨7⟩ .fact [0x61] []), .put ⟨1⟩ (sampleBlock ⟨7⟩ .fact [0x62] [])])
    ((PgStore.serve samplePostgres).answers .empty
      [.put ⟨1⟩ (sampleBlock ⟨7⟩ .fact [0x61] []), .put ⟨1⟩ (sampleBlock ⟨7⟩ .fact [0x62] [])]) := by
  intro hsame
  have hok : ∀ {x y}, SameAnswer x y → x.isOk = y.isOk := fun h => by cases h <;> rfl
  have heq := List.forall₂_eq_eq_eq ▸ (List.forall₂_map_left_iff.mpr (List.forall₂_map_right_iff.mpr (hsame.imp fun _ _ => hok)))
  revert heq
  decide +kernel

end Llm386
