import Llm386.Lmdb.Recorded
import Llm386.Pager.Reading

/-! # What a write changes for the reads

`Touches st op q` says of the tables before the write `op` that it bears on the read `q`. Over any run of operations
these are exactly the reads that the write has answered otherwise than before. -/

namespace Llm386.LmdbStore
open Contents KeyTable

/-! ### What a write touches -/

/-- How the store answers a read. -/
def answer (st : LmdbStore) : (q : Query) → q.Answer
  | .get id => .ok (st.get id)
  | .listSession s => st.listSession s
  | .edgesFrom id => st.edgesFrom id
  | .edgesTo id => st.edgesTo id

theorem blockStore_answer {st : LmdbStore} (h : Ran st) : (st.blockStore h).answer = st.answer := by
  funext q
  cases q <;> rfl

def listed (st : LmdbStore) (s : SessionId) : List BlockId := (st.listSession s).toOption.getD []

def outOf (st : LmdbStore) (id : BlockId) : List Edge := (st.edgesFrom id).toOption.getD []

def into (st : LmdbStore) (id : BlockId) : List Edge := (st.edgesTo id).toOption.getD []

/-- The id that a put returns: the one its content is indexed under, else the proposed one. -/
def filedUnder (st : LmdbStore) (block : ContextBlock) : BlockId :=
  match st.lookupHash block.hash with
  | .ok (some id) => id
  | _ => block.id

/-- The write erases `x` with its edges: a `delete` what is stored or listed under its id, a `purge_session` a stored
block that no other session lists. -/
def Erases (st : LmdbStore) : WriteOp → BlockId → Prop
  | .delete id, x => x = id ∧ ((st.get id).isSome ∨ st.sessionKeysOf id ≠ [])
  | .purgeSession s, x => (st.get x).isSome ∧ x ∈ st.listed s ∧ ∀ key ∈ st.sessionKeysOf x, key = sessionBlockKey s x
  | _, _ => False

/-- The write bears on the read: new content on its own id, a new member on the listing, a new edge on both its ends,
an erasure on the block, on the listings that have it and on the other ends of its edges. -/
def Touches (st : LmdbStore) : WriteOp → Query → Prop
  | .put _ block, .get id => id = block.id ∧ st.lookupHash block.hash = .ok none ∧ st.get id ≠ some block
  | .put session block, .listSession s => s = session ∧ st.filedUnder block ∉ st.listed session
  | .put _ _, _ => False
  | .putEdge e, .edgesFrom id => id = e.fromId ∧ e ∉ st.outOf e.fromId
  | .putEdge e, .edgesTo id => id = e.toId ∧ e ∉ st.outOf e.fromId
  | .putEdge _, _ => False
  | op, .get id => st.Erases op id ∧ (st.get id).isSome
  | .delete id, .listSession s => id ∈ st.listed s
  | .purgeSession session, .listSession s => s = session ∧ st.listed session ≠ []
  | op, .edgesFrom id => ∃ e ∈ st.outOf id, st.Erases op e.fromId ∨ st.Erases op e.toId
  | op, .edgesTo id => ∃ e ∈ st.into id, st.Erases op e.fromId ∨ st.Erases op e.toId

instance (st : LmdbStore) : (op : WriteOp) → DecidablePred (st.Erases op)
  | .put _ _, _ | .putEdge _, _ => inferInstanceAs (Decidable False)
  | .delete _, _ => inferInstanceAs (Decidable (_ ∧ _))
  | .purgeSession _, _ => inferInstanceAs (Decidable (_ ∧ _))

instance (st : LmdbStore) : (op : WriteOp) → DecidablePred (st.Touches op)
  | .put _ _, .get _ | .put _ _, .listSession _ => inferInstanceAs (Decidable (_ ∧ _))
  | .put _ _, .edgesFrom _ | .put _ _, .edgesTo _ => inferInstanceAs (Decidable False)
  | .putEdge _, .edgesFrom _ | .putEdge _, .edgesTo _ => inferInstanceAs (Decidable (_ ∧ _))
  | .putEdge _, .get _ | .putEdge _, .listSession _ => inferInstanceAs (Decidable False)
  | .delete _, .get _ | .purgeSession _, .get _ => inferInstanceAs (Decidable (_ ∧ _))
  | .delete id, .listSession s => inferInstanceAs (Decidable (id ∈ st.listed s))
  | .purgeSession _, .listSession _ => inferInstanceAs (Decidable (_ ∧ _))
  | .delete _, .edgesFrom _ | .purgeSession _, .edgesFrom _ => inferInstanceAs (Decidable (∃ e ∈ _, _))
  | .delete _, .edgesTo _ | .purgeSession _, .edgesTo _ => inferInstanceAs (Decidable (∃ e ∈ _, _))

/-! ### On the ledger -/

/-- Two contents have the same answer to a read. -/
def Alike (c c' : Contents) : Query → Prop
  | .get id => c'.block id = c.block id
  | .listSession s => c'.lists s = c.lists s
  | .edgesFrom id => ∀ e : Edge, e.fromId = id → (e ∈ c'.edges ↔ e ∈ c.edges)
  | .edgesTo id => ∀ e : Edge, e.toId = id → (e ∈ c'.edges ↔ e ∈ c.edges)

variable {st st' : LmdbStore} {c c' : Contents}

theorem Tracks.mem_listed (h : Tracks st c) {s : SessionId} {id : BlockId} : id ∈ st.listed s ↔ id ∈ c.lists s := by
  obtain ⟨ids, hlist, hids⟩ := h.indexed.listSession_eq s
  rw [listed, hlist]
  exact hids.mem

theorem Tracks.mem_outOf (h : Tracks st c) {id : BlockId} {e : Edge} : e ∈ st.outOf id ↔ e ∈ c.edges ∧ e.fromId = id := by
  obtain ⟨es, hes, -, hmem⟩ := h.indexed.edgesFrom_eq id
  rw [outOf, hes]
  exact hmem e

theorem Tracks.mem_into (h : Tracks st c) {id : BlockId} {e : Edge} : e ∈ st.into id ↔ e ∈ c.edges ∧ e.toId = id := by
  obtain ⟨es, hes, -, hmem⟩ := h.indexed.edgesTo_eq id
  rw [into, hes]
  exact hmem e

/-- A scan reads nothing but the keys under its prefix. -/
theorem scan_congr {α : Type} {t t' : KeyTable Bytes} {p : Bytes} (f : Bytes → Except StoreError α)
    (h : ∀ k, p <+: k → (k ∈ t ↔ k ∈ t')) :
    (prefixIter t p).mapM (fun e => f e.1) = (prefixIter t' p).mapM fun e => f e.1 := by
  have hkeys := scanned_congr h
  rw [← Function.comp_def f, ← List.mapM_map, hkeys, List.mapM_map]

/-- Stores answer a read alike exactly where their ledgers do. -/
theorem Tracks.answer_eq_iff (h : Tracks st c) (h' : Tracks st' c') (q : Query) :
    st'.answer q = st.answer q ↔ Alike c c' q := by
  cases q with
  | get id =>
    show Except.ok (st'.get id) = Except.ok (st.get id) ↔ c'.block id = c.block id
    rw [Except.ok.injEq, h.blocks, h'.blocks]
  | listSession s =>
    show st'.listSession s = st.listSession s ↔ c'.lists s = c.lists s
    constructor
    · intro heq
      ext id
      rw [← h.mem_listed, ← h'.mem_listed, listed, listed, heq]
    · intro heq
      refine scan_congr listedBlock fun k hk => ?_
      rw [h.indexed.sessions, h'.indexed.sessions]
      refine exists_congr fun t => exists_congr fun id => and_congr_right fun hkey => ?_
      subst hkey
      rw [← prefix_sessionBlockKey.mp hk, heq]
  | edgesFrom id =>
    show st'.edgesFrom id = st.edgesFrom id ↔ _
    constructor
    · rintro heq e rfl
      have hmem : e ∈ st'.outOf e.fromId ↔ e ∈ c'.edges ∧ e.fromId = e.fromId := h'.mem_outOf
      rw [outOf, heq] at hmem
      simpa using hmem.symm.trans h.mem_outOf
    · intro halike
      unfold edgesFrom
      rw [scan_congr scannedEdge fun k hk => ?_]
      rw [h.indexed.edges_from, h'.indexed.edges_from]
      refine exists_congr fun e => and_congr_left fun hkey => ?_
      subst hkey
      exact halike e (prefix_edgeKey.mp hk).symm
  | edgesTo id =>
    show st'.edgesTo id = st.edgesTo id ↔ _
    constructor
    · rintro heq e rfl
      have hmem : e ∈ st'.into e.toId ↔ e ∈ c'.edges ∧ e.toId = e.toId := h'.mem_into
      rw [into, heq] at hmem
      simpa using hmem.symm.trans h.mem_into
    · intro halike
      unfold edgesTo
      rw [scan_congr scannedEdge fun k hk => ?_]
      rw [h.indexed.edges_to, h'.indexed.edges_to]
      refine exists_congr fun e => and_congr_left fun hkey => ?_
      subst hkey
      exact halike e (prefix_edgeKey.mp hk).symm

/-! ### Each write -/

theorem Tracks.mem_erases_delete (h : Tracks st c) {id x : BlockId} :
    st.Erases (.delete id) x ↔ x = id ∧ (c.Stored id ∨ ∃ s, id ∈ c.lists s) := by
  obtain ⟨ss, hss, hmem⟩ := h.indexed.sessionKeysOf_eq id
  refine and_congr_right fun _ => or_congr h.stored_iff ?_
  rw [hss, ne_eq, List.map_eq_nil_iff, List.eq_nil_iff_forall_not_mem, not_forall_not]
  exact exists_congr hmem

theorem Tracks.mem_erases_purge (h : Tracks st c) {s : SessionId} {x : BlockId} :
    st.Erases (.purgeSession s) x ↔ x ∈ c.exclusive s ∧ c.Stored x := by
  obtain ⟨ss, hss, hmem⟩ := h.indexed.sessionKeysOf_eq x
  have hkeys : (∀ key ∈ st.sessionKeysOf x, key = sessionBlockKey s x) ↔ ∀ s', x ∈ c.lists s' → s' = s := by
    rw [hss, List.forall_mem_map]
    exact forall_congr' fun s' => imp_congr (hmem s') (by simp)
  rw [Erases, hkeys, h.mem_listed, and_comm]
  exact and_congr Iff.rfl h.stored_iff

/-- What a put touches. -/
theorem Tracks.put_alike {s : SessionId} {b : ContextBlock} (h : Tracks st c) (hexec : st.exec (.put s b) = .ok st') :
    ∃ c', Tracks st' c' ∧ ∀ q, Alike c c' q ↔ ¬st.Touches (.put s b) q := by
  obtain ⟨⟨id, st₁⟩, hput, heq⟩ := Loop.map_eq_ok.mp hexec
  cases heq
  have hlists : ∀ x t, (c.share s x).lists t = c.lists t ↔ ¬(t = s ∧ x ∉ st.listed s) := by
    intro x t
    rw [h.mem_listed, not_and, not_not]
    constructor
    · rintro hsame rfl
      exact hsame ▸ Or.inr ⟨rfl, rfl⟩
    · refine fun hmem => Set.ext fun y => ⟨?_, Or.inl⟩
      rintro (hy | ⟨rfl, rfl⟩)
      · exact hy
      · exact hmem rfl
  refine ⟨_, h.put hput, fun q => ?_⟩
  cases hindex : st.blocksByHash[b.hash.bytes]? with
  | some bytes =>
    obtain ⟨held, rfl⟩ := h.ids _ _ hindex
    have hlookup : st.lookupHash b.hash = .ok (some held) := by simp [lookupHash, hindex]
    have hfiled : st.filedUnder b = held := by rw [filedUnder, hlookup]
    rw [put_of_indexed hindex] at hput
    cases hput
    cases q with
    | get x => exact iff_of_true (h.blocks x) (by simp [Touches, hlookup])
    | listSession t => exact hfiled ▸ hlists (st.filedUnder b) t
    | edgesFrom x | edgesTo x => exact iff_of_true (fun _ _ => Iff.rfl) not_false
  | none =>
    have hlookup : st.lookupHash b.hash = .ok none := by simp [lookupHash, hindex]
    have hfiled : st.filedUnder b = b.id := by rw [filedUnder, hlookup]
    rw [put_of_unindexed hindex] at hput
    cases hput
    cases q with
    | get x =>
      simp only [Alike, Touches, hlookup, true_and, ← h.blocks x, get, getElem?_insert_eq, blockId_bytes_inj]
      by_cases hx : x = b.id
      · subst hx
        simp [eq_comm]
      · simp [hx, Ne.symm hx]
    | listSession t => exact hfiled ▸ hlists (st.filedUnder b) t
    | edgesFrom x | edgesTo x => exact iff_of_true (fun _ _ => Iff.rfl) not_false

/-- What a new edge touches. -/
theorem Tracks.putEdge_alike (h : Tracks st c) (e : Edge) :
    Tracks (st.putEdge e) (c.link e) ∧ ∀ q, Alike c (c.link e) q ↔ ¬st.Touches (.putEdge e) q := by
  have hends : ∀ P : Edge → Prop, (∀ e' : Edge, P e' → (e' ∈ (c.link e).edges ↔ e' ∈ c.edges)) ↔
      ¬(P e ∧ e ∉ st.outOf e.fromId) := by
    intro P
    rw [h.mem_outOf, and_iff_left rfl, not_and, not_not]
    constructor
    · exact fun hsame hP => (hsame e hP).mp (Set.mem_insert e c.edges)
    · refine fun hmem e' hP => ⟨?_, Set.mem_insert_of_mem e⟩
      rintro (rfl | he')
      · exact hmem hP
      · exact he'
  refine ⟨h.of_same ⟨rfl, rfl⟩ (h.indexed.putEdge_link e) rfl, fun q => ?_⟩
  cases q with
  | get x => exact iff_of_true rfl not_false
  | listSession t => exact iff_of_true rfl not_false
  | edgesFrom x => exact (hends fun e' => e'.fromId = x).trans (by simp only [Touches, eq_comm])
  | edgesTo x => exact (hends fun e' => e'.toId = x).trans (by simp only [Touches, eq_comm])

/-- What an erasure touches, listings apart. -/
theorem Tracks.erase_alike (h : Tracks st c) {op : WriteOp} {dead : Set BlockId} (hdead : ∀ x, x ∈ dead ↔ st.Erases op x)
    {c' : Contents} (hblock : c'.block = (c.erase dead).block) (hedges : c'.edges = (c.erase dead).edges) (id : BlockId) :
    (Alike c c' (.get id) ↔ ¬(st.Erases op id ∧ (st.get id).isSome)) ∧
      (Alike c c' (.edgesFrom id) ↔ ¬∃ e ∈ st.outOf id, st.Erases op e.fromId ∨ st.Erases op e.toId) ∧
      (Alike c c' (.edgesTo id) ↔ ¬∃ e ∈ st.into id, st.Erases op e.fromId ∨ st.Erases op e.toId) := by
  have hends : ∀ P : Edge → Prop, (∀ e : Edge, P e → (e ∈ c'.edges ↔ e ∈ c.edges)) ↔
      ¬∃ e, (e ∈ c.edges ∧ P e) ∧ (st.Erases op e.fromId ∨ st.Erases op e.toId) := by
    intro P
    rw [not_exists]
    refine forall_congr' fun e => ?_
    rw [hedges, ← hdead, ← hdead]
    simp only [Contents.erase, Edge.Touches, Set.mem_ofPred_eq]
    tauto
  refine ⟨?_, (hends fun e => e.fromId = id).trans ?_, (hends fun e => e.toId = id).trans ?_⟩
  · rw [Alike, hblock, ← hdead, h.blocks]
    by_cases hid : id ∈ dead
    · cases hb : c.block id <;> simp [Contents.erase, hid]
    · simp [Contents.erase, hid]
  · simp only [h.mem_outOf]
  · simp only [h.mem_into]

theorem delete_existed {id : BlockId} {existed : Bool} (h : st.delete id = .ok (existed, st')) :
    existed = true ↔ (st.get id).isSome ∨ st.sessionKeysOf id ≠ [] := by
  have hflag : (((st.blocksById[id.raw.toBeBytes]?).map (·.hash)).isSome || !(st.sessionKeysOf id).isEmpty) = true ↔
      (st.get id).isSome ∨ st.sessionKeysOf id ≠ [] := by
    rw [Bool.or_eq_true, Option.isSome_map, Bool.not_eq_true', List.isEmpty_eq_false_iff]
    rfl
  rw [← hflag]
  simp only [delete] at h
  split at h
  · rename_i hmissing
    rw [Bool.not_eq_true', ← Bool.not_eq_true] at hmissing
    cases h
    exact iff_of_false Bool.false_ne_true hmissing
  · rename_i hfound
    rw [Bool.not_eq_true', Bool.not_eq_false] at hfound
    obtain ⟨st₁, -, h⟩ := Loop.bind_eq_ok.mp h
    cases h
    exact iff_of_true rfl hfound

/-- What `delete` touches. -/
theorem Tracks.delete_alike {id : BlockId} (h : Tracks st c) (hexec : st.exec (.delete id) = .ok st') :
    ∃ c', Tracks st' c' ∧ ∀ q, Alike c c' q ↔ ¬st.Touches (.delete id) q := by
  obtain ⟨⟨existed, st₁⟩, hdelete, heq⟩ := Loop.map_eq_ok.mp hexec
  cases heq
  have hexisted := delete_existed hdelete
  refine ⟨_, h.delete hdelete, fun q => ?_⟩
  cases existed with
  | true =>
    have hdead : ∀ x, x ∈ ({id} : Set BlockId) ↔ st.Erases (.delete id) x := fun x =>
      (and_iff_left (hexisted.mp rfl)).symm
    have hrest := h.erase_alike hdead rfl rfl
    cases q with
    | get x => exact (hrest x).1
    | edgesFrom x => exact (hrest x).2.1
    | edgesTo x => exact (hrest x).2.2
    | listSession s =>
      show c.lists s \ {id} = c.lists s ↔ id ∉ st.listed s
      rw [h.mem_listed, sdiff_eq_left, Set.disjoint_singleton_right]
  | false =>
    have hnone : ∀ x, ¬st.Erases (.delete id) x := fun x hx => Bool.false_ne_true (hexisted.mpr hx.2)
    refine iff_of_true (by cases q <;> simp [Alike]) ?_
    cases q with
    | get x => exact fun hx => hnone x hx.1
    | edgesFrom x | edgesTo x =>
      rintro ⟨e, -, he | he⟩
      · exact hnone _ he
      · exact hnone _ he
    | listSession s =>
      exact fun hs => hnone id (h.mem_erases_delete.mpr ⟨rfl, .inr ⟨s, h.mem_listed.mp hs⟩⟩)

/-- What `purge_session` touches. -/
theorem Tracks.purgeSession_alike {s : SessionId} (h : Tracks st c) (hexec : st.exec (.purgeSession s) = .ok st') :
    ∃ c', Tracks st' c' ∧ ∀ q, Alike c c' q ↔ ¬st.Touches (.purgeSession s) q := by
  obtain ⟨⟨count, st₁⟩, hpurge, heq⟩ := Loop.map_eq_ok.mp hexec
  cases heq
  obtain ⟨count', st₂, hpurge', hledger⟩ := h.purgeSession s
  rw [hpurge] at hpurge'
  cases hpurge'
  obtain hrest := h.erase_alike (fun x => (h.mem_erases_purge (s := s) (x := x)).symm) rfl rfl
  refine ⟨_, hledger, fun q => ?_⟩
  cases q with
  | get x => exact (hrest x).1
  | edgesFrom x => exact (hrest x).2.1
  | edgesTo x => exact (hrest x).2.2
  | listSession t =>
    show (c.forget s).lists t \ {id | id ∈ c.exclusive s ∧ c.Stored id} = c.lists t ↔ ¬(t = s ∧ st.listed s ≠ [])
    by_cases ht : t = s
    · subst ht
      have hempty : st.listed t = [] ↔ c.lists t = ∅ := by
        rw [List.eq_nil_iff_forall_not_mem, Set.eq_empty_iff_forall_notMem]
        exact forall_congr' fun x => not_congr h.mem_listed
      simp [forget, hempty, eq_comm]
    · refine iff_of_true (Set.ext fun x => ?_) fun hs => ht hs.1
      rw [Set.mem_sdiff, mem_forget]
      exact ⟨fun hx => hx.1.2, fun hx => ⟨⟨ht, hx⟩, fun hdead => ht (hdead.1.2 t hx)⟩⟩

/-! ### Over any run -/

/-- A write changes the answer to a read exactly where it touches it. -/
theorem Ran.answer_eq_iff (h : Ran st) {op : WriteOp} (hexec : st.exec op = .ok st') (q : Query) :
    st'.answer q = st.answer q ↔ ¬st.Touches op q := by
  obtain ⟨c, hc⟩ := h.recorded
  have halike : ∃ c', Tracks st' c' ∧ ∀ q, Alike c c' q ↔ ¬st.Touches op q := by
    cases op with
    | put s b => exact hc.tracks.put_alike hexec
    | putEdge e =>
      cases hexec
      exact ⟨_, hc.tracks.putEdge_alike e⟩
    | delete id => exact hc.tracks.delete_alike hexec
    | purgeSession s => exact hc.tracks.purgeSession_alike hexec
  obtain ⟨c', hc', hq⟩ := halike
  exact (hc.tracks.answer_eq_iff hc' q).trans (hq q)

end Llm386.LmdbStore
