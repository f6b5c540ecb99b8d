import Llm386.Lmdb.Immutable
import Llm386.Reduce.Reducers

/-! # Committing a reduction

The blocks of a reduction are put one by one and its edges written as they are. New content is stored as the
reduction has it. Content that is stored already, by anyone or by an earlier block of the same reduction, stays
under the id, kind and lineage that it has, while the edges keep naming the ids that the reducer proposed. -/

namespace Llm386

namespace LmdbStore

/-- Put every block of the reduction, then write every edge. -/
def commit (st : LmdbStore) (session : SessionId) (r : Reduction) : Except StoreError LmdbStore := do
  let st ← r.blocks.foldlM (fun st b => (·.2) <$> st.put session b) st
  pure (r.newEdges.foldl putEdge st)

/-- The session lists the block stored under `id`. -/
def Lists (st : LmdbStore) (session : SessionId) (id : BlockId) (a : ContextBlock) : Prop :=
  st.get id = some a ∧ ∃ ids, st.listSession session = .ok ids ∧ id ∈ ids

/-- The edge is listed at both its ends. -/
def HoldsEdge (st : LmdbStore) (e : Edge) : Prop :=
  (∃ es, st.edgesFrom e.fromId = .ok es ∧ e ∈ es) ∧ ∃ es, st.edgesTo e.toId = .ok es ∧ e ∈ es

/-- Both ends of every committed edge are stored, and the session lists each block of the reduction with its bytes,
kind and parents. -/
structure CommittedAs (st : LmdbStore) (session : SessionId) (r : Reduction) : Prop where
  edges : ∀ e ∈ r.newEdges, (st.get e.fromId).isSome ∧ (st.get e.toId).isSome
  blocks : ∀ b ∈ r.blocks, ∃ id a, st.Lists session id a ∧ a.bytes = b.bytes ∧ a.kind = b.kind ∧
    a.provenance.parents = b.provenance.parents

/-- No block of the reduction proposes an id that stores or proposes other content. -/
structure Unclashing (st : LmdbStore) (r : Reduction) : Prop where
  fresh : ∀ b ∈ r.blocks, Fresh st b
  distinct : ∀ b ∈ r.blocks, ∀ c ∈ r.blocks, b.id = c.id → b.hash = c.hash

end LmdbStore

/-! ### The blocks, one by one -/

/-- Where the content of `b` is found once the blocks of `put` are in: stored before, or the first of them that
has it. -/
def Contents.Settles (before : Contents) (put : List ContextBlock) (b : ContextBlock) (id : BlockId) (a : ContextBlock) :
    Prop :=
  before.block id = some a ∨
    (∀ x, ¬before.Holds x b.hash) ∧ id = a.id ∧ put.find? (fun c => c.hash = b.hash) = some a

/-- The contents once the blocks of `put` are in. -/
structure Committing (before : Contents) (s : SessionId) (put : List ContextBlock) (c : Contents) : Prop where
  kept : ∀ {id a}, before.block id = some a → c.block id = some a
  origin : ∀ {id a}, c.block id = some a → before.block id = some a ∨ a ∈ put ∧ a.id = id
  settled : ∀ b ∈ put, ∃ id a, id ∈ c.lists s ∧ c.block id = some a ∧ a.hash = b.hash ∧ before.Settles put b id a

namespace Committing
variable {before c : Contents} {s : SessionId} {put : List ContextBlock} {b : ContextBlock}

theorem settles_append {id : BlockId} {a b' : ContextBlock} (h : before.Settles put b' id a) :
    before.Settles (put ++ [b]) b' id a := by
  refine h.imp_right fun ⟨hnew, hid, hfind⟩ => ⟨hnew, hid, ?_⟩
  rw [List.find?_append, hfind]
  rfl

/-- Content that is held already: only the session entry is new. -/
theorem share (h : Committing before s put c) {id : BlockId} (held : c.Holds id b.hash)
    (hinj : ∀ {i j hash}, c.Holds i hash → c.Holds j hash → i = j) :
    Committing before s (put ++ [b]) (c.share s id) where
  kept := h.kept
  origin ha := (h.origin ha).imp_right fun ⟨ha, hid⟩ => ⟨List.mem_append_left _ ha, hid⟩
  settled := by
    intro b' hb'
    rcases List.mem_append.mp hb' with hb' | hb'
    · obtain ⟨x, a, hx, ha, hhash, hsettles⟩ := h.settled b' hb'
      exact ⟨x, a, Or.inl hx, ha, hhash, settles_append hsettles⟩
    · obtain rfl := List.mem_singleton.mp hb'
      obtain ⟨a, ha, hhash⟩ := held
      refine ⟨id, a, Or.inr ⟨rfl, rfl⟩, ha, hhash, ?_⟩
      rcases h.origin ha with hbefore | ⟨hput, hid⟩
      · exact Or.inl hbefore
      · -- An earlier block of the reduction: the first with this content.
        obtain ⟨x, a', -, ha', hhash', hsettles⟩ := h.settled a hput
        obtain rfl : id = x := hinj ⟨a, ha, rfl⟩ ⟨a', ha', hhash'⟩
        cases ha.symm.trans ha'
        have hsame : before.Settles put b' id a := by
          unfold Contents.Settles at hsettles ⊢
          rwa [← hhash]
        exact settles_append hsame

/-- New content under an id that stores nothing. -/
theorem store (h : Committing before s put c) (new : ∀ id, ¬c.Holds id b.hash) (absent : c.block b.id = none) :
    Committing before s (put ++ [b]) (c.store s b) where
  kept {id a} ha := by
    have hkept := h.kept ha
    have hne : id ≠ b.id := fun heq => by
      rw [heq, absent] at hkept
      cases hkept
    simp [Contents.store, hne, hkept]
  origin {id a} ha := by
    simp only [Contents.store] at ha
    split at ha
    · rename_i hid
      cases ha
      exact Or.inr ⟨List.mem_append_right _ (List.mem_singleton_self _), hid.symm⟩
    · exact (h.origin ha).imp_right fun ⟨ha, hid⟩ => ⟨List.mem_append_left _ ha, hid⟩
  settled := by
    intro b' hb'
    rcases List.mem_append.mp hb' with hb' | hb'
    · obtain ⟨x, a, hx, ha, hhash, hsettles⟩ := h.settled b' hb'
      have hne : x ≠ b.id := fun heq => by
        rw [heq, absent] at ha
        cases ha
      exact ⟨x, a, Or.inl hx, by simp [Contents.store, hne, ha], hhash, settles_append hsettles⟩
    · obtain rfl := List.mem_singleton.mp hb'
      refine ⟨b'.id, b', Or.inr ⟨rfl, rfl⟩, by simp [Contents.store], rfl, Or.inr ⟨fun x hx => ?_, rfl, ?_⟩⟩
      · obtain ⟨a, ha, hhash⟩ := hx
        exact new x ⟨a, h.kept ha, hhash⟩
      · have hnone : put.find? (fun c => c.hash = b'.hash) = none := by
          rw [List.find?_eq_none]
          intro a hput hhash
          obtain ⟨x, a', -, ha', hhash', -⟩ := h.settled a hput
          exact new x ⟨a', ha', hhash'.trans (by simpa using hhash)⟩
        rw [List.find?_append, hnone]
        simp

end Committing

namespace LmdbStore
variable {contentHashOf : Bytes → ContentHash} {st st' : LmdbStore} {session : SessionId} {r : Reduction}

/-- Putting blocks that do not clash succeeds and settles each of them. -/
theorem putAll_commits (session : SessionId) {before : Catalog} (h : st.Represents before.toContents) {blocks : List ContextBlock}
    (hfresh : ∀ b ∈ blocks, Fresh st b) (hdistinct : ∀ b ∈ blocks, ∀ c ∈ blocks, b.id = c.id → b.hash = c.hash) :
    ∃ st', blocks.foldlM (fun st b => (·.2) <$> st.put session b) st = .ok st' ∧
      ∃ c : Catalog, st'.Represents c.toContents ∧ Committing before.toContents session blocks c.toContents := by
  let P : LmdbStore → List ContextBlock → Prop := fun u rest => ∃ put, put ++ rest = blocks ∧
    ∃ c : Catalog, u.Represents c.toContents ∧ Committing before.toContents session put c.toContents
  have start : P st blocks := ⟨[], rfl, before, h, ⟨fun ha => ha, Or.inl, by simp⟩⟩
  have pass : ∀ b rest u, P u (b :: rest) → ∃ v, ((·.2) <$> u.put session b) = .ok v ∧ P v rest := by
    rintro b rest u ⟨put, hlist, c, hrep, hc⟩
    have hlist' : (put ++ [b]) ++ rest = blocks := by simpa using hlist
    have hb : b ∈ blocks := hlist ▸ List.mem_append_right _ List.mem_cons_self
    by_cases held : ∃ id, c.Holds id b.hash
    · obtain ⟨id, hid⟩ := held
      obtain ⟨v, hput, hv⟩ := hrep.put_held session hid
      refine ⟨v, by rw [hput]; rfl, put ++ [b], hlist', c.share session id ?_, hv, hc.share hid c.hash_inj⟩
      obtain ⟨a, ha, -⟩ := hid
      exact ⟨a, ha⟩
    · have new := not_exists.mp held
      have absent : c.block b.id = none := by
        by_contra hstored
        obtain ⟨a, ha⟩ := Option.ne_none_iff_exists'.mp hstored
        rcases hc.origin ha with hbefore | ⟨hput, hid⟩
        · rcases hfresh b hb with hnone | ⟨x, hx⟩
          · rw [h.get_eq, hbefore] at hnone
            cases hnone
          · obtain ⟨r', hr', hholds⟩ := h.lookupHash_eq b.hash
            cases hx.symm.trans hr'
            obtain ⟨a', ha', hhash⟩ := (hholds x).mp rfl
            exact new x ⟨a', hc.kept ha', hhash⟩
        · obtain ⟨x, a', -, ha', hhash, -⟩ := hc.settled a hput
          have hsame := hdistinct a (hlist ▸ List.mem_append_left _ hput) b hb hid
          exact new x ⟨a', ha', hhash.trans hsame⟩
      have fresh : ¬c.Stored b.id := by
        rintro ⟨a, ha⟩
        rw [absent] at ha
        cases ha
      obtain ⟨v, hput, hv⟩ := hrep.put_new session new fresh
      exact ⟨v, by rw [hput]; rfl, put ++ [b], hlist', c.store session b new, hv, hc.store new absent⟩
  obtain ⟨st', hrun, put, hlist, c, hrep, hc⟩ := Loop.foldlM_total pass start
  rw [List.append_nil] at hlist
  exact ⟨st', hrun, c, hrep, hlist ▸ hc⟩

theorem putEdges_get (edges : List Edge) (st : LmdbStore) (id : BlockId) :
    (edges.foldl putEdge st).get id = st.get id := by
  induction edges generalizing st with
  | nil => rfl
  | cons e edges ih => exact ih (st.putEdge e)

theorem putEdges_listSession (edges : List Edge) (st : LmdbStore) (s : SessionId) :
    (edges.foldl putEdge st).listSession s = st.listSession s := by
  induction edges generalizing st with
  | nil => rfl
  | cons e edges ih => exact ih (st.putEdge e)

theorem putEdges_indexed {c : Contents} (h : st.IndexedBy c) (edges : List Edge) :
    (edges.foldl putEdge st).IndexedBy { c with edges := {e | e ∈ edges ∨ e ∈ c.edges} } := by
  induction edges generalizing st c with
  | nil => simpa using h
  | cons e edges ih =>
    have hrest := ih (h.putEdge_link e)
    have hall : {x | x ∈ e :: edges ∨ x ∈ c.edges} = {x | x ∈ edges ∨ x ∈ (c.link e).edges} := by
      ext x
      simp only [Contents.link, Set.mem_insert_iff, Set.mem_ofPred_eq, List.mem_cons]
      tauto
    rw [hall]
    exact hrest

theorem IndexedBy.holdsEdge {c : Contents} (h : st.IndexedBy c) {e : Edge} (he : e ∈ c.edges) : st.HoldsEdge e := by
  obtain ⟨out, hout, -, hmem⟩ := h.edgesFrom_eq e.fromId
  obtain ⟨inc, hinc, -, hmem'⟩ := h.edgesTo_eq e.toId
  exact ⟨⟨out, hout, (hmem e).mpr ⟨he, rfl⟩⟩, inc, hinc, (hmem' e).mpr ⟨he, rfl⟩⟩

/-! ### The commit -/

/-- Committing the reduction of a stored state, or of none, whose proposed ids do not clash: the session lists, for
each block, the block that had its content before, untouched, or else the first of the reduction that has it; every
edge is listed, ends at the state, which is stored, and starts at a stored block where the content was new. With new
contents only, each once, everything is committed as the reduction has it. -/
theorem commit_settles {parse : String → Except String JsonEnvelope} {state : Option ContextBlock} {output : String}
    (h : Reachable contentHashOf st) (hstate : ∀ s, state = some s → st.get s.id = some s)
    (hred : Reduces contentHashOf parse state output r) (hids : Unclashing st r) :
    ∃ st', st.commit session r = .ok st' ∧
      (∀ b ∈ r.blocks, ∃ id a, st'.Lists session id a ∧ a.hash = b.hash ∧ contentHashOf a.bytes = contentHashOf b.bytes ∧
        (st.lookupHash b.hash = .ok (some id) ∧ st.get id = some a ∨
          st.lookupHash b.hash = .ok none ∧ id = a.id ∧ r.blocks.find? (fun c => c.hash = b.hash) = some a)) ∧
      (∀ e ∈ r.newEdges, st'.HoldsEdge e ∧ (∃ s, state = some s ∧ e.toId = s.id ∧ st'.get e.toId = some s) ∧
        ∃ b ∈ r.blocks, e.fromId = b.id ∧ (st.lookupHash b.hash = .ok none → st'.get e.fromId = some b)) ∧
      ((∀ b ∈ r.blocks, st.lookupHash b.hash = .ok none) → (r.blocks.map (·.hash)).Nodup →
        CommittedAs st' session r) := by
  obtain ⟨before, hbefore, hhashed⟩ := h.represents
  obtain ⟨u, hrun, c, hrep, hc⟩ := putAll_commits session hbefore hids.fresh hids.distinct
  let st' : LmdbStore := r.newEdges.foldl putEdge u
  have hcommit : st.commit session r = .ok st' := by
    rw [commit, hrun]
    rfl
  have hget : ∀ id, st'.get id = c.block id := fun id => (putEdges_get r.newEdges u id).trans (hrep.get_eq id)
  have hlists : ∀ {id a}, id ∈ c.lists session → c.block id = some a → st'.Lists session id a := by
    intro id a hid ha
    obtain ⟨ids, hlist, hlisting⟩ := hrep.listSession_eq session
    exact ⟨(hget id).trans ha, ids, (putEdges_listSession r.newEdges u session).trans hlist, hlisting.mem.mpr hid⟩
  have hblocks : ∀ b ∈ r.blocks, ∃ id a, st'.Lists session id a ∧ a.hash = b.hash ∧
      contentHashOf a.bytes = contentHashOf b.bytes ∧ (st.lookupHash b.hash = .ok (some id) ∧ st.get id = some a ∨
        st.lookupHash b.hash = .ok none ∧ id = a.id ∧ r.blocks.find? (fun c => c.hash = b.hash) = some a) := by
    intro b hb
    obtain ⟨id, a, hid, ha, hhash, hsettles⟩ := hc.settled b hb
    refine ⟨id, a, hlists hid ha, hhash, ?_, ?_⟩
    · have hbytes : contentHashOf a.bytes = a.hash := by
        rcases hc.origin ha with hold | ⟨hput, -⟩
        · exact hhashed id a hold
        · exact hred.hashed a hput
      rw [hbytes, hhash, hred.hashed b hb]
    · rcases hsettles with hold | ⟨hnew, hid, hfind⟩
      · exact Or.inl ⟨hbefore.lookupHash_some ⟨a, hold, hhash⟩, (hbefore.get_eq id).trans hold⟩
      · exact Or.inr ⟨hbefore.lookupHash_none hnew, hid, hfind⟩
  have hedges : ∀ e ∈ r.newEdges, (∃ s, state = some s ∧ e.toId = s.id ∧ st'.get e.toId = some s) ∧
      ∃ b ∈ r.blocks, e.fromId = b.id ∧ (st.lookupHash b.hash = .ok none → st'.get e.fromId = some b) := by
    intro e he
    obtain ⟨⟨b, hsingle, hsource⟩, s, hs, htarget⟩ := hred.edges e he
    have hb : b ∈ r.blocks := hsingle ▸ List.mem_singleton_self b
    refine ⟨⟨s, hs, htarget, ?_⟩, b, hb, hsource, fun hnew => ?_⟩
    · rw [htarget, hget]
      exact hc.kept ((hbefore.get_eq s.id).symm.trans (hstate s hs))
    · obtain ⟨id, a, ⟨ha, -⟩, -, -, ⟨hold, -⟩ | ⟨-, rfl, hfind⟩⟩ := hblocks b hb
      · cases hold.symm.trans hnew
      · rw [hsingle] at hfind
        obtain rfl : b = a := by simpa using hfind
        rw [hsource, ha]
  have hheld : ∀ e ∈ r.newEdges, st'.HoldsEdge e := fun e he =>
    (putEdges_indexed hrep.indexed r.newEdges).holdsEdge (Or.inl he)
  refine ⟨st', hcommit, hblocks, fun e he => ⟨hheld e he, hedges e he⟩, fun hnew hnodup => ⟨fun e he => ?_, fun b hb => ?_⟩⟩
  · obtain ⟨⟨s, -, -, hs⟩, b, hb, -, hsource⟩ := hedges e he
    rw [hs, hsource (hnew b hb)]
    exact ⟨rfl, rfl⟩
  · obtain ⟨id, a, hlist, hhash, -, ⟨hold, -⟩ | ⟨-, -, hfind⟩⟩ := hblocks b hb
    · cases hold.symm.trans (hnew b hb)
    · have hmem : a ∈ r.blocks := List.mem_of_find?_eq_some hfind
      obtain rfl : a = b := List.inj_on_of_nodup_map hnodup hmem hb hhash
      exact ⟨id, a, hlist, rfl, rfl, rfl⟩

/-! ### An output that repeats a stored body

Session 1 holds a state and a fact whose body the model then outputs. -/

def repliedStore : LmdbStore :=
  storeAfter [.put ⟨1⟩ (sampleBlock ⟨1⟩ .state [0x62] []), .put ⟨1⟩ (sampleBlock ⟨7⟩ .fact [0x61] [])]

theorem repliedStore_reachable : Reachable sampleHash repliedStore := storeAfter_reachable (by decide +kernel)

def replyReducer : AppendOutputReducer := ⟨⟨200, by decide⟩, true⟩

/-- The reduction of an output over the state of the session. -/
def replyReduction (output : String) : Reduction :=
  ((replyReducer.reduce sampleHash (some (sampleBlock ⟨1⟩ .state [0x62] [])) output).toOption).getD .empty

theorem replyReduction_reduces (output : String) (parse : String → Except String JsonEnvelope) :
    Reduces sampleHash parse (some (sampleBlock ⟨1⟩ .state [0x62] [])) output (replyReduction output) := by
  refine Or.inl ⟨replyReducer, ?_⟩
  unfold replyReduction AppendOutputReducer.reduce
  split <;> rfl

/-- A parser that the append reducer never calls. -/
def noParse : String → Except String JsonEnvelope := fun _ => .error "expected value"

theorem commit_dedups : Reachable sampleHash repliedStore ∧
    repliedStore.get ⟨1⟩ = some (sampleBlock ⟨1⟩ .state [0x62] []) ∧
    Reduces sampleHash noParse (some (sampleBlock ⟨1⟩ .state [0x62] [])) "a" (replyReduction "a") ∧
    ∃ st', repliedStore.commit ⟨1⟩ (replyReduction "a") = .ok st' ∧ ¬CommittedAs st' ⟨1⟩ (replyReduction "a") := by
  refine ⟨repliedStore_reachable, rfl, replyReduction_reduces "a" noParse, ?_⟩
  have hrun : (repliedStore.commit ⟨1⟩ (replyReduction "a")).toOption.map (fun st' =>
      (replyReduction "a").newEdges.all fun e => (st'.get e.fromId).isSome) = some false := by decide +kernel
  obtain ⟨st', hcommit, hdangling⟩ := Option.map_eq_some_iff.mp hrun
  refine ⟨st', Loop.toOption_eq_some.mp hcommit, fun h => ?_⟩
  have hall := List.all_eq_true.mpr fun e he => (h.edges e he).1
  rw [hall] at hdangling
  cases hdangling

/-- An output that is new to the store. -/
def freshOutput : String := String.ofList (List.replicate 50 'a')

theorem freshOutput_unclashing : Unclashing repliedStore (replyReduction freshOutput) where
  fresh b hb := by
    have hall : ∀ b ∈ (replyReduction freshOutput).blocks, (repliedStore.get b.id).isNone = true := by decide +kernel
    exact Or.inl (Option.isNone_iff_eq_none.mp (hall b hb))
  distinct := by decide +kernel

theorem commit_settles_sample : ∃ st', repliedStore.commit ⟨1⟩ (replyReduction freshOutput) = .ok st' ∧
    CommittedAs st' ⟨1⟩ (replyReduction freshOutput) := by
  have hstate : ∀ s, some (sampleBlock ⟨1⟩ .state [0x62] []) = some s → repliedStore.get s.id = some s := fun s hs => by
    cases hs
    rfl
  obtain ⟨st', hcommit, -, -, hall⟩ := @commit_settles _ _ ⟨1⟩ _ _ _ _ repliedStore_reachable hstate
    (replyReduction_reduces freshOutput noParse) freshOutput_unclashing
  exact ⟨st', hcommit, hall (by decide +kernel) (by decide +kernel)⟩

end LmdbStore

end Llm386
