import Llm386.Core.Page
import Llm386.Lib.Lru
import Llm386.Lib.Runs

/-! # The caching tokenizer

`CachingTokenizer` of `llm386-tokenizer/src/cache.rs`: the call as one thread makes it, and any number of calls whose
sections interleave. The look-up and the write hold the lock of the cache, the inner count does not. The cache (the
`lru` crate) and the content hash are parameters. -/

namespace Llm386

structure CachingTokenizer (lru : Lru ContentHash TokenCount) where
  inner : Tokenizer
  hash : Bytes → ContentHash
  cache : lru.Cache

variable {lru : Lru ContentHash TokenCount}

namespace CachingTokenizer

def withCapacity (inner : Tokenizer) (hash : Bytes → ContentHash) (capacity : Nat) (h : 0 < capacity) :
    CachingTokenizer lru := ⟨inner, hash, lru.new capacity h⟩

def clear (t : CachingTokenizer lru) : CachingTokenizer lru := { t with cache := lru.clear t.cache }

/-- A call without others in between. -/
def count (t : CachingTokenizer lru) (bytes : Bytes) : Except TokenizerError TokenCount × CachingTokenizer lru :=
  let key := t.hash bytes
  match lru.get t.cache key with
  | (some hit, cache) => (.ok hit, { t with cache })
  | (none, cache) =>
    match t.inner.count bytes with
    | .error e => (.error e, { t with cache })
    | .ok count => (.ok count, { t with cache := lru.put cache key count })

end CachingTokenizer

namespace SharedTokenizer

/-! ### Calls that interleave -/

/-- What a call does next, and at its end what it has returned. -/
inductive Stage
  | lookup
  | missed
  | counted (count : TokenCount)
  | returned (result : Except TokenizerError TokenCount)

structure Call where
  bytes : Bytes
  stage : Stage

structure State (lru : Lru ContentHash TokenCount) where
  tokenizer : CachingTokenizer lru
  calls : List Call

inductive Action
  /-- A thread calls `count`. -/
  | count (bytes : Bytes)
  /-- The call takes its next section. -/
  | advance (i : Nat)
  | clear

/-- One section of `CachingTokenizer::count`. -/
def Call.advance (t : CachingTokenizer lru) (call : Call) : Option (Stage × CachingTokenizer lru) :=
  let key := t.hash call.bytes
  match call.stage with
  | .lookup =>
    match lru.get t.cache key with
    | (some hit, cache) => some (.returned (.ok hit), { t with cache })
    | (none, cache) => some (.missed, { t with cache })
  | .missed =>
    match t.inner.count call.bytes with
    | .error e => some (.returned (.error e), t)
    | .ok count => some (.counted count, t)
  | .counted count => some (.returned (.ok count), { t with cache := lru.put t.cache key count })
  | .returned _ => none

def step (st : State lru) : Action → Option (State lru)
  | .count bytes => some { st with calls := st.calls ++ [⟨bytes, .lookup⟩] }
  | .advance i => do
    let call ← st.calls[i]?
    let (stage, tokenizer) ← call.advance st.tokenizer
    some ⟨tokenizer, st.calls.set i { call with stage }⟩
  | .clear => some { st with tokenizer := st.tokenizer.clear }

/-- The inputs of the calls, in the order in which they begin. -/
def counted : List Action → List Bytes
  | [] => []
  | .count bytes :: as => bytes :: counted as
  | _ :: as => counted as

variable {inner : Tokenizer} {hash : Bytes → ContentHash} {S : Set Bytes} {t t' : CachingTokenizer lru} {st st' : State lru}

/-! ### What is cached -/

/-- A cached count is that of every input with the hash. -/
structure Faithful (inner : Tokenizer) (hash : Bytes → ContentHash) (S : Set Bytes) (t : CachingTokenizer lru) : Prop where
  inner_eq : t.inner = inner
  hash_eq : t.hash = hash
  cached : ∀ e, lru.Holds t.cache e → ∀ bytes ∈ S, hash bytes = e.1 → inner.count bytes = .ok e.2

/-- A call knows nothing but the inner count. -/
def Stage.Right (inner : Tokenizer) (bytes : Bytes) : Stage → Prop
  | .lookup | .missed => True
  | .counted count => inner.count bytes = .ok count
  | .returned result => result = inner.count bytes

/-- The cache is faithful, and so is every call. -/
structure Sound (inner : Tokenizer) (hash : Bytes → ContentHash) (S : Set Bytes) (st : State lru) : Prop where
  tokenizer : Faithful inner hash S st.tokenizer
  inputs : ∀ call ∈ st.calls, call.bytes ∈ S
  right : ∀ call ∈ st.calls, call.stage.Right inner call.bytes

theorem Faithful.withCache {cache : lru.Cache} (h : Faithful inner hash S t)
    (hcache : ∀ e, lru.Holds cache e → lru.Holds t.cache e) : Faithful inner hash S { t with cache } :=
  ⟨h.inner_eq, h.hash_eq, fun e he => h.cached e (hcache e he)⟩

/-- The count that is written is that of the only input with its hash. -/
theorem Faithful.put {bytes : Bytes} {count : TokenCount} (h : Faithful inner hash S t) (hinj : Set.InjOn hash S)
    (hbytes : bytes ∈ S) (hcount : inner.count bytes = .ok count) :
    Faithful inner hash S { t with cache := lru.put t.cache (hash bytes) count } := by
  refine ⟨h.inner_eq, h.hash_eq, fun e he bytes' hbytes' hkey => ?_⟩
  rcases lru.holds_put he with rfl | he
  · rwa [hinj hbytes' hbytes hkey]
  · exact h.cached e he bytes' hbytes' hkey

/-- What one section keeps. -/
theorem Call.advance_sound {call : Call} {stage : Stage} (hinj : Set.InjOn hash S) (h : Faithful inner hash S t)
    (hbytes : call.bytes ∈ S) (hright : call.stage.Right inner call.bytes)
    (hadvance : call.advance t = some (stage, t')) :
    Faithful inner hash S t' ∧ stage.Right inner call.bytes := by
  obtain rfl := h.inner_eq
  obtain rfl := h.hash_eq
  unfold Call.advance at hadvance
  cases hstage : call.stage with
  | lookup =>
    have hsame : ∀ e, lru.Holds (lru.get t.cache (t.hash call.bytes)).2 e → lru.Holds t.cache e :=
      fun e he => lru.holds_get.mp he
    have hhit : ∀ hit, (lru.get t.cache (t.hash call.bytes)).1 = some hit → lru.Holds t.cache (t.hash call.bytes, hit) :=
      fun hit h => lru.holds_of_get h
    simp only [hstage] at hadvance
    generalize lru.get t.cache (t.hash call.bytes) = found at hadvance hsame hhit
    obtain ⟨hit | hit, cache⟩ := found
    · cases hadvance
      exact ⟨h.withCache hsame, trivial⟩
    · cases hadvance
      exact ⟨h.withCache hsame, (h.cached _ (hhit hit rfl) _ hbytes rfl).symm⟩
  | missed =>
    simp only [hstage] at hadvance
    cases hcount : t.inner.count call.bytes with
    | error e =>
      rw [hcount] at hadvance
      cases hadvance
      exact ⟨h, hcount.symm⟩
    | ok count =>
      rw [hcount] at hadvance
      cases hadvance
      exact ⟨h, hcount⟩
  | counted count =>
    rw [hstage] at hright
    simp only [hstage] at hadvance
    cases hadvance
    exact ⟨h.put hinj hbytes hright, Eq.symm hright⟩
  | returned result =>
    simp only [hstage] at hadvance
    cases hadvance

theorem Sound.next {a : Action} (hinj : Set.InjOn hash S) (h : Sound inner hash S st) (ha : ∀ bytes ∈ counted [a], bytes ∈ S)
    (hstep : step st a = some st') : Sound inner hash S st' := by
  cases a with
  | count bytes =>
    cases hstep
    refine ⟨h.tokenizer, fun call hcall => ?_, fun call hcall => ?_⟩
    · rcases List.mem_append.mp hcall with hcall | hcall
      · exact h.inputs call hcall
      · rw [List.mem_singleton.mp hcall]
        exact ha bytes (List.mem_singleton_self _)
    · rcases List.mem_append.mp hcall with hcall | hcall
      · exact h.right call hcall
      · rw [List.mem_singleton.mp hcall]
        trivial
  | advance i =>
    obtain ⟨call, hcall, hstep⟩ := Option.bind_eq_some_iff.mp hstep
    obtain ⟨⟨stage, tokenizer⟩, hadvance, hstep⟩ := Option.bind_eq_some_iff.mp hstep
    cases hstep
    have hmem := List.mem_of_getElem? hcall
    obtain ⟨hfaithful, hright⟩ :=
      call.advance_sound hinj h.tokenizer (h.inputs call hmem) (h.right call hmem) hadvance
    refine ⟨hfaithful, fun other hother => ?_, fun other hother => ?_⟩
    · rcases List.mem_or_eq_of_mem_set hother with hother | rfl
      · exact h.inputs other hother
      · exact h.inputs call hmem
    · rcases List.mem_or_eq_of_mem_set hother with hother | rfl
      · exact h.right other hother
      · exact hright
  | clear =>
    cases hstep
    exact ⟨h.tokenizer.withCache fun e he => absurd he lru.holds_clear, h.inputs, h.right⟩

theorem counted_append (as bs : List Action) : counted (as ++ bs) = counted as ++ counted bs := by
  induction as with
  | nil => rfl
  | cons a as ih => cases a <;> simp [counted, ih]

theorem Sound.run {as : List Action} (hinj : Set.InjOn hash S) (hS : ∀ bytes ∈ counted as, bytes ∈ S)
    (init : Sound inner hash S st) (h : Run step (fun _ _ => True) st as st') : Sound inner hash S st' := by
  induction h with
  | start => exact init
  | next _ _ hstep ih =>
    rw [counted_append] at hS
    exact (ih fun bytes hb => hS bytes (List.mem_append_left _ hb)).next hinj
      (fun bytes hb => hS bytes (List.mem_append_right _ hb)) hstep

/-- The calls of a run are those that began. -/
theorem calls_counted {as : List Action} (h : Run step (fun _ _ => True) st as st') :
    st'.calls.map (·.bytes) = st.calls.map (·.bytes) ++ counted as := by
  induction h with
  | start => rw [counted, List.append_nil]
  | @next as a u v _ _ hstep ih =>
    rw [counted_append, ← List.append_assoc, ← ih]
    cases a with
    | count bytes =>
      cases hstep
      rw [List.map_append]
      rfl
    | advance i =>
      obtain ⟨call, hcall, hstep⟩ := Option.bind_eq_some_iff.mp hstep
      obtain ⟨⟨stage, tokenizer⟩, hadvance, hstep⟩ := Option.bind_eq_some_iff.mp hstep
      cases hstep
      obtain ⟨hi, rfl⟩ := List.getElem?_eq_some_iff.mp hcall
      show (u.calls.set i { u.calls[i] with stage }).map (·.bytes) = u.calls.map (·.bytes) ++ []
      have hi' : i < (u.calls.map (·.bytes)).length := by rwa [List.length_map]
      have hbytes : u.calls[i].bytes = (u.calls.map (·.bytes))[i] := by rw [List.getElem_map]
      rw [List.map_set, List.append_nil]
      show (u.calls.map (·.bytes)).set i u.calls[i].bytes = _
      rw [hbytes, List.set_getElem_self]
    | clear =>
      cases hstep
      exact (List.append_nil _).symm

/-! ### Every call returns -/

/-- The sections that are left at most. -/
def Stage.left : Stage → Nat
  | .lookup => 3
  | .missed => 2
  | .counted _ => 1
  | .returned _ => 0

theorem Stage.left_le (stage : Stage) : stage.left ≤ 3 := by
  cases stage <;> simp [Stage.left]

/-- No section waits for another call. -/
theorem Call.advance_progress (t : CachingTokenizer lru) (call : Call) : (∃ result, call.stage = .returned result) ∨
    ∃ stage t', call.advance t = some (stage, t') ∧ stage.left < call.stage.left := by
  cases hstage : call.stage with
  | lookup =>
    right
    simp only [Call.advance, hstage]
    obtain ⟨hit | hit, cache⟩ := lru.get t.cache (t.hash call.bytes)
    · exact ⟨_, _, rfl, Nat.lt_succ_self 2⟩
    · exact ⟨_, _, rfl, Nat.succ_pos 2⟩
  | missed =>
    right
    simp only [Call.advance, hstage]
    cases t.inner.count call.bytes with
    | error e => exact ⟨_, _, rfl, Nat.succ_pos 1⟩
    | ok count => exact ⟨_, _, rfl, Nat.lt_succ_self 1⟩
  | counted count =>
    right
    simp only [Call.advance, hstage]
    exact ⟨_, _, rfl, Nat.succ_pos 0⟩
  | returned result => exact .inl ⟨result, rfl⟩

theorem step_advance {i : Nat} {call : Call} {stage : Stage} (hcall : st.calls[i]? = some call)
    (hadvance : call.advance st.tokenizer = some (stage, t')) :
    step st (.advance i) = some ⟨t', st.calls.set i { call with stage }⟩ := by
  simp only [step, hcall, hadvance, Option.bind_eq_bind, Option.bind_some]

/-- Whatever the other calls have done, a call returns after the sections it has left. -/
theorem Sound.returns {i : Nat} {call : Call} (hinj : Set.InjOn hash S) (h : Sound inner hash S st)
    (hcall : st.calls[i]? = some call) :
    ∃ n ≤ call.stage.left, ∃ st', Run.exec step st (List.replicate n (.advance i)) = some st' ∧
      st'.calls[i]? = some ⟨call.bytes, .returned (inner.count call.bytes)⟩ := by
  induction hleft : call.stage.left using Nat.strong_induction_on generalizing st call with
  | _ left ih =>
    rcases call.advance_progress st.tokenizer with ⟨result, hresult⟩ | ⟨stage, t', hadvance, hlt⟩
    · refine ⟨0, Nat.zero_le _, st, rfl, ?_⟩
      have hright := h.right call (List.mem_of_getElem? hcall)
      rw [hresult] at hright
      have hcount : result = inner.count call.bytes := hright
      rw [hcall, ← hcount, ← hresult]
    · have hstep := step_advance hcall hadvance
      have hi := (List.getElem?_eq_some_iff.mp hcall).1
      have hnext : (st.calls.set i { call with stage })[i]? = some { call with stage } := by
        rw [List.getElem?_set_self hi]
      obtain ⟨n, hn, st', hexec, hreturned⟩ := ih stage.left (hleft ▸ hlt)
        (h.next hinj (fun _ hb => absurd hb List.not_mem_nil) hstep) hnext rfl
      refine ⟨n + 1, by omega, st', ?_, hreturned⟩
      rw [Run.exec, List.replicate_succ, List.foldlM_cons, hstep]
      exact hexec

/-- Alone, the sections of a call make up `CachingTokenizer::count`. -/
theorem exec_count (st : State lru) (bytes : Bytes) :
    ∃ n ≤ 3, Run.exec step st (.count bytes :: List.replicate n (.advance st.calls.length)) =
      some ⟨(st.tokenizer.count bytes).2, st.calls ++ [⟨bytes, .returned (st.tokenizer.count bytes).1⟩]⟩ := by
  have hbegin : step st (.count bytes) = some { st with calls := st.calls ++ [⟨bytes, .lookup⟩] } := rfl
  have advance : ∀ {t t' : CachingTokenizer lru} {stage stage' : Stage},
      (Call.mk bytes stage).advance t = some (stage', t') →
        step ⟨t, st.calls ++ [⟨bytes, stage⟩]⟩ (.advance st.calls.length) =
          some ⟨t', st.calls ++ [⟨bytes, stage'⟩]⟩ := by
    intro t t' stage stage' h
    have hlast : (st.calls ++ [⟨bytes, stage⟩])[st.calls.length]? = some (Call.mk bytes stage) := by simp
    rw [step_advance hlast h, List.set_append_right _ _ le_rfl, Nat.sub_self]
    rfl
  cases hget : lru.get st.tokenizer.cache (st.tokenizer.hash bytes) with
  | mk found cache =>
    cases found with
    | some hit =>
      refine ⟨1, by decide, ?_⟩
      have hlookup : (Call.mk bytes .lookup).advance st.tokenizer =
          some (.returned (.ok hit), { st.tokenizer with cache }) := by simp only [Call.advance, hget]
      simp only [Run.exec, List.replicate, List.foldlM_cons, List.foldlM_nil, hbegin, Option.bind_eq_bind,
        Option.bind_some, advance hlookup, CachingTokenizer.count, hget]
      rfl
    | none =>
      have hlookup : (Call.mk bytes .lookup).advance st.tokenizer = some (.missed, { st.tokenizer with cache }) := by
        simp only [Call.advance, hget]
      cases hcount : st.tokenizer.inner.count bytes with
      | error e =>
        refine ⟨2, by decide, ?_⟩
        have hmissed : (Call.mk bytes .missed).advance { st.tokenizer with cache } =
            some (.returned (.error e), { st.tokenizer with cache }) := by simp only [Call.advance, hcount]
        simp only [Run.exec, List.replicate, List.foldlM_cons, List.foldlM_nil, hbegin, Option.bind_eq_bind,
          Option.bind_some, advance hlookup, advance hmissed, CachingTokenizer.count, hget, hcount]
        rfl
      | ok count =>
        refine ⟨3, by decide, ?_⟩
        have hmissed : (Call.mk bytes .missed).advance { st.tokenizer with cache } =
            some (.counted count, { st.tokenizer with cache }) := by simp only [Call.advance, hcount]
        have hcounted : (Call.mk bytes (.counted count)).advance { st.tokenizer with cache } =
            some (.returned (.ok count), { st.tokenizer with cache := lru.put cache (st.tokenizer.hash bytes) count }) := by
          simp only [Call.advance]
        simp only [Run.exec, List.replicate, List.foldlM_cons, List.foldlM_nil, hbegin, Option.bind_eq_bind,
          Option.bind_some, advance hlookup, advance hmissed, advance hcounted, CachingTokenizer.count, hget, hcount]
        rfl

/-! ### The inner tokenizer, observed -/

def start (inner : Tokenizer) (hash : Bytes → ContentHash) (capacity : Nat) (h : 0 < capacity) : State lru :=
  ⟨.withCapacity inner hash capacity h, []⟩

/-- With any cache, in every run over inputs whose hashes do not collide, the calls are those that began, a result is
that of the inner tokenizer, and every call comes to it. -/
theorem caching_transparent {capacity : Nat} {h : 0 < capacity} {as : List Action}
    (hinj : Set.InjOn hash {bytes | bytes ∈ counted as})
    (hrun : Run step (fun _ _ => True) (start inner hash capacity h) as st) :
    st.calls.map (·.bytes) = counted as ∧
    (∀ call ∈ st.calls, ∀ result, call.stage = .returned result → result = inner.count call.bytes) ∧
    ∀ i call, st.calls[i]? = some call → ∃ n ≤ 3, ∃ st',
      Run.exec step st (List.replicate n (.advance i)) = some st' ∧
        st'.calls[i]? = some ⟨call.bytes, .returned (inner.count call.bytes)⟩ := by
  have init : Sound inner hash {bytes | bytes ∈ counted as} (start inner hash capacity h) :=
    ⟨⟨rfl, rfl, fun e he => absurd he lru.holds_new⟩, fun call hcall => absurd hcall List.not_mem_nil,
      fun call hcall => absurd hcall List.not_mem_nil⟩
  have hsound := init.run hinj (fun bytes hb => hb) hrun
  refine ⟨calls_counted hrun, fun call hcall result hresult => ?_, fun i call hcall => ?_⟩
  · have hright := hsound.right call hcall
    rwa [hresult] at hright
  · obtain ⟨n, hn, hreturns⟩ := hsound.returns hinj hcall
    exact ⟨n, hn.trans call.stage.left_le, hreturns⟩

/-- A list cache of one entry. -/
def oneEntry : State .list := start byteTokenizer sampleHash 1 Nat.one_pos

/-- Two calls for one text that both miss, one written before the cache is cleared and one after, and a third text
in a cache of one entry. -/
def racingCalls : List Action :=
  [.count [0x61], .count [0x61], .advance 0, .advance 1, .advance 0, .advance 1, .advance 0, .clear, .count [0x62],
    .advance 2, .advance 2, .advance 2, .advance 1]

theorem caching_transparent_sample :
    ∃ st, Run step (fun _ _ => True) oneEntry racingCalls st ∧
      st.calls.map (·.bytes) = [[0x61], [0x61], [0x62]] ∧
      ∀ call ∈ st.calls, ∀ result, call.stage = .returned result → result = byteTokenizer.count call.bytes := by
  obtain ⟨st, hst⟩ := Option.isSome_iff_exists.mp (by decide +kernel :
    (Run.exec (fun st a => if true then step st a else none) oneEntry racingCalls).isSome = true)
  have hrun : Run step (fun _ _ => True) oneEntry racingCalls st := Run.of_exec (fun _ _ _ => trivial) hst
  have hinj : Set.InjOn sampleHash {bytes | bytes ∈ counted racingCalls} := by
    have hne : sampleHash [0x61] ≠ sampleHash [0x62] := by decide +kernel
    intro a ha b hb h
    simp only [racingCalls, counted, Set.mem_ofPred_eq, List.mem_cons, List.not_mem_nil, or_false] at ha hb
    rcases ha with rfl | rfl | rfl <;> rcases hb with rfl | rfl | rfl
    all_goals first | rfl | exact absurd h hne | exact absurd h.symm hne
  obtain ⟨hcalls, hresults, -⟩ := caching_transparent hinj hrun
  exact ⟨st, hrun, hcalls, hresults⟩

end SharedTokenizer
end Llm386
