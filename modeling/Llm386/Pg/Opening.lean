import Llm386.Lib.Inevitable
import Llm386.Lib.Parties
import Llm386.Lib.Runs
import Llm386.Pg.Bootstrap

/-! # Openers never race

However many stores are opened on a server at once, each schema is left as it was or prepared whole, no opener meets a name
that another has just made, and every opener learns what the schema's version was before any of them. -/

namespace Llm386.Pg.Bootstrap

/-- The schema is as it was. -/
structure Untouched (init db : Server) (schema : String) : Prop where
  names : ∀ n : CatalogName, n.home = schema → (n ∈ db.catalog ↔ n ∈ init.catalog)
  version : db.version schema = init.version schema

/-- A name that the bootstrap of the schema makes. -/
inductive Bootstraps (schema : String) : CatalogName → Prop
  | schema : Bootstraps schema (.schema schema)
  | relation {table : String} (h : table ∈ migration) : Bootstraps schema (.relation schema table)

/-- The schema has all that the bootstrap makes and nothing else that is new, and the version is the current one, as it was
before or where there was none. -/
structure Prepared (init db : Server) (schema : String) : Prop where
  home : CatalogName.schema schema ∈ db.catalog
  tables : ∀ t ∈ migration, CatalogName.relation schema t ∈ db.catalog
  only : ∀ n ∈ db.catalog, n.home = schema → n ∈ init.catalog ∨ Bootstraps schema n
  current : db.version schema = some currentBytes
  initial : init.version schema = none ∨ init.version schema = some currentBytes

/-- What the result of an opener says about the server as it was and as it is. -/
inductive Verdict (path : SearchPath) (init db : Server) (config : Option String) : Except OpenError Unit → Prop
  | opened (h : Prepared init db (path config)) : Verdict path init db config (.ok ())
  /-- The version that the schema had before is not the current one. -/
  | refused {bytes : Bytes} {e : OpenError} (before : init.version (path config) = some bytes)
    (h : judge (some bytes) = .error e) : Verdict path init db config (.error e)
  | invalid {schema : String} (named : config = some schema) (h : isValidIdent schema = false) :
    Verdict path init db config (.error (.invalidSchemaName schema))
  /-- No schema is configured, and the role's did not exist. -/
  | homeless (unnamed : config = none) (h : CatalogName.schema (path none) ∉ init.catalog) :
    Verdict path init db config (.error (.postgres .noSchema))
  | disconnected {doing : String} : Verdict path init db config (.error (.connect doing .lost))
  | interrupted : Verdict path init db config (.error (.postgres .lost))

/-- Outside its transaction. -/
structure Idle (o : Opener) : Prop where
  locked : o.locked = false
  made : o.made = []
  version : o.version = none

/-- Inside its transaction, under the lock. -/
structure Working (path : SearchPath) (db : Server) (o : Opener) : Prop where
  locked : o.locked = true
  made : ∀ n ∈ o.made, Bootstraps (path o.config) n
  version : ∀ v, o.version = some v → v = currentBytes ∧ db.version (path o.config) = none

/-- The schema is there where the configuration names one, and so are the tables and indexes that are not left. -/
structure Migrated (path : SearchPath) (db : Server) (o : Opener) (todo : List String) : Prop where
  named : o.config.isSome → db.sees o (.schema (path o.config)) = true
  tables : ∀ t ∈ migration, t ∉ todo →
    db.sees o (.schema (path o.config)) = true ∧ db.sees o (.relation (path o.config) t) = true
  todo : ∀ t ∈ todo, t ∈ migration

/-- What holds of an opener where it is. -/
inductive Stage (path : SearchPath) (init db : Server) (o : Opener) : Phase → Prop
  | connecting (idle : Idle o) : Stage path init db o .connecting
  | beginning (idle : Idle o) : Stage path init db o .beginning
  | locking (idle : Idle o) : Stage path init db o .locking
  | schema (works : Working path db o) : Stage path init db o .schema
  | migrating {todo : List String} (works : Working path db o) (h : Migrated path db o todo) :
    Stage path init db o (.migrating todo)
  | absentSchema (works : Working path db o) (new : CatalogName.schema (path o.config) ∉ db.catalog) :
    Stage path init db o (.absent (.schema (path o.config)) migration)
  | absentTable {table : String} {todo : List String} (works : Working path db o) (h : Migrated path db o (table :: todo))
    (home : db.sees o (.schema (path o.config)) = true) (new : CatalogName.relation (path o.config) table ∉ db.catalog) :
    Stage path init db o (.absent (.relation (path o.config) table) todo)
  | inserting (works : Working path db o) (h : Migrated path db o []) : Stage path init db o .inserting
  | selecting (works : Working path db o) (h : Migrated path db o []) (found : (db.row path o).isSome) :
    Stage path init db o .selecting
  | committing (works : Working path db o) (h : Migrated path db o []) (current : db.row path o = some currentBytes) :
    Stage path init db o .committing
  | pooling (idle : Idle o) (h : Prepared init db (path o.config)) : Stage path init db o .pooling
  | finished {r : Except OpenError Unit} (idle : Idle o) (h : Verdict path init db o.config r) :
    Stage path init db o (.finished r)

/-- Every opener is where it should be, one of them at most under the lock, and every schema is untouched or prepared. -/
structure Sound (path : SearchPath) (init db : Server) : Prop where
  stages : ∀ {i : Nat} {o : Opener}, db.openers[i]? = some o → Stage path init db o o.phase
  exclusive : ∀ {i j : Nat} {o u : Opener}, db.openers[i]? = some o → db.openers[j]? = some u → o.locked = true →
    u.locked = true → i = j
  kept : ∀ n ∈ init.catalog, n ∈ db.catalog
  schemas : ∀ schema, Untouched init db schema ∨ Prepared init db schema

variable {path : SearchPath} {init db db' : Server} {i j : Nat} {o o' u : Opener} {schema : String} {p : Phase}

/-! ### The version row -/

theorem judge_ok_iff {row : Option Bytes} : judge row = .ok () ↔ row = some currentBytes := by
  constructor
  · intro h
    cases row with
    | none => cases h
    | some bytes =>
      unfold judge at h
      dsimp only at h
      split at h
      · cases h
      · rename_i hwidth
        split at h
        · cases h
        · rename_i hread
          have hwidth : bytes.length = 4 := not_not.mp hwidth
          have hread : BitVec.ofNat 32 (BigEndian.decode bytes) = 1#32 := BitVec.toInt_inj.mp (not_not.mp hread)
          have hlt := BigEndian.decode_lt bytes
          rw [hwidth] at hlt
          have hmod : BigEndian.decode bytes % 2 ^ 32 = 1 := congrArg BitVec.toNat hread
          have hone : BigEndian.decode bytes = 1 := by omega
          rw [currentBytes, ← hone, BigEndian.encode_decode hwidth]
  · rintro rfl
    decide

/-! ### Openers outside their transactions -/

theorem elsewhere_eq_false {f : Opener → Bool} :
    db.elsewhere i f = false ↔ ∀ j u, j ≠ i → db.openers[j]? = some u → f u = false := Parties.any_others_eq_false

theorem Idle.ends (o : Opener) (p : Phase) : Idle (o.ends p) := ⟨rfl, rfl, rfl⟩

theorem Verdict.of_report (o : Opener) : Verdict path init db o.config (.error (o.report .lost)) := by
  unfold Opener.report
  split
  · split <;> exact .disconnected
  all_goals first | exact .disconnected | exact .interrupted

theorem Verdict.mono {config : Option String} {r : Except OpenError Unit} (h : Verdict path init db config r)
    (hprepared : Prepared init db (path config) → Prepared init db' (path config)) : Verdict path init db' config r := by
  cases h with
  | opened h => exact .opened (hprepared h)
  | refused before h => exact .refused before h
  | invalid named h => exact .invalid named h
  | homeless unnamed h => exact .homeless unnamed h
  | disconnected => exact .disconnected
  | interrupted => exact .interrupted

/-- An opener that is not under the lock has nothing of its own in the server. -/
theorem Stage.unlocked (h : Stage path init db o p) (hlocked : o.locked = false) : Idle o := by
  cases h with
  | connecting idle | beginning idle | locking idle | pooling idle | finished idle => exact idle
  | schema works | migrating works | absentSchema works | absentTable works | inserting works | selecting works
  | committing works => exact absurd works.locked (by simp [hlocked])

/-- What the committing of others keeps. -/
theorem Stage.mono (h : Stage path init db o p) (hlocked : o.locked = false)
    (hprepared : Prepared init db (path o.config) → Prepared init db' (path o.config)) : Stage path init db' o p := by
  cases h with
  | connecting idle => exact .connecting idle
  | beginning idle => exact .beginning idle
  | locking idle => exact .locking idle
  | pooling idle h => exact .pooling idle (hprepared h)
  | finished idle h => exact .finished idle (h.mono hprepared)
  | schema works | migrating works | absentSchema works | absentTable works | inserting works | selecting works
  | committing works => exact absurd works.locked (by simp [hlocked])

/-- What an opener relies on is committed, or its own. -/
theorem Stage.keep (h : Stage path init db o p) (hcatalog : db'.catalog = db.catalog) (hversions : db'.versions = db.versions) :
    Stage path init db' o p := by
  obtain ⟨catalog, versions, openers⟩ := db
  obtain ⟨catalog', versions', openers'⟩ := db'
  cases hcatalog
  cases hversions
  have works : Working path ⟨catalog, versions, openers⟩ o → Working path ⟨catalog, versions, openers'⟩ o := fun h => ⟨h.locked, h.made, h.version⟩
  have migrated : ∀ {todo}, Migrated path ⟨catalog, versions, openers⟩ o todo → Migrated path ⟨catalog, versions, openers'⟩ o todo :=
    fun h => ⟨h.named, h.tables, h.todo⟩
  have prepared : ∀ {schema}, Prepared init ⟨catalog, versions, openers⟩ schema → Prepared init ⟨catalog, versions, openers'⟩ schema :=
    fun h => ⟨h.home, h.tables, h.only, h.current, h.initial⟩
  cases h with
  | connecting idle => exact .connecting idle
  | beginning idle => exact .beginning idle
  | locking idle => exact .locking idle
  | schema h => exact .schema (works h)
  | migrating h h' => exact .migrating (works h) (migrated h')
  | absentSchema h new => exact .absentSchema (works h) new
  | absentTable h h' home new => exact .absentTable (works h) (migrated h') home new
  | inserting h h' => exact .inserting (works h) (migrated h')
  | selecting h h' found => exact .selecting (works h) (migrated h') found
  | committing h h' current => exact .committing (works h) (migrated h') current
  | pooling idle h => exact .pooling idle (prepared h)
  | finished idle h => exact .finished idle (h.mono prepared)

namespace Sound

/-- One opener moves, and takes the lock only where nobody else has it. -/
theorem setOpener (h : Sound path init db) (ho : db.openers[i]? = some o) (hstage : Stage path init db o' o'.phase)
    (hlock : o'.locked = true → o.locked = true ∨ ∀ j u, j ≠ i → db.openers[j]? = some u → u.locked = false) :
    Sound path init (db.setOpener i o') := by
  have hother : ∀ {j u}, j ≠ i → db.openers[j]? = some u → o'.locked = true → u.locked = true → False := by
    intro j u hj hu ho' hu'
    rcases hlock ho' with hheld | hfree
    · exact hj (h.exclusive hu ho hu' hheld)
    · simp [hfree j u hj hu] at hu'
  refine ⟨fun {j u} hj => ?_, fun {j l u v} hj hl hu hv => ?_, h.kept, fun schema => ?_⟩
  · rcases (Parties.getElem?_set_iff ho).mp hj with ⟨-, rfl⟩ | ⟨-, hold⟩
    · exact hstage.keep rfl rfl
    · exact (h.stages hold).keep rfl rfl
  · rcases (Parties.getElem?_set_iff ho).mp hj with ⟨hji, rfl⟩ | ⟨hji, hold⟩
    · rcases (Parties.getElem?_set_iff ho).mp hl with ⟨hli, -⟩ | ⟨hli, hold'⟩
      · rw [hji, hli]
      · exact (hother hli hold' hu hv).elim
    · rcases (Parties.getElem?_set_iff ho).mp hl with ⟨-, rfl⟩ | ⟨-, hold'⟩
      · exact (hother hji hold hv hu).elim
      · exact h.exclusive hold hold' hu hv
  · rcases h.schemas schema with ⟨names, version⟩ | ⟨home, tables, only, current, initial⟩
    · exact .inl ⟨names, version⟩
    · exact .inr ⟨home, tables, only, current, initial⟩

/-! ### A commit -/

theorem sees_iff {n : CatalogName} : db.sees o n = true ↔ n ∈ db.catalog ∨ n ∈ o.made := by
  simp [Server.sees]

theorem version_commit (i : Nat) (p : Phase) (schema : String) :
    (db.commit path i o p).version schema =
      if schema = path o.config then o.version.or (db.version schema) else db.version schema := by
  unfold Server.commit Server.version
  cases hown : o.version with
  | none => simp
  | some v =>
    by_cases hs : schema = path o.config
    · simp [hs]
    · simp [List.lookup_cons, beq_eq_false_iff_ne.mpr hs, hs]

/-- The schema that the commit is about is prepared. -/
theorem prepared_commit (h : Sound path init db) (hworks : Working path db o) (hmigrated : Migrated path db o [])
    (hcurrent : db.row path o = some currentBytes) (i : Nat) (p : Phase) :
    Prepared init (db.commit path i o p) (path o.config) := by
  have hsees : ∀ {n}, db.sees o n = true → n ∈ (db.commit path i o p).catalog := fun hn => List.mem_append.mpr (sees_iff.mp hn)
  refine ⟨hsees (hmigrated.tables "llm386_meta" (by decide) (by simp)).1, fun t ht => hsees (hmigrated.tables t ht (by simp)).2,
    fun n hn hhome => ?_, ?_, ?_⟩
  · rcases List.mem_append.mp hn with hn | hn
    · rcases h.schemas (path o.config) with huntouched | hprepared
      · exact .inl ((huntouched.names n hhome).mp hn)
      · exact hprepared.only n hn hhome
    · exact .inr (hworks.made n hn)
  · rw [version_commit, if_pos rfl]
    exact hcurrent
  · rcases h.schemas (path o.config) with huntouched | hprepared
    · rw [← huntouched.version]
      cases hown : o.version with
      | none => exact .inr (by simpa [Server.row, hown] using hcurrent)
      | some v => exact .inl (hworks.version v hown).2
    · exact hprepared.initial

theorem prepared_mono (hworks : Working path db o) (h : Prepared init db schema) (hne : schema ≠ path o.config) (i : Nat)
    (p : Phase) : Prepared init (db.commit path i o p) schema := by
  refine ⟨List.mem_append_left _ h.home, fun t ht => List.mem_append_left _ (h.tables t ht), fun n hn hhome => ?_, ?_, h.initial⟩
  · rcases List.mem_append.mp hn with hn | hn
    · exact h.only n hn hhome
    · have hother : n.home = path o.config := by cases hworks.made n hn <;> rfl
      exact absurd (hhome.symm.trans hother) hne
  · rw [version_commit, if_neg hne]
    exact h.current

theorem commits (h : Sound path init db) (ho : db.openers[i]? = some o) (hphase : o.phase = .committing)
    (hstage : Prepared init (db.commit path i o p) (path o.config) → Stage path init (db.commit path i o p) (o.ends p) p) :
    Sound path init (db.commit path i o p) := by
  have hat := h.stages ho
  rw [hphase] at hat
  generalize hcommitting : Phase.committing = at' at hat
  cases hat with
  | committing works migrated current =>
    have hprepared := h.prepared_commit works migrated current i p
    have hmono : ∀ {schema}, Prepared init db schema → Prepared init (db.commit path i o p) schema := by
      intro schema hschema
      by_cases heq : schema = path o.config
      · exact heq ▸ hprepared
      · exact prepared_mono works hschema heq i p
    refine ⟨fun {j u} hj => ?_, fun {j l u v} hj hl hu hv => ?_, fun n hn => List.mem_append_left _ (h.kept n hn), fun schema => ?_⟩
    · rcases (Parties.getElem?_set_iff ho).mp hj with ⟨-, rfl⟩ | ⟨hji, hold⟩
      · exact hstage hprepared
      · have hfree : u.locked = false := by
          cases hlocked : u.locked with
          | false => rfl
          | true => exact absurd (h.exclusive hold ho hlocked works.locked) hji
        exact (h.stages hold).mono hfree hmono
    · rcases (Parties.getElem?_set_iff ho).mp hj with ⟨-, rfl⟩ | ⟨-, hold⟩
      · cases hu
      · rcases (Parties.getElem?_set_iff ho).mp hl with ⟨-, rfl⟩ | ⟨-, hold'⟩
        · cases hv
        · exact h.exclusive hold hold' hu hv
    · by_cases heq : schema = path o.config
      · exact .inr (heq ▸ hprepared)
      · rcases h.schemas schema with huntouched | hschema
        · refine .inl ⟨fun n hhome => ?_, ?_⟩
          · rw [← huntouched.names n hhome]
            refine ⟨fun hn => (List.mem_append.mp hn).resolve_right fun hn => ?_, List.mem_append_left _⟩
            have hother : n.home = path o.config := by cases works.made n hn <;> rfl
            exact heq (hhome.symm.trans hother)
          · rw [version_commit, if_neg heq]
            exact huntouched.version
        · exact .inr (hmono hschema)
  | _ => cases hcommitting

/-! ### The steps -/

/-- What the lock holder finds absent, nobody else has made. -/
theorem made_alone (h : Sound path init db) (ho : db.openers[i]? = some o) (hlocked : o.locked = true) (hj : j ≠ i)
    (hu : db.openers[j]? = some u) : Idle u := by
  refine (h.stages hu).unlocked ?_
  cases hother : u.locked with
  | false => rfl
  | true => exact absurd (h.exclusive hu ho hother hlocked) hj

/-- An opener inside its transaction moves on. -/
theorem works_on (h : Sound path init db) (ho : db.openers[i]? = some o) (hworks : Working path db o)
    (hstage : Stage path init db o' o'.phase) : Sound path init (db.setOpener i o') :=
  h.setOpener ho hstage fun _ => .inl hworks.locked

/-- An opener that fails leaves nothing. -/
theorem fails (h : Sound path init db) (ho : db.openers[i]? = some o) {e : OpenError}
    (hverdict : Verdict path init db o.config (.error e)) : Sound path init (db.setOpener i (o.fails e)) :=
  h.setOpener ho (.finished (Idle.ends o _) hverdict) (by rintro ⟨⟩)

/-- The lock is free. -/
theorem locks (h : Sound path init db) (ho : db.openers[i]? = some o) (hp : o.phase = .locking) (idle : Idle o)
    (hstep : db.advance path i o = some db') : Sound path init db' := by
  simp only [Server.advance, hp] at hstep
  split at hstep
  · cases hstep
  · rename_i hfree
    rw [Bool.not_eq_true] at hfree
    have hfree := elsewhere_eq_false.mp hfree
    split at hstep
    · rename_i name hconfig
      cases hstep
      refine h.setOpener ho (.schema ⟨rfl, ?_, ?_⟩) fun _ => .inr hfree
      · simp [idle.made]
      · simp [idle.version]
    · rename_i hconfig
      cases hstep
      refine h.setOpener ho (.migrating ⟨rfl, ?_, ?_⟩ ⟨?_, ?_, fun t ht => ht⟩) fun _ => .inr hfree
      · simp [idle.made]
      · simp [idle.version]
      · simp [hconfig]
      · exact fun t ht hnot => absurd ht hnot

/-- A table or an index is there, or absent, or there is no schema to create it in. -/
theorem migrates (h : Sound path init db) (ho : db.openers[i]? = some o) {todo : List String} (hp : o.phase = .migrating todo)
    (works : Working path db o) (migrated : Migrated path db o todo)
    (hstep : db.advance path i o = some db') : Sound path init db' := by
  cases todo with
  | nil =>
    simp only [Server.advance, hp] at hstep
    cases hstep
    exact h.works_on ho works (.inserting ⟨works.locked, works.made, works.version⟩ ⟨migrated.named, migrated.tables, by simp⟩)
  | cons table todo =>
    simp only [Server.advance, hp] at hstep
    split at hstep
    · rename_i hhome
      cases hstep
      rw [Bool.not_eq_true'] at hhome
      have hunnamed : o.config = none := by
        cases hconfig : o.config with
        | none => rfl
        | some name =>
          have hnamed := migrated.named (by simp [hconfig])
          rw [hhome] at hnamed
          cases hnamed
      have hreport : o.report .noSchema = .postgres .noSchema := by simp [Opener.report, hp]
      rw [hreport]
      refine h.fails ho (.homeless hunnamed fun hin => ?_)
      have hsees : db.sees o (.schema (path o.config)) = true := sees_iff.mpr (.inl (hunnamed ▸ h.kept _ hin))
      rw [hhome] at hsees
      cases hsees
    · rename_i hhome
      have hhome : db.sees o (.schema (path o.config)) = true := by simpa using hhome
      split at hstep
      · rename_i hsees
        cases hstep
        refine h.works_on ho works (.migrating ⟨works.locked, works.made, works.version⟩
          ⟨migrated.named, fun t ht hnot => ?_, fun t ht => migrated.todo t (List.mem_cons_of_mem _ ht)⟩)
        by_cases heq : t = table
        · exact heq ▸ ⟨hhome, hsees⟩
        · exact migrated.tables t ht (by simp [heq, hnot])
      · rename_i hnew
        cases hstep
        rw [sees_iff, not_or] at hnew
        exact h.works_on ho works (.absentTable ⟨works.locked, works.made, works.version⟩
          ⟨migrated.named, migrated.tables, migrated.todo⟩ hhome hnew.1)

/-- The schema is made: nobody else has made it since. -/
theorem makesSchema (h : Sound path init db) (ho : db.openers[i]? = some o)
    (hp : o.phase = .absent (.schema (path o.config)) migration) (works : Working path db o)
    (new : CatalogName.schema (path o.config) ∉ db.catalog)
    (hstep : db.advance path i o = some db') : Sound path init db' := by
  simp only [Server.advance, hp] at hstep
  split at hstep
  · cases hstep
  · split at hstep
    · rename_i hdup
      exact absurd (by simpa using hdup) new
    · cases hstep
      refine h.works_on ho works (.migrating ⟨works.locked, fun n hn => ?_, works.version⟩
        ⟨fun _ => by simp [Server.sees], fun t ht hnot => absurd ht hnot, fun t ht => ht⟩)
      rcases List.mem_cons.mp hn with rfl | hn
      · exact .schema
      · exact works.made n hn

theorem makesTable (h : Sound path init db) (ho : db.openers[i]? = some o) {table : String} {todo : List String}
    (hp : o.phase = .absent (.relation (path o.config) table) todo) (works : Working path db o)
    (migrated : Migrated path db o (table :: todo)) (home : db.sees o (.schema (path o.config)) = true)
    (new : CatalogName.relation (path o.config) table ∉ db.catalog)
    (hstep : db.advance path i o = some db') : Sound path init db' := by
  simp only [Server.advance, hp] at hstep
  split at hstep
  · cases hstep
  · split at hstep
    · rename_i hdup
      exact absurd (by simpa using hdup) new
    · cases hstep
      have hgrows : ∀ {n}, db.sees o n = true →
          db.sees { o with phase := .migrating todo, made := .relation (path o.config) table :: o.made } n = true := by
        intro n hn
        exact sees_iff.mpr ((sees_iff.mp hn).imp_right (List.mem_cons_of_mem _))
      refine h.works_on ho works (.migrating ⟨works.locked, fun n hn => ?_, works.version⟩
        ⟨fun hc => hgrows (migrated.named hc), fun t ht hnot => ?_, fun t ht => migrated.todo t (List.mem_cons_of_mem _ ht)⟩)
      · rcases List.mem_cons.mp hn with rfl | hn
        · exact .relation (migrated.todo table List.mem_cons_self)
        · exact works.made n hn
      · by_cases heq : t = table
        · exact heq ▸ ⟨hgrows home, sees_iff.mpr (.inr List.mem_cons_self)⟩
        · exact (migrated.tables t ht (by simp [heq, hnot])).imp hgrows hgrows

/-- The version is there, or the opener writes it. -/
theorem insertsVersion (h : Sound path init db) (ho : db.openers[i]? = some o) (hp : o.phase = .inserting) (works : Working path db o)
    (migrated : Migrated path db o [])
    (hstep : db.advance path i o = some db') : Sound path init db' := by
  simp only [Server.advance, hp] at hstep
  split at hstep
  · cases hstep
  · split at hstep
    · rename_i hfound
      cases hstep
      exact h.works_on ho works (.selecting ⟨works.locked, works.made, works.version⟩
        ⟨migrated.named, migrated.tables, migrated.todo⟩ hfound)
    · rename_i hnone
      cases hstep
      have hrow : db.row path o = none := by simpa using hnone
      have hcommitted : db.version (path o.config) = none := by
        unfold Server.row at hrow
        exact (Option.or_eq_none_iff.mp hrow).2
      refine h.works_on ho works (.selecting ⟨works.locked, works.made, fun v hv => ?_⟩
        ⟨migrated.named, migrated.tables, migrated.todo⟩ (by simp [Server.row]))
      cases hv
      exact ⟨rfl, hcommitted⟩

/-- The version is the current one, or it was there before. -/
theorem selectsVersion (h : Sound path init db) (ho : db.openers[i]? = some o) (hp : o.phase = .selecting) (works : Working path db o)
    (migrated : Migrated path db o []) (found : (db.row path o).isSome)
    (hstep : db.advance path i o = some db') : Sound path init db' := by
  simp only [Server.advance, hp] at hstep
  split at hstep
  · rename_i hjudge
    cases hstep
    exact h.works_on ho works (.committing ⟨works.locked, works.made, works.version⟩
      ⟨migrated.named, migrated.tables, migrated.todo⟩ (judge_ok_iff.mp hjudge))
  · rename_i e hjudge
    cases hstep
    refine h.fails ho ?_
    have hrefused : db.row path o ≠ some currentBytes := by
      intro heq
      rw [judge_ok_iff.mpr heq] at hjudge
      cases hjudge
    obtain ⟨bytes, hbytes⟩ := Option.isSome_iff_exists.mp found
    have hcommitted : db.version (path o.config) = some bytes := by
      unfold Server.row at hbytes hrefused
      cases hown : o.version with
      | none => simpa [hown] using hbytes
      | some v => exact absurd (by simp [hown, (works.version v hown).1]) hrefused
    rcases h.schemas (path o.config) with huntouched | hprepared
    · exact .refused (huntouched.version ▸ hcommitted) (hbytes ▸ hjudge)
    · exact absurd (hbytes.trans (hcommitted.symm.trans hprepared.current)) hrefused

theorem advance (h : Sound path init db) (ho : db.openers[i]? = some o)
    (hstep : db.advance path i o = some db') : Sound path init db' := by
  have hat := h.stages ho
  have hmove := hstep
  unfold Server.advance at hmove
  generalize hp : o.phase = p at hat hmove
  cases hat with
  | connecting idle =>
    cases hmove
    exact h.setOpener ho (.beginning ⟨idle.locked, idle.made, idle.version⟩) (by simp [idle.locked])
  | beginning idle =>
    cases hmove
    exact h.setOpener ho (.locking ⟨idle.locked, idle.made, idle.version⟩) (by simp [idle.locked])
  | locking idle => exact h.locks ho hp idle hstep
  | schema works =>
    dsimp only at hmove
    split at hmove
    · rename_i hsees
      cases hmove
      exact h.works_on ho works (.migrating ⟨works.locked, works.made, works.version⟩
        ⟨fun _ => hsees, fun t ht hnot => absurd ht hnot, fun t ht => ht⟩)
    · rename_i hnew
      cases hmove
      rw [sees_iff, not_or] at hnew
      exact h.works_on ho works (.absentSchema ⟨works.locked, works.made, works.version⟩ hnew.1)
  | migrating works migrated => exact h.migrates ho hp works migrated hstep
  | absentSchema works new => exact h.makesSchema ho hp works new hstep
  | absentTable works migrated home new => exact h.makesTable ho hp works migrated home new hstep
  | inserting works migrated => exact h.insertsVersion ho hp works migrated hstep
  | selecting works migrated found => exact h.selectsVersion ho hp works migrated found hstep
  | committing works migrated current =>
    dsimp only at hmove
    split at hmove
    · cases hmove
      exact h.commits ho hp fun hprepared => .pooling (Idle.ends o _) hprepared
    · cases hmove
      exact h.commits ho hp fun hprepared => .finished (Idle.ends o _) (.opened hprepared)
  | pooling idle hprepared =>
    cases hmove
    exact h.setOpener ho (.finished (Idle.ends o _) (.opened hprepared)) (by rintro ⟨⟩)
  | finished => cases hmove

theorem arrives (h : Sound path init db) (client : Client) (config : Option String) :
    Sound path init { db with openers := db.openers ++ [.arrives client config] } := by
  have hnew : Stage path init db (.arrives client config) (Opener.arrives client config).phase ∧
      (Opener.arrives client config).locked = false := by
    unfold Opener.arrives
    dsimp only
    split
    · rename_i name
      split
      · exact ⟨.connecting ⟨rfl, rfl, rfl⟩, rfl⟩
      · rename_i hinvalid
        exact ⟨.finished ⟨rfl, rfl, rfl⟩ (.invalid rfl (by simpa using hinvalid)), rfl⟩
    · exact ⟨.connecting ⟨rfl, rfl, rfl⟩, rfl⟩
  refine ⟨fun {j u} hj => ?_, fun {j l u v} hj hl hu hv => ?_, h.kept, fun schema => ?_⟩
  · rcases Parties.getElem?_append_iff.mp hj with hj | ⟨-, rfl⟩
    · exact (h.stages hj).keep rfl rfl
    · exact hnew.1.keep rfl rfl
  · rcases Parties.getElem?_append_iff.mp hj with hj | ⟨-, rfl⟩
    · rcases Parties.getElem?_append_iff.mp hl with hl | ⟨-, rfl⟩
      · exact h.exclusive hj hl hu hv
      · simp [hnew.2] at hv
    · simp [hnew.2] at hu
  · rcases h.schemas schema with ⟨names, version⟩ | ⟨home, tables, only, current, initial⟩
    · exact .inl ⟨names, version⟩
    · exact .inr ⟨home, tables, only, current, initial⟩

theorem step (h : Sound path init db) {a : Server.Action} (hstep : db.step path a = some db') : Sound path init db' := by
  cases a with
  | arrive client config =>
    cases hstep
    exact h.arrives client config
  | advance i =>
    obtain ⟨o, ho, hadvance⟩ := Option.bind_eq_some_iff.mp hstep
    exact h.advance ho hadvance
  | lose i =>
    simp only [Server.step] at hstep
    split at hstep
    · rename_i o ho
      split at hstep
      · cases hstep
      · cases hstep
        exact h.fails ho (.of_report o)
    · cases hstep
  | loseReply i =>
    simp only [Server.step] at hstep
    split at hstep
    · rename_i o ho
      split at hstep
      · rename_i hphase
        cases hstep
        exact h.commits ho hphase fun _ => .finished (Idle.ends o _) (.of_report o)
      · cases hstep
    · cases hstep

theorem start (hidle : init.openers = []) : Sound path init init := by
  refine ⟨?_, ?_, fun _ h => h, fun schema => .inl ⟨fun _ _ => Iff.rfl, rfl⟩⟩ <;> simp [hidle]

end Sound

/-- Openers that bootstrap at the same time, in any interleaving and losing their connections at any point, leave every schema
as it was or prepare it whole; and each that ends has opened a prepared schema, or was told what was wrong with the version
that the schema had before any of them, or has no schema to work in, or lost its connection. -/
theorem openers_explained (hidle : init.openers = []) {as : List Server.Action}
    (h : Run (Server.step path) (fun _ _ => True) init as db) :
    (∀ schema, Untouched init db schema ∨ Prepared init db schema) ∧
    ∀ o ∈ db.openers, ∀ r, o.phase = .finished r → Verdict path init db o.config r := by
  have hsound : Sound path init db := h.invariant (Sound.start hidle) fun hdb _ hstep => hdb.step hstep
  refine ⟨hsound.schemas, fun o ho r hphase => ?_⟩
  obtain ⟨i, hi⟩ := List.mem_iff_getElem?.mp ho
  have hstage := hsound.stages hi
  rw [hphase] at hstage
  cases hstage with
  | finished _ hverdict => exact hverdict

/-- Schema `old` has a later version and a table of it, and the role's schema is there. -/
def oldServer : Server where
  catalog := [.schema "public", .schema "old", .relation "old" "llm386_meta"]
  versions := [("old", [0, 0, 0, 2])]
  openers := []

def samplePath : SearchPath
  | some name => name
  | none => "public"

/-- Two openers of one new schema and one of `old`, begun together; a fourth names no identifier. -/
def crowd : List Server.Action :=
  [.arrive .sync (some "app"), .arrive .async (some "app"), .arrive .sync (some "old"), .arrive .async (some "a-b"),
   .advance 1, .advance 1, .advance 2, .advance 2] ++ List.replicate 24 (.advance 0) ++ List.replicate 13 (.advance 1) ++
  List.replicate 18 (.advance 2)

/-- What the openers that have ended were told. -/
def resultsOf (db : Server) : List (Option (Option OpenError)) :=
  db.openers.map fun o =>
    match o.phase with
    | .finished (.ok ()) => some none
    | .finished (.error e) => some (some e)
    | _ => none

theorem openers_explained_sample : ∃ db, Run (Server.step samplePath) (fun _ _ => True) oldServer crowd db ∧
    resultsOf db = [some none, some none, some (some (.schemaMismatch 1 2)), some (some (.invalidSchemaName "a-b"))] ∧
    (∀ schema, Untouched oldServer db schema ∨ Prepared oldServer db schema) ∧
    ∀ o ∈ db.openers, ∀ r, o.phase = .finished r → Verdict samplePath oldServer db o.config r := by
  have hends : (Run.exec (fun db a => if true then Server.step samplePath db a else none) oldServer crowd).map resultsOf =
      some [some none, some none, some (some (.schemaMismatch 1 2)), some (some (.invalidSchemaName "a-b"))] := by
    decide +kernel
  obtain ⟨db, hdb, hresults⟩ := Option.map_eq_some_iff.mp hends
  have hrun : Run (Server.step samplePath) (fun _ _ => True) oldServer crowd db := Run.of_exec (fun _ _ _ => trivial) hdb
  exact ⟨db, hrun, hresults, openers_explained rfl hrun⟩

/-! ### Every opener ends -/

/-- The steps that an opener has before it at most. -/
def Phase.left : Phase → Nat
  | .connecting => 24
  | .beginning => 23
  | .locking => 22
  | .schema => 21
  | .migrating todo => 2 * todo.length + 5
  | .absent _ todo => 2 * todo.length + 6
  | .inserting => 4
  | .selecting => 3
  | .committing => 2
  | .pooling => 1
  | .finished _ => 0

def Server.work (db : Server) : Nat := (db.openers.map fun o => o.phase.left).sum

/-- What goes on without new openers: steps and lost connections. -/
inductive Goes : Server.Action → Prop
  | advance {i : Nat} : Goes (.advance i)
  | lose {i : Nat} : Goes (.lose i)
  | loseReply {i : Nat} : Goes (.loseReply i)

def AllEnded (db : Server) : Prop := ∀ o ∈ db.openers, ∃ r, o.phase = .finished r

theorem Phase.left_pos (h : ∀ r, p ≠ .finished r) : 0 < p.left := by
  cases p with
  | finished r => exact absurd rfl (h r)
  | _ => simp [Phase.left]

theorem advance_replaces (hstep : db.advance path i o = some db') :
    ∃ o', db'.openers = db.openers.set i o' ∧ o'.phase.left < o.phase.left := by
  unfold Server.advance at hstep
  cases hp : o.phase with
  | connecting | beginning | pooling =>
    simp only [hp] at hstep
    cases hstep
    exact ⟨_, rfl, by simp [Phase.left, Opener.ends]⟩
  | locking =>
    simp only [hp] at hstep
    split at hstep
    · cases hstep
    · split at hstep <;> cases hstep <;> exact ⟨_, rfl, by simp [Phase.left, migration]⟩
  | schema =>
    simp only [hp] at hstep
    split at hstep <;> cases hstep <;> exact ⟨_, rfl, by simp [Phase.left, migration]⟩
  | migrating todo =>
    cases todo with
    | nil =>
      simp only [hp] at hstep
      cases hstep
      exact ⟨_, rfl, by simp [Phase.left]⟩
    | cons table todo =>
      simp only [hp] at hstep
      split at hstep
      · cases hstep
        exact ⟨_, rfl, by simp [Phase.left, Opener.fails, Opener.ends]⟩
      · split at hstep <;> cases hstep <;> exact ⟨_, rfl, by simp only [Phase.left, List.length_cons]; omega⟩
  | absent name todo =>
    simp only [hp] at hstep
    split at hstep
    · cases hstep
    · split at hstep <;> cases hstep <;> exact ⟨_, rfl, by simp [Phase.left, Opener.fails, Opener.ends]⟩
  | inserting =>
    simp only [hp] at hstep
    split at hstep
    · cases hstep
    · split at hstep <;> cases hstep <;> exact ⟨_, rfl, by simp [Phase.left]⟩
  | selecting =>
    simp only [hp] at hstep
    split at hstep <;> cases hstep <;> exact ⟨_, rfl, by simp [Phase.left, Opener.fails, Opener.ends]⟩
  | committing =>
    simp only [hp] at hstep
    split at hstep <;> cases hstep <;> exact ⟨_, rfl, by simp [Phase.left, Opener.ends]⟩
  | finished r =>
    simp only [hp] at hstep
    cases hstep

theorem work_descends {a : Server.Action} (hgoes : Goes a) (hstep : db.step path a = some db') : db'.work < db.work := by
  have hreplaced : ∃ i o o', db.openers[i]? = some o ∧ db'.openers = db.openers.set i o' ∧ o'.phase.left < o.phase.left := by
    cases hgoes with
    | @advance i =>
      obtain ⟨o, ho, hadvance⟩ := Option.bind_eq_some_iff.mp hstep
      obtain ⟨o', hset, hless⟩ := advance_replaces hadvance
      exact ⟨i, o, o', ho, hset, hless⟩
    | @lose i =>
      simp only [Server.step] at hstep
      split at hstep
      · rename_i o ho
        split at hstep
        · cases hstep
        · rename_i hrunning
          cases hstep
          exact ⟨i, o, _, ho, rfl, Phase.left_pos hrunning⟩
      · cases hstep
    | @loseReply i =>
      simp only [Server.step] at hstep
      split at hstep
      · rename_i o ho
        split at hstep
        · rename_i hphase
          cases hstep
          exact ⟨i, o, _, ho, rfl, by simp [hphase, Phase.left, Opener.ends]⟩
        · cases hstep
      · cases hstep
  obtain ⟨i, o, o', ho, hset, hless⟩ := hreplaced
  have hsum := Parties.sum_map_set (b := o') ho fun o => o.phase.left
  unfold Server.work
  rw [hset]
  omega

/-- The holder of the lock never waits. -/
theorem Sound.holder_advances (h : Sound path init db) (ho : db.openers[i]? = some o) (hlocked : o.locked = true) :
    ∃ db', db.advance path i o = some db' := by
  have halone := fun {j u} => h.made_alone (j := j) (u := u) ho hlocked
  have hmade : ∀ name, db.elsewhere i (·.made.contains name) = false := fun name =>
    elsewhere_eq_false.mpr fun j u hj hu => by simp [(halone hj hu).made]
  have hversion : (db.elsewhere i fun u => u.version.isSome && path u.config = path o.config) = false :=
    elsewhere_eq_false.mpr fun j u hj hu => by simp [(halone hj hu).version]
  have hat := h.stages ho
  unfold Server.advance
  generalize o.phase = p at hat
  cases hat with
  | connecting idle | beginning idle | locking idle | pooling idle | finished idle =>
    exact absurd hlocked (by simp [idle.locked])
  | schema =>
    dsimp only
    split <;> exact ⟨_, rfl⟩
  | @migrating todo =>
    cases todo with
    | nil => exact ⟨_, rfl⟩
    | cons table todo =>
      dsimp only
      split
      · exact ⟨_, rfl⟩
      · split <;> exact ⟨_, rfl⟩
  | absentSchema | absentTable =>
    simp only [hmade, Bool.false_eq_true, if_false]
    split <;> exact ⟨_, rfl⟩
  | inserting =>
    simp only [hversion, Bool.false_eq_true, if_false]
    split <;> exact ⟨_, rfl⟩
  | selecting | committing =>
    dsimp only
    split <;> exact ⟨_, rfl⟩

/-- Where some opener has not ended, one moves on: the holder of the lock, or anyone if nobody holds it. -/
theorem Sound.some_advances (h : Sound path init db) (hrunning : ¬AllEnded db) :
    ∃ a db', Goes a ∧ db.step path a = some db' := by
  have goes : ∀ {i o db'}, db.openers[i]? = some o → db.advance path i o = some db' →
      ∃ a db', Goes a ∧ db.step path a = some db' :=
    fun {i} _ db' ho hstep => ⟨_, db', .advance (i := i), Option.bind_eq_some_iff.mpr ⟨_, ho, hstep⟩⟩
  by_cases hheld : ∃ (i : Nat) (o : Opener), db.openers[i]? = some o ∧ o.locked = true
  · obtain ⟨i, o, ho, hlocked⟩ := hheld
    obtain ⟨db', hstep⟩ := h.holder_advances ho hlocked
    exact goes ho hstep
  · have hfree : ∀ {i : Nat} {o : Opener}, db.openers[i]? = some o → o.locked = false := by
      intro i o ho
      cases hlocked : o.locked with
      | false => rfl
      | true => exact absurd ⟨i, o, ho, hlocked⟩ hheld
    unfold AllEnded at hrunning
    push Not at hrunning
    obtain ⟨o, hmem, hphase⟩ := hrunning
    obtain ⟨i, ho⟩ := List.mem_iff_getElem?.mp hmem
    suffices hadvances : ∃ db', db.advance path i o = some db' by
      obtain ⟨db', hstep⟩ := hadvances
      exact goes ho hstep
    have hidle := (h.stages ho).unlocked (hfree ho)
    have hat := h.stages ho
    unfold Server.advance
    generalize o.phase = p at hat hphase
    cases hat with
    | connecting | beginning | pooling => exact ⟨_, rfl⟩
    | locking =>
      have hnobody : db.elsewhere i (·.locked) = false := elsewhere_eq_false.mpr fun _ _ _ hu => hfree hu
      simp only [hnobody, Bool.false_eq_true, if_false]
      split <;> exact ⟨_, rfl⟩
    | finished => exact absurd rfl (hphase _)
    | schema works | migrating works | absentSchema works | absentTable works | inserting works | selecting works
    | committing works => exact absurd works.locked (by simp [hidle.locked])

/-- Once no more openers come, all of them end, whichever of them moves and whichever loses its connection. -/
theorem openers_end (hidle : init.openers = []) {as : List Server.Action}
    (h : Run (Server.step path) (fun _ _ => True) init as db) :
    Inevitably (Server.step path) (fun _ a => Goes a) AllEnded db := by
  have hsound : Sound path init db := h.invariant (Sound.start hidle) fun hdb _ hstep => hdb.step hstep
  exact Inevitably.of_descent Server.work (I := Sound path init) (fun hdb _ hstep => hdb.step hstep)
    (fun _ hgoes hstep => work_descends hgoes hstep) (fun hdb hrunning => hdb.some_advances hrunning) hsound

/-- Opener 0 is under the lock, and 1 and 2 wait for it. -/
theorem openers_end_sample : ∃ db, Run (Server.step samplePath) (fun _ _ => True) oldServer (crowd.take 16) db ∧
    Server.step samplePath db (.advance 1) = none ∧ Inevitably (Server.step samplePath) (fun _ a => Goes a) AllEnded db := by
  have hwaits : ((Run.exec (fun db a => if true then Server.step samplePath db a else none) oldServer (crowd.take 16)).map
      fun db => (Server.step samplePath db (.advance 1)).isNone) = some true := by decide +kernel
  obtain ⟨db, hdb, hwait⟩ := Option.map_eq_some_iff.mp hwaits
  have hrun : Run (Server.step samplePath) (fun _ _ => True) oldServer (crowd.take 16) db :=
    Run.of_exec (fun _ _ _ => trivial) hdb
  exact ⟨db, hrun, Option.isNone_iff_eq_none.mp hwait, openers_end rfl hrun⟩

end Llm386.Pg.Bootstrap
