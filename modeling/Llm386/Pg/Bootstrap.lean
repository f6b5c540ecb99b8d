import Llm386.Core.Ids
import Llm386.Lib.BigEndian

/-! # Opening a store

`PgStore::open` and `AsyncPgStore::open` of `llm386-store-pg`: any number of openers bootstrap their schemas on one server at
the same time, each in one transaction that takes the same advisory lock first. `CREATE … IF NOT EXISTS` looks the name up,
and inserts it into the catalog where it is absent; the insert waits for another transaction that has inserted the name, and
fails where that one has committed. -/

namespace Llm386.Pg.Bootstrap

/-- A name in the system catalogs: a schema, or a table or an index of one. -/
inductive CatalogName
  | schema (name : String)
  | relation (schema name : String)
deriving DecidableEq

/-- The schema that the name is of. -/
def CatalogName.home : CatalogName → String
  | .schema name => name
  | .relation parent _ => parent

/-- Why the server or the connection refuses a step. -/
inductive Cause
  | lost
  | duplicate
  | noSchema
deriving DecidableEq

/-- `StoreOpenError`: `connect` carries what the opener was doing. -/
inductive OpenError
  | connect (doing : String) (cause : Cause)
  | postgres (cause : Cause)
  | schemaMismatch (expected found : Int)
  | corruptMeta (message : String)
  | invalidSchemaName (schema : String)
deriving DecidableEq

/-- Which of the two stores is opened. -/
inductive Client
  | sync
  | async

def currentSchema : Int := 1

/-- `CURRENT_SCHEMA.to_be_bytes()`. -/
def currentBytes : Bytes := BigEndian.encode 4 1

/-- The tables and indexes of `MIGRATION_SQL`, in order. -/
def migration : List String :=
  ["llm386_blocks", "llm386_blocks_hash_idx", "llm386_session_blocks", "llm386_session_blocks_sid", "llm386_edges",
   "llm386_edges_to", "llm386_meta"]

def isValidIdent (s : String) : Bool :=
  match s.toList with
  | [] => false
  | first :: rest => (first.isAlpha || first = '_') && rest.all fun c => c.isAlphanum || c = '_'

/-- `i32::from_be_bytes`. -/
def readI32 (bytes : Bytes) : Int := (BitVec.ofNat 32 (BigEndian.decode bytes)).toInt

/-- What an opener makes of the row of the schema version. -/
def judge : Option Bytes → Except OpenError Unit
  | none => .error (.corruptMeta "schema_version row missing")
  | some bytes =>
    if bytes.length ≠ 4 then .error (.corruptMeta ("schema_version width " ++ toString bytes.length))
    else if readI32 bytes ≠ currentSchema then .error (.schemaMismatch currentSchema (readI32 bytes))
    else .ok ()

/-- Where an opener is. -/
inductive Phase
  | connecting
  | beginning
  | locking
  /-- `CREATE SCHEMA IF NOT EXISTS`, where the configuration names one. -/
  | schema
  /-- `CREATE … IF NOT EXISTS` for the tables and indexes that are left. -/
  | migrating (todo : List String)
  /-- The server has found the name absent and is about to insert it; the tables and indexes after it are left. -/
  | absent (name : CatalogName) (todo : List String)
  /-- `INSERT INTO llm386_meta … ON CONFLICT (key) DO NOTHING`. -/
  | inserting
  /-- `SELECT value FROM llm386_meta WHERE key = 'schema_version'`. -/
  | selecting
  | committing
  | pooling
  | finished (result : Except OpenError Unit)

/-- An opener, with what its transaction has written. -/
structure Opener where
  client : Client
  /-- The schema of the configuration. -/
  config : Option String
  phase : Phase
  locked : Bool
  made : List CatalogName
  version : Option Bytes

/-- The committed catalog, the committed row of the version in each schema, and the openers. -/
structure Server where
  catalog : List CatalogName
  versions : List (String × Bytes)
  openers : List Opener

/-- Where unqualified names go: the schema of the configuration, as the server spells it, or the one of the role. -/
abbrev SearchPath := Option String → String

/-- How an opener reports a failure where it is. -/
def Opener.report (o : Opener) (cause : Cause) : OpenError :=
  match o.phase with
  | .connecting =>
    match o.client with
    | .sync => .connect "bootstrap connection" cause
    | .async => .connect "pool checkout" cause
  | .beginning => .connect "bootstrap begin" cause
  | .locking => .connect "advisory lock" cause
  | .schema | .absent (.schema _) _ => .connect "CREATE SCHEMA" cause
  | .committing => .connect "bootstrap commit" cause
  | .pooling => .connect "r2d2 pool" cause
  | _ => .postgres cause

/-- The transaction is over, and what it has not committed is gone. -/
def Opener.ends (o : Opener) (phase : Phase) : Opener := { o with phase, locked := false, made := [], version := none }

def Opener.fails (o : Opener) (e : OpenError) : Opener := o.ends (.finished (.error e))

/-- A configuration with a schema that is no identifier is refused before anything else. -/
def Opener.arrives (client : Client) (config : Option String) : Opener :=
  let o : Opener := ⟨client, config, .connecting, false, [], none⟩
  match config with
  | some schema => if isValidIdent schema then o else o.fails (.invalidSchemaName schema)
  | none => o

namespace Server
variable (path : SearchPath) (db : Server)

def version (schema : String) : Option Bytes := db.versions.lookup schema

def setOpener (i : Nat) (o : Opener) : Server := { db with openers := db.openers.set i o }

/-- Another opener than `i` has the property. -/
def elsewhere (i : Nat) (p : Opener → Bool) : Bool := db.openers.zipIdx.any fun x => x.2 ≠ i && p x.1

/-- The opener sees the name: committed, or made by itself. -/
def sees (o : Opener) (name : CatalogName) : Bool := db.catalog.contains name || o.made.contains name

/-- The row of the version that the opener sees. -/
def row (o : Opener) : Option Bytes := o.version.or (db.version (path o.config))

def commit (i : Nat) (o : Opener) (phase : Phase) : Server where
  catalog := db.catalog ++ o.made
  versions :=
    match o.version with
    | some v => (path o.config, v) :: db.versions
    | none => db.versions
  openers := db.openers.set i (o.ends phase)

/-- The next step of opener `i`, where it does not have to wait. -/
def advance (i : Nat) (o : Opener) : Option Server :=
  match o.phase with
  | .connecting => some (db.setOpener i { o with phase := .beginning })
  | .beginning => some (db.setOpener i { o with phase := .locking })
  | .locking =>
    if db.elsewhere i (·.locked) then none
    else
      match o.config with
      | some _ => some (db.setOpener i { o with phase := .schema, locked := true })
      | none => some (db.setOpener i { o with phase := .migrating migration, locked := true })
  | .schema =>
    let name : CatalogName := .schema (path o.config)
    if db.sees o name then some (db.setOpener i { o with phase := .migrating migration })
    else some (db.setOpener i { o with phase := .absent name migration })
  | .migrating [] => some (db.setOpener i { o with phase := .inserting })
  | .migrating (table :: todo) =>
    let name : CatalogName := .relation (path o.config) table
    if !db.sees o (.schema (path o.config)) then some (db.setOpener i (o.fails (o.report .noSchema)))
    else if db.sees o name then some (db.setOpener i { o with phase := .migrating todo })
    else some (db.setOpener i { o with phase := .absent name todo })
  | .absent name todo =>
    if db.elsewhere i (·.made.contains name) then none
    else if db.catalog.contains name then some (db.setOpener i (o.fails (o.report .duplicate)))
    else some (db.setOpener i { o with phase := .migrating todo, made := name :: o.made })
  | .inserting =>
    if db.elsewhere i fun u => u.version.isSome && path u.config = path o.config then none
    else if (db.row path o).isSome then some (db.setOpener i { o with phase := .selecting })
    else some (db.setOpener i { o with phase := .selecting, version := some currentBytes })
  | .selecting =>
    match judge (db.row path o) with
    | .ok () => some (db.setOpener i { o with phase := .committing })
    | .error e => some (db.setOpener i (o.fails e))
  | .committing =>
    match o.client with
    | .sync => some (db.commit path i o .pooling)
    | .async => some (db.commit path i o (.finished (.ok ())))
  | .pooling => some (db.setOpener i (o.ends (.finished (.ok ()))))
  | .finished _ => none

/-- The steps: an opener arrives, moves on, or loses its connection, before or after a commit that it sent. -/
inductive Action
  | arrive (client : Client) (config : Option String)
  | advance (i : Nat)
  | lose (i : Nat)
  | loseReply (i : Nat)

def step : Action → Option Server
  | .arrive client config => some { db with openers := db.openers ++ [.arrives client config] }
  | .advance i => db.openers[i]?.bind (db.advance path i)
  | .lose i =>
    match db.openers[i]? with
    | some o =>
      match o.phase with
      | .finished _ => none
      | _ => some (db.setOpener i (o.fails (o.report .lost)))
    | none => none
  | .loseReply i =>
    match db.openers[i]? with
    | some o =>
      match o.phase with
      | .committing => some (db.commit path i o (.finished (.error (o.report .lost))))
      | _ => none
    | none => none

end Server
end Llm386.Pg.Bootstrap
