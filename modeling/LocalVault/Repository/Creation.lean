import LocalVault.Library.Program
import LocalVault.Library.Disk
import LocalVault.Text

namespace LocalVault.Repository
open Library Library.FileTree

inductive FilesystemClass where
  | localDisk
  | network
  | fat
  | unknown
  deriving DecidableEq, Repr

structure FilesystemPolicy where
  allowed : Bool
  warn : Bool
  deriving DecidableEq, Repr

def filesystemPolicy (classification : FilesystemClass) (allowRiskyFilesystem : Bool) :
    FilesystemPolicy :=
  match classification with
  | .network => ⟨allowRiskyFilesystem, false⟩
  | .fat => ⟨true, true⟩
  | _ => ⟨true, false⟩

structure RepositoryCreateOptions where
  chunkSizeBytes : Nat
  zstdLevel : Int
  allowRiskyFilesystem : Bool
  allowExistingNonEmpty : Bool
  deriving DecidableEq, Repr

structure RepositoryInfo where
  repositoryUuid : Bytes
  formatVersion : Nat
  chunkSizeBytes : Nat
  zstdLevel : Int
  hashAlgorithm : Bytes
  deriving DecidableEq, Repr

/-- A value as SQLite stores it. -/
inductive SqlValue where
  | integer (value : Int)
  | text (value : Bytes)
  | other
  deriving DecidableEq, Repr

structure RepositoryInfoRow where
  singletonId : SqlValue
  repositoryUuid : SqlValue
  formatVersion : SqlValue
  createdAtNs : SqlValue
  applicationVersion : SqlValue
  chunkSizeBytes : SqlValue
  zstdLevel : SqlValue
  hashAlgorithm : SqlValue
  pathEncoding : SqlValue
  deriving DecidableEq, Repr

/-- What `Repository::create` and `Repository::open` read and write in `repository.db`. -/
structure Schema where
  migrations : List SqlValue
  tables : List String
  indexes : List String
  info : List RepositoryInfoRow
  deriving DecidableEq, Repr

def Schema.empty : Schema := ⟨[], [], [], []⟩

def requiredTables : List String :=
  ["schema_migrations", "repository_info", "snapshots", "entries", "chunks", "entry_chunks",
   "snapshot_warnings", "repository_settings"]

def requiredIndexes : List String :=
  ["idx_snapshots_status_created", "idx_entries_snapshot_parent_name", "idx_entries_snapshot_path",
   "idx_entry_chunks_hash", "idx_snapshot_warnings_snapshot"]

def SqlValue.integer? : SqlValue → Option Int
  | .integer value => some value
  | _ => none

/-- `COALESCE(MAX(version), 0)`. -/
def Schema.installedVersion (db : Schema) : Int :=
  (db.migrations.filterMap SqlValue.integer?).foldr max 0

/-- `run_migrations`, one transaction. -/
def Schema.runMigrations (db : Schema) : Schema :=
  if 1 ≤ db.installedVersion then db
  else { db with
    migrations := db.migrations ++ [.integer 1]
    tables := requiredTables
    indexes := requiredIndexes }

structure CreationRecord where
  path : Path
  created : Bool
  protectedWhileLocked : Bool
  deriving DecidableEq, Repr

/-- The answers of the operating system and of SQLite that the model leaves
open, by the number of the call. `sqliteFiles` is what SQLite has made of its
files after a call, `closedFiles` what it leaves behind when it closes them. -/
structure Surroundings where
  fault : Nat → Option String
  raises : Nat → Option Raised
  cleanupFails : Nat → Bool
  clock : Nat → Int
  entropy : Nat → Vector UInt8 16
  diagnostics : Nat → Bytes
  taken : Nat → Nat
  sqliteFiles : Nat → Name → Option (Bytes × Stamp)
  closedFiles : Nat → Name → Option (Bytes × Stamp)
  filesystemClass : FilesystemClass
  provenReadOnly : Bool
  directoryMode : Nat
  currentDirectory : Path

structure Making where
  disk : Disk
  db : Schema
  calls : Nat
  ledger : List CreationRecord
  writerLock : Bool
  permissionsChanged : Bool
  published : Bool

def Making.start (d : Disk) : Making := ⟨d, .empty, 0, [], false, false, false⟩

abbrev MakingM := Program Making Raised

def Making.tick (s : Making) : Making := { s with calls := s.calls + 1 }

def Making.onDisk (s : Making) (d : Disk) : Making := { s.tick with disk := d }

def failing {α : Type} (code : ErrorCode) (message : String) (path : Path) : MakingM α :=
  .raise (.localVault { code, message, path })

def errnoText : Errno → String
  | .noEntry => "No such file or directory"
  | .notDirectory => "Not a directory"
  | .tooManyLinks => "Too many levels of symbolic links"
  | .alreadyExists => "File exists"
  | .isDirectory => "Is a directory"
  | .other text => text

/-- A system call that only looks. -/
def look (h : Surroundings) {α : Type} (f : Disk → Except Errno α) : MakingM (Except Errno α) :=
  fun s =>
    match h.fault s.calls with
    | some text => (.ok (.error (.other text)), s.tick)
    | none => (.ok (f s.disk), s.tick)

/-- A system call that changes the disk, or fails and leaves it alone. -/
def change (h : Surroundings) (f : Disk → Int → Except Errno Disk) : MakingM (Except Errno Unit) :=
  fun s =>
    match h.fault s.calls with
    | some text => (.ok (.error (.other text)), s.tick)
    | none =>
      match f s.disk (h.clock s.calls) with
      | .error e => (.ok (.error e), s.tick)
      | .ok d => (.ok (.ok ()), s.onDisk d)

/-- Any other call, which may throw. -/
def attempt (h : Surroundings) : MakingM Unit := fun s =>
  match h.raises s.calls with
  | some e => (.error e, s.tick)
  | none => (.ok (), s.tick)

/-- `symlink_status`: behind a final separator the system follows a link and
wants a directory. -/
def symlinkStatus (t : Tree) (p : Path) : Except Errno Node :=
  if trailing p then
    match stat t (bare p) with
    | .ok (.directory st) => .ok (.directory st)
    | .ok _ => .error .notDirectory
    | .error e => .error e
  else lstat t p

/-- `normalized_root`. -/
def normalizedRoot (currentDirectory : Path) (requested : Bytes) : Except LocalVaultError Path :=
  if requested = [] then
    .error { code := .invalidArgument, message := "repository root path must not be empty" }
  else
    let root := (lexicallyNormal
      (if requested.head? = some slash then components requested
       else [slash] :: (currentDirectory ++ components requested))).tail
    if root = [] then
      .error { code := .invalidArgument,
               message := "a filesystem root cannot be used as a repository root" }
    else .ok root

def pathExists (h : Surroundings) (path : Path) : MakingM Bool := do
  match ← look h (fun d => symlinkStatus d.tree path) with
  | .ok _ => pure true
  | .error .noEntry => pure false
  | .error e => failing .filesystemError ("failed to inspect repository path: " ++ errnoText e) path

def requireDirectory (h : Surroundings) (path : Path) (description : String) : MakingM Unit := do
  match ← look h (fun d => symlinkStatus d.tree path) with
  | .ok (.directory _) => pure ()
  | .ok _ =>
    failing .invalidRepository
      ("repository " ++ description ++ " is missing or is not a directory") path
  | .error e =>
    failing .invalidRepository
      ("repository " ++ description ++ " is missing or is not a directory: " ++ errnoText e) path

def requireRegularFile (h : Surroundings) (path : Path) (description : String) : MakingM Unit := do
  match ← look h (fun d => symlinkStatus d.tree path) with
  | .ok (.file _ _) => pure ()
  | .ok _ =>
    failing .invalidRepository
      ("repository " ++ description ++ " is missing or is not a regular file") path
  | .error e =>
    failing .invalidRepository
      ("repository " ++ description ++ " is missing or is not a regular file: " ++ errnoText e) path

def regularFileExistsNoFollow (h : Surroundings) (path : Path) : MakingM Bool := do
  match ← look h (fun d => symlinkStatus d.tree path) with
  | .ok (.file _ _) => pure true
  | .ok _ =>
    failing .invalidRepository "SQLite sidecar is not a regular non-symlink file" path
  | .error .noEntry => pure false
  | .error .notDirectory => pure false
  | .error e => failing .filesystemError ("failed to inspect SQLite sidecar: " ++ errnoText e) path

def databaseName : Name := ascii "repository.db"

def walName : Name := ascii "repository.db-wal"

def shmName : Name := ascii "repository.db-shm"

def journalName : Name := ascii "repository.db-journal"

def sqliteNames : List Name := [databaseName, walName, shmName, journalName]

def objectsName : Name := ascii "objects"

def temporaryName : Name := ascii "temporary"

def restoresName : Name := ascii "restores"

def logsName : Name := ascii "logs"

def lockName : Name := ascii "repository.lock"

def validateLayout (h : Surroundings) (root : Path) : MakingM Unit := do
  requireDirectory h (bare root ++ [objectsName]) "objects directory"
  requireDirectory h (bare root ++ [temporaryName]) "temporary directory"
  requireDirectory h (bare root ++ [temporaryName, objectsName]) "temporary objects directory"
  requireDirectory h (bare root ++ [temporaryName, restoresName]) "temporary restores directory"
  requireDirectory h (bare root ++ [logsName]) "logs directory"
  requireRegularFile h (bare root ++ [lockName]) "lock file"
  requireRegularFile h (bare root ++ [databaseName]) "database file"

inductive DatabaseAccess where
  | readWrite
  | readOnly
  | immutableReadOnly
  deriving DecidableEq, Repr

def databaseAccessForOpen (h : Surroundings) (root : Path) (mode : OpenMode) :
    MakingM DatabaseAccess := do
  let walExists ← regularFileExistsNoFollow h (bare root ++ [walName])
  let shmExists ← regularFileExistsNoFollow h (bare root ++ [shmName])
  if mode = .readWrite then pure .readWrite
  else if walExists ∧ shmExists then pure .readOnly
  else if walExists ≠ shmExists then
    failing .invalidRepository "read-only open requires both SQLite WAL sidecars or neither"
      (bare root ++ [databaseName])
  else if h.provenReadOnly = false then
    failing .invalidRepository ("read-only open without SQLite WAL sidecars is allowed only on " ++
      "proven read-only storage") (bare root ++ [databaseName])
  else pure .immutableReadOnly

def validateSchema (db : Schema) : Except String Unit :=
  if db.migrations ≠ [.integer 1] then
    .error "repository must contain exactly migration version 1"
  else if (db.tables.filter (· ∈ requiredTables)).length ≠ 8 then
    .error "repository is missing a required table"
  else if (db.indexes.filter (· ∈ requiredIndexes)).length ≠ 5 then
    .error "repository is missing a required index"
  else .ok ()

def outOfRange (field : String) : ErrorCode × String :=
  (.invalidRepository, "repository " ++ field ++ " is out of range")

/-- `load_repository_info`: the code and the text of its error. -/
def loadRepositoryInfo (db : Schema) : Except (ErrorCode × String) RepositoryInfo :=
  match validateSchema db with
  | .error message => .error (.invalidRepository, message)
  | .ok () =>
    match db.info with
    | [⟨.integer singletonId, .text uuid, .integer formatVersion, .integer _, .text _,
        .integer chunkSize, .integer zstdLevel, .text hashAlgorithm, .text pathEncoding⟩] =>
      if singletonId ≠ 1 then
        .error (.invalidRepository, "repository_info singleton identifier is invalid")
      else if formatVersion ≠ 1 then
        .error (.unsupportedRepositoryVersion, "unsupported repository format version " ++
          toString formatVersion ++ "; this application supports format version 1")
      else if uuid = [] then .error (.invalidRepository, "repository UUID must not be empty")
      else if chunkSize ≤ 0 ∨ (permanentMaximumChunkSize : Int) < chunkSize then
        .error (.invalidRepository, "repository chunk size must be between 1 byte and 4 MiB")
      else if hashAlgorithm ≠ ascii "blake3" then
        .error (.invalidRepository, "repository hash algorithm is not supported")
      else if pathEncoding ≠ ascii "utf-8" then
        .error (.invalidRepository, "repository path encoding is not supported")
      else if zstdLevel < -2147483648 ∨ 2147483647 < zstdLevel then .error (outOfRange "zstd level")
      else .ok ⟨uuid, formatVersion.toNat, chunkSize.toNat, zstdLevel, hashAlgorithm⟩
    | [_] => .error (.invalidRepository, "repository_info contains an invalid SQLite storage type")
    | _ => .error (.invalidRepository, "repository_info must contain exactly one row")

/-- What SQLite does with its own files. -/
def sqliteTouch (root : Path) (files : Name → Option (Bytes × Stamp)) (now : Int) (d : Disk) : Disk :=
  match realPath d.tree (bare root) with
  | .error _ => d
  | .ok q =>
    match d.tree q with
    | some (.directory _) =>
      (sqliteNames.foldl (fun d name =>
        d.put (q ++ [name]) ((files name).map (fun f => .file f.1 f.2))) d).touch q now
    | _ => d

/-- A call of SQLite, which may throw. -/
def sqlite (h : Surroundings) (root : Path) {α : Type} (f : Schema → Except Raised (α × Schema)) :
    MakingM α := fun s =>
  let s' := s.onDisk (sqliteTouch root (h.sqliteFiles s.calls) (h.clock s.calls) s.disk)
  match h.raises s.calls with
  | some e => (.error e, s')
  | none =>
    match f s.db with
    | .error e => (.error e, s')
    | .ok (a, db) => (.ok a, { s' with db })

/-- `Database::close`. -/
def closeDatabase (h : Surroundings) (root : Path) (s : Making) : Making :=
  s.onDisk (sqliteTouch root (h.closedFiles s.calls) (h.clock s.calls) s.disk)

/-- The constructor of `Database`; the pragmas have no effect here. -/
def openDatabase (h : Surroundings) (root : Path) : MakingM Unit :=
  sqlite h root (fun db => .ok ((), db))

/-- A `database_error` of the load becomes an invalid repository. -/
def asInvalidRepository (databasePath : Path) : Raised → Raised
  | .localVault e =>
    if e.code ≠ .databaseError then .localVault e
    else .localVault { code := .invalidRepository, path := databasePath,
                       message := "repository database has an invalid format: " ++ e.message }
  | e => e

/-- `Repository::open` behind the normalization of its path. The database stays
open when it returns. -/
def openAt (h : Surroundings) (root : Path) (mode : OpenMode) : MakingM RepositoryInfo := do
  match ← look h (fun d => symlinkStatus d.tree root) with
  | .error .noEntry => failing .repositoryNotFound "repository root does not exist" root
  | .error .notDirectory => failing .repositoryNotFound "repository root does not exist" root
  | .error e =>
    failing .filesystemError ("failed to inspect repository root: " ++ errnoText e) root
  | .ok node =>
    match node with
    | .directory _ =>
      validateLayout h root
      let _ ← databaseAccessForOpen h root mode
      openDatabase h root
      (sqlite h root (fun db =>
        match loadRepositoryInfo db with
        | .error (code, message) =>
          .error (.localVault { code, message, path := bare root ++ [databaseName] })
        | .ok info => .ok (info, db))).rescue (fun e => do
          Program.update (closeDatabase h root)
          .raise (asInvalidRepository (bare root ++ [databaseName]) e))
    | _ => failing .invalidRepository "repository root is not a non-symlink directory" root

def openRepository (h : Surroundings) (requested : Bytes) (mode : OpenMode) :
    MakingM RepositoryInfo :=
  match normalizedRoot h.currentDirectory requested with
  | .error e => .raise (.localVault e)
  | .ok root => openAt h root mode

/-- A repository that is opened to be looked at, and closed again. -/
def selfCheck (h : Surroundings) (root : Path) : MakingM Unit := do
  let _ ← openAt h root .readOnly
  Program.update (closeDatabase h root)

def markCreated (ledger : List CreationRecord) (index : Nat) : List CreationRecord :=
  ledger.modify index (fun r => { r with created := true })

/-- `ledger[index].path`. -/
def recordPath (index : Nat) : MakingM Path :=
  Program.read (fun s => ((s.ledger[index]?).map CreationRecord.path).getD [])

def createDirectory (h : Surroundings) (index : Nat) : MakingM Unit := do
  let path ← recordPath index
  match ← change h (fun d now => d.create (bare path) (.directory ⟨h.directoryMode, now⟩) now) with
  | .ok () => Program.update (fun s => { s with ledger := markCreated s.ledger index })
  | .error .alreadyExists =>
    match ← look h (fun d => stat d.tree (bare path)) with
    | .ok (.directory _) =>
      failing .filesystemError "failed to create repository directory: path already exists" path
    | _ => failing .filesystemError "failed to create repository directory: File exists" path
  | .error e =>
    failing .filesystemError ("failed to create repository directory: " ++ errnoText e) path

def createExclusiveFile (h : Surroundings) (path : Path) : MakingM Unit := do
  match ← change h (fun d now => d.create path (.file [] ⟨0o600, now⟩) now) with
  | .ok () => pure ()
  | .error e =>
    failing .filesystemError ("failed to exclusively create repository file: " ++ errnoText e) path

def setMode (mode : Nat) (st : Stamp) : Stamp := { st with mode }

def applyRestrictiveFilePermissions (h : Surroundings) (path : Path) : MakingM Unit := do
  match ← change h (fun d _ => d.restamp path (setMode 0o600)) with
  | .ok () => pure ()
  | .error e =>
    failing .filesystemError ("failed to set repository file permissions: " ++ errnoText e) path

def applyRestrictiveRepositoryPermissions (h : Surroundings) (root : Path) : MakingM Unit := do
  match ← change h (fun d _ => d.restamp (bare root) (setMode 0o700)) with
  | .ok () => pure ()
  | .error e =>
    failing .filesystemError ("failed to set repository permissions: " ++ errnoText e) root

def createEmptyFile (h : Surroundings) (index : Nat) : MakingM Unit := do
  let path ← recordPath index
  createExclusiveFile h path
  Program.update (fun s => { s with ledger := markCreated s.ledger index })
  applyRestrictiveFilePermissions h path

/-- The candidates go from the root up. -/
def missingRootPaths (h : Surroundings) : List Path → MakingM (List Path)
  | [] => pure []
  | candidate :: parents => do
    if ← pathExists h candidate then pure []
    else do
      let missing ← missingRootPaths h parents
      pure (missing ++ [candidate])

def validateCreationRoot (h : Surroundings) (root : Path) : MakingM Unit := do
  match ← look h (fun d => symlinkStatus d.tree root) with
  | .ok (.directory _) => pure ()
  | .ok _ => failing .filesystemError "repository root changed during creation" root
  | .error e =>
    failing .filesystemError ("repository root changed during creation: " ++ errnoText e) root

/-- The content of a file that is there. -/
def overwrite (d : Disk) (path : Path) (content : Bytes) (now : Int) : Except Errno Disk :=
  match realPath d.tree path with
  | .error e => .error e
  | .ok q =>
    match d.tree q with
    | some (.file _ st) => .ok (d.put q (some (.file content { st with mtime := now })))
    | some (.directory _) => .error .isDirectory
    | _ => .error .noEntry

/-- The loop of `write_diagnostics`; every round takes at least one byte. -/
def writeDiagnosticsFrom (h : Surroundings) (path : Path) (diagnostics : Bytes) :
    Nat → Nat → MakingM Unit
  | 0, _ => pure ()
  | rounds + 1, written =>
    if diagnostics.length ≤ written then pure ()
    else do
      let count ← Program.read (fun s => min (h.taken s.calls) (diagnostics.length - written))
      match ← change h (fun d now => overwrite d path (diagnostics.take (written + count)) now) with
      | .error e =>
        failing .filesystemError
          ("failed to write repository lock diagnostics: " ++ errnoText e) path
      | .ok () =>
        if count = 0 then
          failing .filesystemError
            "failed to write repository lock diagnostics: no bytes written" path
        else writeDiagnosticsFrom h path diagnostics rounds (written + count)

/-- `RepositoryLock::acquire_exclusive`. The lock itself is one call, which may
find the repository busy. -/
def acquireExclusive (h : Surroundings) (path : Path) : MakingM Unit := do
  match ← look h (fun d => stat d.tree path) with
  | .error e => failing .filesystemError ("failed to open repository lock file: " ++ errnoText e) path
  | .ok _ =>
    attempt h
    let diagnostics ← Program.read (fun s => h.diagnostics s.calls)
    match ← change h (fun d now => overwrite d path [] now) with
    | .error e =>
      failing .filesystemError ("failed to truncate repository lock file: " ++ errnoText e) path
    | .ok () => writeDiagnosticsFrom h path diagnostics diagnostics.length 0

/-- The group lengths of `make_uuid_v4`. -/
def formatUuid (digits : Bytes) : Bytes :=
  let dash : Bytes := ascii "-"
  digits.take 8 ++ dash ++ (digits.drop 8).take 4 ++ dash ++ (digits.drop 12).take 4 ++ dash ++
    (digits.drop 16).take 4 ++ dash ++ digits.drop 20

def makeUuidV4 (bytes : Vector UInt8 16) : Bytes :=
  let bytes := (bytes.set 6 ((bytes[6] &&& 0x0F) ||| 0x40)).set 8 ((bytes[8] &&& 0x3F) ||| 0x80)
  formatUuid (bytes.toList.flatMap (fun (b : UInt8) =>
    [hexadecimal.getD (b >>> 4).toNat 0, hexadecimal.getD (b &&& 0x0F).toNat 0]))

def applicationVersion : Bytes := ascii "0.1.0"

def infoRow (uuid : Bytes) (createdAtNs : Int) (options : RepositoryCreateOptions) :
    RepositoryInfoRow where
  singletonId := .integer 1
  repositoryUuid := .text uuid
  formatVersion := .integer 1
  createdAtNs := .integer createdAtNs
  applicationVersion := .text applicationVersion
  chunkSizeBytes := .integer options.chunkSizeBytes
  zstdLevel := .integer options.zstdLevel
  hashAlgorithm := .text (ascii "blake3")
  pathEncoding := .text (ascii "utf-8")

/-- The `INSERT`; the primary key admits one row. -/
def insertInfo (row : RepositoryInfoRow) (db : Schema) : Except Raised (Unit × Schema) :=
  if db.info = [] then .ok ((), { db with info := [row] })
  else .error (.localVault { code := .databaseError,
                             message := "UNIQUE constraint failed: repository_info.singleton_id" })

/-- `flush_containing_directory`. -/
def flushDirectory (h : Surroundings) (directory : Path) : MakingM Unit := do
  match ← look h (fun _ => .ok ()) with
  | .ok () => pure ()
  | .error e =>
    failing .filesystemError ("failed to flush repository directory: " ++ errnoText e) directory

/-- The block in which the new database is open. The transaction around the row
takes effect with its commit. -/
def writeDatabase (h : Surroundings) (root : Path) (options : RepositoryCreateOptions) :
    MakingM Unit := do
  openDatabase h root
  (do
    sqlite h root (fun db => .ok ((), db.runMigrations))
    sqlite h root (fun db => .ok ((), db))
    attempt h
    let uuid ← Program.read (fun s => makeUuidV4 (h.entropy s.calls))
    let createdAtNs ← Program.read (fun s => h.clock s.calls)
    sqlite h root (insertInfo (infoRow uuid createdAtNs options))
    sqlite h root (fun db => .ok ((), db))
    sqlite h root (fun db => .ok ((), db))
    flushDirectory h (bare root) : MakingM Unit).ensure (closeDatabase h root)

/-- The ten paths below the root, with their protection. -/
def layoutRecords : List (Path × Bool) :=
  [([objectsName], false), ([temporaryName], false), ([temporaryName, objectsName], false),
   ([temporaryName, restoresName], false), ([logsName], false), ([lockName], true),
   ([databaseName], false), ([walName], false), ([shmName], false), ([journalName], false)]

def creationRecords (root : Path) (missingRoots : List Path) : List CreationRecord :=
  missingRoots.map (fun path => ⟨path, false, true⟩) ++
    layoutRecords.map (fun r => ⟨bare root ++ r.1, false, r.2⟩)

/-- The part of the `try` block behind the permissions of the root. -/
def createContents (h : Surroundings) (root : Path) (missing : Nat)
    (options : RepositoryCreateOptions) : MakingM Unit := do
  Program.each (createDirectory h) ((List.range 5).map (missing + ·))
  createEmptyFile h (missing + 5)
  acquireExclusive h (bare root ++ [lockName])
  Program.update (fun s => { s with writerLock := true })
  Program.each (createEmptyFile h) ((List.range 4).map (missing + 6 + ·))
  writeDatabase h root options
  selfCheck h root
  Program.update (fun s => { s with published := true, writerLock := false })
  selfCheck h root

/-- The body of the `try` block. -/
def createLayout (h : Surroundings) (root : Path) (rootExisted : Bool) (missing : Nat)
    (options : RepositoryCreateOptions) : MakingM Unit := do
  Program.each (createDirectory h) (List.range missing)
  validateCreationRoot h root
  applyRestrictiveRepositoryPermissions h root
  Program.update (fun s => { s with permissionsChanged := rootExisted })
  createContents h root missing options

/-- The body of the loop of `CreationLedger::cleanup`. -/
def cleanRecord (h : Surroundings) (lockHeld : Bool) (r : CreationRecord) (s : Making) :
    CreationRecord × Making :=
  if r.created = false ∨ (lockHeld = true ∧ r.protectedWhileLocked = true) then (r, s)
  else if h.cleanupFails s.calls then (r, s.tick)
  else match s.disk.remove (bare r.path) (h.clock s.calls) with
    | .ok d => ({ r with created := false }, s.onDisk d)
    | .error .noEntry => ({ r with created := false }, s.tick)
    | .error _ => (r, s.tick)

/-- `CreationLedger::cleanup`, from the last record to the first. -/
def cleanRecords (h : Surroundings) (lockHeld : Bool) :
    List CreationRecord → Making → List CreationRecord × Making
  | [], s => ([], s)
  | r :: rs, s =>
    let (rs, s) := cleanRecords h lockHeld rs s
    let (r, s) := cleanRecord h lockHeld r s
    (r :: rs, s)

def cleanLedger (h : Surroundings) (lockHeld : Bool) (s : Making) : Making :=
  let (ledger, s') := cleanRecords h lockHeld s.ledger s
  { s' with ledger }

/-- The permissions of a root that was there are put back. -/
def restorePermissions (h : Surroundings) (root : Path) (originalPermissions : Option Nat)
    (s : Making) : Making :=
  match originalPermissions with
  | none => s
  | some mode =>
    if s.permissionsChanged = false then s
    else if h.cleanupFails s.calls then s.tick
    else match s.disk.restamp (bare root) (setMode mode) with
      | .ok d => s.onDisk d
      | .error _ => s.tick

/-- The lambda `cleanup`. -/
def cleanup (h : Surroundings) (root : Path) (originalPermissions : Option Nat) (s : Making) :
    Making :=
  let s := cleanLedger h s.writerLock s
  let s := cleanLedger h false { s with writerLock := false }
  restorePermissions h root originalPermissions s

/-- What the `catch` clauses throw on. -/
def rethrown (root : Path) : Raised → Raised
  | .localVault e =>
    if e.path ≠ [] then .localVault e
    else .localVault { e with path := bare root ++ [databaseName] }
  | .standard what => .localVault { code := .filesystemError, message := what, path := root }
  | .unknown => .unknown

/-- The checks of a root that is there; the result is its permissions. -/
def inspectRoot (h : Surroundings) (options : RepositoryCreateOptions) (root : Path) :
    MakingM (Option Nat) := do
  match ← look h (fun d => symlinkStatus d.tree root) with
  | .error e => failing .filesystemError ("failed to inspect repository root: " ++ errnoText e) root
  | .ok node =>
    match node with
    | .directory st =>
      match ← look h (fun d => (realPath d.tree (bare root)).map d.isEmpty) with
      | .error e =>
        failing .filesystemError ("failed to inspect repository directory: " ++ errnoText e) root
      | .ok empty =>
        if empty = false ∧ options.allowExistingNonEmpty = false then
          failing .invalidArgument
            ("repository root is an existing non-empty directory; explicit approval is " ++
              "required") root
        else pure (some st.mode)
    | _ =>
      failing .invalidArgument
        "repository root already exists and is not a non-symlink directory" root

def reservedNames : List Name :=
  [objectsName, temporaryName, logsName, lockName, databaseName, walName, shmName, journalName]

def requireFree (h : Surroundings) (path : Path) : MakingM Unit := do
  if ← pathExists h path then
    failing .invalidArgument "repository path collides with existing content" path
  else pure ()

/-- `Repository::create`. -/
def create (h : Surroundings) (requested : Bytes) (options : RepositoryCreateOptions) :
    MakingM Unit :=
  match normalizedRoot h.currentDirectory requested with
  | .error e => .raise (.localVault e)
  | .ok root => do
    if options.chunkSizeBytes = 0 ∨ permanentMaximumChunkSize < options.chunkSizeBytes then
      failing .invalidArgument "repository chunk size must be between 1 byte and 4 MiB" root
    else
      let rootExisted ← pathExists h root
      let originalPermissions ← if rootExisted then inspectRoot h options root else pure none
      attempt h
      if (filesystemPolicy h.filesystemClass options.allowRiskyFilesystem).allowed = false then
        failing .filesystemError
          ("repository destination is on a network filesystem; set allow_risky_filesystem to " ++
            "accept reduced safety") root
      else
        Program.each (requireFree h) (reservedNames.map (fun name => bare root ++ [name]))
        let missingRoots ←
          if rootExisted then pure [] else missingRootPaths h root.inits.reverse
        Program.update (fun s => { s with ledger := creationRecords root missingRoots })
        (createLayout h root rootExisted missingRoots.length options).rescue (fun e => do
          let published ← Program.read Making.published
          if published = false then Program.update (cleanup h root originalPermissions)
          .raise (rethrown root e))

end LocalVault.Repository
