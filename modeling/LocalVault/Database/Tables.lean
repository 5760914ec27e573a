import LocalVault.Storage.Objects

namespace LocalVault

abbrev SnapshotId := Int

structure SnapshotRow where
  id : SnapshotId
  createdAtNs : Int
  completedAtNs : Option Int
  sourceRoot : Bytes
  message : String
  status : SnapshotStatus
  fileCount : Int
  directoryCount : Int
  symlinkCount : Int
  logicalSize : Int
  newStoredSize : Int
  newChunkCount : Int
  reusedChunkCount : Int
  durationMs : Int
  failureMessage : Option String
  deriving DecidableEq, Repr

structure EntryRow where
  id : Int
  snapshotId : SnapshotId
  relativePath : Bytes
  parentPath : Bytes
  name : Bytes
  entryType : EntryType
  logicalSize : Int
  modifiedTimeNs : Int
  posixMode : Int
  windowsAttributes : Option Int
  fileHash : Option Bytes
  symlinkTarget : Option Bytes
  deriving DecidableEq, Repr

structure ChunkRow where
  hash : Bytes
  rawSize : Int
  compressedSize : Int
  objectPath : Bytes
  createdAtNs : Int
  deriving DecidableEq, Repr

structure EntryChunkRow where
  entryId : Int
  sequenceNumber : Int
  chunkHash : Bytes
  rawOffset : Int
  rawLength : Int
  deriving DecidableEq, Repr

structure WarningRow where
  id : Int
  snapshotId : SnapshotId
  relativePath : Bytes
  warningCode : String
  message : String
  deriving DecidableEq, Repr

/-- The tables the metadata store reads and writes, with the counters of the
three `AUTOINCREMENT` keys. -/
structure Database where
  snapshots : List SnapshotRow
  entries : List EntryRow
  chunks : List ChunkRow
  entryChunks : List EntryChunkRow
  warnings : List WarningRow
  lastSnapshotId : Nat
  lastEntryId : Nat
  lastWarningId : Nat
  deriving DecidableEq, Repr

def Database.empty : Database := ⟨[], [], [], [], [], 0, 0, 0⟩

/-- `EntryInfo`, with the stored texts as they are. -/
structure EntryInfo where
  id : Int
  snapshotId : SnapshotId
  relativePath : Bytes
  type : EntryType
  logicalSize : Nat
  modifiedTimeNs : Int
  posixMode : Nat
  windowsAttributes : Option Nat
  fileHashHex : Option Bytes
  symlinkTarget : Option Bytes
  deriving DecidableEq, Repr

structure ChunkReferenceInfo where
  sequenceNumber : Int
  hashHex : Bytes
  objectPath : Bytes
  rawOffset : Nat
  rawLength : Nat
  rawSize : Nat
  storedSize : Nat
  deriving DecidableEq, Repr

def outsideRange (field : String) : LocalVaultError :=
  { code := .databaseError, message := field ++ " is outside the supported range" }

def checkedByteCount (value : Int) (field : String) : Except LocalVaultError Nat :=
  if value < 0 then .error (outsideRange field) else .ok value.toNat

def checkedUint32 (value : Int) (field : String) : Except LocalVaultError Nat :=
  if value < 0 ∨ (maximumUint32 : Int) < value then .error (outsideRange field)
  else .ok value.toNat

def checkedInt64 (value : Nat) (field : String) : Except LocalVaultError Int :=
  if maximumInt64 < value then
    .error { code := .databaseError, message := field ++ " is outside SQLite's integer range" }
  else .ok value

def readEntry (row : EntryRow) : Except LocalVaultError EntryInfo := do
  let logicalSize ← checkedByteCount row.logicalSize "entry logical size"
  let posixMode ← checkedUint32 row.posixMode "entry POSIX mode"
  let windowsAttributes ←
    match row.windowsAttributes with
    | none => .ok none
    | some value =>
      match checkedUint32 value "entry Windows attributes" with
      | .error e => .error e
      | .ok attributes => .ok (some attributes)
  .ok { id := row.id, snapshotId := row.snapshotId, relativePath := row.relativePath,
        type := row.entryType, logicalSize, modifiedTimeNs := row.modifiedTimeNs, posixMode,
        windowsAttributes, fileHashHex := row.fileHash, symlinkTarget := row.symlinkTarget }

/-- Rows read one after the other; the first bad one ends the query. -/
def readRows {ρ α : Type} (read : ρ → Except LocalVaultError α) :
    List ρ → Except LocalVaultError (List α)
  | [] => .ok []
  | row :: rows => do
    let first ← read row
    let rest ← readRows read rows
    .ok (first :: rest)

def Database.snapshot (db : Database) (id : SnapshotId) : Option SnapshotRow :=
  db.snapshots.find? (fun s => s.id == id)

/-- The status of a snapshot row, if there is one. -/
def Database.status (db : Database) (id : SnapshotId) : Option SnapshotStatus :=
  (db.snapshot id).map SnapshotRow.status

def Database.entriesOf (db : Database) (id : SnapshotId) : List EntryRow :=
  db.entries.filter (fun e => e.snapshotId == id)

def Database.warningsOf (db : Database) (id : SnapshotId) : List WarningRow :=
  db.warnings.filter (fun w => w.snapshotId == id)

def Database.entryChunksOf (db : Database) (entryId : Int) : List EntryChunkRow :=
  db.entryChunks.filter (fun c => c.entryId == entryId)

def Database.chunk (db : Database) (hash : Bytes) : Option ChunkRow :=
  db.chunks.find? (fun c => c.hash == hash)

/-- `ORDER BY relative_path`, in SQLite's binary collation. -/
def byRelativePath (rows : List EntryRow) : List EntryRow :=
  rows.insertionSort (fun a b => a.relativePath ≤ b.relativePath)

def requireCompleteSnapshot (db : Database) (id : SnapshotId) : Except LocalVaultError SnapshotRow :=
  match (db.snapshots.filter (fun s => s.id == id && s.status == .complete)) with
  | [] =>
    .error { code := .invalidArgument, message := "snapshot does not exist or is not complete" }
  | [row] => .ok row
  | _ =>
    .error { code := .databaseError, message := "snapshot identifier selected multiple rows" }

def listEntries (db : Database) (id : SnapshotId) : Except LocalVaultError (List EntryInfo) :=
  readRows readEntry (byRelativePath (db.entries.filter (fun e =>
    e.snapshotId == id && db.snapshots.any (fun s => s.id == e.snapshotId && s.status == .complete))))

/-- `ORDER BY name, relative_path`. -/
def byName (rows : List EntryRow) : List EntryRow :=
  rows.insertionSort (fun a b => a.name < b.name ∨ a.name = b.name ∧ a.relativePath ≤ b.relativePath)

def listChildren (db : Database) (id : SnapshotId) (parentPath : Bytes) :
    Except LocalVaultError (List EntryInfo) :=
  readRows readEntry (byName (db.entries.filter (fun e =>
    e.snapshotId == id && e.parentPath == parentPath && e.relativePath != [] &&
      db.snapshots.any (fun s => s.id == e.snapshotId && s.status == .complete))))

def readChunkReference (row : EntryChunkRow × ChunkRow) :
    Except LocalVaultError ChunkReferenceInfo := do
  let rawOffset ← checkedByteCount row.1.rawOffset "chunk raw offset"
  let rawLength ← checkedByteCount row.1.rawLength "chunk raw length"
  let rawSize ← checkedByteCount row.2.rawSize "chunk raw size"
  let storedSize ← checkedByteCount row.2.compressedSize "chunk stored size"
  .ok { sequenceNumber := row.1.sequenceNumber, hashHex := row.1.chunkHash,
        objectPath := row.2.objectPath, rawOffset, rawLength, rawSize, storedSize }

/-- The join of `list_entry_chunks` before its rows are read. -/
def joinedEntryChunks (db : Database) (entryId : Int) : List (EntryChunkRow × ChunkRow) :=
  ((db.entryChunks.filter (fun c => c.entryId == entryId)).flatMap (fun ec =>
    (db.chunks.filter (fun c => c.hash == ec.chunkHash)).flatMap (fun c =>
      (db.entries.filter (fun e => e.id == ec.entryId)).flatMap (fun e =>
        (db.snapshots.filter (fun s => s.id == e.snapshotId && s.status == .complete)).map
          (fun _ => (ec, c)))))).insertionSort (fun a b => a.1.sequenceNumber ≤ b.1.sequenceNumber)

def listEntryChunks (db : Database) (entryId : Int) :
    Except LocalVaultError (List ChunkReferenceInfo) :=
  readRows readChunkReference (joinedEntryChunks db entryId)

end LocalVault
