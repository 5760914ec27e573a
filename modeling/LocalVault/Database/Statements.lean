import LocalVault.Library.Keyed
import LocalVault.Library.Program
import LocalVault.Database.Tables

namespace LocalVault
open Library

/-- Statements on the connection, one after the other. What a failed sequence
has written is left to the transaction around it. -/
abbrev Sql := Program Database LocalVaultError

structure SnapshotTotals where
  fileCount : Nat
  directoryCount : Nat
  symlinkCount : Nat
  logicalSize : Nat
  newStoredSize : Nat
  newChunkCount : Nat
  reusedChunkCount : Nat
  durationMs : Int
  deriving DecidableEq, Repr

structure StoredChunkInfo where
  hashHex : Bytes
  rawSize : Nat
  storedSize : Nat
  objectPath : Bytes
  createdAtNs : Int
  deriving DecidableEq, Repr

structure IncompleteSnapshotInfo where
  id : SnapshotId
  status : SnapshotStatus
  deriving DecidableEq, Repr

def databaseError (message : String) : LocalVaultError := { code := .databaseError, message }

def invalidArgument (message : String) : LocalVaultError := { code := .invalidArgument, message }

/-- A statement that meets a constraint, before its text is appended. -/
def constraintFailed (constraint : String) : LocalVaultError :=
  databaseError ("stepping statement failed (SQLite result 19): " ++ constraint)

/-- `Statement::bind` of texts. -/
def bindTexts (values : List Bytes) : Sql Unit :=
  if values.any (fun v => decide (2 ^ 31 - 1 < v.length)) then
    .raise (databaseError "SQLite text value is too large")
  else pure ()

/-- A statement that must have changed one row. -/
def requireSingle (missing multiple : LocalVaultError) : Nat → Sql Unit
  | 0 => .raise missing
  | 1 => pure ()
  | _ => .raise multiple

def requireSingleUpdatedRow (action : String) : Nat → Sql Unit :=
  requireSingle (invalidArgument (action ++ " requires a pending snapshot"))
    (databaseError (action ++ " updated multiple snapshots"))

/-- `UPDATE snapshots`, with the number of rows it returns. -/
def updateSnapshots (selected : SnapshotRow → Bool) (change : SnapshotRow → SnapshotRow) : Sql Nat :=
  fun db => (.ok (db.snapshots.filter selected).length,
    { db with snapshots := db.snapshots.map (fun s => if selected s then change s else s) })

/-- A new row with the defaults of the schema. -/
def SnapshotRow.pendingRow (id : SnapshotId) (sourceRoot : Bytes) (message : String)
    (createdAtNs : Int) : SnapshotRow :=
  { id, createdAtNs, completedAtNs := none, sourceRoot, message, status := .pending,
    fileCount := 0, directoryCount := 0, symlinkCount := 0, logicalSize := 0, newStoredSize := 0,
    newChunkCount := 0, reusedChunkCount := 0, durationMs := 0, failureMessage := none }

def insertSnapshot (row : SnapshotId → SnapshotRow) : Sql SnapshotId := fun db =>
  let id := db.lastSnapshotId + 1
  (.ok id, { db with snapshots := db.snapshots ++ [row id], lastSnapshotId := id })

def createPendingSnapshot (sourceRoot : Bytes) (message : String) (createdAtNs : Int) :
    Sql SnapshotId := do
  bindTexts [sourceRoot]
  insertSnapshot (fun id => SnapshotRow.pendingRow id sourceRoot message createdAtNs)

/-- `SUM` over the sizes of the files of a snapshot. -/
def sumLogicalSize (db : Database) (id : SnapshotId) : Int :=
  (((db.entriesOf id).filter (fun e => e.entryType == .regularFile)).map EntryRow.logicalSize).sum

def countEntries (db : Database) (id : SnapshotId) (type : EntryType) : Nat :=
  ((db.entriesOf id).filter (fun e => e.entryType == type)).length

/-- The totals `mark_snapshot_complete` counts again from the entries. -/
def finalTotals (id : SnapshotId) (totals : SnapshotTotals) : Sql SnapshotTotals := fun db =>
  if (maximumInt64 : Int) < sumLogicalSize db id then
    (.error (databaseError "stepping statement failed (SQLite result 1): integer overflow"), db)
  else
    (.ofExcept (do
      let logicalSize ← checkedByteCount (sumLogicalSize db id) "snapshot logical size"
      .ok { totals with
        fileCount := countEntries db id .regularFile
        directoryCount := countEntries db id .directory
        symlinkCount := countEntries db id .symbolicLink
        logicalSize }) : Sql SnapshotTotals) db

/-- The row that publishes a snapshot. -/
def SnapshotRow.completed (row : SnapshotRow) (fileCount directoryCount symlinkCount logicalSize
    newStoredSize newChunkCount reusedChunkCount durationMs completedAtNs : Int) : SnapshotRow :=
  { row with
    completedAtNs := some completedAtNs, status := .complete, fileCount, directoryCount
    symlinkCount, logicalSize, newStoredSize, newChunkCount, reusedChunkCount, durationMs }

/-- A file of the snapshot whose hash was never set. -/
def Database.unhashed (db : Database) (id : SnapshotId) : Bool :=
  (db.entriesOf id).any (fun e => e.entryType == .regularFile && e.fileHash == none)

def markSnapshotComplete (id : SnapshotId) (totals : SnapshotTotals) (completedAtNs : Int) :
    Sql Unit := do
  let final ← finalTotals id totals
  let fileCount ← Program.ofExcept (checkedInt64 final.fileCount "snapshot file count")
  let directoryCount ←
    Program.ofExcept (checkedInt64 final.directoryCount "snapshot directory count")
  let symlinkCount ← Program.ofExcept (checkedInt64 final.symlinkCount "snapshot symlink count")
  let logicalSize ← Program.ofExcept (checkedInt64 final.logicalSize "snapshot logical size")
  let newStoredSize ← Program.ofExcept (checkedInt64 final.newStoredSize "snapshot stored size")
  let newChunkCount ← Program.ofExcept (checkedInt64 final.newChunkCount "snapshot new chunk count")
  let reusedChunkCount ←
    Program.ofExcept (checkedInt64 final.reusedChunkCount "snapshot reused chunk count")
  let db ← Program.read (fun db => db)
  let updated ← updateSnapshots
    (fun s => s.id == id && s.status == .pending && !db.unhashed id)
    (fun s => s.completed fileCount directoryCount symlinkCount logicalSize newStoredSize
      newChunkCount reusedChunkCount final.durationMs completedAtNs)
  requireSingleUpdatedRow "completing a snapshot" updated

/-- The row of a snapshot that was given up. -/
def SnapshotRow.abandoned (row : SnapshotRow) (status : SnapshotStatus) (failureMessage : String)
    (completedAtNs : Int) : SnapshotRow :=
  { row with completedAtNs := some completedAtNs, status, failureMessage := some failureMessage }

def isPending (id : SnapshotId) (row : SnapshotRow) : Bool := row.id == id && row.status == .pending

def markSnapshotIncomplete (id : SnapshotId) (status : SnapshotStatus) (failureMessage : String)
    (completedAtNs : Int) : Sql Unit :=
  if status ≠ .failed ∧ status ≠ .cancelled then
    .raise (invalidArgument "an incomplete snapshot must be failed or cancelled")
  else do
    let updated ← updateSnapshots (isPending id)
      (fun s => s.abandoned status failureMessage completedAtNs)
    requireSingleUpdatedRow "finishing an incomplete snapshot" updated

/-- The body of `mark_stale_pending_snapshot_failed`. -/
def failStalePending (id : SnapshotId) (failureMessage : String) (completedAtNs : Int) :
    Sql Unit := do
  let updated ← updateSnapshots (isPending id)
    (fun s => s.abandoned .failed failureMessage completedAtNs)
  requireSingle (invalidArgument "recovery requires a stale pending snapshot")
    (databaseError "recovery failed multiple pending snapshots") updated

/-- The body of `transition_snapshot_to_deleting`. -/
def startDeleting (id : SnapshotId) : Sql Unit := do
  let updated ← updateSnapshots (fun s => s.id == id && s.status == .complete)
    (fun s => { s with status := .deleting })
  requireSingle (invalidArgument "deleting requires an existing complete snapshot")
    (databaseError "deleting updated multiple snapshots") updated

def listIncompleteSnapshots (db : Database) : List IncompleteSnapshotInfo :=
  ((db.snapshots.filter (fun s => s.status != .complete)).insertionSort (fun a b => a.id ≤ b.id)).map
    (fun s => ⟨s.id, s.status⟩)

/-- `DELETE FROM entries`, which takes the chunk references along. -/
def Database.dropEntries (db : Database) (drop : EntryRow → Bool) : Database :=
  { db with
    entries := db.entries.filter (fun e => !drop e)
    entryChunks := db.entryChunks.filter (fun c =>
      !(db.entries.filter drop).any (fun e => e.id == c.entryId)) }

def Database.dropWarnings (db : Database) (drop : WarningRow → Bool) : Database :=
  { db with warnings := db.warnings.filter (fun w => !drop w) }

/-- `DELETE FROM snapshots`; entries, chunk references and warnings follow by
their foreign keys. -/
def Database.dropSnapshots (db : Database) (drop : SnapshotRow → Bool) : Database :=
  let lost := fun id : SnapshotId => (db.snapshots.filter drop).any (fun s => s.id == id)
  { (db.dropEntries (fun e => lost e.snapshotId)).dropWarnings (fun w => lost w.snapshotId) with
    snapshots := db.snapshots.filter (fun s => !drop s) }

/-- The identifiers one batch removes: `ORDER BY id LIMIT` over a snapshot. -/
def entryBatch (db : Database) (id : SnapshotId) (limit : Nat) : List Int :=
  batchOf EntryRow.id (fun e => e.snapshotId == id) limit db.entries

def warningBatch (db : Database) (id : SnapshotId) (limit : Nat) : List Int :=
  batchOf WarningRow.id (fun w => w.snapshotId == id) limit db.warnings

def deleteEntryBatch (id : SnapshotId) (limit : Nat) : Sql Nat := fun db =>
  let batch := entryBatch db id limit
  (.ok (db.entries.filter (fun e => batch.contains e.id)).length,
    db.dropEntries (fun e => batch.contains e.id))

def deleteWarningBatch (id : SnapshotId) (limit : Nat) : Sql Nat := fun db =>
  let batch := warningBatch db id limit
  (.ok (db.warnings.filter (fun w => batch.contains w.id)).length,
    db.dropWarnings (fun w => batch.contains w.id))

/-- `SELECT 1 FROM snapshots` with the given statuses must find one row. -/
def requireStatus (id : SnapshotId) (statuses : List SnapshotStatus)
    (missing multiple : LocalVaultError) : Sql Unit := do
  let found ← Program.read (fun db : Database =>
    (db.snapshots.filter (fun s => s.id == id && statuses.contains s.status)).length)
  requireSingle missing multiple found

def deleteSnapshots (selected : SnapshotRow → Bool) : Sql Nat := fun db =>
  (.ok (db.snapshots.filter selected).length, db.dropSnapshots selected)

/-- The last transaction of `delete_deleting_snapshot`. -/
def deleteSnapshotRow (id : SnapshotId) : Sql Unit := do
  let removed ← deleteSnapshots (fun s => s.id == id && s.status == .deleting)
  requireSingle (invalidArgument "finishing deletion requires a deleting snapshot")
    (databaseError "finishing deletion removed multiple snapshots") removed

/-- `PRAGMA foreign_key_check` finds nothing. -/
def Database.foreignKeysHold (db : Database) : Bool :=
  db.entries.all (fun e => db.snapshots.any (fun s => s.id == e.snapshotId)) &&
  db.entryChunks.all (fun c => db.entries.any (fun e => e.id == c.entryId)) &&
  db.entryChunks.all (fun c => db.chunks.any (fun k => k.hash == c.chunkHash)) &&
  db.warnings.all (fun w => db.snapshots.any (fun s => s.id == w.snapshotId))

def Database.ofStatus (db : Database) (id : SnapshotId) (statuses : List SnapshotStatus) : Bool :=
  db.snapshots.any (fun s => s.id == id && statuses.contains s.status)

/-- The rows `quick_relationship_check` looks for. -/
def Database.invalidRelationship (db : Database) : Bool :=
  db.snapshots.any (fun s => [SnapshotStatus.pending, .deleting].contains s.status) ||
  db.entries.any (fun e => db.ofStatus e.snapshotId [.failed, .cancelled]) ||
  db.warnings.any (fun w => db.ofStatus w.snapshotId [.failed, .cancelled]) ||
  db.entries.any (fun e => db.ofStatus e.snapshotId [.complete] && e.entryType == .regularFile &&
    !(e.fileHash.any isLowercaseBlake3Hex))

def quickRelationshipCheck (db : Database) : Except LocalVaultError Unit :=
  if !db.foreignKeysHold then
    .error (databaseError "repository metadata contains a foreign-key violation")
  else if db.invalidRelationship then
    .error (databaseError "repository metadata failed the quick relationship check")
  else .ok ()

def EntryRow.ofScanned (id : Int) (snapshotId : SnapshotId) (entry : ScannedEntry)
    (logicalSize : Int) : EntryRow :=
  { id, snapshotId, relativePath := entry.relativePath, parentPath := entry.parentPath,
    name := entry.name, entryType := entry.type, logicalSize,
    modifiedTimeNs := entry.modifiedTimeNs, posixMode := entry.posixMode,
    windowsAttributes := none, fileHash := none, symlinkTarget := entry.symlinkTarget }

def addEntry (snapshotId : SnapshotId) (entry : ScannedEntry) (logicalSize : Int) : Sql Int :=
  fun db =>
    if db.entries.any (fun e => e.snapshotId == snapshotId && e.relativePath == entry.relativePath) then
      (.error (constraintFailed
        "UNIQUE constraint failed: entries.snapshot_id, entries.relative_path"), db)
    else if !db.snapshots.any (fun s => s.id == snapshotId) then
      (.error (constraintFailed "FOREIGN KEY constraint failed"), db)
    else
      let id := db.lastEntryId + 1
      let row := EntryRow.ofScanned id snapshotId entry logicalSize
      (.ok id, { db with entries := db.entries ++ [row], lastEntryId := id })

def insertEntry (snapshotId : SnapshotId) (entry : ScannedEntry) : Sql Int := do
  bindTexts ([entry.relativePath, entry.parentPath, entry.name] ++ entry.symlinkTarget.toList)
  let logicalSize ← Program.ofExcept (checkedInt64 entry.logicalSize "entry logical size")
  addEntry snapshotId entry logicalSize

/-- The row `set_regular_file_hash` may change. -/
def Database.hashable (db : Database) (entryId : Int) (e : EntryRow) : Bool :=
  e.id == entryId && e.entryType == .regularFile && e.fileHash == none &&
    db.ofStatus e.snapshotId [.pending]

def updateHash (entryId : Int) (fileHashHex : Bytes) : Sql Nat := fun db =>
  let hashed := fun e => if db.hashable entryId e then { e with fileHash := some fileHashHex } else e
  (.ok (db.entries.filter (db.hashable entryId)).length, { db with entries := db.entries.map hashed })

def setRegularFileHash (entryId : Int) (fileHashHex : Bytes) : Sql Unit :=
  if !isLowercaseBlake3Hex fileHashHex then
    .raise (invalidArgument "file hash must be exactly 64 lowercase hexadecimal characters")
  else do
    let updated ← updateHash entryId fileHashHex
    requireSingle
      (invalidArgument "setting a file hash requires an unhashed regular file in a pending snapshot")
      (databaseError "setting a file hash updated multiple entries") updated

/-- `INSERT INTO chunks ... ON CONFLICT DO NOTHING`. -/
def insertChunk (chunk : StoredChunkInfo) (rawSize storedSize : Int) : Sql Unit := fun db =>
  if db.chunks.any (fun c => c.hash == chunk.hashHex || c.objectPath == chunk.objectPath) then
    (.ok (), db)
  else if rawSize ≤ 0 then (.error (constraintFailed "CHECK constraint failed: raw_size > 0"), db)
  else if storedSize ≤ 0 then
    (.error (constraintFailed "CHECK constraint failed: compressed_size > 0"), db)
  else
    let row : ChunkRow := ⟨chunk.hashHex, rawSize, storedSize, chunk.objectPath, chunk.createdAtNs⟩
    (.ok (), { db with chunks := db.chunks ++ [row] })

def ensureChunk (chunk : StoredChunkInfo) : Sql Unit := do
  bindTexts [chunk.hashHex, chunk.objectPath]
  let rawSize ← Program.ofExcept (checkedInt64 chunk.rawSize "chunk raw size")
  let storedSize ← Program.ofExcept (checkedInt64 chunk.storedSize "chunk stored size")
  insertChunk chunk rawSize storedSize
  match ← Program.read (fun db : Database => db.chunks.filter (fun c => c.hash == chunk.hashHex)) with
  | [] =>
    .raise { code := .objectCorrupt, message := "chunk object path conflicts with existing metadata" }
  | [row] => do
    let rawSize ← Program.ofExcept (checkedByteCount row.rawSize "chunk raw size")
    let storedSize ← Program.ofExcept (checkedByteCount row.compressedSize "chunk stored size")
    if rawSize ≠ chunk.rawSize ∨ storedSize ≠ chunk.storedSize ∨ row.objectPath ≠ chunk.objectPath then
      .raise { code := .objectCorrupt,
               message := "existing chunk metadata conflicts with stored content" }
    else pure ()
  | _ => .raise (databaseError "chunk hash selected multiple rows")

def addEntryChunk (row : EntryChunkRow) : Sql Unit := fun db =>
  if row.sequenceNumber < 0 then
    (.error (constraintFailed "CHECK constraint failed: sequence_number >= 0"), db)
  else if row.rawLength ≤ 0 then
    (.error (constraintFailed "CHECK constraint failed: raw_length > 0"), db)
  else if db.entryChunks.any (fun c =>
      c.entryId == row.entryId && c.sequenceNumber == row.sequenceNumber) then
    (.error (constraintFailed
      "UNIQUE constraint failed: entry_chunks.entry_id, entry_chunks.sequence_number"), db)
  else if !(db.entries.any (fun e => e.id == row.entryId) &&
      db.chunks.any (fun c => c.hash == row.chunkHash)) then
    (.error (constraintFailed "FOREIGN KEY constraint failed"), db)
  else (.ok (), { db with entryChunks := db.entryChunks ++ [row] })

def insertEntryChunk (entryId sequenceNumber : Int) (chunkHash : Bytes) (rawOffset rawLength : Nat) :
    Sql Unit := do
  bindTexts [chunkHash]
  let rawOffset ← Program.ofExcept (checkedInt64 rawOffset "chunk raw offset")
  let rawLength ← Program.ofExcept (checkedInt64 rawLength "chunk raw length")
  addEntryChunk ⟨entryId, sequenceNumber, chunkHash, rawOffset, rawLength⟩

def addWarning (snapshotId : SnapshotId) (warning : ScanWarning) : Sql Unit := fun db =>
  if !db.snapshots.any (fun s => s.id == snapshotId) then
    (.error (constraintFailed "FOREIGN KEY constraint failed"), db)
  else
    let id := db.lastWarningId + 1
    let row : WarningRow := ⟨id, snapshotId, warning.relativePath, warning.code, warning.message⟩
    (.ok (), { db with warnings := db.warnings ++ [row], lastWarningId := id })

def insertWarning (snapshotId : SnapshotId) (warning : ScanWarning) : Sql Unit := do
  bindTexts [warning.relativePath]
  addWarning snapshotId warning

end LocalVault
