import LocalVault.Restore.Engine

namespace LocalVault.Restore
open Library Library.FileTree

/-- What is done about an entry that is counted as restored but whose metadata is not. -/
abbrev Warn := Bytes → String → RestoreM Unit

/-! The rounds that can warn, with the warning left open. With `skipEntry` for it they are the
rounds of the engine. -/

namespace Warned

def publishFile (warn : Warn) (c : Context) (planned : PlannedEntry) (temporary : Path)
    (metadataWarning : Option String) : RestoreM Unit := do
  let entry := planned.entry
  requireSafeAncestors c.host c.root entry.relativePath
  match ← publishRestoredPath c.host temporary (c.destination entry)
      (planned.action = .replace) with
  | .destinationExists => skipEntry entry.relativePath "destination appeared during restore"
  | .published =>
    flush c.host "failed to flush repository directory: " (c.destination entry).dropLast
    let total ← .read (fun w => w.result.restoredBytes)
    let total ← .ofExcept (checkedAdd total entry.logicalSize (components entry.relativePath))
    .update (·.countFile total)
    match metadataWarning with
    | some warning => warn entry.relativePath warning
    | none => pure ()
    reportProgress c.host .restoring (components entry.relativePath) c.totalEntries

def produceFile (warn : Warn) (c : Context) (planned : PlannedEntry)
    (chunks : List ChunkReferenceInfo) (temporary : Path) : RestoreM Unit := do
  let entry := planned.entry
  let (written, hashed) ← writeChunks c entry temporary chunks 0 []
  if written ≠ entry.logicalSize then
    .raise { code := .objectCorrupt,
             message := "restored file size does not match snapshot metadata",
             path := components entry.relativePath }
  else if entry.fileHashHex ≠ some (toHex (c.x.blake3 hashed)) then
    .raise { code := .objectCorrupt,
             message := "restored file failed full-file BLAKE3 verification",
             path := components entry.relativePath }
  else
    flush c.host "failed to sync restored temporary file: " temporary
    let metadataWarning ← fileMetadata c entry temporary
    publishFile warn c planned temporary metadataWarning

def restoreFile (warn : Warn) (c : Context) (planned : PlannedEntry) : RestoreM Unit := do
  let entry := planned.entry
  if entry.type ≠ .regularFile then pure ()
  else
    checkCancelled c.host (components entry.relativePath)
    if planned.action = .skip then skipEntry entry.relativePath "destination file conflicts"
    else
      requireSafeAncestors c.host c.root entry.relativePath
      withTemporaryOutputFile c.host (c.destination entry).dropLast
        (produceFile warn c planned (c.chunksAt entry.id))

def restoreDirectoryMetadata (warn : Warn) (c : Context) (planned : PlannedEntry) :
    RestoreM Unit := do
  let entry := planned.entry
  if entry.type ≠ .directory ∨ planned.metadataAllowed = false then pure ()
  else
    requireSafeAncestors c.host c.root entry.relativePath
    requireRealDirectory c.host (c.destination entry)
    (applyRestoredMetadata c.host (c.destination entry) entry.modifiedTimeNs
      entry.posixMode).rescue (fun e =>
        warn entry.relativePath ("directory restored; metadata not fully restored: " ++ e.message))

def runPlan (warn : Warn) (c : Context) (plan : List PlannedEntry) : RestoreM RestoreResult := do
  reportProgress c.host .restoring c.root c.totalEntries
  .each (restoreDirectory c) plan
  .each (restoreFile warn c) plan
  .each (restoreLink c) plan
  .each (restoreDirectoryMetadata warn c) (plan.insertionSort deepFirst)
  reportProgress c.host .complete c.root c.totalEntries
  .read World.result

def restoreSelected (warn : Warn) (x : Externals) (h : Host) (repository : RepositoryView)
    (request : RestoreRequest) (root : Path) (selected : List EntryInfo)
    (chunks : List (Int × List ChunkReferenceInfo)) : RestoreM RestoreResult := do
  createDirectories h root.inits.tail
  let plan ← buildPlan h request root selected
  let c : Context :=
    { x, host := h, root, objects := repository.objects, chunkSize := repository.chunkSizeBytes,
      chunks, totalEntries := plan.length }
  runPlan warn c plan

def restore (warn : Warn) (x : Externals) (h : Host) (repository : RepositoryView)
    (request : RestoreRequest) : RestoreM RestoreResult := do
  if repository.openMode ≠ .readWrite then
    .raise { code := .invalidArgument, message := "restore requires a read-write repository",
             path := repository.root }
  else if request.overwritePolicy = .prompt ∧ request.conflictResolver.isNone then
    .raise { code := .invalidArgument,
             message := "prompt overwrite policy requires a conflict resolver" }
  else
    checkCancelled h (names request.destinationRoot)
    let root ← normalizedDestination h request.destinationRoot repository
    callback h
    let (selected, chunks) ← .ofExcept (loadSelection repository request)
    restoreSelected warn x h repository request root selected chunks

theorem restore_skipEntry (x : Externals) (h : Host) (repository : RepositoryView)
    (request : RestoreRequest) :
    restore skipEntry x h repository request = Restore.restore x h repository request := rfl

end Warned

/-- No file of the run is published after its metadata failed, and no directory's metadata
fails: it is the same run whatever is done about a warning. -/
def Unwarned (x : Externals) (h : Host) (repository : RepositoryView) (request : RestoreRequest)
    (w : World) : Prop :=
  ∀ warn, Warned.restore warn x h repository request w = restore x h repository request w

end LocalVault.Restore
