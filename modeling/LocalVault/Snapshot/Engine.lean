import LocalVault.Snapshot.Pipeline

namespace LocalVault.Snapshot
open Library Repository

structure SnapshotOptions where
  message : String
  workerCount : Nat
  retryUnstableFiles : Bool
  deriving DecidableEq, Repr

structure SnapshotResult where
  snapshotId : SnapshotId
  fileCount : Nat
  directoryCount : Nat
  logicalBytes : Nat
  newStoredBytes : Nat
  newChunks : Nat
  reusedChunks : Nat
  skippedEntries : List SkippedEntry
  deriving DecidableEq, Repr

/-- The limits a `SnapshotEngine` works with, and the chunk size of its repository. -/
structure Engine where
  chunkSize : Nat
  jobQueueCapacity : Nat
  resultQueueCapacity : Nat
  resultQueueByteCapacity : Nat
  metadataBatchEntryLimit : Nat
  metadataBatchLogicalByteLimit : Nat
  processedEntryOverhead : Nat
  deriving DecidableEq, Repr

/-- The arguments of `create_snapshot`, and what the call meets: the cores of the
machine, what the scanner emits, the stop token, the order of the steps of its
threads, and the temporary files nobody removes. A schedule that leads to no
end is a process that dies on the way. -/
structure Call where
  source : Path
  sourceUtf8 : Bytes
  options : SnapshotOptions
  cores : Nat
  scan : List FileJob
  scanError : Option Raised
  cancelled : Bool
  externalStop : Bool
  schedule : List Label
  leftovers : List Name
  deriving DecidableEq, Repr

def defaultWorkerCount (cores : Nat) : Nat :=
  min (max (if cores = 0 then 4 else cores) 1) 16

def resolvedWorkerCount (cores requested : Nat) : Nat :=
  if requested = 0 then defaultWorkerCount cores else min (max requested 1) 16

def Engine.config (engine : Engine) (call : Call) (snapshotId : SnapshotId) (startedAtNs : Int) :
    Config :=
  { source := call.source
    snapshotId, startedAtNs
    chunkSize := engine.chunkSize
    workerCount := resolvedWorkerCount call.cores call.options.workerCount
    jobQueueCapacity := engine.jobQueueCapacity
    resultQueueCapacity := engine.resultQueueCapacity
    resultQueueByteCapacity := engine.resultQueueByteCapacity
    metadataBatchEntryLimit := engine.metadataBatchEntryLimit
    metadataBatchLogicalByteLimit := engine.metadataBatchLogicalByteLimit
    retryUnstableFiles := call.options.retryUnstableFiles
    processedEntryOverhead := engine.processedEntryOverhead
    scan := call.scan
    scanError := call.scanError }

/-- A schedule may name a step that is not possible; then nothing happens. -/
def follow (c : Config) (x : Externals) : State → List Label → State
  | s, [] => s
  | s, l :: ls => follow c x ((step c x s l).getD s) ls

def State.result (s : State) (c : Config) : SnapshotResult :=
  { snapshotId := c.snapshotId
    fileCount := s.totals.fileCount
    directoryCount := s.totals.directoryCount
    logicalBytes := s.totals.logicalSize
    newStoredBytes := s.totals.newStoredSize
    newChunks := s.totals.newChunkCount
    reusedChunks := s.totals.reusedChunkCount
    skippedEntries := s.skippedEntries }

/-- A temporary file of an object or a spool stays where it was written. -/
def litter (temporary : Temporary) : List Name → Temporary
  | [] => temporary
  | name :: rest =>
    let path := temporaryObjects ++ [name]
    if temporary.find temporaryObjects = some ⟨temporaryObjects, true⟩ ∧ temporary.find path = none then
      litter (temporary ++ [⟨path, false⟩]) rest
    else litter temporary rest

/-- Where the threads of a call end. -/
def Call.final (call : Call) (x : Externals) (c : Config) (v : Vault) : State :=
  follow c x (State.start c v call.externalStop) call.schedule

/-- The threads of the pipeline, from the pending row to the published snapshot. -/
def pipeline (x : Externals) (c : Config) (call : Call) : SessionM SnapshotResult := fun s =>
  let t := call.final x c s.vault
  let vault := { t.vault with temporary := litter t.vault.temporary call.leftovers }
  match t.main with
  | .published => (.ok (t.result c), { s with vault })
  | .failing f => (.error (.raised f.error), { s with vault })
  | _ => (.error .died, { s with vault })

/-- What a `catch (...)` clause around best-effort work lets through. -/
def bestEffort (m : SessionM Unit) : SessionM Unit :=
  m.rescue (fun stop =>
    match stop with
    | .raised _ => pure ()
    | other => .raise other)

def markIncompleteBestEffort (o : Outside) (id : SnapshotId) (status : SnapshotStatus)
    (message : String) (metadataBatchLimit : Nat) : SessionM Unit :=
  bestEffort (do
    let completedAtNs ← Program.read (fun s : Session => o.clock s.calls)
    transaction o (markSnapshotIncomplete id status message completedAtNs)
    cleanIncompleteSnapshot o id metadataBatchLimit)

def failureStatus : Raised → SnapshotStatus
  | .localVault e => if e.code = .cancelled then .cancelled else .failed
  | _ => .failed

def failureText : Raised → String
  | .localVault e => e.message
  | .standard what => what
  | .unknown => "unknown snapshot failure"

/-- What `create_snapshot` throws for an exception of its pipeline. -/
def rethrown (source : Path) : Raised → LocalVaultError
  | .localVault e => e
  | e => { code := .internalError, message := "snapshot failed: " ++ failureText e, path := source }

/-- The three handlers of `create_snapshot`. -/
def giveUp (o : Outside) (c : Config) : Stop → SessionM SnapshotResult
  | .raised e => do
    markIncompleteBestEffort o c.snapshotId (failureStatus e) (failureText e) c.metadataBatchEntryLimit
    throwing (rethrown c.source e)
  | stop => .raise stop

/-- `normalized_source`, `validate_containment`, the first callback and the writer
lock, each of which can throw. -/
def prepare (o : Outside) (r : Opened) (call : Call) : SessionM Unit :=
  if r.mode ≠ .readWrite then
    throwing { code := .invalidArgument, message := "snapshots require a read-write repository",
               path := r.root }
  else if call.cancelled then throwing (snapshotCancelled call.source)
  else calling o (Program.update Session.tick) (Program.update Session.tick)

/-- The pending row of a new snapshot, and what its pipeline works with. -/
def beginSnapshot (o : Outside) (engine : Engine) (call : Call) : SessionM Config := do
  let startedAtNs ← Program.read (fun s : Session => o.clock s.calls)
  let snapshotId ←
    transaction o (createPendingSnapshot call.sourceUtf8 call.options.message startedAtNs)
  pure (engine.config call snapshotId startedAtNs)

/-- `create_snapshot` up to its pipeline. -/
def openSnapshot (o : Outside) (r : Opened) (engine : Engine) (call : Call) : SessionM Config := do
  prepare o r call
  recoverAfterWriterLock o r
  beginSnapshot o engine call

def createSnapshot (o : Outside) (r : Opened) (x : Externals) (engine : Engine) (call : Call) :
    SessionM SnapshotResult := do
  let c ← openSnapshot o r engine call
  (pipeline x c call).rescue (giveUp o c)

end LocalVault.Snapshot
