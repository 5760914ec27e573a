import LocalVault.Repository.Recovery
import LocalVault.Snapshot.Queue

namespace LocalVault.Snapshot
open Library Repository

inductive FileJob where
  | entry (e : ScannedEntry)
  | warning (w : ScanWarning)
  deriving DecidableEq, Repr

structure ChunkReferenceRecord where
  hashHex : Bytes
  rawOffset : Nat
  sequenceNumber : Int
  rawSize : Nat
  storedSize : Nat
  newlyStored : Bool
  deriving DecidableEq, Repr

structure PlatformFileMetadata where
  logicalSize : Nat
  modifiedTimeNs : Int
  changedTimeNs : Int
  fileIdVolume : Nat
  fileIdValue : Nat
  posixMode : Nat
  deriving DecidableEq, Repr

def PlatformFileMetadata.sameStableIdentity (m other : PlatformFileMetadata) : Bool :=
  m.logicalSize == other.logicalSize && m.modifiedTimeNs == other.modifiedTimeNs &&
  m.changedTimeNs == other.changedTimeNs && m.fileIdVolume == other.fileIdVolume &&
  m.fileIdValue == other.fileIdValue

/-- A read attempt that was given up: its exception, whether it came out of the
chunk callback, and the references the attempt had spooled. -/
structure FailedAttempt where
  error : LocalVaultError
  callback : Bool
  spool : List ChunkReferenceRecord
  deriving DecidableEq, Repr

/-- A read attempt up to its second look at the metadata, as the outside answered it. -/
structure ReadAttempt where
  before : PlatformFileMetadata
  chunks : List Bytes
  after : PlatformFileMetadata
  deriving DecidableEq, Repr

/-- What a worker hands to the writer. The last three fields are history: the
job it comes from, the attempts that failed and the one that was accepted. -/
structure ProcessedEntry where
  value : FileJob
  chunkReferences : Option (List ChunkReferenceRecord)
  fileHashHex : Bytes
  chunkCount : Nat
  newChunkCount : Nat
  origin : FileJob
  failures : List FailedAttempt
  accepted : Option ReadAttempt
  deriving DecidableEq, Repr

/-- The options of a run and what the scanner emits in it: the jobs in their
order, and the exception it ends with, if any. -/
structure Config where
  source : Path
  snapshotId : SnapshotId
  startedAtNs : Int
  chunkSize : Nat
  workerCount : Nat
  jobQueueCapacity : Nat
  resultQueueCapacity : Nat
  resultQueueByteCapacity : Nat
  metadataBatchEntryLimit : Nat
  metadataBatchLogicalByteLimit : Nat
  retryUnstableFiles : Bool
  processedEntryOverhead : Nat
  scan : List FileJob
  scanError : Option Raised

/-- An exception on its way to `shutdown`. It is secondary if the stop that
`shutdown` requests has caused it. -/
structure Failure where
  error : Raised
  primary : Bool
  deriving DecidableEq, Repr

/-- What `shutdown` does next. -/
inductive Stage where
  | record
  | requestStop
  | closeJobs
  | closeProcessed
  | cancelProgress
  deriving DecidableEq, Repr

def Stage.next : Stage → Option Stage
  | .record => some .requestStop
  | .requestStop => some .closeJobs
  | .closeJobs => some .closeProcessed
  | .closeProcessed => some .cancelProgress
  | .cancelProgress => none

/-- A regular file in the hands of a worker. -/
structure Task where
  original : ScannedEntry
  attempt : Nat
  failures : List FailedAttempt
  deriving DecidableEq, Repr

/-- A read attempt between its two looks at the metadata. `chunks` is history:
what the chunker has delivered in it. -/
structure Reading where
  task : Task
  before : PlatformFileMetadata
  chunks : List Bytes
  rawOffset : Nat
  bytesRead : Nat
  sequence : Nat
  newChunkCount : Nat
  hashed : Bytes
  spool : List ChunkReferenceRecord
  deriving DecidableEq, Repr

inductive ScannerPc where
  | waiting
  | starting
  | emitting (rest : List FileJob)
  | pushing (job : FileJob) (rest : List FileJob)
  | refused (job : FileJob)
  | closing
  | shutting (f : Failure) (stage : Stage)
  | done
  deriving DecidableEq, Repr

inductive WorkerPc where
  | waiting
  | starting
  | popping
  | beginning (t : Task)
  | measuring (t : Task)
  | opening (t : Task) (before : PlatformFileMetadata)
  | reading (r : Reading)
  | storing (r : Reading) (raw : Bytes)
  | compressing (r : Reading) (raw : Bytes)
  | publishing (r : Reading) (raw compressed : Bytes)
  | confirming (r : Reading)
  | finished (p : ProcessedEntry)
  | pushing (p : ProcessedEntry)
  | refused (p : ProcessedEntry) (oversized : Bool)
  | shutting (f : Failure) (stage : Stage)
  | leaving
  | closing
  | done
  deriving DecidableEq, Repr

/-- A worker thread with the records of its own `ObjectStore`. The rest is
history: the jobs it has taken, the results it has made of them, the attempts
that came to their second look, and whether an exception has left its loop. -/
structure Worker where
  pc : WorkerPc
  known : Known
  taken : List FileJob
  given : List ProcessedEntry
  attempts : List ReadAttempt
  fatal : Bool
  deriving DecidableEq, Repr

def WorkerPc.shuts : WorkerPc → Bool
  | .shutting _ _ => true
  | _ => false

def Worker.goto (w : Worker) (pc : WorkerPc) : Worker := { w with pc, fatal := w.fatal || pc.shuts }

def Worker.observed (w : Worker) (r : Reading) (after : PlatformFileMetadata) : Worker :=
  { w with attempts := w.attempts ++ [⟨r.before, r.chunks, after⟩] }

inductive WriterPc where
  | waiting
  | starting
  | popping
  | inserting (p : ProcessedEntry)
  | referring (p : ProcessedEntry) (entryId : Int) (rest : List ChunkReferenceRecord)
  | committing (last : Bool)
  | ending
  | shutting (f : Failure) (stage : Stage)
  | done
  deriving DecidableEq, Repr

inductive ProgressPc where
  | waiting
  | running
  | shutting (f : Failure) (stage : Stage)
  | done
  deriving DecidableEq, Repr

/-- The thread that requests the external stop, inside the stop callback. -/
inductive CancellerPc where
  | idle
  | shutting (f : Failure) (stage : Stage)
  | done
  deriving DecidableEq, Repr

inductive MainPc where
  | checking
  | announcing
  | checkingAgain
  | registering
  | cancelling (f : Failure) (stage : Stage)
  | deciding
  | creating (created : Nat)
  | shutting (f : Failure) (stage : Stage)
  | joiningScanner
  | joiningWorkers
  | joiningWriter
  | joiningProgress
  | unregistering
  | rethrowing
  | concluding
  | finalizing
  | checkingLast
  | publishing
  | failing (f : Failure)
  | published
  deriving DecidableEq, Repr

/-- The counters of the open metadata batch. -/
structure Batch where
  db : Database
  recordCount : Nat
  logicalBytes : Nat
  hasRecords : Bool

structure State where
  vault : Vault
  batch : Option Batch
  jobs : Queue FileJob
  processed : Queue ProcessedEntry
  stopRequested : Bool
  firstError : Option Raised
  handed : List Failure
  activeWorkers : Nat
  progressFinished : Bool
  progressCancelled : Bool
  externalStop : Bool
  registered : Bool
  totals : SnapshotTotals
  skippedEntries : List SkippedEntry
  handled : List ProcessedEntry
  scanner : ScannerPc
  workers : Nat → Worker
  writer : WriterPc
  progress : ProgressPc
  canceller : CancellerPc
  main : MainPc

/-- What a thread does next, with the answer of the outside where it asks for
one: nothing to choose, an exception out of the call it makes, the metadata or
the bytes it reads, the time, a stop request it sees, or an exception that
follows the publication of an object or the commit of a batch. -/
inductive Act where
  | next
  | raises (e : Raised)
  | observes (m : PlatformFileMetadata)
  | reads (bytes : Bytes)
  | ticks (now : Int)
  | seesStop
  | publishesThenRaises (e : Raised)
  deriving DecidableEq, Repr

inductive Label where
  | scanner (a : Act)
  | worker (index : Nat) (a : Act)
  | writer (a : Act)
  | progress (a : Act)
  | canceller
  | main (a : Act)
  | requestExternalStop
  deriving DecidableEq, Repr

def snapshotCancelled (path : Path) : LocalVaultError :=
  { code := .cancelled, message := "snapshot cancelled", path }

def internalError (message : String) (path : Path := []) : LocalVaultError :=
  { code := .internalError, message, path }

def Failure.raised (e : LocalVaultError) : Failure := ⟨.localVault e, true⟩

def Failure.stopped (path : Path) : Failure := ⟨.localVault (snapshotCancelled path), false⟩

/-- `require_push` of a refused item. -/
def rejected (stopRequested : Bool) (path : Path) (queueName : String) : LocalVaultError :=
  if stopRequested then snapshotCancelled path
  else internalError (queueName ++ " rejected a pipeline item") path

/-- One step of `shutdown`, by whichever thread runs it. -/
def State.shut (s : State) (f : Failure) : Stage → State
  | .record =>
    { s with firstError := s.firstError.or (some f.error), handed := s.handed ++ [f] }
  | .requestStop => { s with stopRequested := true }
  | .closeJobs => { s with jobs := s.jobs.close }
  | .closeProcessed => { s with processed := s.processed.close }
  | .cancelProgress => { s with progressCancelled := true }

/-- Where a thread stands after a step of its `shutdown`. -/
def afterStage {pc : Type} (shutting : Failure → Stage → pc) (finished : pc) (f : Failure)
    (stage : Stage) : pc :=
  match stage.next with
  | some stage' => shutting f stage'
  | none => finished

/-- The path a message about a job names. -/
def FileJob.path (c : Config) : FileJob → Path
  | .entry e => e.sourcePath
  | .warning _ => c.source

/-- The scanner thread. -/
def stepScanner (c : Config) (s : State) (a : Act) : Option State :=
  match s.scanner, a with
  | .starting, .next => some { s with scanner := .emitting c.scan }
  | .starting, .raises e => some { s with scanner := .shutting ⟨e, true⟩ .record }
  | .emitting (job :: rest), .next => some { s with scanner := .pushing job rest }
  | .emitting [], .next =>
    match c.scanError with
    | none => some { s with scanner := .closing }
    | some e => some { s with scanner := .shutting ⟨e, true⟩ .record }
  | .emitting _, .raises e => some { s with scanner := .shutting ⟨e, true⟩ .record }
  | .emitting _, .seesStop =>
    if s.stopRequested then
      some { s with scanner := .shutting (.stopped c.source) .record }
    else none
  | .pushing job rest, .next =>
    match s.jobs.push s.stopRequested job 0 with
    | .accepted jobs => some { s with jobs, scanner := .emitting rest }
    | .refused | .oversized => some { s with scanner := .refused job }
    | .waits => none
  | .refused job, .next =>
    let e := rejected s.stopRequested (job.path c) "file-job queue"
    some { s with scanner := .shutting ⟨.localVault e, false⟩ .record }
  | .closing, .next => some { s with jobs := s.jobs.close, scanner := .done }
  | .shutting f stage, .next =>
    some { s.shut f stage with scanner := afterStage .shutting .done f stage }
  | _, _ => none

def attemptCount (c : Config) : Nat := if c.retryUnstableFiles then 2 else 1

/-- The result of a file that could not be read. -/
def unreadable (t : Task) (failed : FailedAttempt) : ProcessedEntry :=
  { value := .warning
      { relativePath := t.original.relativePath
        code := if failed.error.code = .sourceChanged then "source_changed" else "source_unavailable"
        message := failed.error.message }
    chunkReferences := none, fileHashHex := [], chunkCount := 0, newChunkCount := 0
    origin := .entry t.original, failures := t.failures ++ [failed], accepted := none }

/-- The handlers of a read attempt: what an exception makes of the worker. -/
def caught (c : Config) (t : Task) (callback : Bool) (spool : List ChunkReferenceRecord)
    (f : Failure) : WorkerPc :=
  match f.error with
  | .localVault e =>
    if callback ∨ e.code = .cancelled ∨ (e.code ≠ .filesystemError ∧ e.code ≠ .sourceChanged) then
      .shutting f .record
    else if t.attempt + 1 < attemptCount c then
      .beginning { t with
        attempt := t.attempt + 1
        failures := t.failures ++ [⟨e, callback, spool⟩] }
    else .finished (unreadable t ⟨e, callback, spool⟩)
  | _ => .shutting f .record

/-- An exception of the outside, at the places where a worker can meet one. -/
def raisedIn (c : Config) (pc : WorkerPc) (e : Raised) : Option WorkerPc :=
  match pc with
  | .starting | .popping | .beginning _ | .finished _ | .pushing _ =>
    some (.shutting ⟨e, true⟩ .record)
  | .measuring t | .opening t _ => some (caught c t false [] ⟨e, true⟩)
  | .reading r | .confirming r => some (caught c r.task false r.spool ⟨e, true⟩)
  | .storing r _ | .compressing r _ | .publishing r _ _ =>
    some (caught c r.task true r.spool ⟨e, true⟩)
  | _ => none

/-- What a job becomes that needs no reading. -/
def passed (job : FileJob) : ProcessedEntry :=
  { value := job, chunkReferences := none, fileHashHex := [], chunkCount := 0, newChunkCount := 0
    origin := job, failures := [], accepted := none }

def accept (job : FileJob) : WorkerPc :=
  match job with
  | .entry e => if e.type = .regularFile then .beginning ⟨e, 0, []⟩ else .finished (passed job)
  | .warning _ => .finished (passed job)

def ChunkReferenceRecord.of (object : StoredObject) (rawOffset sequence : Nat) :
    ChunkReferenceRecord :=
  ⟨object.hashHex, rawOffset, sequence, object.rawSize, object.storedSize, object.newlyStored⟩

/-- A chunk that the chunker has read, given to the hasher of the file. -/
def Reading.deliver (r : Reading) (raw : Bytes) : Reading :=
  { r with chunks := r.chunks ++ [raw], hashed := r.hashed ++ raw }

/-- A chunk that was stored, with its reference appended to the spool. -/
def Reading.append (r : Reading) (raw : Bytes) (object : StoredObject) : Reading :=
  { r with
    rawOffset := r.rawOffset + raw.length
    bytesRead := r.bytesRead + object.rawSize
    sequence := r.sequence + 1
    newChunkCount := r.newChunkCount + if object.newlyStored then 1 else 0
    spool := r.spool ++ [.of object r.rawOffset r.sequence] }

/-- The end of the chunk callback; reading goes on unless the file has ended. -/
def appended (c : Config) (r : Reading) (raw : Bytes) (object : StoredObject) : WorkerPc :=
  if maximumByteCount - object.rawSize < r.bytesRead then
    caught c r.task true r.spool (.raised (internalError "file bytes read counter overflow"))
  else if maximumInt64 < r.sequence then
    caught c r.task true r.spool (.raised (internalError "file has too many chunks"))
  else if object.hashHex.length ≠ 64 then
    caught c r.task true r.spool
      (.raised (internalError "stored object has an invalid chunk-reference hash"))
  else if raw.length < c.chunkSize then .confirming (r.append raw object)
  else .reading (r.append raw object)

/-- The result of a file that did not change while it was read. -/
def stable (x : Externals) (r : Reading) (after : PlatformFileMetadata) : ProcessedEntry :=
  { value := .entry { r.task.original with
      logicalSize := r.before.logicalSize
      modifiedTimeNs := r.before.modifiedTimeNs
      posixMode := r.before.posixMode }
    chunkReferences := some r.spool
    fileHashHex := toHex (x.blake3 r.hashed)
    chunkCount := r.sequence
    newChunkCount := r.newChunkCount
    origin := .entry r.task.original
    failures := r.task.failures
    accepted := some ⟨r.before, r.chunks, after⟩ }

def confirmed (c : Config) (x : Externals) (r : Reading) (after : PlatformFileMetadata) : WorkerPc :=
  if r.bytesRead ≠ r.before.logicalSize ∨ !r.before.sameStableIdentity after then
    caught c r.task false r.spool (.raised
      { code := .sourceChanged, message := "source file changed while reading"
        path := r.task.original.sourcePath })
  else .finished (stable x r after)

def saturatingAdd (total value : Nat) : Nat := min (total + value) (2 ^ 64 - 1)

def nativeSize (path : Path) : Nat := (path.map (fun n => n.length + 1)).sum

def processedEntrySize (c : Config) (p : ProcessedEntry) : Nat :=
  let parts := match p.value with
    | .entry e => [nativeSize e.sourcePath, e.relativePath.length, e.parentPath.length,
        e.name.length, (e.symlinkTarget.map List.length).getD 0]
    | .warning w => [w.relativePath.length, w.code.utf8ByteSize, w.message.utf8ByteSize]
  (parts ++ [p.fileHashHex.length]).foldl saturatingAdd c.processedEntryOverhead

def State.setWorker (s : State) (index : Nat) (w : Worker) : State :=
  { s with workers := fun i => if i = index then w else s.workers i }

def State.moveWorker (s : State) (index : Nat) (pc : WorkerPc) : State :=
  s.setWorker index ((s.workers index).goto pc)

/-- A worker thread. -/
def stepWorker (c : Config) (x : Externals) (s : State) (index : Nat) (a : Act) : Option State :=
  let w := s.workers index
  let stopped := fun (t : Task) (callback : Bool) (spool : List ChunkReferenceRecord) =>
    some (s.moveWorker index (caught c t callback spool (.stopped t.original.sourcePath)))
  match w.pc, a with
  | pc, .raises e => (raisedIn c pc e).map (s.moveWorker index)
  | .starting, .next => some (s.moveWorker index .popping)
  | .popping, .next =>
    match s.jobs.pop s.stopRequested with
    | .item job jobs => some ({ s with jobs }.setWorker index ({ w with taken := w.taken ++ [job] }.goto (accept job)))
    | .ended => some (s.moveWorker index .leaving)
    | .waits => none
  | .beginning t, .next => some (s.moveWorker index (.measuring t))
  | .measuring t, .observes before =>
    if s.stopRequested then stopped t false [] else some (s.moveWorker index (.opening t before))
  | .opening t before, .next =>
    if s.stopRequested then stopped t false []
    else some (s.moveWorker index (.reading ⟨t, before, [], 0, 0, 0, 0, [], []⟩))
  | .reading r, .reads bytes =>
    if s.stopRequested then stopped r.task false r.spool
    else if c.chunkSize < bytes.length then none
    else if bytes = [] then some (s.moveWorker index (.confirming r))
    else if maximumByteCount - bytes.length < r.rawOffset then
      some (s.moveWorker index (caught c r.task false r.spool (.raised
        { code := .filesystemError, message := "source file size is outside the supported range"
          path := r.task.original.sourcePath })))
    else some (s.moveWorker index (.storing (r.deliver bytes) bytes))
  | .storing r raw, .next =>
    if s.stopRequested then stopped r.task true r.spool
    else match findStored x c.chunkSize w.known s.vault.objects raw with
      | .error e => some (s.moveWorker index (caught c r.task true r.spool (.raised e)))
      | .ok (some object) => some (s.moveWorker index (appended c r raw object))
      | .ok none => some (s.moveWorker index (.compressing r raw))
  | .compressing r raw, .next =>
    if s.stopRequested then
      some (s.moveWorker index (caught c r.task true r.spool
        ⟨.localVault (objectStorageCancelled (derivedPath (hashRaw x raw))), false⟩))
    else match compressChunk x c.chunkSize raw with
      | .error e => some (s.moveWorker index (caught c r.task true r.spool (.raised e)))
      | .ok compressed => some (s.moveWorker index (.publishing r raw compressed))
  | .publishing r raw compressed, .next =>
    match storeUnderStripe x c.chunkSize w.known s.vault.objects raw compressed with
    | .error e => some (s.moveWorker index (caught c r.task true r.spool (.raised e)))
    | .ok (object, known, objects) =>
      some ({ s with vault := { s.vault with objects } }.setWorker index
        ({ w with known }.goto (appended c r raw object)))
  | .publishing r raw compressed, .publishesThenRaises e =>
    match findExistingFile x c.chunkSize w.known s.vault.objects (hashRaw x raw)
        (derivedPath (hashRaw x raw)) raw.length with
    | .ok (none, _) =>
      let objects := s.vault.objects.publish (derivedPath (hashRaw x raw)) compressed
      some ({ s with vault := { s.vault with objects } }.moveWorker index
        (caught c r.task true r.spool ⟨e, true⟩))
    | _ => none
  | .confirming r, .observes after =>
    some (s.setWorker index ((w.observed r after).goto (confirmed c x r after)))
  | .finished p, .next =>
    some (s.setWorker index ({ w with given := w.given ++ [p] }.goto (.pushing p)))
  | .pushing p, .next =>
    match s.processed.push s.stopRequested p (processedEntrySize c p) with
    | .accepted processed => some ({ s with processed }.moveWorker index .popping)
    | .refused => some (s.moveWorker index (.refused p false))
    | .oversized => some (s.moveWorker index (.refused p true))
    | .waits => none
  | .refused p oversized, .next =>
    some (s.moveWorker index (.shutting
      ⟨.localVault (rejected s.stopRequested (p.value.path c) "processed-entry queue"),
        oversized && !s.stopRequested⟩ .record))
  | .shutting f stage, .next =>
    some ((s.shut f stage).moveWorker index (afterStage .shutting .leaving f stage))
  | .leaving, .next =>
    some ({ s with activeWorkers := s.activeWorkers - 1 }.moveWorker index
      (if s.activeWorkers = 1 then .closing else .done))
  | .closing, .next => some ({ s with processed := s.processed.close }.moveWorker index .done)
  | _, _ => none

/-- An exception in the writer thread: its open batch is rolled back. -/
def State.writerFails (s : State) (f : Failure) : State :=
  { s with batch := none, writer := .shutting f .record }

def addBytes (total value : Nat) (counter : String) : Except LocalVaultError Nat :=
  if maximumByteCount - value < total then .error (internalError (counter ++ " counter overflow"))
  else .ok (total + value)

/-- The end of a record: the batch is committed when it is full. -/
def State.recorded (c : Config) (s : State) (b : Batch) (db : Database) (logicalBytes : Nat)
    (p : ProcessedEntry) : State :=
  let full := c.metadataBatchEntryLimit ≤ b.recordCount + 1 ∨
    c.metadataBatchLogicalByteLimit ≤ logicalBytes
  { s with
    batch := some ⟨db, b.recordCount + 1, logicalBytes, true⟩
    handled := s.handled ++ [p]
    writer := if full then .committing false else .popping }

/-- The end of an entry, whose size counts for the batch. -/
def State.recordedEntry (c : Config) (s : State) (b : Batch) (db : Database) (logicalSize : Nat)
    (p : ProcessedEntry) : State :=
  match addBytes b.logicalBytes logicalSize "metadata batch logical size" with
  | .error e => s.writerFails (.raised e)
  | .ok logicalBytes => s.recorded c b db logicalBytes p

/-- `ObjectStore::ensure_metadata` of the writer. -/
def ensureMetadata (c : Config) (objects : Objects) (object : StoredObject) (now : Int) : Sql Unit := do
  Program.ofExcept (requireValidHash object.hashHex .objectCorrupt)
  let verified ← Program.ofExcept (requireReusable c.chunkSize objects object object.hashHex
    (derivedPath object.hashHex) object.rawSize)
  ensureChunk ⟨verified.hashHex, verified.rawSize, verified.storedSize, verified.relativePath, now⟩

/-- A chunk reference of a file as the writer records it. -/
def recordChunk (c : Config) (objects : Objects) (entryId : Int) (ref : ChunkReferenceRecord)
    (now : Int) : Sql Unit := do
  let relativePath ← Program.ofExcept (objectRelativePath ref.hashHex)
  ensureMetadata c objects
    ⟨ref.hashHex, relativePath, ref.rawSize, ref.storedSize, ref.newlyStored⟩ now
  insertEntryChunk entryId ref.sequenceNumber ref.hashHex ref.rawOffset ref.rawSize

/-- `++` on an unsigned counter of 64 bits. -/
def increment (counter : Nat) : Nat := (counter + 1) % (maximumByteCount + 1)

def countChunk (totals : SnapshotTotals) (ref : ChunkReferenceRecord) :
    Except LocalVaultError SnapshotTotals :=
  if ref.newlyStored then do
    let newStoredSize ← addBytes totals.newStoredSize ref.storedSize "new stored size"
    .ok { totals with newChunkCount := increment totals.newChunkCount, newStoredSize }
  else .ok { totals with reusedChunkCount := increment totals.reusedChunkCount }

/-- The counter of a directory or a symbolic link. -/
def countEntry (totals : SnapshotTotals) : EntryType → SnapshotTotals
  | .directory => { totals with directoryCount := increment totals.directoryCount }
  | .symbolicLink => { totals with symlinkCount := increment totals.symlinkCount }
  | .regularFile => { totals with fileCount := increment totals.fileCount }

/-- What the writer does with an entry row it has inserted. -/
def State.inserted (c : Config) (s : State) (b : Batch) (db : Database) (entryId : Int)
    (e : ScannedEntry) (p : ProcessedEntry) : State :=
  let totals := countEntry s.totals e.type
  if e.type ≠ .regularFile then { s with totals }.recordedEntry c b db e.logicalSize p
  else
    match addBytes totals.logicalSize e.logicalSize "logical size" with
    | .error error => s.writerFails (.raised error)
    | .ok logicalSize =>
      match p.chunkReferences with
      | none =>
        s.writerFails (.raised
          (internalError "regular file result is missing its chunk spool" e.sourcePath))
      | some references =>
        { s with
          totals := { totals with logicalSize }
          batch := some { b with db }
          writer := .referring p entryId references }

/-- The writer thread. -/
def stepWriter (c : Config) (s : State) (a : Act) : Option State :=
  match s.writer, s.batch, a with
  | .starting, _, .next =>
    some { s with batch := some ⟨s.vault.db, 0, 0, false⟩, writer := .popping }
  | .starting, _, .raises e => some (s.writerFails ⟨e, true⟩)
  | .popping, some _, .next =>
    match s.processed.pop s.stopRequested with
    | .item p processed => some { s with processed, writer := .inserting p }
    | .ended => some { s with writer := .ending }
    | .waits => none
  | .inserting p, some b, .next =>
    match p.value with
    | .warning w =>
      match insertWarning c.snapshotId w b.db with
      | (.error e, _) => some (s.writerFails (.raised e))
      | (.ok (), db) =>
        let skipped : SkippedEntry := ⟨w.relativePath, w.message⟩
        some ({ s with skippedEntries := s.skippedEntries ++ [skipped] }.recorded
          c b db b.logicalBytes p)
    | .entry e =>
      if s.stopRequested then some (s.writerFails (.stopped e.sourcePath))
      else match insertEntry c.snapshotId e b.db with
        | (.error error, _) => some (s.writerFails (.raised error))
        | (.ok entryId, db) => some (s.inserted c b db entryId e p)
  | .referring p entryId (ref :: rest), some b, .ticks now =>
    if s.stopRequested then some (s.writerFails (.stopped (p.value.path c)))
    else match recordChunk c s.vault.objects entryId ref now b.db with
      | (.error e, _) => some (s.writerFails (.raised e))
      | (.ok (), db) =>
        match countChunk s.totals ref with
        | .error e => some (s.writerFails (.raised e))
        | .ok totals =>
          some { s with totals, batch := some { b with db }, writer := .referring p entryId rest }
  | .referring p entryId [], some b, .next =>
    match setRegularFileHash entryId p.fileHashHex b.db with
    | (.error e, _) => some (s.writerFails (.raised e))
    | (.ok (), db) =>
      let logicalSize := match p.value with
        | .entry e => e.logicalSize
        | .warning _ => 0
      some (s.recordedEntry c b db logicalSize p)
  | .committing last, some b, .next =>
    let after : WriterPc := if last then .done else .popping
    let open' := if last then none else some (⟨b.db, 0, 0, false⟩ : Batch)
    if !b.hasRecords then some { s with batch := open', writer := after }
    else if s.stopRequested then some (s.writerFails (.stopped c.source))
    else some { s with
      vault := { s.vault with db := b.db }
      batch := open'
      writer := after }
  | .committing _, some b, .publishesThenRaises e =>
    -- the transaction of the next batch does not start
    if !b.hasRecords || s.stopRequested then none
    else some ({ s with vault := { s.vault with db := b.db } }.writerFails ⟨e, true⟩)
  | .ending, some _, .next =>
    if s.stopRequested then some { s with batch := none, writer := .done }
    else some { s with writer := .committing true }
  | .popping, some _, .raises e | .inserting _, some _, .raises e
  | .referring _ _ _, some _, .raises e | .committing _, some _, .raises e =>
    some (s.writerFails ⟨e, true⟩)
  | .shutting f stage, _, .next =>
    some { s.shut f stage with writer := afterStage .shutting .done f stage }
  | _, _, _ => none

/-- The progress thread. -/
def stepProgress (s : State) (a : Act) : Option State :=
  match s.progress, a with
  | .running, .raises e => some { s with progress := .shutting ⟨e, true⟩ .record }
  | .running, .next =>
    if s.progressCancelled || s.progressFinished then some { s with progress := .done } else none
  | .shutting f stage, .next =>
    some { s.shut f stage with progress := afterStage .shutting .done f stage }
  | _, _ => none

def stepCanceller (s : State) : Option State :=
  match s.canceller with
  | .shutting f stage =>
    some { s.shut f stage with canceller := afterStage .shutting .done f stage }
  | _ => none

/-- Somebody requests the external stop: the callback runs on that thread while
it is registered. -/
def stepRequest (c : Config) (s : State) : Option State :=
  if s.externalStop then none
  else if s.registered then
    some { s with
      externalStop := true
      canceller := .shutting (.raised (snapshotCancelled c.source)) .record }
  else some { s with externalStop := true }

/-- The next thread is created: first progress, then the writer, the workers
and the scanner. -/
def State.create (c : Config) (s : State) (created : Nat) : State :=
  if created = 0 then { s with progress := .running, main := .creating 1 }
  else if created = 1 then { s with writer := .starting, main := .creating 2 }
  else if created < c.workerCount + 2 then
    { s with main := .creating (created + 1) }.moveWorker (created - 2) .starting
  else { s with scanner := .starting, main := .joiningScanner }

def ScannerPc.over : ScannerPc → Bool
  | .waiting | .done => true
  | _ => false

def WorkerPc.over : WorkerPc → Bool
  | .waiting | .done => true
  | _ => false

def WriterPc.over : WriterPc → Bool
  | .waiting | .done => true
  | _ => false

def ProgressPc.over : ProgressPc → Bool
  | .waiting | .done => true
  | _ => false

def CancellerPc.over : CancellerPc → Bool
  | .idle | .done => true
  | .shutting _ _ => false

/-- `check_cancelled` on the token of the caller. -/
def State.checkExternal (c : Config) (s : State) (next : MainPc) : State :=
  if s.externalStop then { s with main := .failing (.raised (snapshotCancelled c.source)) }
  else { s with main := next }

/-- The thread that called `create_snapshot`, from the pending row on. -/
def stepMain (c : Config) (s : State) (a : Act) : Option State :=
  match s.main, a with
  | .checking, .next => some (s.checkExternal c .announcing)
  | .announcing, .next => some { s with main := .checkingAgain }
  | .checkingAgain, .next => some (s.checkExternal c .registering)
  | .registering, .next =>
    if s.externalStop then
      some { s with main := .cancelling (.raised (snapshotCancelled c.source)) .record }
    else some { s with registered := true, main := .deciding }
  | .cancelling f stage, .next =>
    some { s.shut f stage with main := afterStage .cancelling .deciding f stage }
  | .deciding, .next =>
    if s.stopRequested then some { s with main := .joiningScanner }
    else some { s with main := .creating 0 }
  | .creating created, .next => some (s.create c created)
  | .creating _, .raises e => some { s with main := .shutting ⟨e, true⟩ .record }
  | .shutting f stage, .next =>
    some { s.shut f stage with main := afterStage .shutting .joiningScanner f stage }
  | .joiningScanner, .next =>
    if s.scanner.over then some { s with main := .joiningWorkers } else none
  | .joiningWorkers, .next =>
    if (List.range c.workerCount).all (fun i => (s.workers i).pc.over) then
      some { s with main := .joiningWriter }
    else none
  | .joiningWriter, .next =>
    if s.writer.over then some { s with progressFinished := true, main := .joiningProgress } else none
  | .joiningProgress, .next =>
    if s.progress.over then some { s with main := .unregistering } else none
  | .unregistering, .next =>
    if s.canceller.over then some { s with registered := false, main := .rethrowing } else none
  | .rethrowing, .next =>
    match s.firstError with
    | some e => some { s with main := .failing ⟨e, true⟩ }
    | none => some { s with main := .concluding }
  | .concluding, .ticks now =>
    if s.externalStop then
      some { s with main := .failing (.raised (snapshotCancelled c.source)) }
    else some { s with
      totals := { s.totals with durationMs := (now - c.startedAtNs).tdiv 1000000 }
      main := .finalizing }
  | .finalizing, .next => some { s with main := .checkingLast }
  | .checkingLast, .next => some (s.checkExternal c .publishing)
  | .publishing, .ticks now =>
    match markSnapshotComplete c.snapshotId s.totals now s.vault.db with
    | (.error e, _) => some { s with main := .failing (.raised e) }
    | (.ok (), db) => some { s with vault := { s.vault with db }, main := .published }
  | .announcing, .raises e | .registering, .raises e | .finalizing, .raises e
  | .publishing, .raises e => some { s with main := .failing ⟨e, true⟩ }
  | _, _ => none

def step (c : Config) (x : Externals) (s : State) : Label → Option State
  | .scanner a => stepScanner c s a
  | .worker index a => if index < c.workerCount then stepWorker c x s index a else none
  | .writer a => stepWriter c s a
  | .progress a => stepProgress s a
  | .canceller => stepCanceller s
  | .main a => stepMain c s a
  | .requestExternalStop => stepRequest c s

/-- The steps of a schedule, one after the other. -/
def run (c : Config) (x : Externals) : State → List Label → Option State
  | s, [] => some s
  | s, l :: ls => (step c x s l).bind (fun t => run c x t ls)

/-- The state in front of the pipeline, with the pending row committed. -/
def State.start (c : Config) (v : Vault) (externalStop : Bool) : State :=
  { vault := v, batch := none
    jobs := .empty c.jobQueueCapacity none
    processed := .empty c.resultQueueCapacity (some c.resultQueueByteCapacity)
    stopRequested := false, firstError := none, handed := [], activeWorkers := c.workerCount
    progressFinished := false, progressCancelled := false, externalStop, registered := false
    totals := ⟨0, 0, 0, 0, 0, 0, 0, 0⟩, skippedEntries := [], handled := []
    scanner := .waiting, workers := fun _ => ⟨.waiting, [], [], [], [], false⟩, writer := .waiting
    progress := .waiting, canceller := .idle, main := .checking }

end LocalVault.Snapshot
