import LocalVault.Library.Histories
import LocalVault.Restore.Engine
import LocalVault.Snapshot.Engine
import LocalVault.Snapshot.Scanner

namespace LocalVault.Restore

/-- `RestoreEngine::restore` in front of the writer lock. -/
def admitRestore (h : Host) (repository : RepositoryView) (request : RestoreRequest) :
    RestoreM Path :=
  if repository.openMode ≠ .readWrite then
    .raise { code := .invalidArgument, message := "restore requires a read-write repository",
             path := repository.root }
  else if request.overwritePolicy = .prompt ∧ request.conflictResolver.isNone then
    .raise { code := .invalidArgument,
             message := "prompt overwrite policy requires a conflict resolver" }
  else do
    checkCancelled h (names request.destinationRoot)
    normalizedDestination h request.destinationRoot repository

/-- `RestoreEngine::restore` behind the recovery. -/
def restoreRecovered (x : Externals) (h : Host) (repository : RepositoryView)
    (request : RestoreRequest) (root : Path) : RestoreM RestoreResult := do
  let (selected, chunks) ← .ofExcept (loadSelection repository request)
  restoreSelected x h repository request root selected chunks

/-- The lock and the recovery stand between the two halves. -/
theorem restore_halves (x : Externals) (h : Host) (repository : RepositoryView)
    (request : RestoreRequest) :
    restore x h repository request = (do
      let root ← admitRestore h repository request
      callback h
      restoreRecovered x h repository request root) := by
  unfold restore admitRestore
  split
  · rfl
  · split
    · rfl
    · funext w
      change Library.Program.andThen _ _ w =
        Library.Program.andThen (Library.Program.andThen _ _) _ w
      unfold Library.Program.andThen
      rcases checkCancelled h (names request.destinationRoot) w with ⟨r, w'⟩
      cases r <;> rfl

end LocalVault.Restore

namespace LocalVault.Repository
open Library Snapshot

/-- The chunk size a repository was created with. -/
structure Format where
  chunkSize : Nat
  positive : 0 < chunkSize
  supported : chunkSize ≤ permanentMaximumChunkSize

/-- A call of `create_snapshot` on a source. -/
structure SnapshotCall where
  engine : Engine
  call : Call
  host : ScanHost
  source : Source
  options : FileScannerOptions

/-- What the scanner emits in the call is what it meets in the source. -/
def SnapshotCall.made (s : SnapshotCall) : Call :=
  { s.call with
    scan := (scanStreaming s.host s.source s.options .start).2.jobs
    scanError :=
      match (scanStreaming s.host s.source s.options .start).1 with
      | .ok () => none
      | .error e => some e }

/-- The engine takes its chunk size from the repository. -/
def SnapshotCall.engineOf (s : SnapshotCall) (f : Format) : Engine :=
  { s.engine with chunkSize := f.chunkSize }

structure RestoreCall where
  host : Restore.Host
  request : Restore.RestoreRequest
  world : Restore.World
  resolvedRoot : Path

/-- What a restore reads of the vault. -/
def Opened.view (r : Opened) (f : Format) (v : Vault) (resolvedRoot : Path) :
    Restore.RepositoryView :=
  ⟨r.mode, r.root, resolvedRoot, v.db, v.objects, f.chunkSize⟩

def outcome {α : Type} : Except LocalVaultError α → SessionM Unit
  | .ok _ => pure ()
  | .error e => throwing e

/-- `RestoreEngine::restore`. It reads the vault and writes elsewhere. -/
def restoreSnapshot (o : Outside) (r : Opened) (x : Externals) (f : Format) (call : RestoreCall) :
    SessionM Unit := do
  let before ← Program.read (fun s : Session => r.view f s.vault call.resolvedRoot)
  match Restore.admitRestore call.host before call.request call.world with
  | (.error e, _) => throwing e
  | (.ok root, world) => do
    calling o (Program.update Session.tick) (Program.update Session.tick)
    recoverAfterWriterLock o r
    let after ← Program.read (fun s : Session => r.view f s.vault call.resolvedRoot)
    let written := outcome
      (Restore.restoreRecovered x call.host after call.request root world).1
    calling o written written

/-- Statements of a `MetadataStore` on the connection of a repository. -/
def writing (r : Opened) (m : SessionM Unit) : SessionM Unit :=
  if r.mode = .readWrite then m
  else throwing (databaseError
    "stepping statement failed (SQLite result 8): attempt to write a readonly database")

inductive Operation where
  | createSnapshot (call : SnapshotCall)
  | restore (call : RestoreCall)
  | transitionSnapshotToDeleting (id : SnapshotId)
  | deleteDeletingSnapshot (id : SnapshotId) (entryBatchLimit : Nat)
  | recover

def Operation.perform (f : Format) (x : Externals) (o : Outside) (r : Opened) :
    Operation → SessionM Unit
  | .createSnapshot call => do
    let _ ← Snapshot.createSnapshot o r x (call.engineOf f) call.made
    pure ()
  | .restore call => restoreSnapshot o r x f call
  | .transitionSnapshotToDeleting id => writing r (Repository.transitionSnapshotToDeleting o id)
  | .deleteDeletingSnapshot id limit => writing r (Repository.deleteDeletingSnapshot o id limit)
  | .recover => recoverAfterWriterLock o r

/-- An open `Repository` object of a process. -/
structure Handle where
  process : Nat
  opened : Opened
  recoveryComplete : Bool

/-- A repository on disk with the objects that are open on it. -/
structure System where
  vault : Vault
  handles : List Handle

/-- Operations follow one another, because each holds the writer lock. -/
inductive Event where
  | opens (process : Nat) (opened : Opened)
  | closes (index : Nat)
  | performs (index : Nat) (o : Outside) (operation : Operation)
  | crashes (process : Nat)

/-- What a process leaves behind that dies. -/
def System.bereft (s : System) (process : Nat) : System :=
  { s with handles := s.handles.filter (fun h => h.process != process) }

/-- The end of an operation on an open object: its process goes on with what the object
remembers, or it has died. -/
def System.ended (s : System) (index : Nat) (handle : Handle) : Except Stop Unit × Session → System
  | (.error .died, t) => { s with vault := t.vault }.bereft handle.process
  | (_, t) =>
    { vault := t.vault
      handles := s.handles.set index { handle with recoveryComplete := t.recoveryComplete } }

def System.step (f : Format) (x : Externals) (s : System) : Event → Option System
  | .opens process opened => some { s with handles := s.handles ++ [⟨process, opened, false⟩] }
  | .closes index => some { s with handles := s.handles.eraseIdx index }
  | .crashes process => some (s.bereft process)
  | .performs index o operation =>
    (s.handles[index]?).map (fun handle => s.ended index handle
      (operation.perform f x o handle.opened ⟨s.vault, 0, handle.recoveryComplete⟩))

/-- The vault of a repository that was just created. -/
def Vault.fresh : Vault :=
  ⟨Database.empty, fun _ => none, [⟨temporaryObjects, true⟩, ⟨temporaryRestores, true⟩]⟩

def System.fresh : System := ⟨Vault.fresh, []⟩

/-- The states that some history of a new repository leads to. -/
def Reached (f : Format) (x : Externals) (events : List Event) (s : System) : Prop :=
  runs (System.step f x) System.fresh events = some s

end LocalVault.Repository
