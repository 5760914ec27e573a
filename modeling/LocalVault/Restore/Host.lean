import LocalVault.Library.Program
import LocalVault.Restore.Select

namespace LocalVault.Restore
open Library Library.FileTree

inductive OperationPhase where
  | restoring
  | complete
  deriving DecidableEq, Repr

structure ProgressEvent where
  phase : OperationPhase
  currentPath : Path
  processedEntries : Nat
  processedBytes : Nat
  totalEntries : Nat
  deriving DecidableEq, Repr

structure RestoreResult where
  restoredFiles : Nat
  restoredDirectories : Nat
  restoredSymlinks : Nat
  restoredBytes : Nat
  skippedEntries : List SkippedEntry
  deriving DecidableEq, Repr

/-- The answers of the operating system and of the callbacks that the model
leaves open, by the number of the call: a failure the tree does not explain,
the stop token, random bytes, the clock, how much of a write is taken, an
exception of a callback or of the failure injector, and a failure of the
removal in a destructor. -/
structure Host where
  fault : Nat → Option String
  stopRequested : Nat → Bool
  entropy : Nat → Vector UInt8 16
  clock : Nat → Int
  taken : Nat → Nat
  raises : Nat → Option LocalVaultError
  removalFails : Nat → Bool
  currentDirectory : Path
  directoryMode : Nat

/-- One mutation: the paths it names and the tree it found. -/
structure Mutation where
  paths : List Path
  before : Tree

/-- `sequence` is the static counter of `unique_temporary_path`. -/
structure World where
  tree : Tree
  mutations : List Mutation
  calls : Nat
  sequence : Nat
  result : RestoreResult
  reports : List ProgressEvent

/-- The world in front of a restore. -/
def World.start (t : Tree) (sequence : Nat) : World :=
  ⟨t, [], 0, sequence, ⟨0, 0, 0, 0, []⟩, []⟩

/-- Every tree that stood at some moment of the run. -/
def World.moments (w : World) : List Tree := w.tree :: w.mutations.map Mutation.before

abbrev RestoreM := Program World LocalVaultError

def World.tick (w : World) : World := { w with calls := w.calls + 1 }

def World.mutate (w : World) (paths : List Path) (t : Tree) : World :=
  { w with tree := t, mutations := ⟨paths, w.tree⟩ :: w.mutations }

/-- The result object of the run, as its counters and its list grow. -/
def World.skip (w : World) (relativePath : Bytes) (reason : String) : World :=
  { w with result := { w.result with
    skippedEntries := w.result.skippedEntries ++ [⟨relativePath, reason⟩] } }

def World.countDirectory (w : World) : World :=
  { w with result := { w.result with restoredDirectories := w.result.restoredDirectories + 1 } }

def World.countFile (w : World) (restoredBytes : Nat) : World :=
  { w with result := { w.result with
    restoredFiles := w.result.restoredFiles + 1
    restoredBytes } }

def World.countLink (w : World) : World :=
  { w with result := { w.result with restoredSymlinks := w.result.restoredSymlinks + 1 } }

def World.report (w : World) (phase : OperationPhase) (path : Path) (totalEntries : Nat) : World :=
  { w with reports := w.reports ++ [{
    phase, currentPath := path
    processedEntries := w.result.restoredFiles + w.result.restoredDirectories +
      w.result.restoredSymlinks + w.result.skippedEntries.length
    processedBytes := w.result.restoredBytes
    totalEntries }] }

def errnoMessage : Errno → String
  | .noEntry => "No such file or directory"
  | .notDirectory => "Not a directory"
  | .tooManyLinks => "Too many levels of symbolic links"
  | .alreadyExists => "File exists"
  | .isDirectory => "Is a directory"
  | .other text => text

def filesystemError (message : String) (path : Path) : LocalVaultError :=
  { code := .filesystemError, message, path }

/-- A system call that only looks. -/
def observe (h : Host) {α : Type} (look : Tree → Except Errno α) : RestoreM (Except Errno α) :=
  fun w =>
    match h.fault w.calls with
    | some text => (.ok (.error (.other text)), w.tick)
    | none => (.ok (look w.tree), w.tick)

/-- A system call that changes the tree, or fails and leaves it alone. -/
def mutate (h : Host) (paths : List Path) (change : Tree → Int → Except Errno Tree) :
    RestoreM (Except Errno Unit) :=
  fun w =>
    match h.fault w.calls with
    | some text => (.ok (.error (.other text)), w.tick)
    | none =>
      match change w.tree (h.clock w.calls) with
      | .error e => (.ok (.error e), w.tick)
      | .ok t => (.ok (.ok ()), (w.mutate paths t).tick)

/-- A callback, the failure injector or another call with no effect here. -/
def callback (h : Host) : RestoreM Unit :=
  fun w =>
    match h.raises w.calls with
    | some e => (.error e, w.tick)
    | none => (.ok (), w.tick)

/-- The removal in a destructor: its own failures are ignored. -/
def removeQuietly (h : Host) (p : Path) (w : World) : World :=
  if h.removalFails w.calls then w.tick
  else match unlink w.tree p (h.clock w.calls) with
    | .error _ => w.tick
    | .ok t => (w.mutate [p] t).tick

inductive NoFollowPathType where
  | notFound
  | directory
  | indirection
  | other
  deriving DecidableEq, Repr

def noFollowPathType : Node → NoFollowPathType
  | .directory _ => .directory
  | .link _ => .indirection
  | _ => .other

/-- `inspect_path_no_follow`. -/
def inspectPathNoFollow (h : Host) (path : Path) : RestoreM NoFollowPathType := do
  match ← observe h (fun t => lstat t path) with
  | .ok node => pure (noFollowPathType node)
  | .error .noEntry => pure .notFound
  | .error .notDirectory => pure .notFound
  | .error e =>
    .raise (filesystemError
      ("failed to inspect path without following links: " ++ errnoMessage e) path)

/-- `existing_status`. -/
def existingStatus (h : Host) (path : Path) : RestoreM (Option Node) := do
  match ← observe h (fun t => lstat t path) with
  | .ok node => pure (some node)
  | .error .noEntry => pure none
  | .error .notDirectory => pure none
  | .error e =>
    .raise (filesystemError ("failed to inspect restore path: " ++ errnoMessage e) path)

def checkCancelled (h : Host) (path : Path) : RestoreM Unit := do
  if ← .read (fun w => h.stopRequested w.calls) then
    .raise { code := .cancelled, message := "restore cancelled", path }
  else .update World.tick

def restorePrefix : Bytes := ascii ".localvault-restore-"

def restoreSuffix : Bytes := ascii ".tmp"

def hexOf (bytes : List UInt8) : Bytes :=
  bytes.flatMap (fun (b : UInt8) =>
    [hexadecimal.getD (b >>> 4).toNat 0, hexadecimal.getD (b &&& 0x0F).toNat 0])

def randomTemporaryName (bytes : Vector UInt8 16) : Name :=
  restorePrefix ++ hexOf bytes.toList ++ restoreSuffix

/-- The constructor of `TemporaryOutputFile`, with so many attempts left. -/
def openTemporaryOutputFile (h : Host) (directory : Path) : Nat → RestoreM Path
  | 0 =>
    .raise (filesystemError "failed to choose a unique restore temporary file" directory)
  | attempts + 1 => do
    let candidate ← .read (fun w => directory ++ [randomTemporaryName (h.entropy w.calls)])
    match ← mutate h [candidate] (fun t now => create t candidate (.file [] ⟨0o600, now⟩) now) with
    | .ok () => pure candidate
    | .error .alreadyExists => openTemporaryOutputFile h directory attempts
    | .error e =>
      .raise (filesystemError ("failed to create restore temporary file: " ++ errnoMessage e)
        candidate)

/-- The scope of a `TemporaryOutputFile`. -/
def withTemporaryOutputFile (h : Host) (directory : Path) (body : Path → RestoreM Unit) :
    RestoreM Unit := do
  let temporary ← openTemporaryOutputFile h directory 100
  (body temporary).ensure (removeQuietly h temporary)

def maximumWrite : Nat := 64 * 1024

/-- The loop of `TemporaryOutputFile::write`; every round takes at least one
byte, so the length of the rest bounds the rounds. -/
def writeLoop (h : Host) (temporary : Path) : Nat → Bytes → RestoreM Unit
  | 0, _ => pure ()
  | rounds + 1, bytes =>
    if bytes = [] then pure ()
    else do
      let count := min maximumWrite bytes.length
      let written ← .read (fun w => max 1 (min count (h.taken w.calls)))
      match ← mutate h [temporary] (fun t now => append t temporary (bytes.take written) now) with
      | .ok () => writeLoop h temporary rounds (bytes.drop written)
      | .error e =>
        .raise (filesystemError ("failed to write restore temporary file: " ++ errnoMessage e)
          temporary)

def write (h : Host) (temporary : Path) (bytes : Bytes) : RestoreM Unit :=
  writeLoop h temporary bytes.length bytes

/-- `S_IFMT | S_ISUID | S_ISGID | S_ISVTX | S_IRWXU | S_IRWXG | S_IRWXO`. -/
def validModeMask : Nat := 0o177777

def validatePosixMode (posixMode : Nat) (path : Path) : Except LocalVaultError Unit :=
  if validModeMask < posixMode then
    .error (filesystemError "saved POSIX mode contains unsupported bits" path)
  else .ok ()

/-- `restored_modification_time`, with the truncating division of C++. -/
def restoredModificationTime (modifiedTimeNs : Int) : Int × Int :=
  let seconds := modifiedTimeNs.tdiv 1000000000
  let nanoseconds := modifiedTimeNs.tmod 1000000000
  if nanoseconds < 0 then (seconds - 1, nanoseconds + 1000000000) else (seconds, nanoseconds)

def withTime (time : Int × Int) (st : Stamp) : Stamp :=
  { st with mtime := time.1 * 1000000000 + time.2 }

def withMode (posixMode : Nat) (st : Stamp) : Stamp := { st with mode := posixMode % 0o10000 }

def changeStamp (h : Host) (path : Path) (change : Tree → (Stamp → Stamp) → Except Errno Tree)
    (f : Stamp → Stamp) (message : String) : RestoreM Unit := do
  match ← mutate h [path] (fun t _ => change t f) with
  | .ok () => pure ()
  | .error e => .raise (filesystemError (message ++ errnoMessage e) path)

/-- `apply_metadata` of an open temporary and `apply_restored_metadata` of a
path differ in how the object is found. -/
def applyMetadataBy (h : Host) (path : Path)
    (change : Tree → (Stamp → Stamp) → Except Errno Tree) (modifiedTimeNs : Int)
    (posixMode : Nat) : RestoreM Unit := do
  .ofExcept (validatePosixMode posixMode path)
  if posixMode ≠ 0 then
    changeStamp h path change (withMode posixMode) "failed to restore POSIX permissions: "
  changeStamp h path change (withTime (restoredModificationTime modifiedTimeNs))
    "failed to restore modification time: "

def applyMetadata (h : Host) (temporary : Path) (modifiedTimeNs : Int) (posixMode : Nat) :
    RestoreM Unit :=
  applyMetadataBy h temporary (fun t f => restamp t temporary f) modifiedTimeNs posixMode

def applyRestoredMetadata (h : Host) (path : Path) (modifiedTimeNs : Int) (posixMode : Nat) :
    RestoreM Unit :=
  applyMetadataBy h path (fun t f => restampFollowing t path f) modifiedTimeNs posixMode

inductive RestorePublishResult where
  | published
  | destinationExists
  deriving DecidableEq, Repr

/-- `publish_restored_path`. -/
def publishRestoredPath (h : Host) (temporary destination : Path) (replaceExisting : Bool) :
    RestoreM RestorePublishResult := do
  match ← mutate h [temporary, destination] (fun t now =>
      rename t temporary destination replaceExisting now) with
  | .ok () => pure .published
  | .error e =>
    if replaceExisting then
      .raise (filesystemError ("failed to publish restored path: " ++ errnoMessage e) destination)
    else if e = .alreadyExists then pure .destinationExists
    else
      .raise (filesystemError
        ("failed to publish restored path without replacement: " ++ errnoMessage e) destination)

/-- `fsync` of a file and `flush_containing_directory`: no effect on the tree,
but they may fail. -/
def flush (h : Host) (message : String) (path : Path) : RestoreM Unit := do
  match ← observe h (fun _ => .ok ()) with
  | .ok () => pure ()
  | .error e => .raise (filesystemError (message ++ errnoMessage e) path)

def decimal (n : Nat) : Bytes := (Nat.toDigits 10 n).map (fun c => c.toNat.toUInt8)

def sequenceName (n : Nat) : Name := restorePrefix ++ decimal n ++ restoreSuffix

/-- `unique_temporary_path`, with so many attempts left. -/
def uniqueTemporaryPath (h : Host) (destination : Path) : Nat → RestoreM Path
  | 0 =>
    .raise (filesystemError "failed to choose a unique restore temporary path" destination)
  | attempts + 1 => do
    let number ← .read World.sequence
    .update (fun w => { w with sequence := w.sequence + 1 })
    let candidate := destination.dropLast ++ [sequenceName number]
    match ← existingStatus h candidate with
    | none => pure candidate
    | some _ => uniqueTemporaryPath h destination attempts

/-- The system refuses an empty link target. -/
def createLink (target : Bytes) (linkPath : Path) (t : Tree) (now : Int) : Except Errno Tree :=
  if target = [] then .error .noEntry else create t linkPath (.link target) now

def createRestoredSymlink (h : Host) (target : Bytes) (linkPath : Path) : RestoreM Bool := do
  match ← mutate h [linkPath] (createLink target linkPath) with
  | .ok () => pure true
  | .error e =>
    .raise (filesystemError ("failed to create restored symbolic link: " ++ errnoMessage e) linkPath)

def skipEntry (relativePath : Bytes) (reason : String) : RestoreM Unit :=
  .update (·.skip relativePath reason)

def reportProgress (h : Host) (phase : OperationPhase) (path : Path) (totalEntries : Nat) :
    RestoreM Unit := do
  .update (·.report phase path totalEntries)
  callback h

end LocalVault.Restore
