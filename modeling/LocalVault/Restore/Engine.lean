import LocalVault.Restore.Host

namespace LocalVault.Restore
open Library Library.FileTree

inductive RestoreAction where
  | create
  | mergeDirectory
  | replace
  | skip
  deriving DecidableEq, Repr

structure PlannedEntry where
  entry : EntryInfo
  action : RestoreAction
  metadataAllowed : Bool
  deriving DecidableEq, Repr

inductive ConflictDecision where
  | skip
  | replace
  | cancel
  deriving DecidableEq, Repr

structure RestoreRequest where
  snapshotId : SnapshotId
  relativePaths : List Bytes
  destinationRoot : Bytes
  overwritePolicy : OverwritePolicy
  conflictResolver : Option (Path → EntryType → Except LocalVaultError ConflictDecision)

/-- What the engine reads of an open repository. `resolvedRoot` is its root
after `weakly_canonical`. -/
structure RepositoryView where
  openMode : OpenMode
  root : Path
  resolvedRoot : Path
  db : Database
  objects : Objects
  chunkSizeBytes : Nat

/-- `absolute` and `lexically_normal` of the requested destination. -/
def lexicalDestination (currentDirectory : Path) (requested : Bytes) : Path :=
  ((lexicallyNormal
    (if requested.head? = some slash then components requested
     else [slash] :: (currentDirectory ++ components requested))).tail).filter (· ≠ [])

/-- The loop over the prefixes of a path that `normalized_destination` and
`require_safe_ancestors` share: real directories, up to the first missing one. -/
def requireRealOrMissing (h : Host) (linkMessage otherMessage : String) :
    List Path → RestoreM Unit
  | [] => pure ()
  | current :: rest => do
    match ← inspectPathNoFollow h current with
    | .notFound => pure ()
    | .indirection => .raise { code := .unsafeRestorePath, message := linkMessage, path := current }
    | .other => .raise { code := .destinationExists, message := otherMessage, path := current }
    | .directory => requireRealOrMissing h linkMessage otherMessage rest

/-- `normalized_destination`. Behind the loop the existing part of the path is
made of real directories, so it is its own canonical form. -/
def normalizedDestination (h : Host) (requested : Bytes) (repository : RepositoryView) :
    RestoreM Path := do
  if requested = [] then
    .raise { code := .invalidArgument, message := "restore destination root must not be empty" }
  else
    let lexical := lexicalDestination h.currentDirectory requested
    requireRealOrMissing h "restore destination has a link or reparse-point ancestor"
      "restore destination has a non-directory ancestor" lexical.inits.tail
    if isComponentPrefix repository.resolvedRoot lexical ∨
        isComponentPrefix lexical repository.resolvedRoot then
      .raise { code := .unsafeRestorePath,
               message := "restore destination and repository must not contain each other",
               path := lexical }
    else pure lexical

def requireSafeAncestors (h : Host) (root : Path) (relativePath : Bytes) : RestoreM Unit := do
  if (← inspectPathNoFollow h root) ≠ .directory then
    .raise { code := .unsafeRestorePath, message := "restore root is no longer a real directory",
             path := root }
  else
    requireRealOrMissing h "existing link or reparse-point ancestor makes restore unsafe"
      "restore path has a non-directory ancestor"
      ((parentComponents relativePath).inits.tail.map (root ++ ·))

def requireRealDirectory (h : Host) (path : Path) : RestoreM Unit := do
  if (← inspectPathNoFollow h path) ≠ .directory then
    .raise { code := .unsafeRestorePath,
             message := "restored directory is no longer a real directory", path }
  else pure ()

def isDirectoryNode : Node → Bool
  | .directory _ => true
  | _ => false

def conflictAction (request : RestoreRequest) (entry : EntryInfo) (destination : Path)
    (existing : Node) : Except LocalVaultError RestoreAction := do
  if entry.type = .directory ∧ isDirectoryNode existing then .ok .mergeDirectory
  else if request.overwritePolicy = .never then .ok .skip
  else
    let decision ←
      if request.overwritePolicy = .prompt then
        match request.conflictResolver with
        | none =>
          .error { code := .invalidArgument,
                   message := "prompt overwrite policy requires a conflict resolver" }
        | some resolver => resolver destination entry.type
      else .ok .replace
    if decision = .cancel then
      .error { code := .cancelled, message := "restore cancelled during conflict handling",
               path := destination }
    else if decision = .skip then .ok .skip
    else if entry.type = .directory ∨ isDirectoryNode existing then
      .error { code := .destinationExists,
               message := "replacing a directory with a different entry type is unsupported",
               path := destination }
    else .ok .replace

/-- The order of `build_plan`: shallow entries first. -/
def shallowFirst (left right : EntryInfo) : Prop :=
  pathDepth left.relativePath < pathDepth right.relativePath ∨
    pathDepth left.relativePath = pathDepth right.relativePath ∧
      pathKey left.relativePath ≤ pathKey right.relativePath

/-- The order of the metadata pass: deep entries first. -/
def deepFirst (left right : PlannedEntry) : Prop :=
  pathDepth right.entry.relativePath < pathDepth left.entry.relativePath ∨
    pathDepth left.entry.relativePath = pathDepth right.entry.relativePath ∧
      pathKey left.entry.relativePath ≤ pathKey right.entry.relativePath

instance : DecidableRel shallowFirst := fun _ _ => inferInstanceAs (Decidable (_ ∨ _))

instance : DecidableRel deepFirst := fun _ _ => inferInstanceAs (Decidable (_ ∨ _))

/-- The loop of `build_plan`. -/
def planFrom (h : Host) (request : RestoreRequest) (root : Path) :
    List (List Name) → List EntryInfo → RestoreM (List PlannedEntry)
  | _, [] => pure []
  | skippedDirectories, entry :: entries => do
    if entry.relativePath = [] then
      let rest ← planFrom h request root skippedDirectories entries
      pure (⟨entry, .mergeDirectory, true⟩ :: rest)
    else if skippedDirectories.any (fun s => isComponentPrefix s (components entry.relativePath)) then
      let rest ← planFrom h request root skippedDirectories entries
      pure (⟨entry, .skip, false⟩ :: rest)
    else
      requireSafeAncestors h root entry.relativePath
      let destination := root ++ components entry.relativePath
      let status ← existingStatus h destination
      let action ← .ofExcept (match status with
        | some node => conflictAction request entry destination node
        | none => .ok .create)
      let skipped :=
        if action = .skip ∧ entry.type = .directory then
          skippedDirectories ++ [components entry.relativePath]
        else skippedDirectories
      let rest ← planFrom h request root skipped entries
      pure (⟨entry, action, action ≠ .skip⟩ :: rest)

def buildPlan (h : Host) (request : RestoreRequest) (root : Path) (selected : List EntryInfo) :
    RestoreM (List PlannedEntry) :=
  planFrom h request root [] (selected.insertionSort shallowFirst)

/-- What the mutation phases share. -/
structure Context where
  x : Externals
  host : Host
  root : Path
  objects : Objects
  chunkSize : Nat
  chunks : List (Int × List ChunkReferenceInfo)
  totalEntries : Nat

def Context.destination (c : Context) (entry : EntryInfo) : Path :=
  c.root ++ components entry.relativePath

/-- `std::filesystem::create_directories`, along the prefixes of the path. -/
def createDirectories (h : Host) : List Path → RestoreM Unit
  | [] => pure ()
  | current :: rest => do
    match ← observe h (fun t => stat t current) with
    | .ok node =>
      if isDirectoryNode node then createDirectories h rest
      else .raise (filesystemError "failed to create restore destination: Not a directory" current)
    | .error .noEntry =>
      match ← mutate h [current] (fun t now =>
          create t current (.directory ⟨h.directoryMode, now⟩) now) with
      | .ok () => createDirectories h rest
      | .error e =>
        .raise (filesystemError ("failed to create restore destination: " ++ errnoMessage e) current)
    | .error e =>
      .raise (filesystemError ("failed to create restore destination: " ++ errnoMessage e) current)

/-- One round of the directory phase. -/
def restoreDirectory (c : Context) (planned : PlannedEntry) : RestoreM Unit := do
  let entry := planned.entry
  checkCancelled c.host (components entry.relativePath)
  if entry.type ≠ .directory then pure ()
  else if planned.action = .skip then skipEntry entry.relativePath "destination directory conflicts"
  else
    if planned.action = .create then
      requireSafeAncestors c.host c.root entry.relativePath
      match ← mutate c.host [c.destination entry] (fun t now =>
          create t (c.destination entry) (.directory ⟨c.host.directoryMode, now⟩) now) with
      | .ok () => pure ()
      | .error e =>
        .raise (filesystemError ("failed to create restored directory: " ++ errnoMessage e)
          (c.destination entry))
    .update World.countDirectory

/-- The chunk loop of one file; it returns `written` and all bytes given to the
full-file hasher. -/
def writeChunks (c : Context) (entry : EntryInfo) (temporary : Path) :
    List ChunkReferenceInfo → Nat → Bytes → RestoreM (Nat × Bytes)
  | [], written, hashed => pure (written, hashed)
  | chunk :: chunks, written, hashed => do
    checkCancelled c.host (components entry.relativePath)
    callback c.host
    let raw ← .ofExcept (readVerified c.x c.chunkSize c.objects chunk.hashHex chunk.objectPath
      chunk.rawSize chunk.storedSize)
    if raw.length ≠ chunk.rawLength then
      .raise { code := .objectCorrupt, message := "verified object size does not match entry chunk",
               path := components entry.relativePath }
    else
      write c.host temporary raw
      callback c.host
      let total ← .ofExcept (checkedAdd written chunk.rawLength (components entry.relativePath))
      writeChunks c entry temporary chunks total (hashed ++ raw)

/-- The publication of a verified temporary file and what is counted then. -/
def publishFile (c : Context) (planned : PlannedEntry) (temporary : Path)
    (metadataWarning : Option String) : RestoreM Unit := do
  let entry := planned.entry
  requireSafeAncestors c.host c.root entry.relativePath
  match ← publishRestoredPath c.host temporary (c.destination entry)
      (planned.action = .replace) with
  | .destinationExists => skipEntry entry.relativePath "destination appeared during restore"
  | .published =>
    flush c.host "failed to flush repository directory: " (c.destination entry).dropLast
    let total ← .read (fun w => w.result.restoredBytes)
    let total ← .ofExcept (checkedAdd total entry.logicalSize (components entry.relativePath))
    .update (·.countFile total)
    match metadataWarning with
    | some warning => skipEntry entry.relativePath warning
    | none => pure ()
    reportProgress c.host .restoring (components entry.relativePath) c.totalEntries

/-- The metadata of the temporary; a failure becomes a warning. -/
def fileMetadata (c : Context) (entry : EntryInfo) (temporary : Path) :
    RestoreM (Option String) :=
  (do
    applyMetadata c.host temporary entry.modifiedTimeNs entry.posixMode
    pure none : RestoreM (Option String)).rescue (fun e =>
      pure (some ("content restored; metadata not fully restored: " ++ e.message)))

/-- The life of the temporary file of one entry. -/
def produceFile (c : Context) (planned : PlannedEntry) (chunks : List ChunkReferenceInfo)
    (temporary : Path) : RestoreM Unit := do
  let entry := planned.entry
  let (written, hashed) ← writeChunks c entry temporary chunks 0 []
  if written ≠ entry.logicalSize then
    .raise { code := .objectCorrupt,
             message := "restored file size does not match snapshot metadata",
             path := components entry.relativePath }
  else if entry.fileHashHex ≠ some (toHex (c.x.blake3 hashed)) then
    .raise { code := .objectCorrupt,
             message := "restored file failed full-file BLAKE3 verification",
             path := components entry.relativePath }
  else
    flush c.host "failed to sync restored temporary file: " temporary
    let metadataWarning ← fileMetadata c entry temporary
    publishFile c planned temporary metadataWarning

/-- `chunks_by_entry.at(entry.id)`. -/
def Context.chunksAt (c : Context) (id : Int) : List ChunkReferenceInfo :=
  ((c.chunks.find? (fun r => r.1 == id)).map Prod.snd).getD []

/-- One round of the file phase. -/
def restoreFile (c : Context) (planned : PlannedEntry) : RestoreM Unit := do
  let entry := planned.entry
  if entry.type ≠ .regularFile then pure ()
  else
    checkCancelled c.host (components entry.relativePath)
    if planned.action = .skip then skipEntry entry.relativePath "destination file conflicts"
    else
      requireSafeAncestors c.host c.root entry.relativePath
      withTemporaryOutputFile c.host (c.destination entry).dropLast
        (produceFile c planned (c.chunksAt entry.id))

/-- The publication of a temporary link. -/
def publishLink (c : Context) (planned : PlannedEntry) (temporary : Path) : RestoreM Unit := do
  let entry := planned.entry
  requireSafeAncestors c.host c.root entry.relativePath
  match ← publishRestoredPath c.host temporary (c.destination entry)
      (planned.action = .replace) with
  | .destinationExists => skipEntry entry.relativePath "destination appeared during restore"
  | .published =>
    flush c.host "failed to flush repository directory: " (c.destination entry).dropLast
    .update World.countLink

/-- The life of the temporary link of one entry. -/
def produceLink (c : Context) (planned : PlannedEntry) (target : Bytes) (temporary : Path) :
    RestoreM Unit := do
  if ← createRestoredSymlink c.host target temporary then publishLink c planned temporary
  else
    skipEntry planned.entry.relativePath "symbolic-link creation privilege is unavailable"

/-- One round of the symbolic-link phase. -/
def restoreLink (c : Context) (planned : PlannedEntry) : RestoreM Unit := do
  let entry := planned.entry
  if entry.type ≠ .symbolicLink then pure ()
  else
    checkCancelled c.host (components entry.relativePath)
    if planned.action = .skip then
      skipEntry entry.relativePath "destination symbolic link conflicts"
    else match entry.symlinkTarget with
      | none =>
        .raise { code := .databaseError, message := "symbolic-link entry has no saved target",
                 path := components entry.relativePath }
      | some target =>
        requireSafeAncestors c.host c.root entry.relativePath
        let temporary ← uniqueTemporaryPath c.host (c.destination entry) 100
        (produceLink c planned target temporary).ensure (removeQuietly c.host temporary)

/-- One round of the directory-metadata pass. -/
def restoreDirectoryMetadata (c : Context) (planned : PlannedEntry) : RestoreM Unit := do
  let entry := planned.entry
  if entry.type ≠ .directory ∨ planned.metadataAllowed = false then pure ()
  else
    requireSafeAncestors c.host c.root entry.relativePath
    requireRealDirectory c.host (c.destination entry)
    (applyRestoredMetadata c.host (c.destination entry) entry.modifiedTimeNs
      entry.posixMode).rescue (fun e =>
        skipEntry entry.relativePath ("directory restored; metadata not fully restored: " ++ e.message))

/-- Everything behind the plan. -/
def runPlan (c : Context) (plan : List PlannedEntry) : RestoreM RestoreResult := do
  reportProgress c.host .restoring c.root c.totalEntries
  .each (restoreDirectory c) plan
  .each (restoreFile c) plan
  .each (restoreLink c) plan
  .each (restoreDirectoryMetadata c) (plan.insertionSort deepFirst)
  reportProgress c.host .complete c.root c.totalEntries
  .read World.result

/-- The part of `RestoreEngine::restore` that writes. -/
def restoreSelected (x : Externals) (h : Host) (repository : RepositoryView)
    (request : RestoreRequest) (root : Path) (selected : List EntryInfo)
    (chunks : List (Int × List ChunkReferenceInfo)) : RestoreM RestoreResult := do
  createDirectories h root.inits.tail
  let plan ← buildPlan h request root selected
  let c : Context :=
    { x, host := h, root, objects := repository.objects, chunkSize := repository.chunkSizeBytes,
      chunks, totalEntries := plan.length }
  runPlan c plan

/-- What is read from the repository before anything is written. -/
def loadSelection (repository : RepositoryView) (request : RestoreRequest) :
    Except LocalVaultError (List EntryInfo × List (Int × List ChunkReferenceInfo)) := do
  let _ ← requireCompleteSnapshot repository.db request.snapshotId
  let entries ← listEntries repository.db request.snapshotId
  validateEntries entries
  let selected ← selectEntries entries request.relativePaths
  validateSelectedFileHashes selected
  let chunks ← chunksByEntry repository.db repository.chunkSizeBytes selected
  .ok (selected, chunks)

/-- `RestoreEngine::restore`. The writer lock and the recovery that follows it
touch the repository only; they are one call that may raise here. -/
def restore (x : Externals) (h : Host) (repository : RepositoryView) (request : RestoreRequest) :
    RestoreM RestoreResult := do
  if repository.openMode ≠ .readWrite then
    .raise { code := .invalidArgument, message := "restore requires a read-write repository",
             path := repository.root }
  else if request.overwritePolicy = .prompt ∧ request.conflictResolver.isNone then
    .raise { code := .invalidArgument,
             message := "prompt overwrite policy requires a conflict resolver" }
  else
    checkCancelled h (names request.destinationRoot)
    let root ← normalizedDestination h request.destinationRoot repository
    callback h
    let (selected, chunks) ← .ofExcept (loadSelection repository request)
    restoreSelected x h repository request root selected chunks

end LocalVault.Restore
