import LocalVault.Library.Forest
import LocalVault.Library.Program
import LocalVault.Snapshot.Ignore
import LocalVault.Snapshot.Pipeline

namespace LocalVault.Snapshot
open Library

/-- The type in a `std::filesystem::file_status`. -/
inductive FileType where
  | regular
  | directory
  | symlink
  | other
  deriving DecidableEq, Repr

inductive ScannerReparseKind where
  | none
  | symbolicLink
  | junction
  | volumeMountPoint
  | other
  deriving DecidableEq, Repr

structure ScannerPlatformMetadata where
  filesystemIdentity : Nat
  reparseKind : ScannerReparseKind
  hidden : Bool
  cloudPlaceholder : Bool
  deriving DecidableEq, Repr

/-- How the enumeration of a directory goes: it may be refused, and it may break off behind so
many further entries. -/
structure Enumeration where
  refused : Option String
  interrupted : Option (Nat × String)
  deriving DecidableEq, Repr

/-- What the system answers about one object. -/
structure ObjectFacts where
  status : Except String FileType
  platform : Except LocalVaultError ScannerPlatformMetadata
  metadata : Except LocalVaultError PlatformFileMetadata
  target : Except String Bytes
  enumeration : Enumeration

/-- An entry name on a POSIX system. -/
def FileName (name : Name) : Prop := name ≠ [] ∧ name ≠ dot ∧ name ≠ dotDot ∧ slash ∉ name

instance : DecidablePred FileName := fun _ => inferInstanceAs (Decidable (_ ∧ _))

/-- A directory tree. What stands below an object is what an enumeration of its path would
list: for a symbolic link, what stands behind it. -/
structure SourceTree where
  objects : Forest Name ObjectFacts
  distinct : objects.Distinct
  named : objects.All (fun name _ => FileName name)

/-- The source root and what the system answers about it. -/
structure Source where
  requested : Bytes
  currentDirectory : Except String Path
  facts : ObjectFacts
  caseSensitive : Bool
  ignoreFile : IgnoreFile
  tree : SourceTree

structure FileScannerOptions where
  includeHidden : Bool
  oneFileSystem : Bool
  ignoreFile : Option Path
  deriving DecidableEq, Repr

inductive ScanEntryKind where
  | ordinary
  | symbolicLink
  | junction
  | volumeMountPoint
  | unsupportedReparsePoint
  deriving DecidableEq, Repr

structure ScanEntryFacts where
  kind : ScanEntryKind
  hidden : Bool
  cloudPlaceholder : Bool
  filesystemBoundary : Bool
  deriving DecidableEq, Repr

inductive ScanEntryAction where
  | capture
  | captureAsSymbolicLink
  | skip
  | warnAndSkip
  deriving DecidableEq, Repr

structure ScanEntryDecision where
  action : ScanEntryAction
  warningCode : String
  deriving DecidableEq, Repr

def decideScanEntry (facts : ScanEntryFacts) (options : FileScannerOptions) : ScanEntryDecision :=
  if options.includeHidden = false ∧ facts.hidden = true then ⟨.skip, ""⟩
  else if facts.cloudPlaceholder then ⟨.warnAndSkip, "cloud_placeholder"⟩
  else if facts.kind = .volumeMountPoint then ⟨.warnAndSkip, "volume_mount_point"⟩
  else if facts.kind = .unsupportedReparsePoint then ⟨.warnAndSkip, "unsupported_reparse_point"⟩
  else if options.oneFileSystem ∧ facts.filesystemBoundary then
    ⟨.warnAndSkip, "filesystem_boundary"⟩
  else if facts.kind = .symbolicLink ∨ facts.kind = .junction then ⟨.captureAsSymbolicLink, ""⟩
  else ⟨.capture, ""⟩

/-- When a stop has been requested, by the number of the check, and what the callbacks throw, by
the number of the call. -/
structure ScanHost where
  stopped : Nat → Bool
  callback : Nat → Option Raised

/-- The calls of the two callbacks, in their order. `visited` is history: the objects that the
enumeration has come to. -/
structure Scanning where
  jobs : List FileJob
  checks : Nat
  visited : List Path

def Scanning.start : Scanning := ⟨[], 0, []⟩

abbrev ScanM := Program Scanning Raised

def checkCancelled (x : ScanHost) (path : Path) : ScanM Unit := fun s =>
  if x.stopped s.checks then
    (.error (.localVault (snapshotCancelled path)), { s with checks := s.checks + 1 })
  else (.ok (), { s with checks := s.checks + 1 })

/-- A call of `on_entry` or `on_warning`. -/
def callBack (x : ScanHost) (job : FileJob) : ScanM Unit := fun s =>
  match x.callback s.jobs.length with
  | some e => (.error e, s)
  | none => (.ok (), { s with jobs := s.jobs ++ [job] })

def addWarning (x : ScanHost) (relativePath : Bytes) (code message : String) : ScanM Unit :=
  callBack x (.warning ⟨relativePath, code, message⟩)

/-- `path_to_utf8` of a relative path. -/
def pathToUtf8 (path : Path) : Option Bytes :=
  if isValidUtf8 (joined path) then some (joined path) else none

def parentPath (relativePath : Bytes) : Bytes :=
  match lastSeparator relativePath with
  | none => []
  | some separator => relativePath.take separator

def entryName (relativePath : Bytes) : Bytes :=
  match lastSeparator relativePath with
  | none => relativePath
  | some separator => relativePath.drop (separator + 1)

def scanEntry (x : ScanHost) (facts : ObjectFacts) (sourcePath : Path) (relativePath : Bytes)
    (status : FileType) (captureAsSymbolicLink : Bool) : ScanM (Option ScannedEntry) := do
  let type : Option EntryType :=
    if captureAsSymbolicLink ∨ status = .symlink then some .symbolicLink
    else if status = .regular then some .regularFile
    else if status = .directory then some .directory
    else none
  match type with
  | none =>
    addWarning x relativePath "unsupported_file_type"
      "special or unknown filesystem entry was skipped"
    pure none
  | some type =>
    match facts.metadata with
    | .error e =>
      addWarning x relativePath "metadata_unavailable" e.message
      pure none
    | .ok metadata =>
      let entry (symlinkTarget : Option Bytes) : ScannedEntry :=
        { sourcePath, relativePath, parentPath := parentPath relativePath,
          name := entryName relativePath, type,
          logicalSize := if type = .regularFile then metadata.logicalSize else 0,
          modifiedTimeNs := metadata.modifiedTimeNs, posixMode := metadata.posixMode, symlinkTarget }
      if type = .symbolicLink then
        match facts.target with
        | .error text =>
          addWarning x relativePath "symlink_target_unavailable"
            ("failed to read symbolic-link target: " ++ text)
          pure none
        | .ok target =>
          if isValidUtf8 target then pure (some (entry (some target)))
          else do
            addWarning x relativePath "unsupported_path_encoding"
              "symbolic-link target is not valid UTF-8 and was skipped"
            pure none
      else pure (some (entry none))

def scanEntryKind (status : FileType) (metadata : ScannerPlatformMetadata) : ScanEntryKind :=
  match metadata.reparseKind with
  | .symbolicLink => .symbolicLink
  | .junction => .junction
  | .volumeMountPoint => .volumeMountPoint
  | .other => .unsupportedReparsePoint
  | .none => if status = .symlink then .symbolicLink else .ordinary

def warningMessage (code : String) : String :=
  if code = "cloud_placeholder" then "cloud placeholder was skipped to avoid downloading content"
  else if code = "volume_mount_point" then "Windows volume mount point was skipped"
  else if code = "unsupported_reparse_point" then "unsupported Windows reparse point was skipped"
  else "filesystem boundary was skipped"

def directoryLike (status : FileType) (kind : ScanEntryKind) : Bool :=
  status = .directory ∨ kind = .junction ∨ kind = .volumeMountPoint

/-- What `scan_directory` is called with for all its directories. -/
structure ScanContext where
  root : Path
  rootFilesystemIdentity : Nat
  ignoreRules : IgnoreRules
  options : FileScannerOptions

def ScanContext.sourcePath (c : ScanContext) (path : Path) : Path := bare c.root ++ path

/-- The body of the loop of `scan_directory` up to the recursion: whether a directory was
captured. -/
def scanObject (x : ScanHost) (c : ScanContext) (path : Path) (facts : ObjectFacts) :
    ScanM Bool := do
  Program.update (fun s => { s with visited := s.visited ++ [path] })
  match pathToUtf8 path with
  | none =>
    addWarning x [] "unsupported_path_encoding"
      "filesystem entry path is not valid UTF-8 and was skipped"
    pure false
  | some relative =>
    match facts.status with
    | .error text =>
      addWarning x relative "filesystem_inspection_failed"
        ("failed to inspect filesystem entry: " ++ text)
      pure false
    | .ok status =>
      match facts.platform with
      | .error e =>
        addWarning x relative "metadata_unavailable" e.message
        pure false
      | .ok platform =>
        let kind := scanEntryKind status platform
        if (c.ignoreRules.matches relative (directoryLike status kind)).ignored then pure false
        else
          let decision := decideScanEntry
            ⟨kind, platform.hidden, platform.cloudPlaceholder,
              platform.filesystemIdentity ≠ c.rootFilesystemIdentity⟩ c.options
          if decision.action = .warnAndSkip then do
            addWarning x relative decision.warningCode (warningMessage decision.warningCode)
            pure false
          else if decision.action = .skip then pure false
          else
            match ← scanEntry x facts (c.sourcePath path) relative status
                (decision.action = .captureAsSymbolicLink) with
            | none => pure false
            | some entry => do
              callBack x (.entry entry)
              pure (entry.type = .directory)

/-- `directory_enumeration_failed`. -/
def enumerationFailed (x : ScanHost) (directory : Path) (message : String) : ScanM Unit :=
  addWarning x ((pathToUtf8 directory).getD []) "directory_enumeration_failed" message

/-- `scan_directory` around its loop. -/
def scanDirectory (x : ScanHost) (c : ScanContext) (directory : Path) (enumeration : Enumeration)
    (loop : ScanM Unit) : ScanM Unit := do
  checkCancelled x (c.sourcePath directory)
  match enumeration.refused with
  | some text => enumerationFailed x directory ("failed to enumerate directory: " ++ text)
  | none => loop

/-- `iterator.increment` and what follows in the loop. -/
def incremented (x : ScanHost) (directory : Path) (loop : Option (Nat × String) → ScanM Unit) :
    Option (Nat × String) → ScanM Unit
  | some (0, text) =>
    enumerationFailed x directory ("failed while enumerating directory: " ++ text)
  | some (n + 1, text) => loop (some (n, text))
  | none => loop none

/-- The loop of `scan_directory`. -/
def scanEntries (x : ScanHost) (c : ScanContext) (directory : Path)
    (interrupted : Option (Nat × String)) : Forest Name ObjectFacts → ScanM Unit
  | .nil => pure ()
  | .cons name facts below rest => do
    checkCancelled x (c.sourcePath directory)
    let captured ← scanObject x c (directory ++ [name]) facts
    (if captured then
        scanDirectory x c (directory ++ [name]) facts.enumeration
          (scanEntries x c (directory ++ [name]) facts.enumeration.interrupted below)
      else pure ())
    incremented x directory (fun i => scanEntries x c directory i rest) interrupted

def throwing {α : Type} (code : ErrorCode) (message : String) (path : Path) : ScanM α :=
  .raise (.localVault { code, message, path })

def Source.normalized (source : Source) (currentDirectory : Path) : Path :=
  (lexicallyNormal
    (if source.requested.head? = some slash then components source.requested
     else [slash] :: (currentDirectory ++ components source.requested))).tail

/-- `FileScanner::scan_streaming`. -/
def scanStreaming (x : ScanHost) (source : Source) (options : FileScannerOptions) : ScanM Unit :=
  if source.requested = [] then
    throwing .invalidArgument "source root path must not be empty" []
  else do
    checkCancelled x (components source.requested)
    match source.currentDirectory with
    | .error text =>
      throwing .filesystemError ("failed to make source path absolute: " ++ text)
        (components source.requested)
    | .ok currentDirectory =>
      let normalized := source.normalized currentDirectory
      match source.facts.status with
      | .error text =>
        throwing .filesystemError ("failed to inspect source root: " ++ text) normalized
      | .ok status =>
        if status ≠ .directory then
          throwing .invalidArgument "source root must be a directory and not a symbolic link"
            normalized
        else
          match source.facts.platform with
          | .error e => .raise (.localVault e)
          | .ok platform =>
            if platform.reparseKind ≠ .none ∨ platform.cloudPlaceholder then
              throwing .invalidArgument
                "source root must not be a reparse point or cloud placeholder" normalized
            else
              match IgnoreRules.load
                  (options.ignoreFile.getD (bare normalized ++ [ignoreFileName]))
                  options.ignoreFile.isSome
                  (if source.caseSensitive then .sensitive else .insensitive) source.ignoreFile with
              | .error e => .raise (.localVault e)
              | .ok ignoreRules =>
                match ← scanEntry x source.facts normalized [] status false with
                | none =>
                  throwing .filesystemError "failed to capture source-root metadata" normalized
                | some root => do
                  callBack x (.entry root)
                  let c : ScanContext := ⟨normalized, platform.filesystemIdentity, ignoreRules, options⟩
                  scanDirectory x c [] source.facts.enumeration
                    (scanEntries x c [] source.facts.enumeration.interrupted source.tree.objects)

def FileJob.scanned? : FileJob → Option ScannedEntry
  | .entry e => some e
  | .warning _ => none

def FileJob.warning? : FileJob → Option ScanWarning
  | .entry _ => none
  | .warning w => some w

structure ScanResult where
  entries : List ScannedEntry
  warnings : List ScanWarning
  deriving DecidableEq, Repr

/-- The order of the warnings of a collecting scan. -/
def warningPrecedes (left right : ScanWarning) : Prop :=
  if left.relativePath ≠ right.relativePath then left.relativePath < right.relativePath
  else if left.code ≠ right.code then left.code < right.code
  else left.message < right.message

instance (left right : ScanWarning) : Decidable (warningPrecedes left right) := by
  unfold warningPrecedes
  infer_instance

/-- A host that never stops a scan. -/
def collecting : ScanHost := ⟨fun _ => false, fun _ => none⟩

/-- `FileScanner::scan`. -/
def scan (source : Source) (options : FileScannerOptions) : Except Raised ScanResult :=
  match scanStreaming collecting source options .start with
  | (.error e, _) => .error e
  | (.ok (), s) => .ok {
      entries := (s.jobs.filterMap FileJob.scanned?).insertionSort
        (fun a b => ¬ b.relativePath < a.relativePath)
      warnings := (s.jobs.filterMap FileJob.warning?).insertionSort (fun a b => ¬ warningPrecedes b a) }

end LocalVault.Snapshot
