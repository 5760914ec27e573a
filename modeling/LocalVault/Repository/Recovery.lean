import LocalVault.Database.Statements

namespace LocalVault.Repository
open Library

/-- How a call to the database or the file system ends: as asked, with the
exception that the code around it throws, refused because another process
shares the file, or not at all because the process died in front of it. -/
inductive Fate where
  | done
  | raises (e : Raised)
  | shared
  | dies
  deriving DecidableEq, Repr

/-- The fate and the time of each call, by its number. -/
structure Outside where
  fate : Nat → Fate
  clock : Nat → Int

/-- Why a run ended before its last step. -/
inductive Stop where
  | raised (e : Raised)
  | died
  | endless
  deriving DecidableEq, Repr

def Stop.isRaised : Stop → Bool
  | .raised _ => true
  | .died | .endless => false

theorem Stop.isRaised_iff {stop : Stop} : stop.isRaised = true ↔ ∃ e, stop = .raised e := by
  cases stop <;> simp [isRaised]

/-- An object below `temporary/`, by its path from there. -/
structure TemporaryItem where
  path : Path
  directory : Bool
  deriving DecidableEq, Repr

abbrev Temporary := List TemporaryItem

/-- What a repository keeps between two processes. -/
structure Vault where
  db : Database
  objects : Objects
  temporary : Temporary

structure Session where
  vault : Vault
  calls : Nat
  recoveryComplete : Bool

/-- A repository object as it was opened. -/
structure Opened where
  root : Path
  mode : OpenMode
  recoveryEntryBatchLimit : Nat

abbrev SessionM := Program Session Stop

def Session.start (v : Vault) : Session := ⟨v, 0, false⟩

def Session.tick (s : Session) : Session := { s with calls := s.calls + 1 }

def Session.commit (s : Session) (db : Database) : Session :=
  { s.tick with vault := { s.vault with db } }

def Session.keep (s : Session) (temporary : Temporary) : Session :=
  { s.tick with vault := { s.vault with temporary } }

def throwing {α : Type} (e : LocalVaultError) : SessionM α := .raise (.raised (.localVault e))

/-- A call whose fate the outside decides. -/
def calling {α : Type} (o : Outside) (refused next : SessionM α) : SessionM α := fun s =>
  match o.fate s.calls with
  | .raises e => (.error (.raised e), s.tick)
  | .dies => (.error .died, s.tick)
  | .shared => refused s
  | .done => next s

/-- Statements whose effect is committed as a whole, or rolled back when one of
them throws. -/
def committing {α : Type} (body : Sql α) : SessionM α := fun s =>
  match body s.vault.db with
  | (.ok a, db) => (.ok a, s.commit db)
  | (.error e, _) => (.error (.raised (.localVault e)), s.tick)

/-- A `Transaction` around its statements. When SQLite, the failure injector
or the commit throws, it is rolled back too. -/
def transaction {α : Type} (o : Outside) (body : Sql α) : SessionM α :=
  calling o (committing body) (committing body)

def looking {α : Type} (look : Database → Except LocalVaultError α) : SessionM α := fun s =>
  match look s.vault.db with
  | .ok a => (.ok a, s.tick)
  | .error e => (.error (.raised (.localVault e)), s.tick)

/-- A query outside of any transaction. -/
def query {α : Type} (o : Outside) (look : Database → Except LocalVaultError α) : SessionM α :=
  calling o (looking look) (looking look)

/-- A `for (;;)` whose body tells whether it was the last round. Without a
round to spare the loop has no end. -/
def rounds (body : SessionM Bool) : Nat → SessionM Unit
  | 0 => .raise .endless
  | n + 1 => do
    let last ← body
    if last then pure () else rounds body n

def checkedBatchLimit (limit : Nat) : Except LocalVaultError Nat :=
  if limit = 0 ∨ maximumInt64 < limit then
    .error (invalidArgument "snapshot entry batch limit is outside the supported range")
  else .ok limit

/-- One of the two loops of a clean-up: the status is checked again in every
transaction. -/
def removeBatches (o : Outside) (requireStatus : Sql Unit) (rows : Database → Nat)
    (batch : Sql Nat) : SessionM Unit := do
  let count ← Program.read (fun s : Session => rows s.vault.db)
  rounds (do
    let removed ← transaction o (do
      requireStatus
      batch)
    pure (removed == 0)) (count + 1)

def removeEntries (o : Outside) (id : SnapshotId) (limit : Nat) (requireStatus : Sql Unit) :
    SessionM Unit :=
  removeBatches o requireStatus (fun db => (db.entriesOf id).length) (deleteEntryBatch id limit)

def removeWarnings (o : Outside) (id : SnapshotId) (limit : Nat) (requireStatus : Sql Unit) :
    SessionM Unit :=
  removeBatches o requireStatus (fun db => (db.warningsOf id).length) (deleteWarningBatch id limit)

def requireDeleting (id : SnapshotId) : Sql Unit :=
  requireStatus id [.deleting] (invalidArgument "resuming deletion requires a deleting snapshot")
    (databaseError "deleting snapshot identifier selected multiple rows")

def requireGivenUp (id : SnapshotId) : Sql Unit :=
  requireStatus id [.failed, .cancelled]
    (invalidArgument "cleanup requires a failed or cancelled snapshot")
    (databaseError "incomplete snapshot identifier selected multiple rows")

def transitionSnapshotToDeleting (o : Outside) (id : SnapshotId) : SessionM Unit :=
  transaction o (startDeleting id)

def deleteDeletingSnapshot (o : Outside) (id : SnapshotId) (entryBatchLimit : Nat) :
    SessionM Unit :=
  match checkedBatchLimit entryBatchLimit with
  | .error e => throwing e
  | .ok limit => do
    removeEntries o id limit (requireDeleting id)
    removeWarnings o id limit (requireDeleting id)
    transaction o (deleteSnapshotRow id)

def cleanIncompleteSnapshot (o : Outside) (id : SnapshotId) (entryBatchLimit : Nat) :
    SessionM Unit :=
  match checkedBatchLimit entryBatchLimit with
  | .error e => throwing e
  | .ok limit => do
    removeEntries o id limit (requireGivenUp id)
    removeWarnings o id limit (requireGivenUp id)

def interrupted : String := "snapshot operation was interrupted before publication"

def markStalePendingSnapshotFailed (o : Outside) (id : SnapshotId) (failureMessage : String) :
    SessionM Unit := do
  let completedAtNs ← Program.read (fun s : Session => o.clock s.calls)
  transaction o (failStalePending id failureMessage completedAtNs)

/-- One turn of the loop over the incomplete snapshots. -/
def recoverSnapshot (o : Outside) (limit : Nat) (snapshot : IncompleteSnapshotInfo) :
    SessionM Unit :=
  match snapshot.status with
  | .pending => do
    markStalePendingSnapshotFailed o snapshot.id interrupted
    cleanIncompleteSnapshot o snapshot.id limit
  | .failed | .cancelled => cleanIncompleteSnapshot o snapshot.id limit
  | .deleting => deleteDeletingSnapshot o snapshot.id limit
  | .complete =>
    throwing { code := .internalError, message := "recovery selected an already complete snapshot" }

def Temporary.find (t : Temporary) (path : Path) : Option TemporaryItem :=
  List.find? (fun i => i.path == path) t

def Temporary.forget (t : Temporary) (path : Path) : Temporary :=
  t.filter (fun i => i.path != path)

/-- A directory listing. -/
def Temporary.children (t : Temporary) (directory : Path) : List Path :=
  (t.map TemporaryItem.path).filter (fun p => p != [] && p.dropLast == directory)

def deepestFirst (p q : Path) : Prop := q.length ≤ p.length

instance : DecidableRel deepestFirst := fun p q => inferInstanceAs (Decidable (q.length ≤ p.length))

/-- What `remove_all` removes, in its order. -/
def Temporary.below (t : Temporary) (path : Path) : List Path :=
  ((t.map TemporaryItem.path).filter (fun p => path.isPrefixOf p)).insertionSort deepestFirst

/-- `std::filesystem::remove_all`, one removal after the other. -/
def removeAll (o : Outside) : List Path → SessionM Bool
  | [] => pure true
  | path :: paths =>
    calling o (fun s => (.ok false, s.tick)) (do
      Program.update (fun s => s.keep (s.vault.temporary.forget path))
      removeAll o paths)

def removeRecoveryPath (o : Outside) (path : Path) : SessionM Bool := do
  let doomed ← Program.read (fun s : Session => s.vault.temporary.below path)
  removeAll o doomed

def clearItems (o : Outside) : List Path → SessionM Bool
  | [] => pure true
  | path :: paths => do
    let removed ← removeRecoveryPath o path
    let rest ← clearItems o paths
    pure (removed && rest)

def clearDirectoryContents (o : Outside) (directory : Path) : SessionM Bool := do
  let children ← Program.read (fun s : Session => s.vault.temporary.children directory)
  clearItems o children

def ensureRecoveryDirectory (path : Path) : SessionM Unit := do
  match ← Program.read (fun s : Session => s.vault.temporary.find path) with
  | none => Program.update (fun s => s.keep (s.vault.temporary ++ [⟨path, true⟩]))
  | some item =>
    if item.directory then Program.update Session.tick
    else throwing { code := .filesystemError,
                    message := "temporary recovery path is not a real directory", path }

def requireRecoveryDirectory (o : Outside) (path : Path) : SessionM Unit :=
  calling o (ensureRecoveryDirectory path) (ensureRecoveryDirectory path)

def temporaryObjects : Path := [ascii "objects"]

def temporaryRestores : Path := [ascii "restores"]

def clearTemporaryItem (o : Outside) (path : Path) : SessionM Bool :=
  if path = temporaryObjects ∨ path = temporaryRestores then do
    requireRecoveryDirectory o path
    clearDirectoryContents o path
  else removeRecoveryPath o path

def clearTemporaryItems (o : Outside) : List Path → SessionM Bool
  | [] => pure true
  | path :: paths => do
    let cleared ← clearTemporaryItem o path
    let rest ← clearTemporaryItems o paths
    pure (cleared && rest)

def clearTemporaryTree (o : Outside) : SessionM Bool := do
  let children ← Program.read (fun s : Session => s.vault.temporary.children [])
  let complete ← clearTemporaryItems o children
  requireRecoveryDirectory o temporaryObjects
  requireRecoveryDirectory o temporaryRestores
  pure complete

def recoverAfterWriterLock (o : Outside) (r : Opened) : SessionM Unit := do
  if ← Program.read Session.recoveryComplete then pure ()
  else if r.mode ≠ .readWrite then
    throwing { code := .invalidArgument, message := "recovery requires a read-write repository",
                 path := r.root }
  else do
    let snapshots ← query o (fun db => .ok (listIncompleteSnapshots db))
    Program.each (recoverSnapshot o r.recoveryEntryBatchLimit) snapshots
    let complete ← clearTemporaryTree o
    query o quickRelationshipCheck
    Program.update (fun s => { s with recoveryComplete := complete })

end LocalVault.Repository
