import LocalVault.Library.Lockstep
import LocalVault.Storage.Objects

namespace LocalVault
open Library

/-- What `ObjectStore::store` asks of the host and of its failure points under
the stripe. -/
inductive StoreStep where
  | syncExisting
  | flushExisting
  | ensureShard
  | flushShard
  | ensureTemporary
  | openTemporary
  | writeTemporary
  | afterTempObjectWrite
  | syncTemporary
  | afterObjectFsync
  | renameTemporary
  | afterObjectRename
  | flushObject
  deriving DecidableEq, Repr

/-- The steps that throw, and what they throw. -/
abbrev Faults := StoreStep → Option LocalVaultError

/-- Steps taken one after the other, up to the first that throws. -/
def attempt (faults : Faults) : List StoreStep → Except LocalVaultError Unit
  | [] => .ok ()
  | step :: steps =>
    match faults step with
    | some e => .error e
    | none => attempt faults steps

/-- How an object that was found is made durable before it is adopted. -/
def adoptionSteps : List StoreStep := [.syncExisting, .flushExisting]

/-- From the shard directory to the rename. -/
def publicationSteps : List StoreStep :=
  [.ensureShard, .flushShard, .ensureTemporary, .openTemporary, .writeTemporary,
    .afterTempObjectWrite, .syncTemporary, .afterObjectFsync, .renameTemporary]

/-- What follows a rename that has published the object. -/
def completionSteps : List StoreStep := [.afterObjectRename, .flushObject]

/-- One call of `store`, on a host whose steps may fail, among others that
publish in front of the call, between its first look and the stripe, and
between the second look and the rename. -/
structure StoreCall where
  raw : Bytes
  stopRequested : Bool := false
  faults : Faults := fun _ => none
  before : List (Bytes × Bytes) := []
  meanwhile : List (Bytes × Bytes) := []
  racing : List (Bytes × Bytes) := []

/-- Publications of others: each takes a free path and replaces nothing. -/
def Objects.arrive (objects : Objects) (arrivals : List (Bytes × Bytes)) : Objects :=
  arrivals.foldl (fun seen a => if (seen a.1).isNone then seen.publish a.1 a.2 else seen) objects

/-- `ObjectStore::find_existing_file` where nothing is known of the hash. -/
def adoptOrphan (x : Externals) (maximum : Nat) (objects : Objects) (faults : Faults)
    (hashHex relativePath : Bytes) (rawSize : Nat) :
    Except LocalVaultError (Option StoredObject) := do
  match ← regularFileSize objects relativePath with
  | none => .ok none
  | some orphanSize =>
    let _ ← readVerified x maximum objects hashHex relativePath rawSize orphanSize
    attempt faults adoptionSteps
    .ok (some ⟨hashHex, relativePath, rawSize, orphanSize, false⟩)

/-- `ObjectStore::find_existing_file` on that host. -/
def lookAgain (x : Externals) (maximum : Nat) (known : Known) (objects : Objects) (faults : Faults)
    (hashHex relativePath : Bytes) (rawSize : Nat) :
    Except LocalVaultError (Option StoredObject × Known) := do
  match known.find hashHex with
  | some cached =>
    let reused ← requireReusable maximum objects cached hashHex relativePath rawSize
    .ok (some reused, known)
  | none =>
    match ← adoptOrphan x maximum objects faults hashHex relativePath rawSize with
    | none => .ok (none, known)
    | some adopted => .ok (some adopted, remember known adopted)

/-- The stop check of `store` and the compression behind it. -/
def prepare (x : Externals) (maximum : Nat) (stopRequested : Bool) (raw : Bytes) :
    Except LocalVaultError Bytes :=
  if stopRequested then .error (objectStorageCancelled (derivedPath (hashRaw x raw)))
  else compressChunk x maximum raw

def disappeared (relativePath : Bytes) : LocalVaultError :=
  { code := .filesystemError, message := "duplicate object disappeared during publication"
    path := names relativePath }

/-- `ObjectStore::store` of a store without metadata. A call that throws leaves
the records alone. -/
def storeCall (x : Externals) (maximum : Nat) (known : Known) (objects : Objects)
    (call : StoreCall) : Except LocalVaultError StoredObject × Known × Objects :=
  let hashHex := hashRaw x call.raw
  let relativePath := derivedPath hashHex
  let first := objects.arrive call.before
  let second := first.arrive call.meanwhile
  let third := second.arrive call.racing
  match findStored x maximum known first call.raw with
  | .error e => (.error e, known, third)
  | .ok (some existing) => (.ok existing, known, third)
  | .ok none =>
    match prepare x maximum call.stopRequested call.raw with
    | .error e => (.error e, known, third)
    | .ok compressed =>
      match lookAgain x maximum known second call.faults hashHex relativePath call.raw.length with
      | .error e => (.error e, known, third)
      | .ok (some rechecked, known') => (.ok rechecked, known', third)
      | .ok (none, _) =>
        match attempt call.faults publicationSteps with
        | .error e => (.error e, known, third)
        | .ok () =>
          if (third relativePath).isSome then
            match lookAgain x maximum known third call.faults hashHex relativePath
                call.raw.length with
            | .error e => (.error e, known, third)
            | .ok (none, _) => (.error (disappeared relativePath), known, third)
            | .ok (some published, known') => (.ok published, known', third)
          else
            let published := third.publish relativePath compressed
            match attempt call.faults completionSteps with
            | .error e => (.error e, known, published)
            | .ok () =>
              let stored : StoredObject :=
                ⟨hashHex, relativePath, call.raw.length, compressed.length, true⟩
              (.ok stored, remember known { stored with newlyStored := false }, published)

/-- An `ObjectStore` with its records, one call after the other. -/
def callCaching (x : Externals) (maximum : Nat) (s : Known × Objects) (call : StoreCall) :
    Except LocalVaultError StoredObject × Known × Objects :=
  storeCall x maximum s.1 s.2 call

/-- The same store if it kept no records: each call starts without any. -/
def callUncached (x : Externals) (maximum : Nat) (objects : Objects) (call : StoreCall) :
    Except LocalVaultError StoredObject × Objects :=
  let outcome := storeCall x maximum [] objects call
  (outcome.1, outcome.2.2)

end LocalVault
