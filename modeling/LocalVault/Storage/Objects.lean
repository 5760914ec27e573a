import LocalVault.Storage.Codec

namespace LocalVault

/-- What stands at a path below the repository root. -/
inductive ObjectNode where
  | file (content : Bytes)
  | other
  deriving DecidableEq, Repr

/-- The files below `objects/`, by their path relative to the repository. -/
abbrev Objects := Bytes → Option ObjectNode

structure StoredObject where
  hashHex : Bytes
  relativePath : Bytes
  rawSize : Nat
  storedSize : Nat
  newlyStored : Bool
  deriving DecidableEq, Repr

/-- `known_objects_`. -/
abbrev Known := List (Bytes × StoredObject)

def compressedSizeAllowance : Nat := 64 * 1024

def requireValidHash (hashHex : Bytes) (code : ErrorCode) : Except LocalVaultError Unit :=
  if isLowercaseBlake3Hex hashHex then .ok ()
  else .error { code, message := "object identifier is not lowercase BLAKE3 hexadecimal" }

def derivedPath (hashHex : Bytes) : Bytes :=
  ascii "objects/" ++ hashHex.take 2 ++ slash :: (hashHex ++ ascii ".zst")

def objectRelativePath (hashHex : Bytes) : Except LocalVaultError Bytes :=
  match requireValidHash hashHex .invalidArgument with
  | .error e => .error e
  | .ok () => .ok (derivedPath hashHex)

def hashRaw (x : Externals) (raw : Bytes) : Bytes := toHex (x.blake3 raw)

def regularFileSize (objects : Objects) (path : Bytes) : Except LocalVaultError (Option Nat) :=
  match objects path with
  | none => .ok none
  | some .other =>
    .error { code := .objectCorrupt, message := "stored object path is not a regular file",
             path := names path }
  | some (.file content) =>
    if maximumByteCount < content.length then
      .error { code := .objectCorrupt, message := "stored object size is outside the supported range",
               path := names path }
    else .ok (some content.length)

def readExact (objects : Objects) (path : Bytes) (size : Nat) : Except LocalVaultError Bytes :=
  match objects path with
  | some (.file content) =>
    if content.length < size then
      .error { code := .objectCorrupt, message := "stored object is truncated", path := names path }
    else .ok (content.take size)
  | _ =>
    .error { code := .objectMissing, message := "stored object cannot be opened",
             path := names path }

/-- `ObjectStore::read_verified` with the repository's chunk-size limit. -/
def readVerified (x : Externals) (maximum : Nat) (objects : Objects)
    (hashHex relativePath : Bytes) (expectedRawSize expectedStoredSize : Nat) :
    Except LocalVaultError Bytes := do
  requireValidHash hashHex .objectCorrupt
  let derived := derivedPath hashHex
  if pathKey relativePath ≠ pathKey derived then
    .error { code := .objectCorrupt,
             message := "stored object path does not match its BLAKE3 identifier",
             path := names relativePath }
  else if expectedRawSize = 0 ∨ maximum < expectedRawSize ∨ maximumByteCount < expectedRawSize then
    .error { code := .objectCorrupt,
             message := "stored object raw size exceeds the repository chunk-size limit",
             path := names derived }
  else if expectedStoredSize = 0 ∨ maximum + compressedSizeAllowance < expectedStoredSize ∨
      maximumByteCount < expectedStoredSize then
    .error { code := .objectCorrupt,
             message := "stored object compressed size exceeds the safety limit",
             path := names derived }
  else
    match ← regularFileSize objects derived with
    | none =>
      .error { code := .objectMissing, message := "stored object is missing", path := names derived }
    | some actualSize =>
      if actualSize ≠ expectedStoredSize then
        .error { code := .objectCorrupt, message := "stored object size does not match metadata",
                 path := names derived }
      else
        let compressed ← readExact objects derived expectedStoredSize
        match decompress x compressed expectedRawSize maximum with
        | .error e =>
          if e.code ≠ .compressionError then .error e
          else .error { code := .objectCorrupt,
                        message := "stored object failed zstd verification: " ++ e.message,
                        path := names derived }
        | .ok raw =>
          if hashRaw x raw ≠ hashHex then
            .error { code := .objectCorrupt, message := "stored object failed BLAKE3 verification",
                     path := names derived }
          else .ok raw

/-- `ObjectStore::require_reusable`: a known record is checked against the file
it names, by size only. -/
def requireReusable (maximum : Nat) (objects : Objects) (known : StoredObject)
    (expectedHash expectedRelativePath : Bytes) (expectedRawSize : Nat) :
    Except LocalVaultError StoredObject := do
  if known.hashHex ≠ expectedHash ∨
      pathKey known.relativePath ≠ pathKey expectedRelativePath then
    .error { code := .objectCorrupt,
             message := "stored object metadata does not match its BLAKE3 identifier",
             path := names expectedRelativePath }
  else if known.rawSize ≠ expectedRawSize then
    .error { code := .objectCorrupt,
             message := "existing chunk metadata has a conflicting raw size",
             path := names expectedRelativePath }
  else if known.storedSize = 0 ∨ maximum + compressedSizeAllowance < known.storedSize then
    .error { code := .objectCorrupt,
             message := "stored object compressed size exceeds the safety limit",
             path := names expectedRelativePath }
  else
    match ← regularFileSize objects expectedRelativePath with
    | none =>
      .error { code := .objectMissing, message := "stored object is missing",
               path := names expectedRelativePath }
    | some actualSize =>
      if actualSize ≠ known.storedSize then
        .error { code := .objectCorrupt, message := "stored object size does not match metadata",
                 path := names expectedRelativePath }
      else .ok { known with newlyStored := false }

def maximumKnownObjects : Nat := 64

def Known.find (known : Known) (hashHex : Bytes) : Option StoredObject :=
  (List.find? (fun r => r.1 == hashHex) known).map Prod.snd

/-- `ObjectStore::remember`. -/
def remember (known : Known) (object : StoredObject) : Known :=
  let kept :=
    if maximumKnownObjects ≤ known.length ∧ known.find object.hashHex = none then [] else known
  (object.hashHex, object) :: kept.filter (fun r => r.1 != object.hashHex)

/-- `ObjectStore::find_existing` of a store without metadata. -/
def findExisting (maximum : Nat) (known : Known) (objects : Objects)
    (hashHex relativePath : Bytes) (rawSize : Nat) :
    Except LocalVaultError (Option StoredObject) :=
  match known.find hashHex with
  | none => .ok none
  | some cached =>
    match requireReusable maximum objects cached hashHex relativePath rawSize with
    | .error e => .error e
    | .ok reused => .ok (some reused)

/-- `ObjectStore::find_existing_file`: an object nobody registered yet is read
and verified in full before it is adopted. -/
def findExistingFile (x : Externals) (maximum : Nat) (known : Known) (objects : Objects)
    (hashHex relativePath : Bytes) (rawSize : Nat) :
    Except LocalVaultError (Option StoredObject × Known) := do
  match known.find hashHex with
  | some cached =>
    let reused ← requireReusable maximum objects cached hashHex relativePath rawSize
    .ok (some reused, known)
  | none =>
    match ← regularFileSize objects relativePath with
    | none => .ok (none, known)
    | some orphanSize =>
      let _ ← readVerified x maximum objects hashHex relativePath rawSize orphanSize
      let adopted : StoredObject := ⟨hashHex, relativePath, rawSize, orphanSize, false⟩
      .ok (some adopted, remember known adopted)

/-- What `ObjectStore::store` does in front of its stripe: the checks of the
chunk and the look at its own records. -/
def findStored (x : Externals) (maximum : Nat) (known : Known) (objects : Objects) (raw : Bytes) :
    Except LocalVaultError (Option StoredObject) :=
  if raw = [] then
    .error { code := .invalidArgument, message := "empty files must not create stored objects" }
  else if maximum < raw.length then
    .error { code := .invalidArgument,
             message := "raw chunk exceeds the repository chunk-size limit" }
  else findExisting maximum known objects (hashRaw x raw) (derivedPath (hashRaw x raw)) raw.length

def objectStorageCancelled (relativePath : Bytes) : LocalVaultError :=
  { code := .cancelled, message := "object storage cancelled", path := names relativePath }

def compressChunk (x : Externals) (maximum : Nat) (raw : Bytes) : Except LocalVaultError Bytes := do
  let compressed ← compress x raw
  if compressed.length = 0 ∨ maximum + compressedSizeAllowance < compressed.length then
    .error { code := .compressionError,
             message := "compressed object exceeds the configured safety limit" }
  else .ok compressed

def Objects.publish (objects : Objects) (relativePath content : Bytes) : Objects :=
  fun p => if p = relativePath then some (.file content) else objects p

/-- What `ObjectStore::store` does under the stripe of its hash. -/
def storeUnderStripe (x : Externals) (maximum : Nat) (known : Known) (objects : Objects)
    (raw compressed : Bytes) : Except LocalVaultError (StoredObject × Known × Objects) :=
  let hashHex := hashRaw x raw
  let relativePath := derivedPath hashHex
  match findExistingFile x maximum known objects hashHex relativePath raw.length with
  | .error e => .error e
  | .ok (some stored, known') => .ok (stored, known', objects)
  | .ok (none, known') =>
    let stored : StoredObject := ⟨hashHex, relativePath, raw.length, compressed.length, true⟩
    .ok (stored, remember known' { stored with newlyStored := false },
      objects.publish relativePath compressed)

/-- `ObjectStore::store` of a store without metadata that runs alone. -/
def store (x : Externals) (maximum : Nat) (known : Known) (objects : Objects) (raw : Bytes)
    (stopRequested : Bool) : Except LocalVaultError (StoredObject × Known × Objects) := do
  match ← findStored x maximum known objects raw with
  | some existing => .ok (existing, known, objects)
  | none =>
    if stopRequested then .error (objectStorageCancelled (derivedPath (hashRaw x raw)))
    else
      let compressed ← compressChunk x maximum raw
      storeUnderStripe x maximum known objects raw compressed

end LocalVault
