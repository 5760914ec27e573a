import LocalVault.Database.Tables

namespace LocalVault.Restore

def validateEntriesFrom : Nat → List EntryInfo → Except LocalVaultError Unit
  | rootCount, [] =>
    if rootCount ≠ 1 then
      .error { code := .databaseError, message := "snapshot must contain exactly one root entry" }
    else .ok ()
  | rootCount, entry :: entries =>
    if entry.relativePath = [] then
      if entry.type ≠ .directory then
        .error { code := .databaseError, message := "snapshot root entry is not a directory" }
      else validateEntriesFrom (rootCount + 1) entries
    else if isSafeStoredPath entry.relativePath = false then
      .error { code := .unsafeRestorePath,
               message := "snapshot contains an unsafe stored relative path",
               path := components entry.relativePath }
    else validateEntriesFrom rootCount entries

def validateEntries (entries : List EntryInfo) : Except LocalVaultError Unit :=
  validateEntriesFrom 0 entries

def validateSelectedFileHashes : List EntryInfo → Except LocalVaultError Unit
  | [] => .ok ()
  | entry :: entries =>
    if entry.type = .regularFile ∧ entry.fileHashHex.any isLowercaseBlake3Hex = false then
      .error { code := .objectCorrupt,
               message := "regular-file entry has no valid BLAKE3 file hash",
               path := components entry.relativePath }
    else validateSelectedFileHashes entries

/-- `std::map<std::string, const EntryInfo*>`: the first entry of a key stays. -/
abbrev ByPath := List (Bytes × EntryInfo)

def ByPath.emplace (m : ByPath) (key : Bytes) (entry : EntryInfo) : ByPath :=
  if m.any (fun r => r.1 == key) then m else m ++ [(key, entry)]

def ByPath.find (m : ByPath) (key : Bytes) : Option EntryInfo :=
  (List.find? (fun r => r.1 == key) m).map Prod.snd

def byPath : List EntryInfo → ByPath → ByPath
  | [], m => m
  | entry :: entries, m =>
    if entry.relativePath = [] then byPath entries m
    else byPath entries (m.emplace (pathKey entry.relativePath) entry)

/-- The last root entry, where `root` points after the loop. -/
def rootEntry (entries : List EntryInfo) : Option EntryInfo :=
  entries.reverse.find? (fun e => e.relativePath == [])

def insertKey (keys : List Bytes) (key : Bytes) : List Bytes :=
  if key ∈ keys then keys else keys ++ [key]

/-- The requested paths and, below a requested directory, everything. -/
def requestedKeys (m : ByPath) : List Bytes → List Bytes → Except LocalVaultError (List Bytes)
  | [], keys => .ok keys
  | requested :: rest, keys =>
    if isSafeStoredPath requested = false then
      .error { code := .invalidArgument,
               message := "selected restore path must be a safe nonempty relative path",
               path := components requested }
    else match m.find (pathKey requested) with
      | none =>
        .error { code := .invalidArgument,
                 message := "selected restore path does not exist in the snapshot",
                 path := components requested }
      | some found =>
        let keys := insertKey keys (pathKey requested)
        if found.type = .directory then
          let below := m.filter (fun r =>
            isComponentPrefix (components requested) (components r.2.relativePath))
          requestedKeys m rest ((below.map Prod.fst).foldl insertKey keys)
        else requestedKeys m rest keys

/-- The proper ancestors of a path, nearest first. -/
def ancestors (path : List Name) : List (List Name) := path.dropLast.inits.tail.reverse

/-- The `while (!parent.empty())` loop for one selected entry. -/
def ancestorKeys (m : ByPath) (entry : EntryInfo) :
    List (List Name) → List Bytes → Except LocalVaultError (List Bytes)
  | [], keys => .ok keys
  | parent :: parents, keys =>
    match m.find (joined parent) with
    | some found =>
      if found.type = .directory then ancestorKeys m entry parents (insertKey keys (joined parent))
      else .error { code := .databaseError,
                    message := "selected entry is missing a directory ancestor",
                    path := components entry.relativePath }
    | none =>
      .error { code := .databaseError, message := "selected entry is missing a directory ancestor",
               path := components entry.relativePath }

def allAncestorKeys (m : ByPath) : List Bytes → List Bytes → Except LocalVaultError (List Bytes)
  | [], keys => .ok keys
  | key :: rest, keys =>
    match m.find key with
    | none => allAncestorKeys m rest keys
    | some entry =>
      match ancestorKeys m entry (ancestors (components entry.relativePath)) keys with
      | .error e => .error e
      | .ok keys => allAncestorKeys m rest keys

def selectEntries (entries : List EntryInfo) (requestedPaths : List Bytes) :
    Except LocalVaultError (List EntryInfo) := do
  let m := byPath entries []
  if requestedPaths = [] then .ok entries
  else
    let descendants ← requestedKeys m requestedPaths []
    let selectedKeys ← allAncestorKeys m (descendants.insertionSort (· ≤ ·)) descendants
    .ok ((rootEntry entries).toList ++
      (selectedKeys.insertionSort (· ≤ ·)).filterMap (fun key => m.find key))

def checkedAdd (left right : Nat) (path : Path) : Except LocalVaultError Nat :=
  if maximumByteCount - left < right then
    .error { code := .objectCorrupt, message := "restored byte offset overflow", path }
  else .ok (left + right)

def maximumStoredSize (chunkSize : Nat) : Nat :=
  let overhead := 64 * 1024
  let fractionalOverhead := chunkSize / 8
  if maximumByteCount - chunkSize < fractionalOverhead then maximumByteCount
  else
    let subtotal := chunkSize + fractionalOverhead
    if maximumByteCount - subtotal < overhead then maximumByteCount else subtotal + overhead

/-- The loop of `validate_chunks`, from an expected sequence number and offset;
the result is the offset behind the last chunk. -/
def validateChunksFrom (entry : EntryInfo) (chunkSize : Nat) :
    Int → Nat → List ChunkReferenceInfo → Except LocalVaultError Nat
  | _, expectedOffset, [] => .ok expectedOffset
  | expectedSequence, expectedOffset, chunk :: chunks =>
    if chunk.sequenceNumber ≠ expectedSequence ∨ chunk.rawOffset ≠ expectedOffset ∨
        chunk.rawLength = 0 ∨ chunk.rawLength ≠ chunk.rawSize ∨ chunkSize < chunk.rawLength ∨
        chunkSize < chunk.rawSize ∨ chunk.storedSize = 0 ∨
        maximumStoredSize chunkSize < chunk.storedSize ∨ maximumByteCount < chunk.storedSize then
      .error { code := .objectCorrupt,
               message := "entry has invalid or non-contiguous chunk metadata",
               path := components entry.relativePath }
    else match checkedAdd expectedOffset chunk.rawLength (components entry.relativePath) with
      | .error e => .error e
      | .ok nextOffset =>
        if expectedSequence = maximumInt64 then
          .error { code := .objectCorrupt, message := "entry has too many chunks",
                   path := components entry.relativePath }
        else validateChunksFrom entry chunkSize (expectedSequence + 1) nextOffset chunks

def validateChunks (entry : EntryInfo) (chunks : List ChunkReferenceInfo) (chunkSize : Nat) :
    Except LocalVaultError Unit :=
  match validateChunksFrom entry chunkSize 0 0 chunks with
  | .error e => .error e
  | .ok total =>
    if total ≠ entry.logicalSize ∨ (entry.logicalSize = 0 ∧ chunks ≠ []) ∨
        (entry.logicalSize ≠ 0 ∧ chunks = []) then
      .error { code := .objectCorrupt, message := "entry chunks do not match the stored logical size",
               path := components entry.relativePath }
    else .ok ()

/-- `chunks_by_entry`: the chunk lists of the selected regular files, read and
validated before anything is written. -/
def chunksByEntry (db : Database) (chunkSize : Nat) :
    List EntryInfo → Except LocalVaultError (List (Int × List ChunkReferenceInfo))
  | [] => .ok []
  | entry :: entries =>
    if entry.type ≠ .regularFile then chunksByEntry db chunkSize entries
    else do
      let chunks ← listEntryChunks db entry.id
      validateChunks entry chunks chunkSize
      let rest ← chunksByEntry db chunkSize entries
      .ok ((entry.id, chunks) :: rest)

end LocalVault.Restore
