import LocalVault.Restore.Select

namespace LocalVault.Restore

/-- `ChunkReferenceInfo` with the integer types of the source. -/
structure ChunkReferenceWords where
  sequenceNumber : Int64
  hashHex : Bytes
  objectPath : Bytes
  rawOffset : UInt64
  rawLength : UInt64
  rawSize : UInt64
  storedSize : UInt64
  deriving DecidableEq

def ChunkReferenceWords.info (w : ChunkReferenceWords) : ChunkReferenceInfo :=
  { sequenceNumber := w.sequenceNumber.toInt, hashHex := w.hashHex, objectPath := w.objectPath,
    rawOffset := w.rawOffset.toNat, rawLength := w.rawLength.toNat, rawSize := w.rawSize.toNat,
    storedSize := w.storedSize.toNat }

namespace Words

/-- `std::numeric_limits<ByteCount>::max()`. -/
def maximum : UInt64 := 0xFFFFFFFFFFFFFFFF

/-- `checked_add`. -/
def checkedAdd (left right : UInt64) (path : Path) : Except LocalVaultError UInt64 :=
  if right > maximum - left then
    .error { code := .objectCorrupt, message := "restored byte offset overflow", path }
  else .ok (left + right)

/-- `maximum_stored_size`. -/
def maximumStoredSize (chunkSize : UInt64) : UInt64 :=
  let overhead : UInt64 := 64 * 1024
  let fractionalOverhead := chunkSize / 8
  if fractionalOverhead > maximum - chunkSize then maximum
  else
    let subtotal := chunkSize + fractionalOverhead
    if overhead > maximum - subtotal then maximum else subtotal + overhead

/-- One round of the loop of `validate_chunks`, from `expected_sequence` and
`expected_offset`. -/
def validateChunk (path : Path) (chunkSize : UInt64) (expected : Int64 × UInt64)
    (chunk : ChunkReferenceWords) : Except LocalVaultError (Int64 × UInt64) :=
  if chunk.sequenceNumber ≠ expected.1 ∨ chunk.rawOffset ≠ expected.2 ∨
      chunk.rawLength = 0 ∨ chunk.rawLength ≠ chunk.rawSize ∨ chunk.rawLength > chunkSize ∨
      chunk.rawSize > chunkSize ∨ chunk.storedSize = 0 ∨
      chunk.storedSize > maximumStoredSize chunkSize ∨ chunk.storedSize > maximum then
    .error { code := .objectCorrupt,
             message := "entry has invalid or non-contiguous chunk metadata", path }
  else do
    let nextOffset ← checkedAdd expected.2 chunk.rawLength path
    if expected.1 = Int64.maxValue then
      .error { code := .objectCorrupt, message := "entry has too many chunks", path }
    else .ok (expected.1 + 1, nextOffset)

/-- `validate_chunks`. -/
def validateChunks (relativePath : Bytes) (logicalSize : UInt64)
    (chunks : List ChunkReferenceWords) (chunkSize : UInt64) : Except LocalVaultError Unit := do
  let expected ← chunks.foldlM (validateChunk (components relativePath) chunkSize) (0, 0)
  if expected.2 ≠ logicalSize ∨ (logicalSize = 0 ∧ chunks ≠ []) ∨
      (logicalSize ≠ 0 ∧ chunks = []) then
    .error { code := .objectCorrupt, message := "entry chunks do not match the stored logical size",
             path := components relativePath }
  else .ok ()

end Words
end LocalVault.Restore
