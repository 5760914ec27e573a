import LocalVault.Library.RecordFile
import LocalVault.Snapshot.Pipeline

namespace LocalVault.Snapshot
open Library

/-- A `ChunkReferenceRecord` as it stands in the spool file. -/
structure SpoolRecord where
  hashHex : { bytes : Bytes // bytes.length = 64 }
  rawOffset : UInt64
  sequenceNumber : Int64
  rawSize : UInt64
  storedSize : UInt64
  newlyStored : UInt8
  reserved : { bytes : Bytes // bytes.length = 7 }

/-- The members of a record in their order. None of them needs padding. -/
abbrev SpoolFields : Type :=
  { bytes : Bytes // bytes.length = 64 } × UInt64 × UInt64 × UInt64 × UInt64 × UInt8 ×
    { bytes : Bytes // bytes.length = 7 }

def SpoolRecord.fields (r : SpoolRecord) : SpoolFields :=
  (r.hashHex, r.rawOffset, r.sequenceNumber.toUInt64, r.rawSize, r.storedSize, r.newlyStored,
    r.reserved)

def SpoolRecord.ofFields (f : SpoolFields) : SpoolRecord :=
  ⟨f.1, f.2.1, f.2.2.1.toInt64, f.2.2.2.1, f.2.2.2.2.1, f.2.2.2.2.2.1, f.2.2.2.2.2.2⟩

theorem SpoolRecord.ofFields_fields (r : SpoolRecord) : SpoolRecord.ofFields r.fields = r := rfl

theorem SpoolRecord.fields_ofFields (f : SpoolFields) : (SpoolRecord.ofFields f).fields = f := rfl

/-- The bytes of a record on a machine that stores words from their lowest byte on. -/
def SpoolRecord.codec : Codec SpoolRecord :=
  ((Codec.block 64).pair <| Codec.uint64.pair <| Codec.uint64.pair <| Codec.uint64.pair <|
    Codec.uint64.pair <| Codec.uint8.pair (Codec.block 7)).via
      SpoolRecord.fields SpoolRecord.ofFields SpoolRecord.ofFields_fields SpoolRecord.fields_ofFields

theorem SpoolRecord.size_eq : SpoolRecord.codec.size = 104 := rfl

/-- What `append` reads of a `StoredObject`. -/
structure SpooledObject where
  hashHex : Bytes
  rawSize : UInt64
  storedSize : UInt64
  newlyStored : Bool
  deriving DecidableEq, Repr

theorem length_reserved : (List.replicate 7 (0 : UInt8)).length = 7 := rfl

def SpoolRecord.of (object : SpooledObject) (rawOffset : UInt64) (sequenceNumber : Int64)
    (h : object.hashHex.length = 64) : SpoolRecord :=
  { hashHex := ⟨object.hashHex, h⟩
    rawOffset, sequenceNumber
    rawSize := object.rawSize
    storedSize := object.storedSize
    newlyStored := if object.newlyStored then 1 else 0
    reserved := ⟨List.replicate 7 0, length_reserved⟩ }

/-- A record as the writer takes it apart. -/
def SpoolRecord.view (r : SpoolRecord) : ChunkReferenceRecord :=
  ⟨r.hashHex.1, r.rawOffset.toNat, r.sequenceNumber.toInt, r.rawSize.toNat, r.storedSize.toNat,
    r.newlyStored != 0⟩

/-- `file_` and `reader_`. -/
structure ChunkReferenceSpool where
  path : Path
  file : RecordFile

/-- A call of the spool; `opens` says whether the file can be opened for reading. -/
inductive SpoolCall where
  | append (object : SpooledObject) (rawOffset : UInt64) (sequenceNumber : Int64)
  | rewindForReading (opens : Bool)
  | read
  deriving DecidableEq

inductive SpoolAnswer where
  | done
  | record (r : ChunkReferenceRecord)
  | threw (e : LocalVaultError)
  | undefined
  deriving DecidableEq, Repr

def invalidSpoolHash : LocalVaultError :=
  internalError "stored object has an invalid chunk-reference hash"

def spoolNotOpened (path : Path) : LocalVaultError :=
  { code := .filesystemError, message := "failed to open temporary chunk-reference spool", path }

def spoolNotRead (path : Path) : LocalVaultError :=
  { code := .filesystemError, message := "failed to read temporary chunk-reference spool", path }

/-- What a call of the spool makes of the outcome for its file. -/
def SpoolAnswer.of {ρ : Type} (view : ρ → ChunkReferenceRecord) (e : LocalVaultError) :
    FileAnswer ρ → SpoolAnswer
  | .done => .done
  | .record r => .record (view r)
  | .failed => .threw e
  | .undefined => .undefined

namespace ChunkReferenceSpool

def create (path : Path) : ChunkReferenceSpool := ⟨path, ⟨[], .closed⟩⟩

/-- A call that comes to the file. -/
def calls (s : ChunkReferenceSpool) (e : LocalVaultError) (call : FileCall SpoolRecord) :
    SpoolAnswer × ChunkReferenceSpool :=
  let r := s.file.step SpoolRecord.codec call
  (.of SpoolRecord.view e r.1, { s with file := r.2 })

def step (s : ChunkReferenceSpool) : SpoolCall → SpoolAnswer × ChunkReferenceSpool
  | .append object rawOffset sequenceNumber =>
    if h : object.hashHex.length = 64 then
      s.calls invalidSpoolHash (.append (.of object rawOffset sequenceNumber h))
    else (.threw invalidSpoolHash, s)
  | .rewindForReading opens => s.calls (spoolNotOpened s.path) (.rewind opens)
  | .read => s.calls (spoolNotRead s.path) .read

end ChunkReferenceSpool

/-- A spool as the pipeline has it: the list of its references. -/
structure SpoolList where
  path : Path
  tape : Tape ChunkReferenceRecord

namespace SpoolList

def create (path : Path) : SpoolList := ⟨path, ⟨[], .closed⟩⟩

def calls (s : SpoolList) (e : LocalVaultError) (call : FileCall ChunkReferenceRecord) :
    SpoolAnswer × SpoolList :=
  let r := s.tape.step call
  (.of id e r.1, { s with tape := r.2 })

def step (s : SpoolList) : SpoolCall → SpoolAnswer × SpoolList
  | .append object rawOffset sequenceNumber =>
    if object.hashHex.length = 64 then
      s.calls invalidSpoolHash (.append
        ⟨object.hashHex, rawOffset.toNat, sequenceNumber.toInt, object.rawSize.toNat,
          object.storedSize.toNat, object.newlyStored⟩)
    else (.threw invalidSpoolHash, s)
  | .rewindForReading opens => s.calls (spoolNotOpened s.path) (.rewind opens)
  | .read => s.calls (spoolNotRead s.path) .read

end SpoolList

end LocalVault.Snapshot
