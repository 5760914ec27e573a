import Mathlib.Data.List.Forall2
import LocalVault.Database.Statements

namespace LocalVault

/-- The primary keys of the tables. -/
structure Database.Keyed (db : Database) : Prop where
  snapshots : (db.snapshots.map SnapshotRow.id).Nodup
  entries : (db.entries.map EntryRow.id).Nodup
  chunks : (db.chunks.map ChunkRow.hash).Nodup

/-- The constraints of the schema, the counters ahead of the keys they hand
out, and what publication asks of a file. -/
structure Database.Consistent (db : Database) : Prop extends db.Keyed where
  warnings : (db.warnings.map WarningRow.id).Nodup
  entrySnapshot : ∀ e ∈ db.entries, ∃ s ∈ db.snapshots, s.id = e.snapshotId
  warningSnapshot : ∀ w ∈ db.warnings, ∃ s ∈ db.snapshots, s.id = w.snapshotId
  referenceEntry : ∀ c ∈ db.entryChunks, ∃ e ∈ db.entries, e.id = c.entryId
  referenceChunk : ∀ c ∈ db.entryChunks, ∃ k ∈ db.chunks, k.hash = c.chunkHash
  snapshotIds : ∀ s ∈ db.snapshots, s.id ≤ db.lastSnapshotId
  entryIds : ∀ e ∈ db.entries, e.id ≤ db.lastEntryId
  warningIds : ∀ w ∈ db.warnings, w.id ≤ db.lastWarningId
  hashed : ∀ e ∈ db.entries, db.ofStatus e.snapshotId [.complete] = true →
    e.entryType = .regularFile → e.fileHash.any isLowercaseBlake3Hex = true

/-- The chunk references of an entry in their order. -/
def Database.fileChunks (db : Database) (entryId : Int) : List EntryChunkRow :=
  (db.entryChunksOf entryId).insertionSort (fun a b => a.sequenceNumber ≤ b.sequenceNumber)

/-- Numbered without gaps from the first number on, each behind the one before. -/
def Contiguous : Int → Int → List EntryChunkRow → Prop
  | _, _, [] => True
  | number, offset, row :: rows => row.sequenceNumber = number ∧ row.rawOffset = offset ∧
      Contiguous (number + 1) (offset + row.rawLength) rows

/-- A chunk row whose object gives the raw bytes back. -/
structure ObjectIntact (x : Externals) (chunkSize : Nat) (objects : Objects) (chunk : ChunkRow)
    (raw : Bytes) : Prop where
  hash : hashRaw x raw = chunk.hash
  path : chunk.objectPath = derivedPath chunk.hash
  rawSize : chunk.rawSize = raw.length
  nonempty : raw ≠ []
  limit : raw.length ≤ chunkSize
  object : ∃ content, objects (derivedPath chunk.hash) = some (.file content) ∧
    chunk.compressedSize = content.length ∧ content ≠ [] ∧
    content.length ≤ chunkSize + compressedSizeAllowance ∧
    decompress x content raw.length chunkSize = .ok raw

def ChunkIntact (x : Externals) (chunkSize : Nat) (db : Database) (objects : Objects)
    (row : EntryChunkRow) (part : Bytes) : Prop :=
  row.rawLength = part.length ∧
    ∃ chunk ∈ db.chunks, chunk.hash = row.chunkHash ∧ ObjectIntact x chunkSize objects chunk part

/-- A regular-file entry whose content can be read back from the repository. -/
structure FileIntact (x : Externals) (chunkSize : Nat) (db : Database) (objects : Objects)
    (e : EntryRow) (content : Bytes) : Prop where
  hash : e.fileHash = some (toHex (x.blake3 content))
  size : e.logicalSize = content.length
  contiguous : Contiguous 0 0 (db.fileChunks e.id)
  parts : ∃ parts, List.Forall₂ (ChunkIntact x chunkSize db objects) (db.fileChunks e.id) parts ∧
    content = parts.flatten

/-- What a complete snapshot promises. -/
structure SnapshotIntact (x : Externals) (chunkSize : Nat) (db : Database) (objects : Objects)
    (id : SnapshotId) : Prop where
  root : ∃ r, (db.entriesOf id).filter (fun e => e.relativePath == []) = [r] ∧
    r.entryType = .directory
  files : ∀ e ∈ db.entriesOf id, e.entryType = .regularFile →
    ∃ content, FileIntact x chunkSize db objects e content

end LocalVault
