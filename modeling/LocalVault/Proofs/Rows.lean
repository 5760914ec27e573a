import LocalVault.Snapshot.Pipeline

namespace LocalVault
open Library

variable {db db' : Database}

theorem bindTexts_returns {values : List Bytes} (h : bindTexts values db = (.ok (), db')) :
    db = db' := by
  unfold bindTexts at h
  split at h
  · cases h
  · cases h
    rfl

theorem requireSingle_returns {missing multiple : LocalVaultError} {n : Nat}
    (h : requireSingle missing multiple n db = (.ok (), db')) : n = 1 ∧ db = db' := by
  unfold requireSingle at h
  split at h
  · cases h
  · cases h
    exact ⟨rfl, rfl⟩
  · cases h

theorem checkedInt64_ok {value : Nat} {field : String} {result : Int}
    (h : checkedInt64 value field = .ok result) : result = value ∧ value ≤ maximumInt64 := by
  unfold checkedInt64 at h
  split at h
  · cases h
  · cases h
    exact ⟨rfl, Nat.not_lt.mp ‹_›⟩

theorem checkedByteCount_ok {value : Int} {field : String} {result : Nat}
    (h : checkedByteCount value field = .ok result) : value = result := by
  unfold checkedByteCount at h
  split at h
  · cases h
  · rename_i hneg
    cases h
    exact (Int.toNat_of_nonneg (Int.not_lt.mp hneg)).symm

theorem requireValidHash_ok {hash : Bytes} {code : ErrorCode}
    (h : requireValidHash hash code = .ok ()) : isLowercaseBlake3Hex hash = true := by
  unfold requireValidHash at h
  split at h
  · assumption
  · cases h

/-- A new entry row. -/
theorem insertEntry_returns {snapshotId : SnapshotId} {entry : ScannedEntry} {id : Int}
    (h : insertEntry snapshotId entry db = (.ok id, db')) :
    entry.logicalSize ≤ maximumInt64 ∧
      (∀ e ∈ db.entries, e.snapshotId = snapshotId → e.relativePath ≠ entry.relativePath) ∧
      (∃ s ∈ db.snapshots, s.id = snapshotId) ∧ id = db.lastEntryId + 1 ∧
      db' = { db with
        entries := db.entries ++ [EntryRow.ofScanned id snapshotId entry entry.logicalSize]
        lastEntryId := db.lastEntryId + 1 } := by
  obtain ⟨_, u, hbind, h⟩ := Program.bind_returns.mp h
  obtain rfl := bindTexts_returns hbind
  obtain ⟨size, w, hrun, h⟩ := Program.bind_returns.mp h
  obtain ⟨hsize, rfl⟩ := Program.ofExcept_returns.mp hrun
  obtain ⟨rfl, hmax⟩ := checkedInt64_ok hsize
  unfold addEntry at h
  split at h
  · cases h
  · rename_i hunique
    split at h
    · cases h
    · rename_i hsnapshot
      cases h
      simp only [List.any_eq_true, Bool.and_eq_true, beq_iff_eq, not_exists, not_and] at hunique
      refine ⟨hmax, fun e he hs => hunique e he hs, by simpa using hsnapshot, rfl, rfl⟩

theorem insertWarning_returns {snapshotId : SnapshotId} {warning : ScanWarning}
    (h : insertWarning snapshotId warning db = (.ok (), db')) :
    db' = { db with
      warnings := db.warnings ++ [⟨db.lastWarningId + 1, snapshotId, warning.relativePath,
        warning.code, warning.message⟩]
      lastWarningId := db.lastWarningId + 1 } := by
  obtain ⟨_, u, hbind, h⟩ := Program.bind_returns.mp h
  obtain rfl := bindTexts_returns hbind
  unfold addWarning at h
  split at h
  · cases h
  · cases h
    rfl

/-- The hash of a file is set in one row. -/
theorem setRegularFileHash_returns {entryId : Int} {hash : Bytes}
    (h : setRegularFileHash entryId hash db = (.ok (), db')) :
    isLowercaseBlake3Hex hash = true ∧ (db.entries.filter (db.hashable entryId)).length = 1 ∧
      db' = { db with entries := db.entries.map (fun e =>
        if db.hashable entryId e then { e with fileHash := some hash } else e) } := by
  unfold setRegularFileHash at h
  split at h
  · cases h
  · rename_i hvalid
    obtain ⟨n, u, hupdate, h⟩ := Program.bind_returns.mp h
    obtain ⟨rfl, rfl⟩ := requireSingle_returns h
    unfold updateHash at hupdate
    simp only [Prod.mk.injEq, Except.ok.injEq] at hupdate
    exact ⟨by simpa using hvalid, hupdate.1, hupdate.2.symm⟩

/-- What `ensure_chunk` leaves: the row it was asked for, old or new. -/
structure ChunkEnsured (chunk : StoredChunkInfo) (db db' : Database) : Prop where
  rows : db' = db ∨ (∀ k ∈ db.chunks, k.hash ≠ chunk.hashHex) ∧ db' = { db with
    chunks := db.chunks ++
      [⟨chunk.hashHex, chunk.rawSize, chunk.storedSize, chunk.objectPath, chunk.createdAtNs⟩] }
  row : ∃ row, db'.chunks.filter (fun k => k.hash == chunk.hashHex) = [row] ∧
    row.rawSize = chunk.rawSize ∧ row.compressedSize = chunk.storedSize ∧
    row.objectPath = chunk.objectPath

theorem insertChunk_returns {chunk : StoredChunkInfo} {rawSize storedSize : Int}
    (h : insertChunk chunk rawSize storedSize db = (.ok (), db')) :
    db' = db ∨ (∀ k ∈ db.chunks, k.hash ≠ chunk.hashHex) ∧ db' = { db with
      chunks := db.chunks ++ [⟨chunk.hashHex, rawSize, storedSize, chunk.objectPath, chunk.createdAtNs⟩] } := by
  unfold insertChunk at h
  split at h
  · cases h
    exact Or.inl rfl
  · rename_i hnew
    split at h
    · cases h
    · split at h
      · cases h
      · cases h
        refine Or.inr ⟨?_, rfl⟩
        intro k hk he
        exact hnew (List.any_eq_true.mpr ⟨k, hk, by simp [he]⟩)

theorem ensureChunk_returns {chunk : StoredChunkInfo} (h : ensureChunk chunk db = (.ok (), db')) :
    ChunkEnsured chunk db db' := by
  obtain ⟨_, u, hbind, h⟩ := Program.bind_returns.mp h
  obtain rfl := bindTexts_returns hbind
  obtain ⟨raw, w, hrun, h⟩ := Program.bind_returns.mp h
  obtain ⟨hraw, rfl⟩ := Program.ofExcept_returns.mp hrun
  obtain ⟨rfl, _⟩ := checkedInt64_ok hraw
  obtain ⟨stored, w, hrun, h⟩ := Program.bind_returns.mp h
  obtain ⟨hstored, rfl⟩ := Program.ofExcept_returns.mp hrun
  obtain ⟨rfl, _⟩ := checkedInt64_ok hstored
  obtain ⟨_, after, hinsert, h⟩ := Program.bind_returns.mp h
  obtain ⟨rows, same, hread, h⟩ := Program.bind_returns.mp h
  cases hread
  have hrows := insertChunk_returns hinsert
  simp only at h
  generalize hrow : after.chunks.filter (fun k => k.hash == chunk.hashHex) = found at h
  match found, h with
  | [], h => cases h
  | [row], h =>
    obtain ⟨rawSize, w, hrun, h⟩ := Program.bind_returns.mp h
    obtain ⟨hraw', rfl⟩ := Program.ofExcept_returns.mp hrun
    obtain ⟨storedSize, w, hrun, h⟩ := Program.bind_returns.mp h
    obtain ⟨hstored', rfl⟩ := Program.ofExcept_returns.mp hrun
    split at h
    · cases h
    · rename_i hsame
      cases h
      simp only [not_or, ne_eq, Decidable.not_not] at hsame
      refine ⟨hrows, row, hrow, ?_, ?_, hsame.2.2⟩
      · rw [checkedByteCount_ok hraw', hsame.1]
      · rw [checkedByteCount_ok hstored', hsame.2.1]
  | _ :: _ :: _, h => cases h

/-- A new chunk reference. -/
theorem insertEntryChunk_returns {entryId sequenceNumber : Int} {hash : Bytes}
    {rawOffset rawLength : Nat}
    (h : insertEntryChunk entryId sequenceNumber hash rawOffset rawLength db = (.ok (), db')) :
    (∃ e ∈ db.entries, e.id = entryId) ∧ (∃ k ∈ db.chunks, k.hash = hash) ∧
      (∀ r ∈ db.entryChunks, r.entryId = entryId → r.sequenceNumber ≠ sequenceNumber) ∧
      0 < rawLength ∧ db' = { db with
        entryChunks := db.entryChunks ++ [⟨entryId, sequenceNumber, hash, rawOffset, rawLength⟩] } := by
  obtain ⟨_, u, hbind, h⟩ := Program.bind_returns.mp h
  obtain rfl := bindTexts_returns hbind
  obtain ⟨offset, w, hrun, h⟩ := Program.bind_returns.mp h
  obtain ⟨hoffset, rfl⟩ := Program.ofExcept_returns.mp hrun
  obtain ⟨rfl, _⟩ := checkedInt64_ok hoffset
  obtain ⟨length, w, hrun, h⟩ := Program.bind_returns.mp h
  obtain ⟨hlength, rfl⟩ := Program.ofExcept_returns.mp hrun
  obtain ⟨rfl, _⟩ := checkedInt64_ok hlength
  unfold addEntryChunk at h
  split at h
  · cases h
  · split at h
    · cases h
    · rename_i hlong
      split at h
      · cases h
      · rename_i hunique
        split at h
        · cases h
        · rename_i hkeys
          cases h
          simp only [Bool.not_eq_true', Bool.not_eq_false, Bool.and_eq_true, List.any_eq_true,
            beq_iff_eq, not_exists, not_and] at hkeys hunique
          exact ⟨hkeys.1, hkeys.2, fun r hr he => hunique r hr he,
            Nat.pos_of_ne_zero (by simpa using hlong), rfl⟩

theorem regularFileSize_some {objects : Objects} {path : Bytes} {size : Nat}
    (h : regularFileSize objects path = .ok (some size)) :
    ∃ content, objects path = some (.file content) ∧ content.length = size := by
  unfold regularFileSize at h
  split at h
  · cases h
  · cases h
  · rename_i content hfile
    split at h
    · cases h
    · cases h
      exact ⟨content, hfile, rfl⟩

/-- A record is reused only where its file has the size it names. -/
theorem requireReusable_returns {maximum rawSize : Nat} {objects : Objects}
    {known object : StoredObject} {hash path : Bytes}
    (h : requireReusable maximum objects known hash path rawSize = .ok object) :
    known.hashHex = hash ∧ known.rawSize = rawSize ∧ object = { known with newlyStored := false } ∧
      ∃ content, objects path = some (.file content) ∧ content.length = known.storedSize := by
  unfold requireReusable at h
  split at h
  · cases h
  · rename_i hhash
    split at h
    · cases h
    · rename_i hraw
      split at h
      · cases h
      · obtain ⟨size, hsize, h⟩ := bind_ok.mp h
        cases size with
        | none => cases h
        | some actual =>
          simp only at h
          split at h
          · cases h
          · rename_i hactual
            cases h
            simp only [not_or, ne_eq, Decidable.not_not] at hhash hraw hactual
            obtain ⟨content, hfile, hlength⟩ := regularFileSize_some hsize
            exact ⟨hhash.1, hraw, rfl, content, hfile, hlength.trans hactual⟩

namespace Snapshot

/-- What the record of a chunk leaves behind. -/
structure ChunkRecorded (objects : Objects) (entryId : Int) (ref : ChunkReferenceRecord) (now : Int)
    (db db' : Database) : Prop where
  object : ∃ content, objects (derivedPath ref.hashHex) = some (.file content) ∧
    content.length = ref.storedSize
  long : 0 < ref.rawSize
  entry : ∃ e ∈ db.entries, e.id = entryId
  fresh : ∀ r ∈ db.entryChunks, r.entryId = entryId → r.sequenceNumber ≠ ref.sequenceNumber
  ensured : ∃ mid, ChunkEnsured
      ⟨ref.hashHex, ref.rawSize, ref.storedSize, derivedPath ref.hashHex, now⟩ db mid ∧
    db' = { mid with entryChunks := mid.entryChunks ++
      [⟨entryId, ref.sequenceNumber, ref.hashHex, ref.rawOffset, ref.rawSize⟩] }

theorem recordChunk_returns {c : Config} {objects : Objects} {entryId : Int}
    {ref : ChunkReferenceRecord} {now : Int}
    (h : recordChunk c objects entryId ref now db = (.ok (), db')) :
    ChunkRecorded objects entryId ref now db db' := by
  obtain ⟨path, u, hrun, h⟩ := Program.bind_returns.mp h
  obtain ⟨hpath, rfl⟩ := Program.ofExcept_returns.mp hrun
  have hderived : path = derivedPath ref.hashHex := by
    unfold objectRelativePath at hpath
    split at hpath
    · cases hpath
    · cases hpath
      rfl
  subst hderived
  obtain ⟨_, mid, hmid, h⟩ := Program.bind_returns.mp h
  obtain ⟨_, w, hrun, hmid⟩ := Program.bind_returns.mp hmid
  obtain ⟨_, rfl⟩ := Program.ofExcept_returns.mp hrun
  obtain ⟨verified, w, hrun, hmid⟩ := Program.bind_returns.mp hmid
  obtain ⟨hreuse, rfl⟩ := Program.ofExcept_returns.mp hrun
  obtain ⟨_, _, rfl, hobject⟩ := requireReusable_returns hreuse
  have hensured := ensureChunk_returns hmid
  obtain ⟨hentry, _, hfresh, hlong, hdb⟩ := insertEntryChunk_returns h
  have hsame : mid.entries = db.entries ∧ mid.entryChunks = db.entryChunks := by
    rcases hensured.rows with he | ⟨_, he⟩ <;> rw [he] <;> exact ⟨rfl, rfl⟩
  refine ⟨hobject, hlong, ?_, ?_, mid, hensured, hdb⟩
  · rw [← hsame.1]
    exact hentry
  · rw [← hsame.2]
    exact hfresh

end Snapshot

end LocalVault
