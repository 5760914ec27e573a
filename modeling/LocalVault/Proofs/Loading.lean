import LocalVault.Proofs.Reading
import LocalVault.Proofs.Selection

namespace LocalVault.Restore
open Library Library.FileTree

/-- Columns within the ranges of the types they are read into. -/
structure InRange (row : EntryRow) : Prop where
  logicalSize : 0 ≤ row.logicalSize ∧ row.logicalSize ≤ maximumInt64
  posixMode : 0 ≤ row.posixMode ∧ row.posixMode ≤ maximumUint32
  windowsAttributes : ∀ a, row.windowsAttributes = some a → 0 ≤ a ∧ a ≤ maximumUint32

/-- A complete snapshot with intact objects and a table of safe paths, closed
under ancestors. -/
structure Restorable (x : Externals) (repository : RepositoryView) (id : SnapshotId) : Prop where
  keyed : repository.db.Keyed
  chunkSize : repository.chunkSizeBytes ≤ permanentMaximumChunkSize
  complete : ∃ s ∈ repository.db.snapshots, s.id = id ∧ s.status = .complete
  intact : SnapshotIntact x repository.chunkSizeBytes repository.db repository.objects id
  ranges : ∀ e ∈ repository.db.entriesOf id, InRange e
  safe : ∀ e ∈ repository.db.entriesOf id, e.relativePath ≠ [] →
    isSafeStoredPath e.relativePath = true
  distinct : ((repository.db.entriesOf id).map (fun e => components e.relativePath)).Nodup
  closed : ∀ e ∈ repository.db.entriesOf id, ∀ q r, components e.relativePath = q ++ r →
    q ≠ [] → r ≠ [] → ∃ d ∈ repository.db.entriesOf id, d.entryType = .directory ∧
      components d.relativePath = q
  targets : ∀ e ∈ repository.db.entriesOf id, e.entryType = .symbolicLink →
    ∃ target, e.symlinkTarget = some target ∧ target ≠ []

/-- What an entry row in range is read as. -/
def entryInfo (row : EntryRow) : EntryInfo :=
  ⟨row.id, row.snapshotId, row.relativePath, row.entryType, row.logicalSize.toNat,
    row.modifiedTimeNs, row.posixMode.toNat, row.windowsAttributes.map Int.toNat, row.fileHash,
    row.symlinkTarget⟩

theorem readEntry_inRange {row : EntryRow} (h : InRange row) : readEntry row = .ok (entryInfo row) := by
  have hs := h.logicalSize
  have hm := h.posixMode
  unfold readEntry checkedByteCount checkedUint32
  rw [if_neg (by omega), if_neg (by omega)]
  cases hw : row.windowsAttributes with
  | none => simp [bind, Except.bind, entryInfo, hw]
  | some a =>
    have ha := h.windowsAttributes a hw
    simp only [bind, Except.bind]
    rw [if_neg (by omega)]
    simp [entryInfo, hw]

theorem validateEntriesFrom_ok {entries : List EntryInfo} {n : Nat}
    (hroot : ∀ e ∈ entries, e.relativePath = [] → e.type = .directory)
    (hsafe : ∀ e ∈ entries, e.relativePath ≠ [] → isSafeStoredPath e.relativePath = true)
    (hcount : n + (entries.filter (fun e => e.relativePath == [])).length = 1) :
    validateEntriesFrom n entries = .ok () := by
  induction entries generalizing n with
  | nil => simpa [validateEntriesFrom] using hcount
  | cons e es ih =>
    have hroot' := fun d hd => hroot d (List.mem_cons_of_mem _ hd)
    have hsafe' := fun d hd => hsafe d (List.mem_cons_of_mem _ hd)
    unfold validateEntriesFrom
    by_cases hr : e.relativePath = []
    · rw [if_pos hr, if_neg (by simp [hroot e (by simp) hr])]
      apply ih hroot' hsafe'
      rw [List.filter_cons_of_pos (by simp [hr]), List.length_cons] at hcount
      omega
    · rw [if_neg hr, if_neg (by simp [hsafe e (by simp) hr])]
      apply ih hroot' hsafe'
      rwa [List.filter_cons_of_neg (by simp [hr])] at hcount

theorem validateSelectedFileHashes_ok {entries : List EntryInfo}
    (h : ∀ e ∈ entries, e.type = .regularFile → e.fileHashHex.any isLowercaseBlake3Hex = true) :
    validateSelectedFileHashes entries = .ok () := by
  induction entries with
  | nil => rfl
  | cons e es ih =>
    unfold validateSelectedFileHashes
    rw [if_neg]
    · exact ih (fun d hd => h d (List.mem_cons_of_mem _ hd))
    · rintro ⟨ht, hx⟩
      rw [h e (by simp) ht] at hx
      cases hx

theorem chunksByEntry_ok {db : Database} {chunkSize : Nat} {selected : List EntryInfo}
    (h : ∀ e ∈ selected, e.type = .regularFile → ∃ chunks, listEntryChunks db e.id = .ok chunks ∧
      validateChunks e chunks chunkSize = .ok ()) :
    ∃ chunks, chunksByEntry db chunkSize selected = .ok chunks := by
  induction selected with
  | nil => exact ⟨[], rfl⟩
  | cons e es ih =>
    obtain ⟨rest, hrest⟩ := ih (fun d hd => h d (List.mem_cons_of_mem _ hd))
    unfold chunksByEntry
    by_cases ht : e.type = .regularFile
    · obtain ⟨chunks, hlist, hval⟩ := h e (by simp) ht
      rw [if_neg (by simp [ht])]
      exact ⟨_, bind_ok.mpr ⟨chunks, hlist, bind_ok.mpr ⟨(), hval, bind_ok.mpr ⟨rest, hrest, rfl⟩⟩⟩⟩
    · rw [if_pos ht]
      exact ⟨rest, hrest⟩

section Load

variable {x : Externals} {repository : RepositoryView} {id : SnapshotId}

/-- The entries of a snapshot in the order of the query. -/
def listed (db : Database) (id : SnapshotId) : List EntryInfo :=
  (byRelativePath (db.entriesOf id)).map entryInfo

theorem mem_listed {db : Database} {e : EntryInfo} :
    e ∈ listed db id ↔ ∃ row ∈ db.entriesOf id, entryInfo row = e := by
  simp [listed, byRelativePath, List.mem_insertionSort]

theorem Restorable.snapshot (h : Restorable x repository id) :
    ∃ s, requireCompleteSnapshot repository.db id = .ok s := by
  obtain ⟨s, hs, rfl, hc⟩ := h.complete
  refine ⟨s, ?_⟩
  have hone : repository.db.snapshots.filter (fun t => t.id == s.id && t.status == .complete) =
      [s] := by
    rw [← List.filter_filter, List.filter_comm, filter_key h.keyed.snapshots hs]
    simp [hc]
  simp [requireCompleteSnapshot, hone]

/-- The rows of a complete snapshot that all can be read. -/
theorem listEntries_listed {db : Database} (hc : ∃ s ∈ db.snapshots, s.id = id ∧ s.status = .complete)
    (hr : ∀ e ∈ db.entriesOf id, InRange e) : listEntries db id = .ok (listed db id) := by
  have hrows : db.entries.filter (fun e => e.snapshotId == id &&
      db.snapshots.any (fun s => s.id == e.snapshotId && s.status == .complete)) =
      db.entriesOf id := by
    apply List.filter_congr
    intro e _
    obtain ⟨s, hs, hid, hc⟩ := hc
    by_cases he : e.snapshotId = id
    · have : db.snapshots.any (fun s => s.id == e.snapshotId && s.status == .complete) =
          true := List.any_eq_true.mpr ⟨s, hs, by simp [hid, he, hc]⟩
      simp [this]
    · simp [he]
  unfold listEntries
  rw [hrows]
  apply readRows_map
  intro row hm
  exact readEntry_inRange (hr row ((List.mem_insertionSort _).mp hm))

theorem Restorable.listed (h : Restorable x repository id) :
    listEntries repository.db id = .ok (Restore.listed repository.db id) :=
  listEntries_listed h.complete h.ranges

theorem Restorable.valid (h : Restorable x repository id) :
    validateEntries (Restore.listed repository.db id) = .ok () := by
  obtain ⟨root, hone, hdir⟩ := h.intact.root
  apply validateEntriesFrom_ok
  · intro e he hr
    obtain ⟨row, hm, rfl⟩ := mem_listed.mp he
    have : row ∈ (repository.db.entriesOf id).filter (fun e => e.relativePath == []) :=
      List.mem_filter.mpr ⟨hm, by simpa [entryInfo] using hr⟩
    rw [hone, List.mem_singleton] at this
    rw [this]
    exact hdir
  · intro e he hr
    obtain ⟨row, hm, rfl⟩ := mem_listed.mp he
    exact h.safe row hm hr
  · have hperm := (List.perm_insertionSort (fun a b : EntryRow => a.relativePath ≤ b.relativePath)
      (repository.db.entriesOf id)).filter (fun e => e.relativePath == [])
    have hlen := hperm.length_eq
    rw [hone] at hlen
    rw [Nat.zero_add, Restore.listed, byRelativePath, List.filter_map, List.length_map]
    exact hlen

theorem Restorable.distinctPaths (h : Restorable x repository id) :
    DistinctPaths (Restore.listed repository.db id) := by
  have hperm := (List.perm_insertionSort (fun a b : EntryRow => a.relativePath ≤ b.relativePath)
    (repository.db.entriesOf id)).map (fun e => components e.relativePath)
  unfold DistinctPaths Restore.listed byRelativePath
  rw [List.map_map]
  exact hperm.nodup_iff.mpr h.distinct

theorem Restorable.ancestorClosed (h : Restorable x repository id) :
    AncestorClosed (Restore.listed repository.db id) := by
  intro e he q r hs hq hr
  obtain ⟨row, hm, rfl⟩ := mem_listed.mp he
  obtain ⟨d, hd, ht, hc⟩ := h.closed row hm q r hs hq hr
  exact ⟨entryInfo d, mem_listed.mpr ⟨d, hd, rfl⟩, ht, hc⟩

/-- The chunk list of a listed file is read and passes its checks. -/
theorem Restorable.chunks (h : Restorable x repository id) {e : EntryInfo}
    (he : e ∈ Restore.listed repository.db id) (ht : e.type = .regularFile) :
    ∃ chunks parts, listEntryChunks repository.db e.id = .ok chunks ∧
      validateChunks e chunks repository.chunkSizeBytes = .ok () ∧
      List.Forall₂ (fun chunk part => readVerified x repository.chunkSizeBytes repository.objects
        chunk.hashHex chunk.objectPath chunk.rawSize chunk.storedSize = .ok part ∧
        part.length = chunk.rawLength) chunks parts ∧
      parts.flatten.length = e.logicalSize ∧
      e.fileHashHex = some (toHex (x.blake3 parts.flatten)) := by
  obtain ⟨row, hm, rfl⟩ := mem_listed.mp he
  obtain ⟨hrow, hid⟩ := List.mem_filter.mp hm
  obtain ⟨content, hfile⟩ := h.intact.files row hm ht
  obtain ⟨s, hs, hsid, hc⟩ := h.complete
  have hsize := hfile.size
  have hrange := (h.ranges row hm).logicalSize
  have hlen : (entryInfo row).logicalSize = content.length := by
    simp only [entryInfo]
    omega
  have hof : s.id = row.snapshotId := by
    rw [hsid]
    exact (by simpa using hid : row.snapshotId = id).symm
  have hlist := listEntryChunks_intact h.keyed hrow hs hof hc hfile
  have hval := validateChunks_intact h.keyed h.chunkSize hfile hlen (by omega)
  obtain ⟨parts, hparts, rfl⟩ := hfile.parts
  refine ⟨_, parts, hlist, hval, ?_, hlen.symm, hfile.hash⟩
  rw [List.forall₂_map_left_iff]
  refine hparts.imp ?_
  intro ec part hpart
  obtain ⟨_, hh, hobj⟩ := hpart.object h.keyed
  have hraw := hobj.rawSize
  have hraw' : (repository.db.chunkOf ec).rawSize.toNat = part.length := by omega
  have hread := readVerified_intact hobj h.chunkSize
  constructor
  · simp only [reference]
    rw [hraw', ← hh]
    exact hread
  · have := hpart.1
    simp only [reference]
    omega

theorem Restorable.load (h : Restorable x repository id) {request : RestoreRequest}
    (hid : request.snapshotId = id)
    (hr : ∀ r ∈ request.relativePaths, isSafeStoredPath r = true ∧
      ∃ e ∈ repository.db.entriesOf id, components e.relativePath = components r) :
    ∃ selected chunks, loadSelection repository request = .ok (selected, chunks) ∧
      DistinctPaths selected ∧ AncestorClosed selected ∧
      ∀ e ∈ selected, e ∈ Restore.listed repository.db id := by
  have hvalid := validateEntriesFrom_valid h.valid
  have hpaths : ∀ r ∈ request.relativePaths, isSafeStoredPath r = true ∧
      ∃ e ∈ Restore.listed repository.db id, components e.relativePath = components r := by
    intro r hm
    obtain ⟨hs, row, hrow, hc⟩ := hr r hm
    exact ⟨hs, entryInfo row, mem_listed.mpr ⟨row, hrow, rfl⟩, hc⟩
  obtain ⟨selected, hsel, hdistinct, hclosed⟩ := selectEntries_ok hvalid h.distinctPaths
    h.ancestorClosed hpaths
  have hsub := selectEntries_mem hsel
  obtain ⟨s, hs⟩ := h.snapshot
  have hlists : ∀ e ∈ selected, e.type = .regularFile → ∃ chunks,
      listEntryChunks repository.db e.id = .ok chunks ∧
      validateChunks e chunks repository.chunkSizeBytes = .ok () := by
    intro e he ht
    obtain ⟨chunks, _, hlist, hval, _⟩ := h.chunks (hsub e he) ht
    exact ⟨chunks, hlist, hval⟩
  obtain ⟨chunks, hchunks⟩ := chunksByEntry_ok hlists
  have hhash : validateSelectedFileHashes selected = .ok () := by
    apply validateSelectedFileHashes_ok
    intro e he ht
    obtain ⟨_, _, _, _, _, _, hx⟩ := h.chunks (hsub e he) ht
    simp [hx, toHex_lowercase]
  refine ⟨selected, chunks, ?_, hdistinct, hclosed, hsub⟩
  subst hid
  exact bind_ok.mpr ⟨s, hs, bind_ok.mpr ⟨_, h.listed, bind_ok.mpr ⟨(), h.valid,
    bind_ok.mpr ⟨selected, hsel, bind_ok.mpr ⟨(), hhash, bind_ok.mpr ⟨chunks, hchunks, rfl⟩⟩⟩⟩⟩⟩

end Load
end LocalVault.Restore
