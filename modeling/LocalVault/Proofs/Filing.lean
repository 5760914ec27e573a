import LocalVault.Proofs.Totals

namespace LocalVault
open Library

/-- A row without its key. -/
def EntryRow.unnumbered (row : EntryRow) : EntryRow := { row with id := 0 }

def EntryChunkRow.unnumbered (row : EntryChunkRow) : EntryChunkRow := { row with entryId := 0 }

def WarningRow.unnumbered (row : WarningRow) : WarningRow := { row with id := 0 }

/-- The entries of a snapshot with their chunk references, up to the keys. -/
def Database.filed (db : Database) (id : SnapshotId) : List (EntryRow × List EntryChunkRow) :=
  (db.entriesOf id).map (fun row =>
    (row.unnumbered, (db.entryChunksOf row.id).map EntryChunkRow.unnumbered))

/-- The warnings of a snapshot, up to the keys. -/
def Database.noted (db : Database) (id : SnapshotId) : List WarningRow :=
  (db.warningsOf id).map WarningRow.unnumbered

namespace Snapshot
open Repository

variable {c : Config} {x : Externals} {s t : State} {v : Vault} {objects : Objects} {id : SnapshotId}
  {db mid db' : Database} {row : EntryRow} {rows : List EntryChunkRow} {ps : List ProcessedEntry}
  {p : ProcessedEntry} {totals totals' : SnapshotTotals}

/-- A new entry with its chunk references. -/
structure RowAdded (db db' : Database) (row : EntryRow) (rows : List EntryChunkRow) : Prop where
  key : row.id = db.lastEntryId + 1
  last : db'.lastEntryId = db.lastEntryId + 1
  entries : db'.entries = db.entries ++ [row]
  entryChunks : db'.entryChunks = db.entryChunks ++ rows
  owner : ∀ r ∈ rows, r.entryId = row.id
  warnings : db'.warnings = db.warnings

theorem RowAdded.added (h : RowAdded db db' row rows) : EntryAdded db db' row rows :=
  ⟨h.key, h.last, ⟨EntryRow.fileHash, by rw [h.entries]; exact (List.map_id' _).symm⟩,
    h.entryChunks, h.owner, h.warnings⟩

/-- A new entry stands behind the others, which keep their references. -/
theorem RowAdded.filed (h : RowAdded db db' row rows) (hn : db.Numbered)
    (hid : row.snapshotId = id) : db'.filed id =
      db.filed id ++ [(row.unnumbered, rows.map EntryChunkRow.unnumbered)] := by
  have hkey := h.key
  have hentries : db'.entriesOf id = db.entriesOf id ++ [row] := by
    unfold Database.entriesOf
    rw [h.entries, List.filter_append, List.filter_cons_of_pos (by simpa using hid)]
    rfl
  unfold Database.filed
  rw [hentries, List.map_append, List.map_singleton, h.added.chunksOf_new hn]
  congr 1
  refine List.map_congr_left fun e he => ?_
  have hle := hn.entries e (List.mem_of_mem_filter he)
  rw [h.added.chunksOf_old (by omega)]

theorem insertEntry_row {e : ScannedEntry} {entryId : Int}
    (h : insertEntry c.snapshotId e db = (.ok entryId, db')) :
    RowAdded db db' (EntryRow.ofScanned entryId c.snapshotId e e.logicalSize) [] := by
  obtain ⟨_, _, _, rfl, rfl⟩ := insertEntry_returns h
  exact ⟨rfl, rfl, rfl, (List.append_nil _).symm, fun r hr => absurd hr List.not_mem_nil, rfl⟩

/-- The row of a chunk reference. -/
def ChunkReferenceRecord.chunkRow (entryId : Int) (ref : ChunkReferenceRecord) : EntryChunkRow :=
  ⟨entryId, ref.sequenceNumber, ref.hashHex, ref.rawOffset, ref.rawSize⟩

theorem Referred.references_added {entryId : Int} {refs : List ChunkReferenceRecord}
    (h : Referred objects entryId mid totals refs db' totals') :
    ReferencesAdded mid db' entryId (refs.map (ChunkReferenceRecord.chunkRow entryId)) := by
  induction h with
  | nil => exact ⟨rfl, rfl, rfl, (List.append_nil _).symm, fun r hr => absurd hr List.not_mem_nil⟩
  | snoc ref now h hr ht ih =>
    rw [List.map_append]
    exact ih.trans hr.added

/-- The hash of a file goes into the new row, and into no other. -/
theorem file_row {e : ScannedEntry} {entryId : Int} {hash : Bytes} {begun referred : Database}
    (hn : db.Numbered) (hdb : insertEntry c.snapshotId e db = (.ok entryId, begun))
    (hr : ReferencesAdded begun referred entryId rows)
    (hh : setRegularFileHash entryId hash referred = (.ok (), db')) :
    RowAdded db db' { EntryRow.ofScanned entryId c.snapshotId e e.logicalSize with
      fileHash := some hash } rows := by
  obtain ⟨_, _, _, rfl, rfl⟩ := insertEntry_returns hdb
  obtain ⟨_, hone, rfl⟩ := setRegularFileHash_returns hh
  have hold : ∀ d ∈ db.entries, referred.hashable (db.lastEntryId + 1) d = false := by
    intro d hd
    have hle := hn.entries d hd
    have hother : (d.id == (db.lastEntryId : Int) + 1) = false := by
      rw [beq_eq_false_iff_ne]
      omega
    simp [Database.hashable, hother]
  have hentries := hr.entries
  dsimp only at hentries
  have hnew : referred.hashable (db.lastEntryId + 1)
      (EntryRow.ofScanned (db.lastEntryId + 1) c.snapshotId e e.logicalSize) = true := by
    rw [hentries, List.filter_append, List.filter_eq_nil_iff.mpr fun d hd => by rw [hold d hd]; exact nofun,
      List.nil_append, List.filter_singleton] at hone
    revert hone
    cases referred.hashable (db.lastEntryId + 1)
      (EntryRow.ofScanned (db.lastEntryId + 1) c.snapshotId e e.logicalSize) <;> simp
  refine ⟨rfl, hr.last, ?_, hr.entryChunks, hr.owner, hr.warnings⟩
  change referred.entries.map _ = _
  rw [hentries, List.map_append, List.map_singleton, if_pos hnew]
  congr 1
  refine (List.map_congr_left fun d hd => ?_).trans (List.map_id _)
  rw [hold d hd]
  rfl

/-- What the writer files of a result, up to the keys. -/
def ProcessedEntry.filed? (id : SnapshotId) (p : ProcessedEntry) :
    Option (EntryRow × List EntryChunkRow) :=
  match p.value with
  | .entry e => some ({ EntryRow.ofScanned 0 id e e.logicalSize with
      fileHash := if e.type = .regularFile then some p.fileHashHex else none },
      (p.chunkReferences.getD []).map (ChunkReferenceRecord.chunkRow 0))
  | .warning _ => none

/-- The warning row of a result, up to its key. -/
def ProcessedEntry.noted? (id : SnapshotId) (p : ProcessedEntry) : Option WarningRow :=
  match p.value with
  | .entry _ => none
  | .warning w => some ⟨0, id, w.relativePath, w.code, w.message⟩

/-- The rows of a snapshot are those of these results, in their order. -/
structure Filed (id : SnapshotId) (db : Database) (ps : List ProcessedEntry) : Prop where
  numbered : db.Numbered
  entries : db.filed id = ps.filterMap (ProcessedEntry.filed? id)
  warnings : db.noted id = ps.filterMap (ProcessedEntry.noted? id)

theorem Filed.entry {e : ScannedEntry} (h : Filed id db ps) (hv : p.value = .entry e)
    (hrow : RowAdded db db' row rows) (hid : row.snapshotId = id)
    (hfiled : p.filed? id = some (row.unnumbered, rows.map EntryChunkRow.unnumbered)) :
    Filed id db' (ps ++ [p]) where
  numbered := hrow.added.numbered h.numbered
  entries := by
    rw [hrow.filed h.numbered hid, h.entries, List.filterMap_append, List.filterMap_cons_some hfiled]
    rfl
  warnings := by
    have hnone : p.noted? id = none := by
      unfold ProcessedEntry.noted?
      rw [hv]
    have hold := h.warnings
    unfold Database.noted Database.warningsOf at hold ⊢
    rw [hrow.warnings, hold, List.filterMap_append, List.filterMap_cons_none hnone]
    exact (List.append_nil _).symm

theorem Filed.warning {w : ScanWarning} (h : Filed c.snapshotId db ps) (hv : p.value = .warning w)
    (hdb : insertWarning c.snapshotId w db = (.ok (), db')) :
    Filed c.snapshotId db' (ps ++ [p]) := by
  obtain rfl := insertWarning_returns hdb
  refine ⟨⟨h.numbered.entries, h.numbered.references⟩, ?_, ?_⟩
  · have hnone : p.filed? c.snapshotId = none := by
      unfold ProcessedEntry.filed?
      rw [hv]
    rw [List.filterMap_append, List.filterMap_cons_none hnone]
    exact h.entries.trans (List.append_nil _).symm
  · have hsome : p.noted? c.snapshotId =
        some ⟨0, c.snapshotId, w.relativePath, w.code, w.message⟩ := by
      unfold ProcessedEntry.noted?
      rw [hv]
    have hold := h.warnings
    unfold Database.noted Database.warningsOf at hold ⊢
    dsimp only
    rw [List.filter_append, List.filter_cons_of_pos (by simp), List.map_append, hold,
      List.filterMap_append, List.filterMap_cons_some hsome]
    rfl

theorem Recorded.filed (h : Recorded c objects db ps db' totals) (hp : ∀ p ∈ ps, Result c x p)
    (hstart : Filed c.snapshotId db []) : Filed c.snapshotId db' ps := by
  induction h with
  | nil => exact hstart
  | warning p w h hv hdb ih =>
    exact (ih fun q hq => hp q (List.mem_append_left _ hq)).warning hv hdb
  | entry p e entryId h hv ht hdb ih =>
    have hbefore := ih fun q hq => hp q (List.mem_append_left _ hq)
    have hnone := (hp p (List.mem_append_right _ (List.mem_singleton.mpr rfl))).no_chunks
      fun e' he => by rw [hv] at he; cases he; exact ht
    refine hbefore.entry hv (insertEntry_row hdb) rfl ?_
    unfold ProcessedEntry.filed?
    rw [hv]
    dsimp only
    rw [hnone, if_neg ht]
    rfl
  | file p e entryId refs h hv ht hrefs hdb hr hh hmax ih =>
    have hbefore := ih fun q hq => hp q (List.mem_append_left _ hq)
    refine hbefore.entry hv (file_row hbefore.numbered hdb hr.references_added hh) rfl ?_
    unfold ProcessedEntry.filed?
    rw [hv]
    dsimp only
    rw [hrefs, if_pos ht, Option.getD_some, List.map_map]
    rfl

theorem Fresh.filed (h : Fresh id db) : Filed id db [] := by
  refine ⟨h.numbered, ?_, ?_⟩
  · unfold Database.filed
    rw [h.entries]
    rfl
  · unfold Database.noted
    rw [h.warnings]
    rfl

theorem resolved_positive (cores requested : Nat) : 0 < resolvedWorkerCount cores requested := by
  unfold resolvedWorkerCount defaultWorkerCount
  split
  · split <;> omega
  · omega

/-- What a snapshot was made of: one result for each item of the scan, and its rows. -/
structure MadeOf (x : Externals) (c : Config) (db : Database) (ps : List ProcessedEntry) : Prop where
  items : (ps.map ProcessedEntry.origin).Perm c.scan
  results : ∀ p ∈ ps, Result c x p
  filed : Filed c.snapshotId db ps

theorem createSnapshot_made {o : Outside} {r : Opened} {engine : Engine} {call : Call}
    {before begun after : Session} {result : SnapshotResult} (hdb : before.vault.db.Consistent)
    (hopen : openSnapshot o r engine call before = (.ok c, begun))
    (h : createSnapshot o r x engine call before = (.ok result, after)) :
    MadeOf x c after.vault.db (call.final x c begun.vault).handled := by
  obtain ⟨hpublished, -, hafter⟩ := createSnapshot_returns hopen h
  have hfresh := openSnapshot_fresh hdb hopen
  obtain ⟨old, hentered⟩ := openSnapshot_entered hdb hopen
  obtain ⟨startedAtNs, hconfig⟩ := hentered.config
  obtain ⟨ls, hrun⟩ := follow_run (c := c) (x := x) call.schedule
    (State.start c begun.vault call.externalStop)
  change run c x _ ls = some (call.final x c begun.vault) at hrun
  generalize call.final x c begun.vault = t at *
  have hresults := (run_results hrun).handled
  obtain ⟨committed, now, hrecorded, hcomplete⟩ := run_published hrun hpublished
  have hfiled := hrecorded.filed hresults hfresh.filed
  obtain ⟨-, hfinal, -⟩ := markSnapshotComplete_returns hcomplete
  refine ⟨?_, hresults, ?_⟩
  · refine run_handled hrun (by rw [hpublished]; rfl) ?_
    rw [hconfig]
    exact resolved_positive _ _
  · rw [hafter, hfinal]
    exact ⟨⟨hfiled.numbered.entries, hfiled.numbered.references⟩, hfiled.entries, hfiled.warnings⟩

/-- A call that returns has filed every item of its scan once: unchanged, or as a regular file
that was read with what its accepted attempt has seen, or as the warning of a regular file whose
attempts have all failed. -/
theorem snapshot_filed {o : Outside} {r : Opened} {engine : Engine} {call : Call}
    {before begun after : Session} {result : SnapshotResult} (hdb : before.vault.db.Consistent)
    (hopen : openSnapshot o r engine call before = (.ok c, begun))
    (h : createSnapshot o r x engine call before = (.ok result, after)) :
    result.snapshotId = c.snapshotId ∧ c.scan = call.scan ∧
      ∃ ps, MadeOf x c after.vault.db ps := by
  obtain ⟨-, rfl, -⟩ := createSnapshot_returns hopen h
  obtain ⟨old, hentered⟩ := openSnapshot_entered hdb hopen
  obtain ⟨startedAtNs, hconfig⟩ := hentered.config
  exact ⟨rfl, by rw [hconfig]; rfl, _, createSnapshot_made hdb hopen h⟩

theorem snapshot_filed_steady : ∃ c begun result after,
    openSnapshot sampleOutside sampleOpened sampleEngine steadyCall sampleSession = (.ok c, begun) ∧
    createSnapshot sampleOutside sampleOpened sampleExternals sampleEngine steadyCall sampleSession =
      (.ok result, after) ∧
    result.snapshotId = c.snapshotId ∧ c.scan = steadyCall.scan ∧
      ∃ ps, MadeOf sampleExternals c after.vault.db ps := by
  have hrun : gives (fun _ _ => gives (fun _ _ => true) (createSnapshot sampleOutside sampleOpened
        sampleExternals sampleEngine steadyCall sampleSession))
      (openSnapshot sampleOutside sampleOpened sampleEngine steadyCall sampleSession) = true := by
    decide +kernel
  obtain ⟨c, begun, hopen, hrun⟩ := gives_iff.mp hrun
  obtain ⟨result, after, hcreate, -⟩ := gives_iff.mp hrun
  exact ⟨c, begun, result, after, hopen, hcreate, snapshot_filed empty_consistent hopen hcreate⟩

/-- A file that is touched between the scan and its accepted attempt is filed with its new time. -/
theorem snapshot_files_touched : ∃ result after,
    createSnapshot sampleOutside sampleOpened sampleExternals sampleEngine touchedCall sampleSession =
      (.ok result, after) ∧
    touchedCall.scan = [.entry sampleEntry] ∧ sampleEntry.modifiedTimeNs = 1 ∧
    (after.vault.db.filed result.snapshotId).map (fun filed => filed.1.modifiedTimeNs) = [2] ∧
    after.vault.db.noted result.snapshotId = [] := by
  have hrun : gives (fun result after =>
        (after.vault.db.filed result.snapshotId).map (fun filed => filed.1.modifiedTimeNs) == [2] &&
          after.vault.db.noted result.snapshotId == [])
      (createSnapshot sampleOutside sampleOpened sampleExternals sampleEngine touchedCall
        sampleSession) = true := by
    decide +kernel
  obtain ⟨result, after, hcreate, hrows⟩ := gives_iff.mp hrun
  simp only [Bool.and_eq_true, beq_iff_eq] at hrows
  exact ⟨result, after, hcreate, rfl, rfl, hrows.1, hrows.2⟩

end Snapshot

end LocalVault
